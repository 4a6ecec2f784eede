import BasicScript.Proofs.Program.Alike
import BasicScript.Proofs.Token.Lines
import Mathlib.Data.List.Induction

/-! # Texts behind one another

A text that stands further down in another source is cut into the same tokens, or fails in the same
way, moved there. Behind a newline every text stands on its own, so what is in front of it and what
is behind it are cut up as they are by themselves. -/

namespace BasicScript

/-- The position with so many characters and lines more in front of it, in another source. -/
def Position.moved (chars lines : Nat) (source : Source) (p : Position) : Position :=
  ⟨p.offset + chars, p.line + lines, p.column, source⟩

def Span.moved (chars lines : Nat) (source : Source) (s : Span) : Span :=
  ⟨s.start.moved chars lines source, s.stop.moved chars lines source⟩

def Token.moved (chars lines : Nat) (source : Source) (t : Token) : Token :=
  { t with span := t.span.moved chars lines source }

def Diagnostic.moved (chars lines : Nat) (source : Source) (d : Diagnostic) : Diagnostic :=
  { d with span := d.span.moved chars lines source }

namespace Position

variable (chars lines : Nat) (source : Source) (p : Position)

theorem advance_moved (c : Char) :
    (p.moved chars lines source).advance c = (p.advance c).moved chars lines source := by
  unfold advance
  split <;> simp only [moved, mk.injEq, and_true] <;> omega

theorem advances_moved (cs : List Char) :
    (p.moved chars lines source).advances cs = (p.advances cs).moved chars lines source := by
  unfold advances
  induction cs generalizing p with
  | nil => rfl
  | cons c cs ih => rw [List.foldl_cons, List.foldl_cons, advance_moved, ih]

theorem single_moved :
    Span.single (p.moved chars lines source) = (Span.single p).moved chars lines source := by
  simp only [Span.single, Span.moved, right, moved, Span.mk.injEq, mk.injEq, and_true, true_and]
  omega

theorem source_advance (c : Char) : (p.advance c).source = p.source := by
  unfold advance
  split <;> rfl

theorem source_advances (cs : List Char) : (p.advances cs).source = p.source := by
  unfold advances
  induction cs generalizing p with
  | nil => rfl
  | cons c cs ih => rw [List.foldl_cons, ih, source_advance]

theorem advances_cons (c : Char) (cs : List Char) :
    p.advances (c :: cs) = (p.advance c).advances cs :=
  rfl

theorem advance_newline : p.advance '\n' = ⟨p.offset + 1, p.line + 1, 0, p.source⟩ :=
  if_pos rfl

theorem advance_of_ne {c : Char} (hc : c ≠ '\n') (p : Position) :
    p.advance c = ⟨p.offset + 1, p.line, p.column + 1, p.source⟩ :=
  if_neg hc

theorem offset_advances (p : Position) (cs : List Char) :
    (p.advances cs).offset = p.offset + cs.length := by
  induction cs generalizing p with
  | nil => rfl
  | cons c cs ih =>
      have hc : (p.advance c).offset = p.offset + 1 := by
        unfold advance
        split <;> rfl
      rw [advances_cons, ih, hc, List.length_cons]
      omega

theorem line_advances (p : Position) (cs : List Char) :
    (p.advances cs).line = p.line + cs.count '\n' := by
  induction cs generalizing p with
  | nil => rfl
  | cons c cs ih =>
      rw [advances_cons, ih]
      by_cases hc : c = '\n'
      · subst hc
        rw [advance_newline, List.count_cons_self]
        show p.line + 1 + cs.count '\n' = p.line + (cs.count '\n' + 1)
        omega
      · rw [advance_of_ne hc, List.count_cons_of_ne hc]

@[simp] theorem offset_start_advances (s : Source) (cs : List Char) :
    ((start s).advances cs).offset = cs.length := by
  rw [offset_advances]
  exact Nat.zero_add _

@[simp] theorem line_start_advances (s : Source) (cs : List Char) :
    ((start s).advances cs).line = cs.count '\n' := by
  rw [line_advances]
  exact Nat.zero_add _

theorem column_start_advances (s : Source) (cs : List Char) :
    ((start s).advances cs).column = (cs.reverse.takeWhile (· != '\n')).length := by
  induction cs using List.reverseRecOn with
  | nil => rfl
  | append_singleton cs c ih =>
      rw [Scan.advances_append, List.reverse_append]
      show (advance _ c).column = _
      by_cases hc : c = '\n'
      · simp [advance, hc]
      · simp [advance, hc, ih]

/-- The start of a line is where a text that stands there is moved to. -/
theorem moved_start {q : Position} (h : q.column = 0) (s : Source) :
    (start s).moved q.offset q.line q.source = q := by
  obtain ⟨offset, line, column, source⟩ := q
  subst h
  simp [start, moved]

end Position

namespace Scan

theorem after_moved (chars lines : Nat) (source : Source) (p : Position) (c : Char)
    (r : List Char) (more : Nat) :
    after (p.moved chars lines source) c r more = (after p c r more).moved chars lines source := by
  rw [after, Position.advance_moved, Position.advances_moved, after]

/-- Behind other tokens and elsewhere the scan of a text comes to the same. -/
theorem run_moved (chars lines : Nat) (source : Source) (before : List Token) (p : Position)
    (done : List Token) (cs : List Char) :
    run (p.moved chars lines source) (done.map (Token.moved chars lines source) ++ before) cs =
      ((run p done cs).mapError (Diagnostic.moved chars lines source)).map
        (before.reverse ++ ·.map (Token.moved chars lines source)) := by
  fun_induction run p done cs with
  | case1 p done =>
      rw [run, Position.single_moved]
      simp [Token.moved, Except.mapError, Except.map]
  | case2 p done c r l hl next kind literal htoken ih =>
      rw [run, hl]
      simp only [htoken, after_moved]
      exact ih
  | case3 p done c r l hl next htoken ih =>
      rw [run, hl]
      simp only [htoken, after_moved]
      exact ih
  | case4 p done c r f hf =>
      rw [run, hf]
      simp only [after_moved]
      rfl

end Scan

/-- What stands in front of the end of input is what the tokens of a text are. -/
theorem Token.symbols_append {xs ys : List Token} (h : ∀ t ∈ xs, t.kind ≠ .endOfInput) :
    symbols (xs ++ ys) = xs.map symbol ++ symbols ys := by
  unfold symbols
  rw [List.takeWhile_append_of_pos (by simpa using h), List.map_append]

namespace Source

variable {name t₁ t₂ : String} {ts us : List Token}

/-- At the start of any source a text is cut into the same tokens. -/
theorem run_start_of_tokens (s : Source) (h : tokens ⟨name, t₁⟩ = .ok ts) :
    Scan.run (.start s) [] t₁.toList = .ok (ts.map (Token.moved 0 0 s)) := by
  have hmoved := Scan.run_moved 0 0 s [] (.start ⟨name, t₁⟩) [] t₁.toList
  have hts : Scan.run (.start ⟨name, t₁⟩) [] t₁.toList = .ok ts := h
  rw [hts] at hmoved
  exact hmoved

/-- What stands in front of a newline is cut up as it is by itself, and what stands behind it comes
to the same as by itself, moved there. -/
theorem tokens_behind_newline (name' name'' t₂ : String) (h : tokens ⟨name, t₁⟩ = .ok ts) :
    let joined : Source := ⟨name'', t₁ ++ "\n" ++ t₂⟩
    let p := (Position.start joined).advances t₁.toList
    let q := p.advance '\n'
    ∃ taken, ts.map (Token.moved 0 0 joined) = taken ++ [⟨.endOfInput, none, .single p⟩] ∧
      (∀ t ∈ taken, t.kind ≠ .endOfInput) ∧
      tokens joined = ((tokens ⟨name', t₂⟩).mapError (Diagnostic.moved q.offset q.line joined)).map
        (taken ++ ⟨.newline, none, ⟨p, q⟩⟩ :: ·.map (Token.moved q.offset q.line joined)) := by
  intro joined p q
  have htext : joined.text.toList = t₁.toList ++ '\n' :: t₂.toList := by simp [joined]
  obtain ⟨taken, hts, htaken, hrun⟩ := Scan.run_line (run_start_of_tokens joined h) (by simp)
  have hq : (Position.start ⟨name', t₂⟩).moved q.offset q.line joined = q := by
    have hcolumn : q.column = 0 := rfl
    have hsource : q.source = joined := by
      rw [Position.source_advance, Position.source_advances]
      rfl
    rw [← hsource]
    exact Position.moved_start hcolumn _
  refine ⟨taken.reverse, ?_, fun t ht => htaken t (List.mem_reverse.mp ht), ?_⟩
  · rw [hts, List.reverse_cons]
  · calc
      tokens joined = Scan.run (.start joined) [] (t₁.toList ++ '\n' :: t₂.toList) := by
        rw [tokens, htext]
      _ = Scan.run q (⟨.newline, none, ⟨p, q⟩⟩ :: taken) t₂.toList := hrun _
      _ = _ := by
        have hmoved := Scan.run_moved q.offset q.line joined (⟨.newline, none, ⟨p, q⟩⟩ :: taken)
          (.start ⟨name', t₂⟩) [] t₂.toList
        rw [hq, List.map_nil, List.nil_append, List.reverse_cons] at hmoved
        rw [hmoved]
        simp only [List.append_assoc, List.singleton_append]
        rfl

/-- A text, a newline and another text are cut into the tokens of the one, a newline and those of
the other, moved behind it. -/
theorem tokens_joins (h₁ : tokens ⟨name, t₁⟩ = .ok ts) (h₂ : tokens ⟨name, t₂⟩ = .ok us) :
    let joined : Source := ⟨name, t₁ ++ "\n" ++ t₂⟩
    let p := (Position.start joined).advances t₁.toList
    let q := p.advance '\n'
    ∃ taken, tokens joined = .ok (taken ++ ⟨.newline, none, ⟨p, q⟩⟩ ::
        us.map (Token.moved q.offset q.line joined)) ∧
      ts.map (Token.moved 0 0 joined) = taken ++ [⟨.endOfInput, none, .single p⟩] ∧
      ∀ t ∈ taken, t.kind ≠ .endOfInput := by
  intro joined p q
  obtain ⟨taken, hts, htaken, hjoined⟩ := tokens_behind_newline name name t₂ h₁
  rw [h₂] at hjoined
  exact ⟨taken, hjoined, hts, htaken⟩

theorem symbols_joins (h₁ : tokens ⟨name, t₁⟩ = .ok ts) (h₂ : tokens ⟨name, t₂⟩ = .ok us) :
    ∃ vs, tokens ⟨name, t₁ ++ "\n" ++ t₂⟩ = .ok vs ∧
      Token.symbols vs = Token.symbols ts ++ ⟨.newline, none⟩ :: Token.symbols us := by
  obtain ⟨taken, hvs, hts, htaken⟩ := tokens_joins h₁ h₂
  refine ⟨_, hvs, ?_⟩
  have symbols_moved (chars lines : Nat) (source : Source) (ts : List Token) :
      Token.symbols (ts.map (Token.moved chars lines source)) = Token.symbols ts := by
    unfold Token.symbols
    rw [List.takeWhile_map, List.map_map]
    rfl
  have hsymbols : Token.symbols ts = taken.map Token.symbol := by
    rw [← symbols_moved 0 0 ⟨name, t₁ ++ "\n" ++ t₂⟩ ts, hts, Token.symbols_append htaken]
    simp [Token.symbols]
  rw [Token.symbols_append htaken, hsymbols]
  congr 1
  rw [← symbols_moved _ _ _ us]
  rfl

/-- A text that is cut into tokens, a newline and another text come to the tokens of the one but
for its end, a newline, and what the other comes to, tokens or a failure, as many characters and
lines further down as stand in front of it. -/
theorem tokens_joined (name₂ name₃ t₂ : String) (h : tokens ⟨name, t₁⟩ = .ok ts) :
    let joined : Source := ⟨name₃, t₁ ++ "\n" ++ t₂⟩
    let chars := t₁.length + 1
    let lines := t₁.toList.count '\n' + 1
    ∃ front finish, ts = front ++ [finish] ∧ finish.kind = .endOfInput ∧
      (∀ t ∈ front, t.kind ≠ .endOfInput) ∧
      let newline : Token :=
        ⟨.newline, none, ⟨finish.span.start.moved 0 0 joined, ⟨chars, lines, 0, joined⟩⟩⟩
      (∀ us, tokens ⟨name₂, t₂⟩ = .ok us → tokens joined =
        .ok (front.map (Token.moved 0 0 joined) ++
          newline :: us.map (Token.moved chars lines joined))) ∧
      ∀ d, tokens ⟨name₂, t₂⟩ = .error d →
        tokens joined = .error (d.moved chars lines joined) := by
  intro joined chars lines
  obtain ⟨taken, hts, htaken, hjoined⟩ := tokens_behind_newline name₂ name₃ t₂ h
  have hq : ((Position.start joined).advances t₁.toList).advance '\n' =
      ⟨chars, lines, 0, joined⟩ := by
    have hsource := Position.source_advances (.start joined) t₁.toList
    rw [Position.advance_newline, Position.offset_start_advances, Position.line_start_advances,
      hsource, String.length_toList]
    rfl
  obtain ⟨front, last, rfl, hfront, hlast⟩ := List.map_eq_append_iff.mp hts
  obtain ⟨finish, rfl, hfinish⟩ := List.map_eq_singleton_iff.mp hlast
  have hkind : (finish.moved 0 0 joined).kind = .endOfInput := by rw [hfinish]
  have hstart : (finish.moved 0 0 joined).span.start =
      (Position.start joined).advances t₁.toList := by
    rw [hfinish]
    rfl
  rw [hq, ← hstart, ← hfront] at hjoined
  refine ⟨front, finish, rfl, hkind, fun t ht => ?_, fun us hus => ?_, fun d hd => ?_⟩
  · exact htaken (t.moved 0 0 joined) (hfront ▸ List.mem_map_of_mem ht)
  · rw [hjoined, hus]
    rfl
  · rw [hjoined, hd]
    rfl

/-- A comment in front of the newline, and behind it a string that is not closed. -/
theorem tokens_joined_comment :
    let joined : Source := ⟨"u", "x # y" ++ "\n" ++ "\"z"⟩
    ∃ ts d, tokens ⟨"s", "x # y"⟩ = .ok ts ∧ tokens ⟨"t", "\"z"⟩ = .error d ∧
      tokens joined = .error (d.moved 6 1 joined) := by
  intro joined
  have hfirst : tokens ⟨"s", "x # y"⟩ = .ok
      [⟨.identifier, some (.text "x"), ⟨⟨0, 0, 0, ⟨"s", "x # y"⟩⟩, ⟨1, 0, 1, ⟨"s", "x # y"⟩⟩⟩⟩,
        ⟨.endOfInput, none, ⟨⟨5, 0, 5, ⟨"s", "x # y"⟩⟩, ⟨6, 0, 6, ⟨"s", "x # y"⟩⟩⟩⟩] := by
    with_unfolding_all rfl
  have hsecond : tokens ⟨"t", "\"z"⟩ = .error (LexicalFault.unclosedString.diagnostic
      ⟨⟨0, 0, 0, ⟨"t", "\"z"⟩⟩, ⟨2, 0, 2, ⟨"t", "\"z"⟩⟩⟩) := by
    with_unfolding_all rfl
  obtain ⟨front, finish, -, -, -, -, hfails⟩ := tokens_joined "t" "u" "\"z" hfirst
  exact ⟨_, _, hfirst, hsecond, hfails _ hsecond⟩

end Source

end BasicScript
