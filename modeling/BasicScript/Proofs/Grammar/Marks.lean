import BasicScript.Proofs.Grammar.FirstError
import BasicScript.Proofs.Source.Carets

/-! # Where faults are marked

A text that is no program is faulted at some of its characters, or at the place behind the last. The
first of them has a caret under it, unless it is a newline, which is faulted by itself: then there
is no caret at all, since a newline takes no column of the line that it ends. -/

namespace BasicScript

/-- A text that begins with a newline spells no more than that. -/
theorem Spelled.eq_nil_of_newline {k : TokenKind} {literal : Option Literal} {cs : List Char}
    (h : Spelled k literal ('\n' :: cs)) : cs = [] := by
  have hlexeme : Scan.lexeme '\n' cs = .ok (.mark 0 .newline) := rfl
  have hlength := h.length_le (List.prefix_refl _) hlexeme
  exact List.length_eq_zero_iff.mp (Nat.le_zero.mp (Nat.le_of_succ_le_succ hlength))

/-! ## What is faulted -/

/-- Where a piece begins, its first character stands. -/
theorem Span.Over.getElem?_start {s : Span} {source : Source} {front cs rest : List Char} {c : Char}
    (h : s.Over source front (c :: cs) rest) :
    source.text.toList[s.start.offset]? = some c := by
  rw [h.start, Position.offset_start_advances, h.text]
  simp

/-- Where a source may be faulted: at a piece of it, which is one character if it begins with a
newline, or where its text ends. -/
inductive Source.Faulted (source : Source) : Span → Prop
  | piece {s : Span} {front cs rest : List Char} {c : Char}
      (h : s.Over source front (c :: cs) rest) (hc : c = '\n' → cs = []) : Faulted source s
  | finish {front : List Char} (h : source.text.toList = front) :
      Faulted source (.single ((Position.start source).advances front))

namespace Scan.Tiling

variable {source : Source} {front cs : List Char} {t : Token} {ts : List Token}

theorem faulted_head (h : Tiling ((Position.start source).advances front) cs (t :: ts))
    (hsource : source.text.toList = front ++ cs) : source.Faulted t.span := by
  cases h with
  | finish =>
      rw [← advances_append]
      exact .finish hsource
  | token _ hcs =>
      obtain ⟨c, cs, rfl⟩ := List.exists_cons_of_ne_nil hcs.ne_nil
      rw [← advances_append]
      refine .piece (Span.over_advances (by rw [hsource, List.append_assoc])) ?_
      rintro rfl
      exact hcs.eq_nil_of_newline

/-- A source may be faulted at each of its tokens. -/
theorem faulted (h : Tiling (.start source) source.text.toList ts) (ht : t ∈ ts) :
    source.Faulted t.span := by
  obtain ⟨before, after, rfl⟩ := List.append_of_mem ht
  obtain ⟨front, rest, hsource, -, h⟩ := h.drop
  exact h.faulted_head hsource

end Scan.Tiling

/-- A text that is cut into no tokens is faulted at a character that is no newline. -/
theorem Source.over_of_tokens_error {source : Source} {d : Diagnostic}
    (h : source.tokens = .error d) :
    ∃ front c cs rest, d.span.Over source front (c :: cs) rest ∧ c ≠ '\n' := by
  obtain ⟨front, c, r, f, hsource, hf, -, rfl⟩ := Scan.passes_of_run_error h
  have hsplit : source.text.toList = front ++ (c :: r.take f.more ++ r.drop f.more) := by
    rw [hsource, List.cons_append, List.take_append_drop]
  refine ⟨front, c, r.take f.more, r.drop f.more, ?_, ?_⟩
  · rw [Scan.after_eq_advances]
    exact Span.over_advances hsplit
  · rintro rfl
    cases hf

namespace Node

open Grammar

/-- What keeps tokens from being a program is told of at one of them. -/
theorem exists_token_of_ofTokens {ts : List Token} {e : Token} {d : Diagnostic}
    (hts : ∀ t ∈ ts, t.kind ≠ .endOfInput) (he : e.kind = .endOfInput)
    (h : ofTokens (ts ++ [e]) = .error d) : ∃ t ∈ ts ++ [e], d.span = t.span := by
  obtain ⟨front, t, hfirst⟩ := exists_firstFault h
  obtain ⟨rest, hsplit⟩ := hfirst.stands
  rw [Cursor.tokens_ofTokens hts he] at hsplit
  exact ⟨t, hsplit ▸ List.mem_append_right _ List.mem_cons_self, hfirst.span⟩

/-- Where a source is faulted, and that it is a fault in the syntax if it is at a newline. -/
theorem faulted_of_ofSource {source : Source} {d : Diagnostic} (h : ofSource source = .error d) :
    source.Faulted d.span ∧
      (source.text.toList[d.span.start.offset]? = some '\n' → d.kind = .invalidSyntax) := by
  rcases ofSource_eq_error.mp h with h | ⟨ts, hts, h⟩
  · obtain ⟨front, c, cs, rest, hover, hc⟩ := Source.over_of_tokens_error h
    refine ⟨.piece hover fun hnewline => absurd hnewline hc, fun hnewline => ?_⟩
    rw [hover.getElem?_start] at hnewline
    exact absurd (Option.some.inj hnewline) hc
  · obtain ⟨us, rfl, htiling⟩ := Scan.tiling_of_run hts
    obtain ⟨front, e, rfl, hfront, he⟩ := Scan.Tiling.ended [] htiling rfl
    obtain ⟨t, ht, hspan⟩ := exists_token_of_ofTokens (fun t ht => (hfront t ht).1) he.kind h
    exact ⟨hspan ▸ htiling.faulted ht, fun _ => kind_of_ofTokens h⟩

end Node

/-! ## How it is marked -/

namespace Source.Faulted

variable {source : Source} {s : Span}

theorem isIn_start (h : source.Faulted s) : s.start.IsIn source := by
  cases h with
  | piece h => exact h.start ▸ Position.isIn_advances h.text
  | finish h => exact Position.isIn_advances (by rw [h, List.append_nil])

/-- A newline that is faulted has no caret, neither on its own line nor on the one behind it. -/
theorem caret_notMem (h : source.Faulted s)
    (hnewline : source.text.toList[s.start.offset]? = some '\n') {l : Nat}
    (hlow : s.start.line ≤ l) (hhigh : l ≤ s.lastLine) :
    '^' ∉ s.caretRow l (source.line l) := by
  intro hmem
  obtain ⟨column, hcaret⟩ := List.getElem?_of_mem hmem
  cases h with
  | @piece _ front cs rest c h hc =>
      obtain rfl := Option.some.inj (h.getElem?_start.symm.trans hnewline)
      obtain rfl := hc rfl
      rw [h.lastLine_eq] at hhigh
      rw [h.caretRow_getElem?_iff hlow hhigh, h.covers_iff, Position.stands_cons] at hcaret
      rcases hcaret with ⟨hne, -⟩ | hstands
      · exact hne rfl
      · exact Position.not_stands_nil _ _ _ hstands
  | finish h =>
      rw [h] at hnewline
      simp [Span.single] at hnewline

/-- There is a caret under the first character of what is faulted, unless it is a newline. -/
theorem caret_start_iff (h : source.Faulted s) :
    (s.caretRow s.start.line (source.line s.start.line))[s.start.column]? = some '^' ↔
      source.text.toList[s.start.offset]? ≠ some '\n' := by
  refine ⟨fun hcaret hnewline => h.caret_notMem hnewline le_rfl (Nat.le_max_right _ _)
    (List.mem_of_getElem? hcaret), fun hne => ?_⟩
  cases h with
  | @piece _ front cs rest c h =>
      have hc : c ≠ '\n' := fun hc => hne (h.getElem?_start.trans (congrArg some hc))
      have hle : s.start.line ≤ s.stop.line := h.line_stop ▸ Nat.le_add_right _ _
      rw [h.caretRow_getElem?_iff le_rfl hle, h.covers_iff, Position.stands_cons]
      exact .inl ⟨hc, rfl, rfl⟩
  | finish h =>
      simp [Span.caretRow, Span.columns, Span.lastLine, Span.single, Position.right,
        Span.carets_getElem?_iff]

end Source.Faulted

/-- What is told of a text that is no program names the line in which the fault starts. Below it are
the lines of the fault, each above a row of blanks and carets, and a caret stands under the place
where the fault starts just if there is no newline there. A newline is faulted by the syntax only,
and then no row has a caret. -/
theorem Node.ofSource_error_marks {source : Source} {d : Diagnostic}
    (h : ofSource source = .error d) :
    let p := d.span.start
    let line (l : Nat) : List Char := (source.text.toList.splitOn '\n')[l]?.getD []
    let shown := List.range' p.line (d.span.lastLine + 1 - p.line)
    p.IsIn source ∧ ∃ (row : Nat → List Char) (excerpt : String),
      d.text = d.headline ++ "\n" ++
        ("File " ++ source.name ++ ", line " ++ toString (p.line + 1)) ++ "\n\n" ++ excerpt ∧
      excerpt.toList.splitOn '\n' = shown.flatMap (fun l => [line l, row l]) ∧
      (∀ l, ∃ blanks carets, row l = List.replicate blanks ' ' ++ List.replicate carets '^') ∧
      ((row p.line)[p.column]? = some '^' ↔ source.text.toList[p.offset]? ≠ some '\n') ∧
      (source.text.toList[p.offset]? = some '\n' →
        d.kind = .invalidSyntax ∧ ∀ l ∈ shown, '^' ∉ row l) := by
  intro p line shown
  obtain ⟨hfaulted, hkind⟩ := faulted_of_ofSource h
  have hsource : d.span.start.source = source := hfaulted.isIn_start.source
  refine ⟨hfaulted.isIn_start, fun l => d.span.caretRow l (source.line l),
    d.span.excerpt, ?_, ?_, fun l => ⟨_, _, rfl⟩, hfaulted.caret_start_iff,
    fun hnewline => ⟨hkind hnewline, fun l hl => ?_⟩⟩
  · rw [Diagnostic.text, untraced_of_ofSource h, Diagnostic.whereabouts, hsource]
    rfl
  · rw [d.span.excerpt_lines]
    simp only [hsource, Source.line_eq, line, p, shown]
  · obtain ⟨hlow, hhigh⟩ := List.mem_range'_1.mp hl
    exact hfaulted.caret_notMem hnewline hlow (by omega)

/-- A string that nothing closes starts in the second line, and its quote has a caret. -/
theorem Node.ofSource_error_marks_string :
    let source : Source := ⟨"t", "x\n\"a\nb"⟩
    ∃ d, ofSource source = .error d ∧ ∃ (row : Nat → List Char) (excerpt : String),
      d.text = d.headline ++ "\n" ++ "File t, line 2" ++ "\n\n" ++ excerpt ∧
      excerpt.toList.splitOn '\n' = ["\"a".toList, row 1, "b".toList, row 2] ∧
      (row 1)[0]? = some '^' := by
  intro source
  have h : ofSource source = .error (LexicalFault.unclosedString.diagnostic
      ⟨⟨2, 1, 0, source⟩, ⟨6, 2, 1, source⟩⟩) :=
    error_of_map (f := fun _ => ()) (by decide +kernel)
  have hlines : source.text.toList.splitOn '\n' = ["x".toList, "\"a".toList, "b".toList] := by
    rw [← Text.lines_eq_splitOn]
    decide
  obtain ⟨-, row, excerpt, htext, hrows, -, hcaret, -⟩ := ofSource_error_marks h
  have hplace : "File " ++ source.name ++ ", line " ++ toString (1 + 1) = "File t, line 2" := by
    decide
  refine ⟨_, h, row, excerpt, ?_, ?_, hcaret.mpr (by decide)⟩
  · rw [← hplace]
    exact htext
  · rw [hrows, hlines]
    rfl

/-- A newline where an operand should be is not marked. -/
theorem Node.ofSource_error_unmarked :
    ∃ d, ofSource ⟨"t", "1 +\n"⟩ = .error d ∧ '^' ∉ d.text.toList := by
  have hunmarked : (match ofSource ⟨"t", "1 +\n"⟩ with
      | .ok _ => false
      | .error d => !d.text.toList.contains '^') = true := by
    decide +kernel
  cases h : ofSource ⟨"t", "1 +\n"⟩ with
  | ok x => simp [h] at hunmarked
  | error d => exact ⟨d, rfl, by simpa [h] using hunmarked⟩

end BasicScript
