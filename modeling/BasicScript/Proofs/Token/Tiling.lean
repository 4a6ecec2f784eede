import BasicScript.Proofs.Token.Lexemes
import BasicScript.Proofs.Token.Moving
import Mathlib.Data.List.Induction

/-! # The tokens make up the text

A text on which the scan succeeds is a row of gaps and tokens. The span of each token covers exactly
its text, whose line and column can be counted from the start of the source. -/

namespace BasicScript

namespace Scan

/-- A text from `p` on, cut into gaps and tokens. -/
inductive Tiling : Position → List Char → List Token → Prop
  | finish {p : Position} {gap : List Char} (hgap : Gap gap []) :
      Tiling p gap [⟨.endOfInput, none, .single (p.advances gap)⟩]
  | token {p : Position} {gap cs rest : List Char} {k : TokenKind} {literal : Option Literal}
      {ts : List Token} (hgap : Gap gap (cs ++ rest)) (hcs : Spelled k literal cs)
      (hlongest : ∀ ds, ds ≠ [] → ds <+: rest → ∀ k literal, ¬Spelled k literal (cs ++ ds))
      (h : Tiling ((p.advances gap).advances cs) rest ts) :
      Tiling p (gap ++ (cs ++ rest))
        (⟨k, literal, ⟨p.advances gap, (p.advances gap).advances cs⟩⟩ :: ts)

theorem after_eq_advances (p : Position) (c : Char) (r : List Char) (more : Nat) :
    after p c r more = p.advances (c :: r.take more) :=
  rfl

/-- A stretch between tokens, put in front of a text. -/
theorem Tiling.widen {p : Position} {front cs : List Char} {ts : List Token}
    (hfront : ∀ gap rest, cs = gap ++ rest → Gap gap rest → Gap (front ++ gap) rest)
    (h : Tiling (p.advances front) cs ts) : Tiling p (front ++ cs) ts := by
  cases h with
  | finish hgap =>
      rw [← advances_append]
      exact .finish (hfront _ [] (List.append_nil _).symm hgap)
  | token hgap hcs hlongest h =>
      rw [← advances_append p front] at h ⊢
      rw [← List.append_assoc]
      exact .token (hfront _ _ rfl hgap) hcs hlongest h

/-- A token, put in front of a text. -/
theorem Tiling.cons {p : Position} {c : Char} {r : List Char} {l : Lexeme} {k : TokenKind}
    {literal : Option Literal} {ts : List Token} (hl : lexeme c r = .ok l)
    (hcs : Spelled k literal (c :: r.take l.more))
    (h : Tiling (after p c r l.more) (r.drop l.more) ts) :
    Tiling p (c :: r) (⟨k, literal, ⟨p, after p c r l.more⟩⟩ :: ts) := by
  have hsplit : c :: r = [] ++ (c :: r.take l.more ++ r.drop l.more) := by
    rw [List.nil_append, List.cons_append, List.take_append_drop]
  rw [hsplit, after_eq_advances]
  refine .token (.nil _) hcs (fun ds hds hfront k literal hspelled => ?_) h
  have hlen := hspelled.length_le (l := l) ?_ hl
  · have hmore := (lexeme_ends hl).more
    have hpos := List.length_pos_iff.mpr hds
    simp only [List.length_append, List.length_cons, List.length_take] at hlen
    omega
  · obtain ⟨rest, hrest⟩ := hfront
    refine ⟨rest, ?_⟩
    rw [List.append_assoc, hrest, List.cons_append, List.take_append_drop]

/-- What the scan yields is a tiling of its text. -/
theorem tiling_of_run {p : Position} {done ts : List Token} {cs : List Char}
    (h : run p done cs = .ok ts) : ∃ us, ts = done.reverse ++ us ∧ Tiling p cs us := by
  fun_induction run p done cs with
  | case1 p done =>
      cases h
      exact ⟨_, List.reverse_cons, .finish (.nil [])⟩
  | case2 p done c r l hl next k literal htoken ih =>
      obtain ⟨us, hts, hus⟩ := ih h
      refine ⟨⟨k, literal, ⟨p, next⟩⟩ :: us, by simpa using hts, ?_⟩
      rcases lexeme_spells hl with ⟨k', literal', htoken', hcs⟩ | ⟨hnone, -⟩
      · obtain ⟨rfl, rfl⟩ := Prod.mk.inj (Option.some.inj (htoken.symm.trans htoken'))
        exact .cons hl hcs hus
      · rw [htoken] at hnone
        cases hnone
  | case3 p done c r l hl next htoken ih =>
      obtain ⟨us, hts, hus⟩ := ih h
      refine ⟨us, hts, ?_⟩
      rcases lexeme_spells hl with ⟨k, literal, htoken', -⟩ | ⟨-, hgap⟩
      · rw [htoken] at htoken'
        cases htoken'
      · have hwiden : Tiling p (c :: r.take l.more ++ r.drop l.more) us := by
          refine Tiling.widen (fun gap rest hdrop h => ?_) hus
          rw [List.cons_append]
          exact hgap gap rest hdrop h
        rwa [List.cons_append, List.take_append_drop] at hwiden
  | case4 => cases h

/-- Where some tokens in front of others end. -/
def behind (p : Position) (before : List Token) : Position :=
  (before.getLast?.map (·.span.stop)).getD p

theorem behind_cons (p : Position) (t : Token) (before : List Token) :
    behind p (t :: before) = behind t.span.stop before := by
  cases before with
  | nil => rfl
  | cons u before =>
      rw [behind, behind, List.getLast?_cons_cons, List.getLast?_cons]
      rfl

/-- The tokens from one on make up the text behind the one in front of it. -/
theorem Tiling.drop {p : Position} {cs : List Char} {before after : List Token} {t : Token}
    (h : Tiling p cs (before ++ t :: after)) :
    ∃ front rest, cs = front ++ rest ∧ behind p before = p.advances front ∧
      Tiling (p.advances front) rest (t :: after) := by
  induction before generalizing p cs with
  | nil => exact ⟨[], cs, rfl, rfl, h⟩
  | cons u before ih =>
      rw [List.cons_append] at h
      generalize hts : before ++ t :: after = ts at h
      cases h with
      | finish => exact absurd hts (by simp)
      | @token _ gap cs rest k literal _ hgap hcs hlongest h =>
          subst hts
          obtain ⟨front, rest, rfl, hbehind, h⟩ := ih h
          have hadvances : p.advances (gap ++ cs ++ front) =
              ((p.advances gap).advances cs).advances front := by
            rw [advances_append, advances_append]
          refine ⟨gap ++ cs ++ front, rest, by simp, ?_, hadvances ▸ h⟩
          rw [behind_cons, hadvances]
          exact hbehind

end Scan

/-! ## Positions -/

/-- A position of a source whose line and column are counted from the start of its text. -/
structure Position.IsIn (p : Position) (s : Source) : Prop where
  source : p.source = s
  offset : p.offset ≤ s.text.toList.length
  line : p.line = (s.text.toList.take p.offset).count '\n'
  column : p.column = ((s.text.toList.take p.offset).reverse.takeWhile (· != '\n')).length

namespace Position

theorem isIn_advances {s : Source} {front rest : List Char} (h : s.text.toList = front ++ rest) :
    ((start s).advances front).IsIn s := by
  have htake : s.text.toList.take ((start s).advances front).offset = front := by
    rw [offset_start_advances, h, List.take_left]
  refine ⟨source_advances _ _, ?_, ?_, ?_⟩
  · rw [offset_start_advances, h, List.length_append]
    exact Nat.le_add_right _ _
  · rw [htake, line_start_advances]
  · rw [htake, column_start_advances]

end Position

theorem Span.text_advances {s : Source} {front cs rest : List Char}
    (h : s.text.toList = front ++ (cs ++ rest)) :
    (Span.mk ((Position.start s).advances front) ((Position.start s).advances (front ++ cs))).text
      = String.ofList cs := by
  show String.ofList ((((Position.start s).advances front).source.text.toList.drop
    ((Position.start s).advances front).offset).take
      (((Position.start s).advances (front ++ cs)).offset -
        ((Position.start s).advances front).offset)) = _
  rw [Position.source_advances, Position.offset_start_advances, Position.offset_start_advances,
    List.length_append, Nat.add_sub_cancel_left]
  show String.ofList ((s.text.toList.drop front.length).take cs.length) = _
  rw [h, List.drop_left, List.take_left]

/-! ## The tokens of a source -/

/-- A token that its own text says all about, cut from a source as long as can be. -/
structure Token.CutFrom (t : Token) (s : Source) : Prop where
  nonempty : t.span.start.offset < t.span.stop.offset
  start : t.span.start.IsIn s
  stop : t.span.stop.IsIn s
  spelled : Spelled t.kind t.literal t.span.text.toList
  determined : ∀ k literal, Spelled k literal t.span.text.toList → k = t.kind ∧ literal = t.literal
  longest : ∀ more, more ≠ [] → more <+: s.text.toList.drop t.span.stop.offset →
    ∀ k literal, ¬Spelled k literal (t.span.text.toList ++ more)
  apart : ∀ c ∈ (s.text.toList.drop t.span.stop.offset).head?, ¬t.kind.GoesOn c

/-- The end of the input, where the text of a source ends. -/
structure Token.Ends (t : Token) (s : Source) : Prop where
  kind : t.kind = .endOfInput
  literal : t.literal = none
  offset : t.span.start.offset = s.text.toList.length
  start : t.span.start.IsIn s

/-- Tokens in the order of a source, with gaps only in front of each. -/
structure Source.Tiled (s : Source) (ts : List Token) : Prop where
  ordered : ts.Pairwise fun a b => a.span.stop.offset ≤ b.span.start.offset
  gaps : ∀ before t after, ts = before ++ t :: after →
    Gap (Span.mk (Scan.behind (.start s) before) t.span.start).text.toList
      (s.text.toList.drop t.span.start.offset)
  ended : ∃ front e, ts = front ++ [e] ∧ (∀ t ∈ front, t.kind ≠ .endOfInput ∧ t.CutFrom s) ∧
    e.Ends s

namespace Scan

theorem Tiling.offset_le {p : Position} {cs : List Char} {ts : List Token} (h : Tiling p cs ts) :
    ∀ t ∈ ts, p.offset ≤ t.span.start.offset := by
  induction h with
  | finish =>
      simp only [List.mem_singleton, forall_eq]
      rw [Span.single, Position.offset_advances]
      exact Nat.le_add_right _ _
  | token _ _ _ _ ih =>
      refine List.forall_mem_cons.mpr ⟨?_, fun t ht => Nat.le_trans ?_ (ih t ht)⟩
      · rw [Position.offset_advances]
        exact Nat.le_add_right _ _
      · rw [Position.offset_advances, Position.offset_advances, Nat.add_assoc]
        exact Nat.le_add_right _ _

theorem Tiling.ordered {p : Position} {cs : List Char} {ts : List Token} (h : Tiling p cs ts) :
    ts.Pairwise fun a b => a.span.stop.offset ≤ b.span.start.offset := by
  induction h with
  | finish => exact List.pairwise_singleton _ _
  | token _ _ _ h ih => exact List.pairwise_cons.mpr ⟨h.offset_le, ih⟩

variable {s : Source}

theorem cutFrom_of_spelled {front cs rest : List Char} {k : TokenKind} {literal : Option Literal}
    (hs : s.text.toList = front ++ (cs ++ rest)) (hcs : Spelled k literal cs)
    (hlongest : ∀ ds, ds ≠ [] → ds <+: rest → ∀ k literal, ¬Spelled k literal (cs ++ ds)) :
    (Token.mk k literal ⟨(Position.start s).advances front,
      (Position.start s).advances (front ++ cs)⟩).CutFrom s := by
  have hsplit : s.text.toList = (front ++ cs) ++ rest := by rw [hs, List.append_assoc]
  have htext : (Span.mk ((Position.start s).advances front)
      ((Position.start s).advances (front ++ cs))).text.toList = cs := by
    rw [Span.text_advances hs, String.toList_ofList]
  have hdrop : s.text.toList.drop ((Position.start s).advances (front ++ cs)).offset = rest := by
    rw [Position.offset_start_advances, hsplit, List.drop_left]
  refine ⟨?_, Position.isIn_advances hs, Position.isIn_advances hsplit, ?_, ?_, ?_, ?_⟩
  · show ((Position.start s).advances front).offset < _
    have hpos := List.length_pos_iff.mpr hcs.ne_nil
    rw [Position.offset_start_advances, Position.offset_start_advances, List.length_append]
    exact Nat.lt_add_of_pos_right hpos
  · rw [htext]
    exact hcs
  · rw [htext]
    exact fun k' literal' h => h.unique hcs
  · rw [htext, hdrop]
    exact hlongest
  · rw [hdrop]
    intro c hc hgoes
    obtain ⟨k', literal', h⟩ := hcs.snoc hgoes
    obtain ⟨r, rfl⟩ := List.head?_eq_some_iff.mp hc
    exact hlongest [c] (by simp) ⟨r, rfl⟩ k' literal' h

theorem Tiling.gap {front rest : List Char} {t : Token} {after : List Token}
    (h : Tiling ((Position.start s).advances front) rest (t :: after))
    (hs : s.text.toList = front ++ rest) :
    Gap (Span.mk ((Position.start s).advances front) t.span.start).text.toList
      (s.text.toList.drop t.span.start.offset) := by
  have hgap {gap rest : List Char} (hs : s.text.toList = front ++ (gap ++ rest))
      (hgap : Gap gap rest) :
      Gap (Span.mk ((Position.start s).advances front)
        (((Position.start s).advances front).advances gap)).text.toList
        (s.text.toList.drop (((Position.start s).advances front).advances gap).offset) := by
    rw [← advances_append, Span.text_advances hs, String.toList_ofList,
      Position.offset_start_advances, hs, ← List.append_assoc, List.drop_left]
    exact hgap
  cases h with
  | finish h =>
      refine hgap ?_ h
      rw [hs, List.append_nil]
  | token h => exact hgap hs h

theorem Tiling.ended (front : List Char) {cs : List Char} {ts : List Token}
    (h : Tiling ((Position.start s).advances front) cs ts) (hs : s.text.toList = front ++ cs) :
    ∃ ts' e, ts = ts' ++ [e] ∧ (∀ t ∈ ts', t.kind ≠ .endOfInput ∧ t.CutFrom s) ∧ e.Ends s := by
  generalize hp : (Position.start s).advances front = p at h
  induction h generalizing front with
  | @finish p gap =>
      subst hp
      rw [← advances_append]
      have hin : ((Position.start s).advances (front ++ gap)).IsIn s :=
        Position.isIn_advances (show _ = (front ++ gap) ++ [] by rw [hs, List.append_nil])
      refine ⟨[], _, rfl, by simp, rfl, rfl, ?_, hin⟩
      show ((Position.start s).advances (front ++ gap)).offset = _
      rw [Position.offset_start_advances, hs]
  | @token p gap cs rest k literal ts _ hcs hlongest h ih =>
      subst hp
      rw [← List.append_assoc] at hs
      have hcut := cutFrom_of_spelled hs hcs hlongest
      have hsplit : s.text.toList = front ++ gap ++ cs ++ rest := by
        rw [hs, List.append_assoc (front ++ gap)]
      obtain ⟨ts', e, rfl, hts', he⟩ := ih _ hsplit (by rw [advances_append, advances_append])
      rw [← advances_append, ← advances_append]
      exact ⟨_ :: ts', e, rfl,
        List.forall_mem_cons.mpr ⟨⟨hcs.kind_ne_endOfInput, hcut⟩, hts'⟩, he⟩

end Scan

/-- The tokens of a source make it up. -/
theorem Source.tokens_tile {s : Source} {ts : List Token} (h : s.tokens = .ok ts) :
    s.Tiled ts := by
  obtain ⟨ts, rfl, htiling⟩ := Scan.tiling_of_run h
  refine ⟨htiling.ordered, fun before t after hts => ?_, Scan.Tiling.ended [] htiling rfl⟩
  subst hts
  obtain ⟨front, rest, hs, hbehind, h⟩ := htiling.drop
  rw [hbehind]
  exact h.gap hs

/-- A comment, a string over two lines and a number behind a word. -/
theorem Source.tokens_tile_lines :
    ∃ ts, Source.tokens ⟨"t", "x1 \"a\nb\" # c\n=2."⟩ = .ok ts ∧
      Source.Tiled ⟨"t", "x1 \"a\nb\" # c\n=2."⟩ ts := by
  cases h : Source.tokens ⟨"t", "x1 \"a\nb\" # c\n=2."⟩ with
  | ok ts => exact ⟨ts, rfl, Source.tokens_tile h⟩
  | error e =>
      have hok : (Source.tokens ⟨"t", "x1 \"a\nb\" # c\n=2."⟩).isOk = true := by decide +kernel
      rw [h] at hok
      cases hok

end BasicScript
