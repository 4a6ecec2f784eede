import BasicScript.Proofs.Grammar.Extents

/-! # Where nodes lie

Every phrase of a program lies in its source, and so does the stretch from an operand of an operator
to another one or to the operator's end. -/

namespace BasicScript

variable {s : Source} {span : Span}

namespace Span.LiesIn

theorem source (h : span.LiesIn s) : span.start.source = s ∧ span.stop.source = s := by
  obtain ⟨cs₁, cs₂, cs₃, -, hstart, hstop⟩ := h
  rw [hstart, hstop, Position.source_advances, Position.source_advances]
  exact ⟨rfl, rfl⟩

theorem offset_le (h : span.LiesIn s) :
    span.start.offset ≤ span.stop.offset ∧ span.stop.offset ≤ s.text.length := by
  obtain ⟨cs₁, cs₂, cs₃, htext, hstart, hstop⟩ := h
  rw [hstart, hstop, Position.offset_start_advances, Position.offset_start_advances,
    ← String.length_toList, htext]
  simp only [List.length_append]
  omega

theorem line_lt (h : span.LiesIn s) : span.start.line < s.lines.length := by
  obtain ⟨cs₁, cs₂, cs₃, htext, hstart, -⟩ := h
  rw [hstart, Position.line_start_advances, Source.lines, Text.length_lines, htext,
    List.count_append]
  omega

end Span.LiesIn

open Node

theorem Grammar.Spans.liesIn {ts : List Token} (h : Grammar.Spans (.ofTokens ts) span)
    (hts : s.tokens = .ok ts) : span.LiesIn s := by
  obtain ⟨ts, e, rfl, hplain, he⟩ := Source.tokens_ended hts
  obtain ⟨d, d', ⟨-, read, hread, -⟩, front, core, back, first, last, hrest, hfirst, hlast, -, -,
    rfl, -⟩ := h
  rw [Cursor.rest_ofTokens hplain he, hrest] at hread
  have hsplit : ts ++ [e] = (read ++ front) ++ (core ++ (back ++ (d'.rest ++ [e]))) := by
    simp [hread]
  rw [hsplit] at hts
  exact Source.liesIn_of_tokens hts (by simp) hfirst hlast

namespace Node

variable {x y z left right : Node} {form : Form} {op : BinaryOp} {unop : UnaryOp}

theorem liesIn_of_occurs (hx : ofSource s = .ok x) (hy : Occurs (.block, x) (.phrase, y)) :
    y.span.LiesIn s := by
  obtain ⟨ts, hts, hx⟩ := ofSource_eq_ok hx
  obtain ⟨d, d', hd, hmade⟩ := made_of_occurs hx hy
  exact Grammar.Spans.liesIn ⟨d, d', hd, hmade.covers⟩ hts

/-- The lines of a block are a list. -/
theorem listed_of_occurs (hx : ofSource s = .ok x) (hy : Occurs (.block, x) (.block, y)) :
    ∃ lines span, y = .list lines span := by
  obtain ⟨ts, hts, hx⟩ := ofSource_eq_ok hx
  obtain ⟨d, d', -, hmade⟩ := made_of_occurs hx hy
  exact hmade.listed rfl

/-- From a phrase of the first operand to one of the second. -/
theorem liesIn_of_binary (hx : ofSource s = .ok x)
    (h : Occurs (.block, x) (form, .binary op left right span))
    (hy : Occurs (.phrase, left) (.phrase, y)) (hz : Occurs (.phrase, right) (.phrase, z)) :
    (y.span.through z.span).LiesIn s := by
  obtain ⟨ts, hts, hx⟩ := ofSource_eq_ok hx
  obtain ⟨d, d', hd, hmade⟩ := made_of_occurs hx h
  exact Grammar.Spans.liesIn ((hmade.joins y z hy hz).behind hd) hts

/-- From a phrase of the operand to the operator's end. -/
theorem liesIn_of_unary (hx : ofSource s = .ok x)
    (h : Occurs (.block, x) (form, .unary unop left span))
    (hy : Occurs (.phrase, left) (.phrase, y)) : (y.span.through span).LiesIn s := by
  obtain ⟨ts, hts, hx⟩ := ofSource_eq_ok hx
  obtain ⟨d, d', hd, hmade⟩ := made_of_occurs hx h
  exact Grammar.Spans.liesIn ((hmade.joins y hy).behind hd) hts

end Node

end BasicScript
