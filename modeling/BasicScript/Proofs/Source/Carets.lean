import BasicScript.Proofs.Token.Tiling
import BasicScript.Source.Excerpt

/-! # Carets

The excerpt that a span is shown with has a caret under each character that the span covers,
newlines apart, and under no other. The lines that a text is cut into and the places counted while
it is passed over meet in one notion, the column in which a line ends. -/

namespace BasicScript

/-! ## Lines -/

namespace Text

/-- The lines of a text are what it is split into at its newlines. -/
theorem lines_eq_splitOn (cs : List Char) : lines cs = cs.splitOn '\n' := by
  induction cs with
  | nil => simp [List.splitOn, List.splitOnP_nil]
  | cons c cs ih =>
      rw [List.splitOn] at ih ⊢
      rw [lines_cons, List.splitOnP_cons_eq_if_modifyHead, ← ih, consLine]
      obtain ⟨line, more, hlines⟩ := List.exists_cons_of_ne_nil (lines_ne_nil cs)
      by_cases hc : c = '\n' <;> simp [hc, hlines]

/-- A text without its newlines is its lines one behind the other. -/
theorem flatten_lines (cs : List Char) : (lines cs).flatten = cs.filter (· ≠ '\n') := by
  induction cs with
  | nil => rfl
  | cons c cs ih =>
      obtain ⟨line, more, hlines⟩ := List.exists_cons_of_ne_nil (lines_ne_nil cs)
      rw [hlines] at ih
      by_cases hc : c = '\n' <;> simp_all [consLine]

theorem newline_notMem_lines {cs line : List Char} (h : line ∈ lines cs) : '\n' ∉ line := by
  intro hnewline
  have hmem : '\n' ∈ (lines cs).flatten := List.mem_flatten.mpr ⟨line, h, hnewline⟩
  simp [flatten_lines] at hmem

/-- The column in which a line of a text ends, if the text begins in the given column. -/
def endColumn? (column : Nat) (cs : List Char) (i : Nat) : Option Nat :=
  (lines cs)[i]?.map fun line => (if i = 0 then column else 0) + line.length

theorem endColumn?_of_le {cs : List Char} {i : Nat} (hi : i ≤ cs.count '\n') (column : Nat) :
    ∃ line, (lines cs)[i]? = some line ∧
      endColumn? column cs i = some ((if i = 0 then column else 0) + line.length) := by
  have hlength : i < (lines cs).length := by
    rw [length_lines]
    omega
  exact ⟨(lines cs)[i], List.getElem?_eq_getElem hlength,
    by rw [endColumn?, List.getElem?_eq_getElem hlength, Option.map_some]⟩

section

variable (column : Nat) (cs : List Char) (i : Nat)

@[simp] theorem endColumn?_nil_zero : endColumn? column [] 0 = some column := by
  simp [endColumn?]

@[simp] theorem endColumn?_nil_succ : endColumn? column [] (i + 1) = none := by
  simp [endColumn?]

@[simp] theorem endColumn?_newline_zero : endColumn? column ('\n' :: cs) 0 = some column := by
  simp [endColumn?, consLine]

@[simp] theorem endColumn?_newline_succ :
    endColumn? column ('\n' :: cs) (i + 1) = endColumn? 0 cs i := by
  simp [endColumn?, consLine]

theorem endColumn?_cons {c : Char} (hc : c ≠ '\n') :
    endColumn? column (c :: cs) i = endColumn? (column + 1) cs i := by
  obtain ⟨line, more, hlines⟩ := List.exists_cons_of_ne_nil (lines_ne_nil cs)
  cases i with
  | zero =>
      simp [endColumn?, consLine, hc, hlines]
      omega
  | succ i => simp [endColumn?, consLine, hc, hlines]

end

/-- What follows the last newline of a text makes only the line behind it longer. -/
theorem endColumn?_append {cs : List Char} {i : Nat} (hi : i < cs.count '\n') (column : Nat)
    (rest : List Char) : endColumn? column (cs ++ rest) i = endColumn? column cs i := by
  induction cs generalizing column i with
  | nil => simp at hi
  | cons c cs ih =>
      by_cases hc : c = '\n'
      · subst hc
        cases i with
        | zero => simp
        | succ i =>
            rw [List.count_cons_self] at hi
            simpa using ih (Nat.lt_of_succ_lt_succ hi) 0
      · rw [List.count_cons_of_ne hc] at hi
        rw [List.cons_append, endColumn?_cons _ _ _ hc, endColumn?_cons _ _ _ hc, ih hi]

end Text

namespace Position

/-- Passing over a text comes to the end of its last line. -/
theorem endColumn?_advances (p : Position) (cs : List Char) :
    Text.endColumn? p.column cs (cs.count '\n') = some (p.advances cs).column := by
  induction cs generalizing p with
  | nil => simp [advances]
  | cons c cs ih =>
      rw [advances_cons, ← ih]
      by_cases hc : c = '\n'
      · subst hc
        simp [advance_newline]
      · rw [advance_of_ne hc, List.count_cons_of_ne hc, Text.endColumn?_cons _ _ _ hc]

/-- Behind a text the lines end where they end from the place that it is passed to. -/
theorem endColumn?_behind (p : Position) (front cs : List Char) (i : Nat) :
    Text.endColumn? p.column (front ++ cs) (front.count '\n' + i) =
      Text.endColumn? (p.advances front).column cs i := by
  induction front generalizing p with
  | nil => simp [advances]
  | cons c front ih =>
      rw [advances_cons, ← ih, List.cons_append]
      by_cases hc : c = '\n'
      · subst hc
        rw [advance_newline, List.count_cons_self, Nat.add_right_comm,
          Text.endColumn?_newline_succ]
      · rw [advance_of_ne hc, List.count_cons_of_ne hc, Text.endColumn?_cons _ _ _ hc]

/-- A character other than a newline stands in column `c` of line `l`, in a text that begins at
`p`. -/
def Stands (p : Position) (cs : List Char) (l c : Nat) : Prop :=
  ∃ before d after, cs = before ++ d :: after ∧ d ≠ '\n' ∧
    (p.advances before).line = l ∧ (p.advances before).column = c

theorem not_stands_nil (p : Position) (l c : Nat) : ¬p.Stands [] l c := by
  rintro ⟨before, d, after, hnil, -⟩
  simp at hnil

theorem stands_cons {p : Position} {d : Char} {cs : List Char} {l c : Nat} :
    p.Stands (d :: cs) l c ↔
      d ≠ '\n' ∧ p.line = l ∧ p.column = c ∨ (p.advance d).Stands cs l c := by
  constructor
  · rintro ⟨before, d', after, hsplit, hd', hline, hcolumn⟩
    cases before with
    | nil =>
        obtain ⟨rfl, -⟩ := List.cons.inj hsplit
        exact .inl ⟨hd', hline, hcolumn⟩
    | cons b before =>
        obtain ⟨rfl, rfl⟩ := List.cons.inj hsplit
        exact .inr ⟨before, d', after, rfl, hd', hline, hcolumn⟩
  · rintro (⟨hd, hline, hcolumn⟩ | ⟨before, d', after, rfl, hd', hline, hcolumn⟩)
    · exact ⟨[], d, cs, rfl, hd, hline, hcolumn⟩
    · exact ⟨d :: before, d', after, rfl, hd', hline, hcolumn⟩

theorem Stands.line_le {p : Position} {cs : List Char} {l c : Nat} (h : p.Stands cs l c) :
    p.line ≤ l := by
  obtain ⟨before, -, -, -, -, rfl, -⟩ := h
  rw [line_advances]
  exact Nat.le_add_right _ _

/-- The characters of a line stand in the columns from the one in which it begins up to the one in
which it ends. -/
theorem stands_iff {p : Position} {cs : List Char} {i c : Nat} :
    p.Stands cs (p.line + i) c ↔
      ∃ e, Text.endColumn? p.column cs i = some e ∧ (if i = 0 then p.column else 0) ≤ c ∧
        c < e := by
  induction cs generalizing p i with
  | nil =>
      refine iff_of_false (not_stands_nil _ _ _) ?_
      cases i <;> simp
  | cons d cs ih =>
      rw [stands_cons]
      by_cases hd : d = '\n'
      · subst hd
        rw [advance_newline]
        cases i with
        | zero =>
            -- Behind a newline all characters stand on later lines.
            refine iff_of_false ?_ (by simp)
            rintro (⟨hd, -⟩ | hstands)
            · exact hd rfl
            · exact absurd hstands.line_le (Nat.not_succ_le_self _)
        | succ i =>
            have hnext := ih (p := ⟨p.offset + 1, p.line + 1, 0, p.source⟩) (i := i)
            simpa [Nat.add_assoc, Nat.add_comm 1 i] using hnext
      · rw [advance_of_ne hd, Text.endColumn?_cons _ _ _ hd]
        have hnext := ih (p := ⟨p.offset + 1, p.line, p.column + 1, p.source⟩) (i := i)
        simp only at hnext
        rw [hnext]
        cases i with
        | zero =>
            obtain ⟨line, -, hend⟩ := Text.endColumn?_of_le (Nat.zero_le (cs.count '\n'))
              (p.column + 1)
            simp only [hend, hd, ne_eq, not_false_eq_true, Nat.add_zero, true_and, if_true,
              Option.some.injEq, exists_eq_left']
            omega
        | succ i => simp [hd]

end Position

/-! ## Rows -/

theorem Source.line_eq (source : Source) (l : Nat) :
    source.line l = (source.text.toList.splitOn '\n')[l]?.getD [] := by
  rw [line, lines, Text.lines_eq_splitOn]

theorem Source.newline_notMem_line (source : Source) (l : Nat) : '\n' ∉ source.line l := by
  rw [line]
  cases hline : source.lines[l]? with
  | none => simp
  | some line => exact Text.newline_notMem_lines (List.mem_of_getElem? hline)

namespace Span

theorem carets_getElem?_iff {first last c : Nat} :
    (carets first last)[c]? = some '^' ↔ first ≤ c ∧ c < last := by
  rw [carets, List.getElem?_append]
  by_cases hc : c < first
  · simp [hc]
  · simp [hc, List.getElem?_replicate]
    omega

theorem count_carets (first last : Nat) : (carets first last).count '^' = last - first := by
  simp [carets, List.count_replicate]

/-- The span lies over the part `covered` of a source, behind `front`. -/
structure Over (s : Span) (source : Source) (front covered rest : List Char) : Prop where
  text : source.text.toList = front ++ (covered ++ rest)
  start : s.start = (Position.start source).advances front
  stop : s.stop = (Position.start source).advances (front ++ covered)

theorem over_advances {source : Source} {front covered rest : List Char}
    (h : source.text.toList = front ++ (covered ++ rest)) :
    (Span.mk ((Position.start source).advances front)
      (((Position.start source).advances front).advances covered)).Over source front covered rest :=
  ⟨h, rfl, (Scan.advances_append _ _ _).symm⟩

/-- The span covers the character in column `c` of line `l` of a source, which is no newline. -/
def Covers (s : Span) (source : Source) (l c : Nat) : Prop :=
  ∃ before d after, source.text.toList = before ++ d :: after ∧ d ≠ '\n' ∧
    let p := (Position.start source).advances before
    p.line = l ∧ p.column = c ∧ s.start.offset ≤ p.offset ∧ p.offset < s.stop.offset

namespace Over

variable {s : Span} {source : Source} {front covered rest : List Char}

theorem stop_eq (h : s.Over source front covered rest) : s.stop = s.start.advances covered := by
  rw [h.stop, h.start, Scan.advances_append]

theorem line_stop (h : s.Over source front covered rest) :
    s.stop.line = s.start.line + covered.count '\n' := by
  rw [h.stop_eq, Position.line_advances]

theorem lastLine_eq (h : s.Over source front covered rest) : s.lastLine = s.stop.line := by
  rw [lastLine, h.line_stop]
  exact Nat.max_eq_left (Nat.le_add_right _ _)

theorem source_start (h : s.Over source front covered rest) : s.start.source = source := by
  rw [h.start, Position.source_advances]
  rfl

/-- A line that the covered part ends is as long as the column in which it ends. -/
theorem length_line (h : s.Over source front covered rest) {i : Nat}
    (hi : i < covered.count '\n') :
    Text.endColumn? s.start.column covered i =
      some (source.line (s.start.line + i)).length := by
  have hbehind := Position.endColumn?_behind (.start source) front (covered ++ rest) i
  have hline : s.start.line = front.count '\n' := by
    rw [h.start, Position.line_start_advances]
  rw [← h.start, Text.endColumn?_append hi] at hbehind
  obtain ⟨line, -, hend⟩ := Text.endColumn?_of_le hi.le s.start.column
  rw [← hbehind, ← h.text, ← hline, Text.endColumn?] at hend ⊢
  obtain ⟨line, hline, -⟩ := Option.map_eq_some_iff.mp hend
  have hsource : source.line (s.start.line + i) = line := by
    rw [Source.line, Source.lines, hline]
    rfl
  rw [hline, hsource]
  simp [Position.start]

/-- The caret row of a line reaches to the column in which the line of the covered part ends. -/
theorem caretRow_eq (h : s.Over source front covered rest) {i e : Nat}
    (hi : i ≤ covered.count '\n')
    (he : Text.endColumn? s.start.column covered i = some e) :
    s.caretRow (s.start.line + i) (source.line (s.start.line + i)) =
      carets (if i = 0 then s.start.column else 0) e := by
  have hlast : (if s.start.line + i = s.lastLine then s.stop.column
      else (source.line (s.start.line + i)).length) = e := by
    rw [h.lastLine_eq, h.line_stop]
    rcases hi.eq_or_lt with rfl | hlt
    · have hstop := Position.endColumn?_advances s.start covered
      rw [he, ← h.stop_eq] at hstop
      rw [if_pos rfl, Option.some.inj hstop]
    · have hlength := h.length_line hlt
      rw [he] at hlength
      rw [if_neg (by omega), Option.some.inj hlength]
  rw [caretRow, columns, hlast]
  simp

/-- The characters covered are those of the covered part. -/
theorem covers_iff (h : s.Over source front covered rest) {l c : Nat} :
    s.Covers source l c ↔ s.start.Stands covered l c := by
  rw [Covers, Position.Stands, h.text, h.stop, h.start]
  simp only [Position.offset_start_advances, List.length_append]
  constructor
  · rintro ⟨before, d, after, hsplit, hd, hline, hcolumn, hstart, hstop⟩
    obtain ⟨inner, rfl⟩ : front <+: before :=
      List.prefix_of_prefix_length_le (List.prefix_append _ _) ⟨_, hsplit.symm⟩ hstart
    rw [List.append_assoc, List.append_cancel_left_eq] at hsplit
    rw [List.length_append] at hstop
    obtain ⟨after', rfl⟩ : inner ++ [d] <+: covered := by
      refine List.prefix_of_prefix_length_le ⟨after, ?_⟩ (List.prefix_append covered rest) ?_
      · rw [hsplit, List.append_assoc, List.singleton_append]
      · rw [List.length_append, List.length_singleton]
        omega
    rw [Scan.advances_append] at hline hcolumn
    exact ⟨inner, d, after', by simp, hd, hline, hcolumn⟩
  · rintro ⟨inner, d, after, rfl, hd, hline, hcolumn⟩
    rw [← Scan.advances_append] at hline hcolumn
    refine ⟨front ++ inner, d, after ++ rest, by simp, hd, hline, hcolumn, ?_, ?_⟩
    · simp
    · simp

end Over

/-! ## The excerpt -/

theorem newline_notMem_carets (first last : Nat) : '\n' ∉ carets first last := by
  simp [carets, List.mem_replicate]

/-- The excerpt is the lines of the span, each above its caret row. -/
theorem excerpt_lines (s : Span) :
    s.excerpt.toList.splitOn '\n' =
      (List.range' s.start.line (s.lastLine + 1 - s.start.line)).flatMap fun l =>
        [s.start.source.line l, s.caretRow l (s.start.source.line l)] := by
  have hrows : s.excerptRows =
      (List.range' s.start.line (s.lastLine + 1 - s.start.line)).flatMap fun l =>
        [s.start.source.line l, s.caretRow l (s.start.source.line l)] := by
    simp [excerptRows, Source.line]
  have hne : s.excerptRows ≠ [] := by
    have hle : s.start.line ≤ s.lastLine := Nat.le_max_right _ _
    rw [hrows, Nat.succ_sub hle, List.range'_succ]
    simp
  have hnewline : ∀ row ∈ s.excerptRows, '\n' ∉ row := by
    rw [hrows]
    simp only [List.mem_flatMap, List.mem_cons, List.not_mem_nil, or_false]
    rintro row ⟨l, -, rfl | rfl⟩
    · exact s.start.source.newline_notMem_line l
    · exact newline_notMem_carets _ _
  have hmap : (s.excerptRows.map String.ofList).map String.toList = s.excerptRows := by
    simp
  rw [excerpt, String.toList_intercalate, hmap]
  show (List.intercalate ['\n'] s.excerptRows).splitOn '\n' = _
  rw [List.splitOn_intercalate '\n' hnewline hne, hrows]

/-- A caret stands under a character just if the span covers it. -/
theorem Over.caretRow_getElem?_iff {s : Span} {source : Source} {front covered rest : List Char}
    (h : s.Over source front covered rest) {l c : Nat} (hlow : s.start.line ≤ l)
    (hhigh : l ≤ s.stop.line) :
    (s.caretRow l (source.line l))[c]? = some '^' ↔ s.Covers source l c := by
  obtain ⟨i, rfl⟩ := Nat.exists_eq_add_of_le hlow
  have hi : i ≤ covered.count '\n' := by
    rw [h.line_stop] at hhigh
    omega
  obtain ⟨piece, -, hend⟩ := Text.endColumn?_of_le hi s.start.column
  rw [h.caretRow_eq hi hend, carets_getElem?_iff, h.covers_iff, Position.stands_iff, hend]
  simp

/-- In each line of a covered part there are as many carets as the line has characters. -/
theorem Over.count_caretRow {s : Span} {source : Source} {front covered rest : List Char}
    (h : s.Over source front covered rest) {i : Nat} (hi : i < (Text.lines covered).length) :
    (s.caretRow (s.start.line + i) (source.line (s.start.line + i))).count '^' =
      (Text.lines covered)[i].length := by
  have hle : i ≤ covered.count '\n' := by
    rw [Text.length_lines] at hi
    omega
  obtain ⟨line, hline, hend⟩ := Text.endColumn?_of_le hle s.start.column
  rw [List.getElem?_eq_getElem hi] at hline
  rw [h.caretRow_eq hle hend, count_carets, Nat.add_sub_cancel_left, Option.some.inj hline]

theorem Over.sum_carets {s : Span} {source : Source} {front covered rest : List Char}
    (h : s.Over source front covered rest) :
    ((List.range' s.start.line (s.stop.line + 1 - s.start.line)).map fun l =>
        (s.caretRow l (source.line l)).count '^').sum = (covered.filter (· ≠ '\n')).length := by
  have hlength : s.stop.line + 1 - s.start.line = (Text.lines covered).length := by
    rw [h.line_stop, Text.length_lines]
    omega
  have hcounts : ((List.range' s.start.line (s.stop.line + 1 - s.start.line)).map fun l =>
      (s.caretRow l (source.line l)).count '^') = (Text.lines covered).map List.length := by
    refine List.ext_getElem (by simp [hlength]) fun i _ hi => ?_
    rw [List.length_map] at hi
    simp [h.count_caretRow hi]
  rw [hcounts, ← List.length_flatten, Text.flatten_lines]

/-- The excerpt of a span consists of the source lines from the one in which the span starts to the
one in which it ends, each above a row of blanks and carets. A caret stands under a character just
if the span covers it, so there are as many carets as the span covers characters that are no
newlines. -/
theorem excerpt_marks {s : Span} {source : Source} {front covered rest : List Char}
    (h : s.Over source front covered rest) :
    let line (l : Nat) : List Char := (source.text.toList.splitOn '\n')[l]?.getD []
    let shown := List.range' s.start.line (s.stop.line + 1 - s.start.line)
    ∃ row : Nat → List Char,
      s.excerpt.toList.splitOn '\n' = shown.flatMap (fun l => [line l, row l]) ∧
      (∀ l, ∃ blanks carets, row l = List.replicate blanks ' ' ++ List.replicate carets '^') ∧
      (∀ l ∈ shown, ∀ c, (row l)[c]? = some '^' ↔ s.Covers source l c) ∧
      (shown.map fun l => (row l).count '^').sum = (s.text.toList.filter (· ≠ '\n')).length := by
  intro line shown
  refine ⟨fun l => s.caretRow l (source.line l), ?_, fun l => ⟨_, _, rfl⟩, ?_, ?_⟩
  · simpa only [h.lastLine_eq, h.source_start, Source.line_eq] using s.excerpt_lines
  · intro l hl c
    obtain ⟨hlow, hhigh⟩ := List.mem_range'_1.mp hl
    exact h.caretRow_getElem?_iff hlow (by omega)
  · have htext : s.text.toList = covered := by
      obtain ⟨start, stop⟩ := s
      obtain rfl := h.start
      obtain rfl := h.stop
      rw [text_advances h.text, String.toList_ofList]
    rw [htext]
    exact h.sum_carets

/-- A span that starts inside a line, goes on over an empty one and ends with the text. -/
theorem excerpt_marks_empty_line :
    let source : Source := ⟨"f", "IF 1 THEN\n\nEND"⟩
    let s : Span := ⟨⟨3, 0, 3, source⟩, ⟨14, 2, 3, source⟩⟩
    ∃ row : Nat → List Char,
      s.excerpt.toList.splitOn '\n' =
        ["IF 1 THEN".toList, row 0, [], row 1, "END".toList, row 2] ∧
      (∀ c, (row 0)[c]? = some '^' ↔ s.Covers source 0 c) ∧
      (row 0).count '^' + (row 1).count '^' + (row 2).count '^' = 9 := by
  intro source s
  have hover : s.Over source "IF ".toList "1 THEN\n\nEND".toList [] :=
    ⟨by decide, by decide, by decide⟩
  have hshown : List.range' s.start.line (s.stop.line + 1 - s.start.line) = [0, 1, 2] := rfl
  have hlines : source.text.toList.splitOn '\n' = ["IF 1 THEN".toList, [], "END".toList] := by
    rw [← Text.lines_eq_splitOn]
    decide
  have hcovered : (s.text.toList.filter (· ≠ '\n')).length = 9 := by decide
  obtain ⟨row, hexcerpt, -, hmarks, hsum⟩ := excerpt_marks hover
  rw [hshown] at hexcerpt hsum
  refine ⟨row, ?_, hmarks 0 (by decide), ?_⟩
  · rw [hexcerpt]
    simp [hlines]
  · rw [hcovered] at hsum
    simpa [Nat.add_assoc] using hsum

end Span

end BasicScript
