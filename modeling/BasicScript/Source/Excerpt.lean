import BasicScript.Source.Position

/-!
The lines of source that a span covers, each with a row of carets under the covered columns.
-/

namespace BasicScript.Span

/-- A row of blanks up to a column, then carets up to another. -/
def carets (first last : Nat) : List Char :=
  List.replicate first ' ' ++ List.replicate (last - first) '^'

/-- The last line that a span covers; a span that ends before it starts covers its first line. -/
def lastLine (s : Span) : Nat :=
  max s.stop.line s.start.line

/-- The columns that a span covers on one of its lines, given the line's length. -/
def columns (s : Span) (line length : Nat) : Nat × Nat :=
  (if line = s.start.line then s.start.column else 0,
    if line = s.lastLine then s.stop.column else length)

/-- The caret row under one of the lines of a span. -/
def caretRow (s : Span) (line : Nat) (text : List Char) : List Char :=
  let (first, last) := s.columns line text.length
  carets first last

/-- The rows of the excerpt, each line of the source above its carets. -/
def excerptRows (s : Span) : List (List Char) :=
  let lines := s.start.source.lines.toArray
  (List.range' s.start.line (s.lastLine + 1 - s.start.line)).flatMap fun i =>
    let text := lines[i]?.getD []
    [text, s.caretRow i text]

/-- The lines a span covers with their caret rows. -/
def excerpt (s : Span) : String :=
  String.intercalate "\n" (s.excerptRows.map String.ofList)

end BasicScript.Span
