import BasicScript.Text.Lines

/-!
Places in source text. A position counts characters, lines and columns from zero, and a span runs
from a start to an exclusive end; both know the source they belong to.
-/

namespace BasicScript

/-- A named piece of source text. -/
structure Source where
  name : String
  text : String
deriving Repr, DecidableEq, Inhabited

namespace Source

/-- The lines of the text, without their newlines; there is always at least one. -/
def lines (s : Source) : List (List Char) :=
  Text.lines s.text.toList

/-- The line of a number, empty beyond the last. -/
def line (s : Source) (i : Nat) : List Char :=
  s.lines[i]?.getD []

end Source

structure Position where
  offset : Nat
  line : Nat
  column : Nat
  source : Source
deriving Repr, DecidableEq, Inhabited

namespace Position

/-- The start of a source. -/
def start (source : Source) : Position :=
  ⟨0, 0, 0, source⟩

/-- The position after a character. -/
def advance (p : Position) (c : Char) : Position :=
  if c = '\n' then ⟨p.offset + 1, p.line + 1, 0, p.source⟩
  else ⟨p.offset + 1, p.line, p.column + 1, p.source⟩

/-- The position after a text. -/
def advances (p : Position) (cs : List Char) : Position :=
  cs.foldl advance p

/-- The position one column to the right, whatever stands there. -/
def right (p : Position) : Position :=
  { p with offset := p.offset + 1, column := p.column + 1 }

end Position

/-- From a start to an exclusive end. -/
structure Span where
  start : Position
  stop : Position
deriving Repr, DecidableEq, Inhabited

namespace Span

/-- The span of the one character at a position. -/
def single (p : Position) : Span :=
  ⟨p, p.right⟩

/-- The empty span at a position. -/
def empty (p : Position) : Span :=
  ⟨p, p⟩

/-- From the start of one span to the end of another. -/
def through (a b : Span) : Span :=
  ⟨a.start, b.stop⟩

/-- The text that a span covers in its source. -/
def text (s : Span) : String :=
  String.ofList ((s.start.source.text.toList.drop s.start.offset).take
    (s.stop.offset - s.start.offset))

/-- Where a span starts, as it is told to people: name, line and column counted from one. -/
def place (s : Span) : String :=
  s.start.source.name ++ ":" ++ toString (s.start.line + 1) ++ ":" ++
    toString (s.start.column + 1)

end Span

end BasicScript
