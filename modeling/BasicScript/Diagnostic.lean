import BasicScript.Source.Excerpt

/-!
Diagnostics: what went wrong, where, and in which chain of calls. A failure of evaluation is shown
with a traceback, one line per frame from the failure outwards; a failure before evaluation names
its file and line instead.
-/

namespace BasicScript

/-- A frame of execution as a traceback names it. The entry is the place in the enclosing frame
from which this one was entered. -/
structure Frame where
  name : String
  entry : Option Position
deriving Repr, DecidableEq, Inhabited

/-- The active frames, innermost first. -/
abbrev Trace := List Frame

inductive Diagnostic.Kind where
  | illegalCharacter
  | expectedCharacter
  | invalidSyntax
  | runtime
  | internal
deriving Repr, DecidableEq, Inhabited

def Diagnostic.Kind.title : Kind → String
  | illegalCharacter => "Illegal Character"
  | expectedCharacter => "Expected Character"
  | invalidSyntax => "Invalid Syntax"
  | runtime => "Runtime Error"
  | internal => "Internal Error"

/-- A failure of evaluation comes with a traceback. -/
def Diagnostic.Kind.traced : Kind → Bool
  | runtime | internal => true
  | _ => false

structure Diagnostic where
  kind : Diagnostic.Kind
  message : String
  help : Option String
  span : Span
  trace : Trace
deriving Repr, DecidableEq, Inhabited

namespace Diagnostic

/-- Kind and message on one line. -/
def headline (d : Diagnostic) : String :=
  d.kind.title ++ ": " ++ d.message

/-- File and line of a position. -/
def whereabouts (p : Position) : String :=
  "File " ++ p.source.name ++ ", line " ++ toString (p.line + 1)

/-- One line per frame: the first shows where the failure is, each later one where the frame before
it was entered. A frame without an entry ends the list. -/
def frameLines : Option Position → Trace → List String
  | some place, frame :: outer =>
    (whereabouts place ++ ", in " ++ frame.name) :: frameLines frame.entry outer
  | _, _ => []

def frames (d : Diagnostic) : List String :=
  frameLines (some d.span.start) d.trace

def traceback (d : Diagnostic) : String :=
  "Traceback (most recent call last):\n" ++
    String.join (d.frames.map fun line => "  " ++ line ++ "\n")

/-- The plain form of a diagnostic, without a newline at its end. -/
def text (d : Diagnostic) : String :=
  if d.kind.traced then
    d.traceback ++ d.headline ++ "\n\n" ++ d.span.excerpt
  else
    d.headline ++ "\n" ++ whereabouts d.span.start ++ "\n\n" ++ d.span.excerpt

/-- What a report says below its heading: the help, then the traceback. -/
def notes (d : Diagnostic) : List String :=
  (d.help.toList.map fun help => "help: " ++ help) ++
    (if d.trace.isEmpty then [] else "traceback:" :: d.frames)

end Diagnostic

end BasicScript
