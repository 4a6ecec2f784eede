import BasicScript.Data.Store
import BasicScript.Number.Text

/-!
The text of a value. In the quoted form texts stand in quotes and lists in brackets. A list met
inside itself is written `[...]`, so the text is finite whatever the lists hold.
-/

namespace BasicScript

/-- Whether texts and lists are marked as such. -/
inductive Style where
  | plain
  | quoted
deriving Repr, DecidableEq

namespace Style

def text : Style → String → String
  | plain, s => s
  | quoted, s => "\"" ++ s ++ "\""

def list : Style → List String → String
  | plain, items => String.intercalate ", " items
  | quoted, items => "[" ++ String.intercalate ", " items ++ "]"

end Style

namespace Store

/-- Writes a value that stands inside the lists `enclosing`. The fuel is the number of lists that do
not enclose it yet, and one more. -/
def write (s : Store) (style : Style) : Nat → List ListRef → Value → String
  | 0, _, _ => "[...]"
  | n + 1, enclosing, v =>
    match v.datum with
    | .number x => x.text
    | .text t => style.text t
    | .list l =>
      if enclosing.contains l then "[...]"
      else style.list ((s.elements l).toList.map (s.write style n (l :: enclosing)))
    | .function f => "<function " ++ f.name ++ ">"
    | .builtin b => "<built-in function " ++ b.name ++ ">"

def render (s : Store) (style : Style) (v : Value) : String :=
  s.write style (s.lists.size + 1) [] v

/-- The text of a value as it is printed. -/
def display (s : Store) (v : Value) : String :=
  s.render .plain v

/-- The quoted form of a value. -/
def quote (s : Store) (v : Value) : String :=
  s.render .quoted v

end Store

end BasicScript
