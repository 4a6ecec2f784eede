import BasicScript.Number.Basic
import BasicScript.Source.Position

/-!
Programs as trees. Every node carries the span of the source text it was read from. A list node is
a list literal, and also the statements of a program or of a block.
-/

namespace BasicScript

/-- The declared type at a declaration. -/
inductive Tag where
  | num | text | list
deriving Repr, DecidableEq, Inhabited

def Tag.spelling : Tag → String
  | num => "num"
  | text => "text"
  | list => "list"

inductive BinaryOp where
  | add | subtract | multiply | divide | power
  | equal | notEqual | less | greater | atMost | atLeast
  | and | or
deriving Repr, DecidableEq, Inhabited

def BinaryOp.spelling : BinaryOp → String
  | add => "+"
  | subtract => "-"
  | multiply => "*"
  | divide => "/"
  | power => "^"
  | equal => "=="
  | notEqual => "!="
  | less => "<"
  | greater => ">"
  | atMost => "<="
  | atLeast => ">="
  | and => "and"
  | or => "or"

inductive UnaryOp where
  | negate | not
deriving Repr, DecidableEq, Inhabited

/-- What a construct carries out: a block of lines, or one statement on the same line. A block has
no value of its own. -/
structure Branch (α : Type) where
  body : α
  block : Bool

/-- A condition of an `IF` with what is carried out when it is the first that holds. -/
structure Arm (α : Type) where
  condition : α
  branch : Branch α

inductive Node where
  | number (value : Number) (span : Span)
  | text (value : String) (span : Span)
  | list (elements : List Node) (span : Span)
  | ident (name : String) (span : Span)
  | declaration (tag : Tag) (name : String) (value : Node) (span : Span)
  | binary (op : BinaryOp) (left right : Node) (span : Span)
  | unary (op : UnaryOp) (operand : Node) (span : Span)
  | choice (arms : List (Arm Node)) (otherwise : Option (Branch Node)) (span : Span)
  | forLoop (name : String) (first last : Node) (step : Option Node) (branch : Branch Node)
      (span : Span)
  | whileLoop (condition : Node) (branch : Branch Node) (span : Span)
  | function (name : Option String) (params : List String) (body : Node) (arrow : Bool)
      (span : Span)
  | call (callee : Node) (args : List Node) (span : Span)
  | returnWith (value : Option Node) (span : Span)
  | continueLoop (span : Span)
  | breakLoop (span : Span)

namespace Node

instance : Inhabited Node := ⟨.list [] default⟩

def span : Node → Span
  | number _ span => span
  | text _ span => span
  | list _ span => span
  | ident _ span => span
  | declaration _ _ _ span => span
  | binary _ _ _ span => span
  | unary _ _ span => span
  | choice _ _ span => span
  | forLoop _ _ _ _ _ span => span
  | whileLoop _ _ span => span
  | function _ _ _ _ span => span
  | call _ _ span => span
  | returnWith _ span => span
  | continueLoop span => span
  | breakLoop span => span

end Node

end BasicScript
