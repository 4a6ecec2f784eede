import BasicScript.Number.Text
import BasicScript.Program.Node

/-!
Trees in outline: a parenthesised form in which the offsets of its span follow every node.
-/

namespace BasicScript

/-- A hexadecimal digit in lower case. -/
def hexDigit (n : Nat) : Char :=
  Char.ofNat (if n < 10 then '0'.toNat + n else 'a'.toNat + n - 10)

/-- A character of a quoted text: quotes, backslashes and controls are escaped. -/
def escapeChar (c : Char) : List Char :=
  match c with
  | '"' => ['\\', '"']
  | '\\' => ['\\', '\\']
  | '\n' => ['\\', 'n']
  | '\r' => ['\\', 'r']
  | '\t' => ['\\', 't']
  | '\x08' => ['\\', 'b']
  | '\x0c' => ['\\', 'f']
  | c =>
    if c.toNat < 0x20 then
      ['\\', 'u', '0', '0', hexDigit (c.toNat / 16), hexDigit (c.toNat % 16)]
    else [c]

def quoteText (s : String) : String :=
  String.ofList ('"' :: s.toList.flatMap escapeChar ++ ['"'])

/-- The number of a literal; a double is marked by its last letter. -/
def Number.outline : Number → String
  | .int n => (Number.int n).text
  | .float x => (Number.float x).text ++ "f"

/-- The keyword of a construct, marked when it yields no value. -/
def Branch.mark (b : Branch α) (keyword : String) : String :=
  if b.block then keyword ++ "!" else keyword

namespace Node

/-- The offsets of a node's span. -/
def offsets (s : Span) : String :=
  "@" ++ toString s.start.offset ++ "-" ++ toString s.stop.offset

def UnaryOp.outline : UnaryOp → String
  | .negate => "neg"
  | .not => "not"

mutual

def outline : Node → String
  | number n s => n.outline ++ offsets s
  | text t s => quoteText t ++ offsets s
  | list xs s => "[" ++ String.intercalate " " (outlines xs) ++ "]" ++ offsets s
  | ident x s => x ++ offsets s
  | declaration tag x v s =>
    "(" ++ tag.spelling ++ " " ++ x ++ " " ++ outline v ++ ")" ++ offsets s
  | binary op l r s =>
    "(" ++ op.spelling ++ " " ++ outline l ++ " " ++ outline r ++ ")" ++ offsets s
  | unary op x s => "(" ++ UnaryOp.outline op ++ " " ++ outline x ++ ")" ++ offsets s
  | choice arms otherwise s =>
    "(if" ++ String.join (outlineArms arms) ++ outlineElse otherwise ++ ")" ++ offsets s
  | forLoop x first last step branch s =>
    "(" ++ branch.mark "for" ++ " " ++ x ++ " " ++ outline first ++ " " ++ outline last ++ " " ++
      outlineOr "_" step ++ " " ++ outlineBranch branch ++ ")" ++ offsets s
  | whileLoop c branch s =>
    "(" ++ branch.mark "while" ++ " " ++ outline c ++ " " ++ outlineBranch branch ++ ")" ++
      offsets s
  | function name params body arrow s =>
    "(" ++ (if arrow then "fn->" else "fn") ++ " " ++ name.getD "_" ++ " (" ++
      String.intercalate " " params ++ ") " ++ outline body ++ ")" ++ offsets s
  | call f args s => "(call " ++ String.intercalate " " (outline f :: outlines args) ++ ")" ++
      offsets s
  | returnWith v s =>
    match v with
    | none => "(return)" ++ offsets s
    | some v => "(return " ++ outline v ++ ")" ++ offsets s
  | continueLoop s => "continue" ++ offsets s
  | breakLoop s => "break" ++ offsets s

def outlines : List Node → List String
  | [] => []
  | x :: xs => outline x :: outlines xs

def outlineOr (absent : String) : Option Node → String
  | none => absent
  | some x => outline x

def outlineBranch : Branch Node → String
  | ⟨body, _⟩ => outline body

def outlineArm : Arm Node → String
  | ⟨condition, branch⟩ =>
    " " ++ outline condition ++ " " ++ branch.mark "then" ++ " " ++ outlineBranch branch

def outlineArms : List (Arm Node) → List String
  | [] => []
  | a :: as => outlineArm a :: outlineArms as

def outlineElse : Option (Branch Node) → String
  | none => ""
  | some b => " " ++ b.mark "else" ++ " " ++ outlineBranch b

end

end Node

end BasicScript
