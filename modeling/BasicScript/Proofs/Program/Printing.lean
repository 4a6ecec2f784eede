import BasicScript.Proofs.Program.Alike

/-! # Printing programs

A tree is printed as the symbols of its tokens. Parentheses stand around a part exactly where it
binds looser than its place allows. -/

namespace BasicScript

/-! ## Symbols -/

namespace Symbol

def mark (k : TokenKind) : Symbol :=
  ⟨k, none⟩

def word (k : TokenKind) : Symbol :=
  ⟨k, k.spelling?.map .text⟩

def name (x : String) : Symbol :=
  ⟨.identifier, some (.text x)⟩

def text (s : String) : Symbol :=
  ⟨.string, some (.text s)⟩

def number (n : Number) : Symbol :=
  match n with
  | .int _ => ⟨.int, some (.number n)⟩
  | .float _ => ⟨.float, some (.number n)⟩

/-- Newlines, `n` of them. -/
def newlines (n : Nat) : List Symbol :=
  List.replicate n (mark .newline)

/-- Symbols in parentheses. -/
def enclose (ss : List Symbol) : List Symbol :=
  mark .leftParen :: (ss ++ [mark .rightParen])

end Symbol

def Tag.kind : Tag → TokenKind
  | num => .num
  | text => .text
  | list => .list

def BinaryOp.symbol : BinaryOp → Symbol
  | add => .mark .plus
  | subtract => .mark .minus
  | multiply => .mark .star
  | divide => .mark .slash
  | power => .mark .caret
  | equal => .mark .equal
  | notEqual => .mark .notEqual
  | less => .mark .less
  | greater => .mark .greater
  | atMost => .mark .atMost
  | atLeast => .mark .atLeast
  | and => .word .and
  | or => .word .or

def UnaryOp.symbol : UnaryOp → Symbol
  | negate => .mark .minus
  | not => .word .not

/-! ## Tightness

Operators bind the tighter the greater their number is. A part fits a place without parentheses if
it binds at least as tight as the place asks for. -/

namespace BinaryOp

def tightness : BinaryOp → Nat
  | and | or => 1
  | equal | notEqual | less | greater | atMost | atLeast => 3
  | add | subtract => 4
  | multiply | divide => 5
  | power => 6

/-- What the left operand has to bind like: a chain of the same level, or the base of a power. -/
def leftSlot : BinaryOp → Nat
  | power => 7
  | op => op.tightness

/-- What the right operand has to bind like: next tighter, with `not` before the comparisons. -/
def rightSlot : BinaryOp → Nat
  | power => 6
  | op => op.tightness + 1

end BinaryOp

/-- The operand of a unary operator may be another one of the kind. -/
def UnaryOp.tightness : UnaryOp → Nat
  | negate => 6
  | not => 2

namespace Node

/-- How tight a node binds. What is no expression is never put in parentheses. -/
def tightness : Node → Nat
  | declaration .. | choice .. | forLoop .. | whileLoop .. | function .. => 0
  | binary op _ _ _ => op.tightness
  | unary op _ _ => op.tightness
  | number .. | text .. | ident .. | list .. | call .. => 7
  | returnWith .. | continueLoop .. | breakLoop .. => 7

/-- The symbols of a node in a place that asks for a tightness. -/
def fitted (slot : Nat) (x : Node) (ss : List Symbol) : List Symbol :=
  if x.tightness < slot then Symbol.enclose ss else ss

end Node

/-! ## Layout -/

/-- What a layout may choose: which of its two forms a declaration has, how many empty lines stand
in front of a line, and how many newlines follow the last one. -/
structure Layout where
  annotated : Node → Bool
  before : Node → Nat
  behind : List Node → Nat

namespace Node

/-- Parameters with commas between them. -/
def paramSymbols : List String → List Symbol
  | [] => []
  | x :: xs => .name x :: xs.flatMap fun y => [.mark .comma, .name y]

/-- What follows the last arm: an `ELSE`, or the `END` of its block. -/
def endingSymbols (otherwise : Option (List Symbol)) (block : Bool) : List Symbol :=
  match otherwise with
  | some ss => .word .elseWord :: ss
  | none => if block then [.word .endWord] else []

mutual

/-- The symbols of a node as a line. -/
def symbols (L : Layout) : Node → List Symbol
  | number n _ => [.number n]
  | text s _ => [.text s]
  | ident x _ => [.name x]
  | list xs _ => .mark .leftBracket :: (itemSymbols L xs ++ [.mark .rightBracket])
  | declaration tag x v s =>
    (if L.annotated (declaration tag x v s) then [.name x, .mark .colon, .word tag.kind]
      else [.word tag.kind, .name x]) ++ .mark .assign :: fitted 1 v (symbols L v)
  | binary op l r _ =>
    fitted op.leftSlot l (symbols L l) ++ op.symbol :: fitted op.rightSlot r (symbols L r)
  | unary op x _ => op.symbol :: fitted op.tightness x (symbols L x)
  | choice arms otherwise _ => .word .ifWord :: armSymbols L (elseSymbols L otherwise) arms
  | forLoop x first last step b _ =>
    .word .forWord :: .name x :: .mark .assign :: (fitted 1 first (symbols L first) ++
      .word .toWord :: (fitted 1 last (symbols L last) ++ stepSymbols L step ++
      .word .thenWord :: branchSymbols L b))
  | whileLoop c b _ =>
    .word .whileWord :: (fitted 1 c (symbols L c) ++ .word .thenWord :: branchSymbols L b)
  | function name params body arrow _ =>
    .word .fnWord :: (name.toList.map .name ++ .mark .leftParen :: (paramSymbols params ++
      .mark .rightParen :: if arrow then .mark .arrow :: fitted 1 body (symbols L body)
        else .mark .newline :: (blockSymbols L 0 body ++ [.word .endWord])))
  | call f args _ =>
    fitted 7 f (symbols L f) ++ .mark .leftParen :: (itemSymbols L args ++ [.mark .rightParen])
  | returnWith v _ => .word .returnWord :: resultSymbols L v
  | continueLoop _ => [.word .continueWord]
  | breakLoop _ => [.word .breakWord]

/-- Expressions with commas between them. -/
def itemSymbols (L : Layout) : List Node → List Symbol
  | [] => []
  | x :: xs => fitted 1 x (symbols L x) ++
    if xs.isEmpty then [] else .mark .comma :: itemSymbols L xs

/-- Lines with newlines between them, and newlines behind them. -/
def lineSymbols (L : Layout) (behind : Nat) : List Node → List Symbol
  | [] => Symbol.newlines behind
  | x :: xs => Symbol.newlines (L.before x) ++ (symbols L x ++
    if xs.isEmpty then Symbol.newlines behind else .mark .newline :: lineSymbols L behind xs)

/-- The lines of a block, with `more` newlines behind them than the layout has there. -/
def blockSymbols (L : Layout) (more : Nat) : Node → List Symbol
  | list xs _ => lineSymbols L (L.behind xs + more) xs
  | _ => []

/-- A block without its `END`, or a statement on the same line. -/
def bodySymbols (L : Layout) (more : Nat) : Branch Node → List Symbol
  | ⟨body, block⟩ =>
    if block then .mark .newline :: blockSymbols L more body else fitted 1 body (symbols L body)

def branchSymbols (L : Layout) : Branch Node → List Symbol
  | ⟨body, block⟩ =>
    if block then .mark .newline :: (blockSymbols L 0 body ++ [.word .endWord])
    else fitted 1 body (symbols L body)

/-- Arms up to the end of their `IF`. A newline stands between a block and what follows it, so that
this is not taken for a part of the last line. -/
def armSymbols (L : Layout) (otherwise : Option (List Symbol)) : List (Arm Node) → List Symbol
  | [] => []
  | ⟨c, b⟩ :: as => fitted 1 c (symbols L c) ++ .word .thenWord ::
    if as.isEmpty then
      bodySymbols L (if otherwise.isSome then 1 else 0) b ++ endingSymbols otherwise b.block
    else bodySymbols L 1 b ++ .word .elifWord :: armSymbols L otherwise as

def elseSymbols (L : Layout) : Option (Branch Node) → Option (List Symbol)
  | none => none
  | some b => some (branchSymbols L b)

def stepSymbols (L : Layout) : Option Node → List Symbol
  | none => []
  | some x => .word .stepWord :: fitted 1 x (symbols L x)

def resultSymbols (L : Layout) : Option Node → List Symbol
  | none => []
  | some x => fitted 1 x (symbols L x)

end

/-! ## Trees that programs can have -/

/-- What a node stands for: an expression, a line, or the lines of a program or of a block. -/
inductive Role where
  | expression | statement | block
deriving DecidableEq

mutual

/-- Whether a node can stand in a role: the statements that leave a loop or a function only as
lines or as what a construct carries out, a block only as a list of lines, no `IF` without arms. -/
def fits : Role → Node → Bool
  | role, number .. => role != .block
  | role, text .. => role != .block
  | role, ident .. => role != .block
  | role, list xs _ => fitsAll (if role = .block then .statement else .expression) xs
  | role, declaration _ _ v _ => role != .block && fits .expression v
  | role, binary _ l r _ => role != .block && fits .expression l && fits .expression r
  | role, unary _ x _ => role != .block && fits .expression x
  | role, choice arms otherwise _ =>
    role != .block && !arms.isEmpty && fitsArms arms && fitsElse otherwise
  | role, forLoop _ first last step b _ =>
    role != .block && fits .expression first && fits .expression last && fitsOption step &&
      fitsBranch b
  | role, whileLoop c b _ => role != .block && fits .expression c && fitsBranch b
  | role, function _ _ body arrow _ =>
    role != .block && fits (if arrow then .expression else .block) body
  | role, call f args _ => role != .block && fits .expression f && fitsAll .expression args
  | role, returnWith v _ => role == .statement && fitsOption v
  | role, continueLoop _ => role == .statement
  | role, breakLoop _ => role == .statement

def fitsAll (role : Role) : List Node → Bool
  | [] => true
  | x :: xs => fits role x && fitsAll role xs

def fitsOption : Option Node → Bool
  | none => true
  | some x => fits .expression x

def fitsBranch : Branch Node → Bool
  | ⟨body, block⟩ => fits (if block then .block else .statement) body

def fitsArms : List (Arm Node) → Bool
  | [] => true
  | ⟨c, b⟩ :: as => fits .expression c && fitsBranch b && fitsArms as

def fitsElse : Option (Branch Node) → Bool
  | none => true
  | some b => fitsBranch b

end

end Node

end BasicScript
