import BasicScript.Program.Fault
import BasicScript.Token.Cursor
import BasicScript.Token.Scan

/-!
Reading programs from tokens. Each level of the grammar is one function on a cursor into the
tokens; it consumes the tokens of one construct and yields its tree. The first token that cannot be
part of a program ends the reading.
-/

namespace BasicScript

namespace Grammar

/-- Why reading stops: a fault in the program, or too little fuel. -/
inductive Stop where
  | fault (d : Diagnostic)
  | fuel

abbrev Reader := EStateM Stop Cursor

def peek : Reader Token := fun c => .ok c.peek c

def peekKind : Reader TokenKind := fun c => .ok c.peek.kind c

/-- Consumes the next token. -/
def next : Reader Token := fun c => .ok c.peek c.advance

/-- Fails at the next token. -/
def fail (f : GrammarFault) : Reader α := fun c => .error (.fault (f.diagnostic c.peek.span)) c

/-- Fails at a span. -/
def failAt (f : GrammarFault) (span : Span) : Reader α :=
  fun c => .error (.fault (f.diagnostic span)) c

/-- Consumes the next token if it is of a kind, and says whether it did. -/
def accept (kind : TokenKind) : Reader Bool := fun c =>
  if c.peek.kind = kind then .ok true c.advance else .ok false c

/-- Consumes the next token, which must be of a kind. -/
def expect (kind : TokenKind) (fault : GrammarFault) : Reader Token := fun c =>
  if c.peek.kind = kind then .ok c.peek c.advance
  else .error (.fault (fault.diagnostic c.peek.span)) c

/-- From the start of a span to the end of the token consumed last. -/
def spanFrom (span : Span) : Reader Span := fun c => .ok (span.through c.before) c

/-- Consumes all newlines in front. -/
def skipNewlines : Reader Unit := fun c => .ok () c.behindNewlines

/-- The levels of operators that associate to the left, loosest first. -/
inductive Level where
  | logic | comparison | sum | product
deriving Repr, DecidableEq

namespace Level

/-- The level of the operands, if they are chains as well. -/
def tighter : Level → Option Level
  | logic => some comparison
  | comparison => some sum
  | sum => some product
  | product => none

/-- The operator of a level that a token spells. -/
def operator? : Level → TokenKind → Option BinaryOp
  | logic, .and => some .and
  | logic, .or => some .or
  | comparison, .equal => some .equal
  | comparison, .notEqual => some .notEqual
  | comparison, .less => some .less
  | comparison, .greater => some .greater
  | comparison, .atMost => some .atMost
  | comparison, .atLeast => some .atLeast
  | sum, .plus => some .add
  | sum, .minus => some .subtract
  | product, .star => some .multiply
  | product, .slash => some .divide
  | _, _ => none

end Level

def tag? : TokenKind → Option Tag
  | .num => some .num
  | .text => some .text
  | .list => some .list
  | _ => none

/-- The tokens that end a block. -/
def endsBlock : TokenKind → Bool
  | .endWord | .elseWord | .elifWord | .endOfInput => true
  | _ => false

/-- The tokens an expression can start with. -/
def startsExpression : TokenKind → Bool
  | .int | .float | .string | .identifier | .leftParen | .leftBracket | .minus | .not
  | .ifWord | .forWord | .whileWord | .fnWord | .num | .text | .list => true
  | _ => false

def binaryNode (op : BinaryOp) (left right : Node) : Node :=
  .binary op left right (left.span.through right.span)

/-- The span of a list of statements: from the first to the last, or nothing at its start. -/
def statementsSpan (start : Position) (statements : List Node) : Span :=
  match statements.head?, statements.getLast? with
  | some first, some last => first.span.through last.span
  | _, _ => .empty start

/-- More parameters, after the first. -/
def paramsLoop (done : List String) : Nat → Reader (List String)
  | 0 => throw .fuel
  | n + 1 => do
    if ← accept .comma then
      let param ← expect .identifier .identifier
      paramsLoop (param.textOrEmpty :: done) n
    else return done.reverse

/-- The parameters of a function and the parenthesis that closes them. -/
def params (n : Nat) : Reader (List String) := do
  if (← peekKind) = .identifier then
    let first ← next
    let names ← paramsLoop [first.textOrEmpty] n
    let _ ← expect .rightParen .paramsEnd
    return names
  else
    let _ ← expect .rightParen .noParamsEnd
    return []

/-! Fuel bounds the depth of the recursion below and the length of its loops. -/

mutual

/-- The lines of a program or a block, up to a token that ends it or that no line follows. -/
def statements : Nat → Reader Node
  | 0 => throw .fuel
  | n + 1 => do
    let first ← peek
    let lines ← statementsLoop n []
    return .list lines (statementsSpan first.span.start lines)

def statementsLoop : Nat → List Node → Reader (List Node)
  | 0, _ => throw .fuel
  | n + 1, done => do
    skipNewlines
    if endsBlock (← peekKind) then return done.reverse
    let line ← statement n
    if (← peekKind) = .newline then statementsLoop n (line :: done)
    else return (line :: done).reverse

def statement : Nat → Reader Node
  | 0 => throw .fuel
  | n + 1 => do
    match ← peekKind with
    | .returnWord =>
      let keyword ← next
      if startsExpression (← peekKind) then
        let value ← expression n
        return .returnWith (some value) (keyword.span.through value.span)
      else return .returnWith none keyword.span
    | .continueWord => return .continueLoop (← next).span
    | .breakWord => return .breakLoop (← next).span
    | _ => expression n

/-- A declaration in one of its two forms, or a chain of operators. -/
def expression : Nat → Reader Node
  | 0 => throw .fuel
  | n + 1 => do
    let first ← peekKind
    match tag? first with
    | some tag => declaration n tag
    | none =>
      if first = .identifier ∧ (← get).peekSecond.kind = .colon then annotated n
      else chain n .logic

/-- A type tag, a name, a sign and a value. -/
def declaration : Nat → Tag → Reader Node
  | 0, _ => throw .fuel
  | n + 1, tag => do
    let keyword ← next
    let name ← expect .identifier (.declaredName tag)
    let _ ← expect .assign .assignSign
    let value ← expression n
    return .declaration tag name.textOrEmpty value (keyword.span.through value.span)

/-- A name, a colon, a type tag, a sign and a value. -/
def annotated : Nat → Reader Node
  | 0 => throw .fuel
  | n + 1 => do
    let name ← next
    let _ ← next
    let word ← next
    match tag? word.kind with
    | none => failAt .typeTag word.span
    | some tag =>
      let _ ← expect .assign .assignSign
      let value ← expression n
      return .declaration tag name.textOrEmpty value (name.span.through value.span)

/-- Operands of a level with its operators between them; `not` stands in front of a comparison. -/
def chain : Nat → Level → Reader Node
  | 0, _ => throw .fuel
  | n + 1, level => do
    if level = .comparison ∧ (← peekKind) = .not then
      let keyword ← next
      let operand ← chain n .comparison
      return .unary .not operand (keyword.span.through operand.span)
    else
      let left ← operand n level
      chainLoop n level left

def chainLoop : Nat → Level → Node → Reader Node
  | 0, _, _ => throw .fuel
  | n + 1, level, left => do
    match level.operator? (← peekKind) with
    | none => return left
    | some op =>
      let _ ← next
      let right ← operand n level
      chainLoop n level (binaryNode op left right)

/-- An operand of a level. -/
def operand : Nat → Level → Reader Node
  | 0, _ => throw .fuel
  | n + 1, level =>
    match level.tighter with
    | some tighter => chain n tighter
    | none => factor n

def factor : Nat → Reader Node
  | 0 => throw .fuel
  | n + 1 => do
    if (← peekKind) = .minus then
      let sign ← next
      let operand ← factor n
      return .unary .negate operand (sign.span.through operand.span)
    else
      let base ← call n
      powerLoop n base

/-- Exponents; each may itself be a power, so they nest to the right. -/
def powerLoop : Nat → Node → Reader Node
  | 0, _ => throw .fuel
  | n + 1, base => do
    if ← accept .caret then
      let exponent ← factor n
      powerLoop n (binaryNode .power base exponent)
    else return base

def call : Nat → Reader Node
  | 0 => throw .fuel
  | n + 1 => do
    let callee ← atom n
    callLoop n callee

def callLoop : Nat → Node → Reader Node
  | 0, _ => throw .fuel
  | n + 1, callee => do
    if ← accept .leftParen then
      let args ← items n .rightParen
      let close ← expect .rightParen .callEnd
      callLoop n (.call callee args (callee.span.through close.span))
    else return callee

/-- Expressions with commas between them, up to a closing mark that is not consumed. -/
def items : Nat → TokenKind → Reader (List Node)
  | 0, _ => throw .fuel
  | n + 1, close => do
    if (← peekKind) = close then return []
    else itemsLoop n []

def itemsLoop : Nat → List Node → Reader (List Node)
  | 0, _ => throw .fuel
  | n + 1, done => do
    let item ← expression n
    if ← accept .comma then itemsLoop n (item :: done)
    else return (item :: done).reverse

def atom : Nat → Reader Node
  | 0 => throw .fuel
  | n + 1 => do
    let token ← peek
    match token.kind with
    | .int | .float =>
      let _ ← next
      match token.literal with
      | some (.number value) => return .number value token.span
      | _ => failAt .malformedNumber token.span
    | .string =>
      let _ ← next
      return .text token.textOrEmpty token.span
    | .identifier =>
      let _ ← next
      return .ident token.textOrEmpty token.span
    | .leftParen =>
      let _ ← next
      let inner ← expression n
      let _ ← expect .rightParen .groupEnd
      return inner
    | .leftBracket =>
      let _ ← next
      let elements ← items n .rightBracket
      let close ← expect .rightBracket .listEnd
      return .list elements (token.span.through close.span)
    | .ifWord => choice n
    | .forWord => forLoop n
    | .whileWord => whileLoop n
    | .fnWord => function n
    | kind => fail (.operand kind)

def choice : Nat → Reader Node
  | 0 => throw .fuel
  | n + 1 => do
    let keyword ← next
    let (arms, otherwise) ← armsLoop n []
    return .choice arms otherwise (← spanFrom keyword.span)

/-- A condition and its branch, their keyword already consumed, and the arms that follow. -/
def armsLoop : Nat → List (Arm Node) → Reader (List (Arm Node) × Option (Branch Node))
  | 0, _ => throw .fuel
  | n + 1, done => do
    let condition ← expression n
    let _ ← expect .thenWord .thenWord
    if ← accept .newline then
      let body ← statements n
      let done := ⟨condition, body, true⟩ :: done
      if ← accept .endWord then return (done.reverse, none)
      match ← peekKind with
      | .elifWord | .elseWord => moreArms n done
      | _ => fail .armEnd
    else
      let body ← statement n
      moreArms n (⟨condition, body, false⟩ :: done)

/-- What may follow an arm: another one, an `ELSE`, or nothing. -/
def moreArms : Nat → List (Arm Node) → Reader (List (Arm Node) × Option (Branch Node))
  | 0, _ => throw .fuel
  | n + 1, done => do
    if ← accept .elifWord then armsLoop n done
    else if ← accept .elseWord then
      let otherwise ← branch n
      return (done.reverse, some otherwise)
    else return (done.reverse, none)

/-- A block up to its `END`, or one statement on the same line. -/
def branch : Nat → Reader (Branch Node)
  | 0 => throw .fuel
  | n + 1 => do
    if ← accept .newline then
      let body ← statements n
      let _ ← expect .endWord .endWord
      return ⟨body, true⟩
    else return ⟨← statement n, false⟩

def forLoop : Nat → Reader Node
  | 0 => throw .fuel
  | n + 1 => do
    let keyword ← next
    let name ← expect .identifier .identifier
    let _ ← expect .assign .assignSign
    let first ← expression n
    let _ ← expect .toWord .toWord
    let last ← expression n
    let step ← (do if ← accept .stepWord then return some (← expression n) else return none)
    let _ ← expect .thenWord .thenWord
    let body ← branch n
    return .forLoop name.textOrEmpty first last step body (← spanFrom keyword.span)

def whileLoop : Nat → Reader Node
  | 0 => throw .fuel
  | n + 1 => do
    let keyword ← next
    let condition ← expression n
    let _ ← expect .thenWord .thenWord
    let body ← branch n
    return .whileLoop condition body (← spanFrom keyword.span)

def function : Nat → Reader Node
  | 0 => throw .fuel
  | n + 1 => do
    let keyword ← next
    let name ← (do
      if (← peekKind) = .identifier then return some (← next).textOrEmpty else return none)
    let _ ← expect .leftParen .paramsStart
    let params ← params n
    if ← accept .arrow then
      let body ← expression n
      return .function name params body true (keyword.span.through body.span)
    else
      let _ ← expect .newline .functionBody
      let body ← statements n
      let _ ← expect .endWord .endWord
      return .function name params body false (← spanFrom keyword.span)

end

/-- A whole program: its statements, and nothing behind them. -/
def program (n : Nat) : Reader Node := do
  let lines ← statements n
  if (← peekKind) = .endOfInput then return lines
  else fail .trailingToken

/-- Fuel for a token list. Between one token and the next the recursion goes less than twenty calls
deeper. -/
def fuelFor (tokens : List Token) : Nat :=
  20 * (tokens.length + 2)

end Grammar

/-- The program that a token list spells. The fuel is never used up, so the last case does not
arise. -/
def Node.ofTokens (tokens : List Token) : Except Diagnostic Node :=
  match Grammar.program (Grammar.fuelFor tokens) (.ofTokens tokens) with
  | .ok node _ => .ok node
  | .error (.fault d) _ => .error d
  | .error .fuel c => .error (GrammarFault.trailingToken.diagnostic c.peek.span)

/-- The program that a source text spells. -/
def Node.ofSource (source : Source) : Except Diagnostic Node :=
  source.tokens.bind Node.ofTokens

end BasicScript
