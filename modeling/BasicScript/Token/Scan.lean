import BasicScript.Diagnostic
import BasicScript.Number.Reading
import BasicScript.Token.Basic

/-!
Cutting source text into tokens. Each step looks at the first character of what is left and takes a
lexeme: a token, or a stretch of blanks or comment that yields none. Every character belongs to
exactly one lexeme, so the tokens and the stretches between them make up the text.
-/

namespace BasicScript

/-- Why text cannot be cut into tokens. -/
inductive LexicalFault where
  | illegalCharacter (c : Char)
  | loneBang
  | unclosedString
deriving Repr, DecidableEq

namespace LexicalFault

def kind : LexicalFault → Diagnostic.Kind
  | illegalCharacter _ => .illegalCharacter
  | loneBang | unclosedString => .expectedCharacter

def message : LexicalFault → String
  | illegalCharacter c => "'" ++ c.toString ++ "'"
  | loneBang => "'=' (after '!')"
  | unclosedString => "'\"' (to close string)"

def diagnostic (f : LexicalFault) (span : Span) : Diagnostic :=
  ⟨f.kind, f.message, none, span, []⟩

end LexicalFault

namespace Scan

/-- A letter of a word after its first. -/
def isWordChar (c : Char) : Bool :=
  c.isAlphanum || c == '_'

/-- What an escaped character of a string stands for. -/
def unescape : Char → Char
  | 'n' => '\n'
  | 't' => '\t'
  | c => c

/-- Reads the inside of a string: what it stands for in reverse, after `done`, and the number of
characters read, the closing quote included. None if the string is not closed. -/
def string? (done : List Char) (count : Nat) : List Char → Option (List Char × Nat)
  | [] => none
  | '"' :: _ => some (done, count + 1)
  | ['\\'] => none
  | '\\' :: c :: r => string? (unescape c :: done) (count + 2) r
  | c :: r => string? (c :: done) (count + 1) r

/-- The digits and the point of a number literal at the front of a text. -/
def number (cs : List Char) : List Char :=
  let whole := cs.takeWhile Char.isDigit
  match cs.dropWhile Char.isDigit with
  | '.' :: r => whole ++ '.' :: r.takeWhile Char.isDigit
  | _ => whole

/-- A lexeme: how many characters it has after its first, and the token it is, if any. -/
structure Lexeme where
  more : Nat
  token : Option (TokenKind × Option Literal)

/-- A failed lexeme: how many characters the report covers after the first. -/
structure Failure where
  more : Nat
  fault : LexicalFault

namespace Lexeme

def skip (more : Nat) : Lexeme :=
  ⟨more, none⟩

/-- A token that its spelling says all about. -/
def mark (more : Nat) (kind : TokenKind) : Lexeme :=
  ⟨more, some (kind, none)⟩

/-- The longer of two marks if the second character is there, else the shorter. -/
def either (second : Char) (long short : TokenKind) (r : List Char) : Lexeme :=
  if r.head? = some second then mark 1 long else mark 0 short

def ofNumber (cs : List Char) : Lexeme :=
  let digits := number cs
  let n := Number.ofLiteral digits
  let kind :=
    match n with
    | .int _ => TokenKind.int
    | .float _ => TokenKind.float
  ⟨digits.length - 1, some (kind, some (.number n))⟩

def ofWord (cs : List Char) : Lexeme :=
  let word := cs.takeWhile isWordChar
  let spelling := String.ofList word
  ⟨word.length - 1, some (TokenKind.ofWord spelling, some (.text spelling))⟩

end Lexeme

/-- The characters between tokens, apart from comments. -/
def isGap (c : Char) : Bool :=
  c == ' ' || c == '\t' || c == '\r'

/-- The kind of a character that is a token whatever follows it. -/
def single? : Char → Option TokenKind
  | ';' | '\n' => some .newline
  | '+' => some .plus
  | '*' => some .star
  | '/' => some .slash
  | '^' => some .caret
  | '(' => some .leftParen
  | ')' => some .rightParen
  | '[' => some .leftBracket
  | ']' => some .rightBracket
  | ',' => some .comma
  | ':' => some .colon
  | _ => none

/-- A mark that a second character makes another one of: that character, the longer mark and the
shorter. -/
def extensible? : Char → Option (Char × TokenKind × TokenKind)
  | '-' => some ('>', .arrow, .minus)
  | '=' => some ('=', .equal, .assign)
  | '<' => some ('=', .atMost, .less)
  | '>' => some ('=', .atLeast, .greater)
  | _ => none

/-- The mark at the front of the text `c :: r`, if `c` begins one. -/
def mark? (c : Char) (r : List Char) : Option Lexeme :=
  match single? c with
  | some kind => some (.mark 0 kind)
  | none => (extensible? c).map fun (second, long, short) => .either second long short r

/-- The string behind the quote in front of `r`. -/
def string (r : List Char) : Except Failure Lexeme :=
  match string? [] 0 r with
  | some (done, count) => .ok ⟨count, some (.string, some (.text (String.ofList done.reverse)))⟩
  | none => .error ⟨r.length, .unclosedString⟩

/-- The lexeme at the front of the text `c :: r`. A comment runs up to the newline behind it. -/
def lexeme (c : Char) (r : List Char) : Except Failure Lexeme :=
  if isGap c then .ok (.skip 0)
  else if c = '#' then .ok (.skip (r.takeWhile (· != '\n')).length)
  else if c = '"' then string r
  else if c = '!' then
    if r.head? = some '=' then .ok (.mark 1 .notEqual) else .error ⟨1, .loneBang⟩
  else if c.isDigit then .ok (.ofNumber (c :: r))
  else if c.isAlpha then .ok (.ofWord (c :: r))
  else
    match mark? c r with
    | some l => .ok l
    | none => .error ⟨0, .illegalCharacter c⟩

/-- The position after the first character and `more` others. -/
def after (p : Position) (c : Char) (r : List Char) (more : Nat) : Position :=
  (p.advance c).advances (r.take more)

/-- The tokens of a text that starts at `p`, behind those already taken, which are in reverse. -/
def run (p : Position) (done : List Token) : List Char → Except Diagnostic (List Token)
  | [] => .ok (⟨.endOfInput, none, .single p⟩ :: done).reverse
  | c :: r =>
    match lexeme c r with
    | .ok l =>
      let next := after p c r l.more
      match l.token with
      | some (kind, literal) => run next (⟨kind, literal, ⟨p, next⟩⟩ :: done) (r.drop l.more)
      | none => run next done (r.drop l.more)
    | .error f => .error (f.fault.diagnostic ⟨p, after p c r f.more⟩)
termination_by cs => cs.length
decreasing_by all_goals simp only [List.length_cons, List.length_drop]; omega

end Scan

/-- The tokens of a source, the end of input last. -/
def Source.tokens (source : Source) : Except Diagnostic (List Token) :=
  Scan.run (.start source) [] source.text.toList

end BasicScript
