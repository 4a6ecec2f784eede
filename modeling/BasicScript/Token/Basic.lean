import BasicScript.Number.Basic
import BasicScript.Source.Position

/-!
Tokens of the language. Operators, marks and keywords are spelled in one way each; literals and
identifiers carry what they stand for.
-/

namespace BasicScript

inductive TokenKind where
  | int | float | string | identifier
  | plus | minus | star | slash | caret
  | assign | equal | notEqual | less | greater | atMost | atLeast
  | leftParen | rightParen | leftBracket | rightBracket
  | comma | colon | arrow
  | num | text | list
  | and | or | not
  | ifWord | elifWord | elseWord | forWord | toWord | stepWord | whileWord | fnWord | thenWord
  | endWord | returnWord | continueWord | breakWord
  | newline | endOfInput
deriving Repr, DecidableEq, Inhabited

namespace TokenKind

/-- The keywords, type tags and word operators among them. -/
def keywords : List TokenKind :=
  [num, text, list, and, or, not, ifWord, elifWord, elseWord, forWord, toWord, stepWord,
    whileWord, fnWord, thenWord, endWord, returnWord, continueWord, breakWord]

/-- The operators and punctuation marks. -/
def marks : List TokenKind :=
  [plus, minus, star, slash, caret, assign, equal, notEqual, less, greater, atMost, atLeast,
    leftParen, rightParen, leftBracket, rightBracket, comma, colon, arrow]

/-- The spelling of an operator, mark or keyword. -/
def spelling? : TokenKind → Option String
  | plus => "+"
  | minus => "-"
  | star => "*"
  | slash => "/"
  | caret => "^"
  | assign => "="
  | equal => "=="
  | notEqual => "!="
  | less => "<"
  | greater => ">"
  | atMost => "<="
  | atLeast => ">="
  | leftParen => "("
  | rightParen => ")"
  | leftBracket => "["
  | rightBracket => "]"
  | comma => ","
  | colon => ":"
  | arrow => "->"
  | num => "num"
  | text => "text"
  | list => "list"
  | and => "and"
  | or => "or"
  | not => "not"
  | ifWord => "IF"
  | elifWord => "ELIF"
  | elseWord => "ELSE"
  | forWord => "FOR"
  | toWord => "TO"
  | stepWord => "STEP"
  | whileWord => "WHILE"
  | fnWord => "FN"
  | thenWord => "THEN"
  | endWord => "END"
  | returnWord => "RETURN"
  | continueWord => "CONTINUE"
  | breakWord => "BREAK"
  | int | float | string | identifier | newline | endOfInput => none

/-- The kinds whose spelling varies. -/
def varied : List TokenKind :=
  [int, float, string, identifier, newline, endOfInput]

def all : List TokenKind :=
  keywords ++ marks ++ varied

/-- What a kind is called: its spelling in quotes, or a name. -/
def name (k : TokenKind) : String :=
  match k.spelling? with
  | some s => "'" ++ s ++ "'"
  | none =>
    match k with
    | int => "int"
    | float => "float"
    | string => "string"
    | identifier => "identifier"
    | newline => "newline"
    | _ => "end of input"

/-- The kind of a word: a keyword if it is spelled like one. -/
def ofWord (s : String) : TokenKind :=
  (keywords.find? fun k => k.spelling? == some s).getD identifier

end TokenKind

/-- What a token stands for: a number, the contents of a string, or the spelling of a word. -/
inductive Literal where
  | number (n : Number)
  | text (s : String)

structure Token where
  kind : TokenKind
  literal : Option Literal
  span : Span

namespace Token

instance : Inhabited Token := ⟨⟨.endOfInput, none, default⟩⟩

/-- The contents of a string or the spelling of a word; empty for any other token. -/
def textOrEmpty (t : Token) : String :=
  match t.literal with
  | some (.text s) => s
  | _ => ""

end Token

end BasicScript
