import BasicScript.Diagnostic
import BasicScript.Program.Node
import BasicScript.Token.Basic

/-!
The faults that a token list can have as a program. Each has one wording, and most have a help for
someone who meets it.
-/

namespace BasicScript

/-- What a program may not contain. -/
inductive GrammarFault where
  | trailingToken
  | identifier
  | declaredName (tag : Tag)
  | assignSign
  | typeTag
  | callEnd
  | groupEnd
  | listEnd
  | toWord
  | thenWord
  | endWord
  | armEnd
  | paramsStart
  | paramsEnd
  | noParamsEnd
  | functionBody
  | malformedNumber
  | operand (found : TokenKind)
deriving Repr, DecidableEq

namespace GrammarFault

def message : GrammarFault → String
  | trailingToken => "Token cannot appear after previous tokens"
  | identifier | declaredName _ => "Expected identifier"
  | assignSign => "Expected '='"
  | typeTag => "Expected 'num', 'text' or 'list'"
  | callEnd | paramsEnd => "Expected ',' or ')'"
  | groupEnd => "Expected ')'"
  | listEnd => "Expected ',' or ']'"
  | toWord => "Expected 'TO'"
  | thenWord => "Expected 'THEN'"
  | endWord | armEnd => "Expected 'END'"
  | paramsStart => "Expected '('"
  | noParamsEnd => "Expected identifier or ')'"
  | functionBody => "Expected '->' or NEWLINE"
  | malformedNumber => "Malformed number literal"
  | operand _ =>
    "Expected int, float, string, identifier, '-', '(', '[', 'IF', 'FOR', 'WHILE' or 'FN'"

/-- What may help someone who meets the fault. -/
def help : GrammarFault → Option String
  | declaredName tag =>
    some ("Declarations name the variable after its type. Example: " ++ tag.spelling ++ " x = ...")
  | callEnd =>
    some "Function calls must be closed with ')' after the arguments. Example: f(a, b)"
  | groupEnd =>
    some "Every opening parenthesis '(' must have a matching closing parenthesis ')'."
  | listEnd =>
    some "List literals must be closed with ']' after the opening '['. Example: [1, 2, 3]"
  | armEnd => some "Block forms of IF, FOR, WHILE and FN are closed with 'END'."
  | paramsStart =>
    some "Parameters follow the function name in parentheses. Example: FN add(a, b) -> a + b"
  | functionBody =>
    some "A function body is either '-> <expression>' or a block of lines closed by 'END'."
  | operand .rightParen =>
    some "Found ')' without matching '('. Check for unbalanced parentheses."
  | operand .rightBracket =>
    some "Found ']' without matching '['. Check for unbalanced brackets."
  | operand .endOfInput | operand .newline =>
    some "Reached the end of the statement while expecting an expression."
  | operand _ => some "Expected a literal value, variable, or parenthesized expression here."
  | _ => none

def diagnostic (f : GrammarFault) (span : Span) : Diagnostic :=
  ⟨.invalidSyntax, f.message, f.help, span, []⟩

end GrammarFault

end BasicScript
