import BasicScript.Number.Reading

/-!
What a program needs from outside: lines of input, a screen to write to, and files to load. A host
answers from what it knows; one that does not know yet says what it has to be told first.
-/

namespace BasicScript

namespace Host

/-- Why a host cannot give what is asked for. -/
inductive Fault where
  | endOfInput
  | missingFile (path : String)
  | undecodable
  | system (message : String)
deriving Repr, DecidableEq

def Fault.message : Fault → String
  | endOfInput => "end of input"
  | missingFile path => "No such file or directory: '" ++ path ++ "'"
  | undecodable => "stream did not contain valid UTF-8"
  | system message => message

/-- What a host may have to be told. -/
inductive Query where
  | line
  | file (path : String)
deriving Repr, DecidableEq

inductive Reply (α : Type) where
  | answer (a : α)
  | fault (f : Fault)
  | pending (q : Query)

end Host

/-- The operations of a host. -/
class Host (H : Type) where
  /-- Writes a text and ends the line. -/
  writeLine : String → H → H
  /-- How many lines of input the host can still give. -/
  linesLeft : H → Nat
  /-- Takes the next line of input, without its end. -/
  readLine : H → Host.Reply String × H
  /-- Clears the screen. -/
  clear : H → H
  /-- The text of a file. -/
  load : H → String → Host.Reply String

namespace Host

variable {H : Type} [Host H]

/-- What is told of a line that is no number. -/
def complaint (line : String) : String :=
  "'" ++ line ++ "' must be a number. Try again!"

/-- Takes at most `n` lines, up to the first number, and complains about each one before it. -/
def readNumberFrom : Nat → H → Reply Number × H
  | 0, h => (.fault .endOfInput, h)
  | n + 1, h =>
    match readLine h with
    | (.answer line, h) =>
      match Number.ofText? line with
      | some x => (.answer x, h)
      | none => readNumberFrom n (writeLine (complaint line) h)
    | (.fault f, h) => (.fault f, h)
    | (.pending q, h) => (.pending q, h)

/-- Takes lines up to the first number and complains about each one before it. -/
def readNumber (h : H) : Reply Number × H :=
  readNumberFrom (linesLeft h + 1) h

end Host

end BasicScript
