import BasicScript.Console.Host
import BasicScript.Diagnostic

/-!
A host at a terminal, as far as it is known. The lines of input that have come in wait in a queue,
what was written is collected in order, and the files that have been looked up are a table. What is
not known yet is asked for, so the same evaluation can be made again once it is.
-/

namespace BasicScript

/-- What is known of a file. -/
inductive FileState where
  | text (content : String)
  | absent
  | unreadable (f : Host.Fault)
deriving Repr, DecidableEq

/-- One thing that is shown to the user. -/
inductive Emission where
  | out (text : String)
  | err (text : String)
  | report (d : Diagnostic)

/-- A line of input as it came in, with its end; none if it is no text. -/
abbrev InputLine := Option String

structure Terminal where
  input : List InputLine
  /-- Whether no line follows the ones that wait. -/
  closed : Bool
  files : List (String × FileState)
  shown : Array Emission

namespace Terminal

instance : Inhabited Terminal := ⟨⟨[], true, [], #[]⟩⟩

/-- Bytes cut behind each newline. -/
def cutLines (bytes : List UInt8) : List (List UInt8) :=
  let (line, lines) := bytes.foldr
    (fun b (line, lines) =>
      if b = 10 then ([b], if line.isEmpty then lines else line :: lines) else (b :: line, lines))
    ([], [])
  if line.isEmpty then lines else line :: lines

/-- A line of input from its bytes. -/
def decodeLine (bytes : List UInt8) : InputLine :=
  String.fromUTF8? ⟨bytes.toArray⟩

/-- What is known of a file with some content. -/
def decodeFile (bytes : ByteArray) : FileState :=
  match String.fromUTF8? bytes with
  | some text => .text text
  | none => .unreadable .undecodable

/-- A line without the newline and carriage returns at its end. -/
def chomp (line : String) : String :=
  String.ofList (line.toList.reverse.dropWhile fun c => c == '\n' || c == '\r').reverse

def missing : Host.Fault :=
  .system "No such file or directory (os error 2)"

/-- Shows one thing more. -/
def emit (e : Emission) (t : Terminal) : Terminal :=
  { t with shown := t.shown.push e }

/-- Takes the next line of input as it came in. -/
def takeLine (t : Terminal) : Host.Reply String × Terminal :=
  match t.input with
  | some line :: rest => (.answer line, { t with input := rest })
  | none :: rest => (.fault .undecodable, { t with input := rest })
  | [] => (if t.closed then .fault .endOfInput else .pending .line, t)

/-- Whether there is a file. -/
def fileExists (t : Terminal) (path : String) : Host.Reply Bool :=
  match t.files.lookup path with
  | some .absent => .answer false
  | some _ => .answer true
  | none => .pending (.file path)

def loadFile (t : Terminal) (path : String) : Host.Reply String :=
  match t.files.lookup path with
  | some (.text content) => .answer content
  | some .absent => .fault missing
  | some (.unreadable f) => .fault f
  | none => .pending (.file path)

instance : Host Terminal where
  writeLine line := emit (.out (line ++ "\n"))
  linesLeft t := t.input.length
  readLine t :=
    match takeLine t with
    | (.answer line, t) => (.answer (chomp line), t)
    | other => other
  clear := emit (.out "\x1b[2J\x1b[1;1H")
  load := loadFile

end Terminal

end BasicScript
