import BasicScript.Console.Host

/-!
A host in memory: input waits in a queue, output is collected line by line, and files are a table
of texts.
-/

namespace BasicScript

structure MemoryHost where
  input : List String
  output : Array String
  clears : Nat
  files : List (String × String)
deriving Repr, DecidableEq, Inhabited

namespace MemoryHost

def ofInput (input : List String) (files : List (String × String)) : MemoryHost :=
  ⟨input, #[], 0, files⟩

/-- Adds or replaces a file. -/
def putFile (h : MemoryHost) (path text : String) : MemoryHost :=
  { h with files := (path, text) :: h.files }

/-- Adds lines at the end of the input. -/
def addInput (h : MemoryHost) (lines : List String) : MemoryHost :=
  { h with input := h.input ++ lines }

instance : Host MemoryHost where
  writeLine line h := { h with output := h.output.push line }
  linesLeft h := h.input.length
  readLine h :=
    match h.input with
    | [] => (.fault .endOfInput, h)
    | line :: rest => (.answer line, { h with input := rest })
  clear h := { h with clears := h.clears + 1 }
  load h path :=
    match h.files.lookup path with
    | some text => .answer text
    | none => .fault (.missingFile path)

end MemoryHost

end BasicScript
