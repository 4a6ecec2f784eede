import BasicScript.Application

/-!
The command `xbasic`: answers what the program asks for, with lines from standard input and files
from the file system, and shows what it has to show.
-/

namespace BasicScript.Main

/-- The report of a diagnostic on the error stream. -/
def reportText (d : Diagnostic) : String :=
  "Error: " ++ d.headline ++ "\n  at " ++ d.span.place ++ "\n" ++ d.span.excerpt ++ "\n" ++
    String.join (d.notes.map fun note => "  " ++ note ++ "\n")

def emit : Emission → IO Unit
  | .out text => do
    let stdout ← IO.getStdout
    stdout.putStr text
    stdout.flush
  | .err text => IO.eprint text
  | .report d => IO.eprint (reportText d)

/-- Shows what has come up since the first `count` emissions. -/
def emitFrom (count : Nat) (shown : Array Emission) : IO Unit :=
  (shown.toList.drop count).forM emit

/-- The bytes of the next line of standard input, with its newline. -/
partial def readBytes (line : ByteArray) : IO ByteArray := do
  let next ← (← IO.getStdin).read 1
  if next.isEmpty || next.data == #[10] then return line ++ next
  readBytes (line ++ next)

/-- What the system says about a failure, with its number. -/
def systemText : IO.Error → String
  | .permissionDenied _ code details | .inappropriateType _ code details
  | .invalidArgument _ code details | .resourceExhausted _ code details
  | .noSuchThing _ code details | .otherError code details =>
    details ++ " (os error " ++ toString code ++ ")"
  | e => toString e

/-- What the file system says about a file. -/
def readFile (path : String) : IO FileState := do
  try
    return Terminal.decodeFile (← IO.FS.readBinFile path)
  catch
    | .noFileOrDirectory .. => return .absent
    | e => return .unreadable (.system (systemText e))

/-- The terminal with one more thing known. -/
def learn (t : Terminal) : Host.Query → IO Terminal
  | .line => do
    let line ← readBytes .empty
    if line.isEmpty then return { t with closed := true }
    return { t with input := t.input ++ [Terminal.decodeLine line.toList] }
  | .file path => do
    return { t with files := (path, ← readFile path) :: t.files }

/-- Carries out phases from a state in which `count` emissions of the phase are shown already. -/
partial def loop (pretty : Bool) (fuel count : Nat) (phase : Phase) (state : Application.State) :
    IO UInt32 := do
  match phase with
  | .finished code => return code.toUInt32
  | _ =>
    match Application.advance fuel pretty phase state with
    | .ok next after =>
      emitFrom count after.host.shown
      loop pretty fuel 0 next { after with host := { after.host with shown := #[] } }
    | .error halt after =>
      emitFrom count after.host.shown
      let count := max count after.host.shown.size
      match halt with
      | .awaits q => loop pretty fuel count phase { state with host := ← learn state.host q }
      | .outOfFuel => loop pretty (2 * fuel) count phase state
      | .failure d =>
        emit (.report d)
        return 1

end BasicScript.Main

open BasicScript in
def main (arguments : List String) : IO UInt32 := do
  match CommandLine.ofArguments arguments with
  | .error refusal =>
    if refusal.isAnswer then
      IO.print refusal.message
      return 0
    else
      IO.eprint refusal.message
      return 2
  | .ok c =>
    let terminal : Terminal := ⟨[], false, [], #[]⟩
    Main.loop c.pretty 4096 0 (Application.firstPhase c) (Session.start terminal)
