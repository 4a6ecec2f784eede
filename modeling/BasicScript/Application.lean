import BasicScript.CommandLine
import BasicScript.Console.Terminal
import BasicScript.Shell

/-!
The program from its arguments to its exit code. It goes through phases: a script, the greeting of
the shell, and one prompt after another. A phase is a function of the state it starts in, so one
that has to wait for input or a file is begun again when it has come, and repeats itself up to that
point.
-/

namespace BasicScript

/-- What the program does next. -/
inductive Phase where
  | script (path : String) (thenShell : Bool)
  | greeting
  | prompt
  | finished (code : Nat)
deriving Repr, DecidableEq

namespace Application

/-- A session at a terminal. -/
abbrev State := Machine Terminal

def out (text : String) : Run Terminal Unit :=
  Run.tell (Terminal.emit (.out text))

def err (text : String) : Run Terminal Unit :=
  Run.tell (Terminal.emit (.err text))

/-- Shows a diagnostic, as a report or as plain text. -/
def showDiagnostic (pretty : Bool) (d : Diagnostic) : Run Terminal Unit :=
  if pretty then Run.tell (Terminal.emit (.report d)) else out (d.text ++ "\n")

/-- An evaluation with its failure as a result. -/
def attempt (r : Run Terminal α) : Run Terminal (Except Diagnostic α) := fun m =>
  match r m with
  | .ok a m => .ok (.ok a) m
  | .error (.failure d) m => .ok (.error d) m
  | .error h m => .error h m

/-- Whether there is a file. -/
def fileExists (path : String) : Run Terminal Bool := fun m =>
  match m.host.fileExists path with
  | .answer b => .ok b m
  | .fault _ => .ok true m
  | .pending q => .error (.awaits q) m

/-- The next line of input as it came in, or why there is none. -/
def takeLine : Run Terminal (Except Host.Fault String) := fun m =>
  match m.host.takeLine with
  | (.answer line, host) => .ok (.ok line) { m with host }
  | (.fault f, host) => .ok (.error f) { m with host }
  | (.pending q, host) => .error (.awaits q) { m with host }

/-- Runs a script; its failure ends the program. -/
def runScript (fuel : Nat) (pretty : Bool) (path : String) (thenShell : Bool) :
    Run Terminal Phase := do
  match CommandLine.checkPath path with
  | some message =>
    err (message ++ "\n")
    return .finished 1
  | none =>
    if ← fileExists path then
      match ← attempt (Session.runFile fuel path) with
      | .ok _ => return if thenShell then .greeting else .finished 0
      | .error d =>
        showDiagnostic pretty d
        return .finished 1
    else
      err ("Error: File '" ++ path ++ "' not found\n")
      return .finished 1

/-- What the shell says first. -/
def banner : String :=
  "XBasic Interpreter v" ++ CommandLine.versionText ++
    "\nType 'exit' or press Ctrl+D to quit\n\n"

/-- Prompts for a line and evaluates it. -/
def prompt (fuel : Nat) (pretty : Bool) : Run Terminal Phase := do
  out ">> "
  match ← takeLine with
  | .error .endOfInput =>
    out "\n"
    return .finished 0
  | .error f =>
    err ("Error reading input: " ++ f.message ++ "\n")
    return .finished 0
  | .ok line =>
    match ← Shell.evaluateLine fuel line with
    | .skip => return .prompt
    | .exit =>
      out "Goodbye!\n"
      return .finished 0
    | .value text =>
      out (Shell.resultLine text ++ "\n")
      return .prompt
    | .failure d =>
      showDiagnostic pretty d
      return .prompt

/-- Carries out a phase and yields the next one. -/
def advance (fuel : Nat) (pretty : Bool) : Phase → Run Terminal Phase
  | .script path thenShell => runScript fuel pretty path thenShell
  | .greeting => do
    out banner
    return .prompt
  | .prompt => prompt fuel pretty
  | .finished code => return .finished code

/-- The phase that the program starts with. -/
def firstPhase (c : CommandLine) : Phase :=
  match c.file with
  | some path => .script path c.wantsShell
  | none => .greeting

/-- Carries out at most `n` phases, up to the end of the program. -/
def runPhases (fuel : Nat) (pretty : Bool) : Nat → Phase → Run Terminal Phase
  | 0, phase => return phase
  | n + 1, phase =>
    match phase with
    | .finished code => return .finished code
    | phase => do
      let next ← advance fuel pretty phase
      runPhases fuel pretty n next

/-- The phases that a program can go through when `lines` lines of input are left: a script, the
greeting, one prompt per line, and the prompt at the end of input. -/
def phaseBound (lines : Nat) : Nat :=
  lines + 4

/-- Runs the program over a terminal of which everything is known. -/
def run (fuel : Nat) (c : CommandLine) (terminal : Terminal) : EStateM.Result Halt State Phase :=
  runPhases fuel c.pretty (phaseBound terminal.input.length) (firstPhase c) (Session.start terminal)

end Application

end BasicScript
