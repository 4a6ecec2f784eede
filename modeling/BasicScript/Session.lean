import BasicScript.Console.Memory
import BasicScript.Evaluation.Visit

/-!
Sessions: programs run one after another over one set of global names. A session starts with the
constants and the built-in functions, and a failed program keeps what it did before it failed.
-/

namespace BasicScript

namespace Session

/-- The names that every session starts with. -/
def prelude : List (String × Value) :=
  [("null", .null), ("FALSE", .ofInt 0), ("false", .ofInt 0), ("TRUE", .ofInt 1),
    ("true", .ofInt 1), ("MATH_PI", .ofNumber (.float 3.141592653589793))] ++
    Builtin.all.map fun b => (b.name, .plain (.builtin b))

def startStore : Store :=
  prelude.foldl (fun s (name, v) => s.bind .globals name v) .start

variable {H : Type}

/-- A new session over a host. -/
def start (host : H) : Machine H :=
  ⟨startStore, host, 0, []⟩

variable [Host H]

/-- Runs a program. -/
def run (fuel : Nat) (source : Source) : Run H Value :=
  Visit.runSource (visit fuel) source

/-- Runs the program in a file of the host. -/
def runFile (fuel : Nat) (path : String) : Run H Value := do
  let nowhere : Span := .single (.start ⟨path, ""⟩)
  let onFault (f : Host.Fault) : Diagnostic :=
    ⟨.internal, "Error reading file '" ++ path ++ "': " ++ f.message, none, nowhere, []⟩
  let text ← Run.ask onFault fun h => (Host.load h path, h)
  run fuel ⟨path, text⟩

end Session

end BasicScript
