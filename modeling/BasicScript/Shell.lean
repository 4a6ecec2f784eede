import BasicScript.Session
import BasicScript.Text.Blank

/-!
The lines of an interactive shell. A line that is blank does nothing, two words end the shell, and
every other line is run as a program.
-/

namespace BasicScript.Shell

/-- What a line leads to. -/
inductive Outcome where
  | skip
  | exit
  | value (text : String)
  | failure (d : Diagnostic)

/-- How the value of a line is announced. -/
def resultLine (text : String) : String :=
  "The process returned: " ++ text

/-- The name of the source that a line is. -/
def sourceName : String := "<stdin>"

variable {H : Type} [Host H]

/-- Evaluates one line. A failure of the line is an outcome; only what cannot be decided yet is
left undecided. -/
def evaluateLine (fuel : Nat) (line : String) : Run H Outcome := fun m =>
  let line := Text.trimBlanks line
  if line.isEmpty then .ok .skip m
  else if line == "exit" || line == "quit" then .ok .exit m
  else
    match Session.run fuel ⟨sourceName, line⟩ m with
    | .ok v m =>
      let text := m.store.display v
      .ok (.value text) m
    | .error (.failure d) m => .ok (.failure d) m
    | .error h m => .error h m

end BasicScript.Shell
