import BasicScript.Evaluation.Expression
import BasicScript.Evaluation.Library
import BasicScript.Program.Grammar

/-!
Calls, given a way to evaluate the nodes of a body. A function runs in a new scope inside the one it
was defined in, and its frame stands on the frames that the callee carries. No more than a fixed
number of calls is active at once.
-/

namespace BasicScript

/-- The calls that may be active at once. -/
def maxDepth : Nat := 1000

namespace Visit

variable {H : Type} [Host H]

/-- The scope and the frame of a program. -/
def programEnv : Env :=
  ⟨.globals, [⟨"<program>", none⟩]⟩

/-- Evaluates a program in the global scope. -/
def runProgram (self : Visit H) (name : String) (program : Node) : Run H Value :=
  Run.noteEnd (.finished name) ((self program programEnv).toRun programEnv.trace id)

/-- Runs the program that a source text spells. -/
def runSource (self : Visit H) (source : Source) : Run H Value := do
  Run.note (.started source.name)
  match Node.ofSource source with
  | .error d => .fail d
  | .ok program => runProgram self source.name program

/-- What is told when a call has too many arguments or too few. -/
def miscount (expected got : Nat) (callee : String) : String :=
  if expected < got then toString (got - expected) ++ " too many args passed into " ++ callee
  else toString (expected - got) ++ " too few args passed into " ++ callee

def checkCount (callee : Value) (expected got : Nat) : Run H Unit := do
  if expected = got then return ()
  else
    let shown ← Run.inspect (·.display callee)
    .fail (callee.failure callee.span (miscount expected got shown))

/-- The frames inside a call. The callee carries the place of the call and the frames around it. -/
def entered (callee : Value) (name : String) : Trace :=
  ⟨name, some callee.span.start⟩ :: callee.trace

def callClosure (self : Visit H) (callee : Value) (f : Closure) (args : List Value) :
    Run H Value := do
  checkCount callee f.params.length args.length
  Run.note (.entering f.name args.length)
  let trace := entered callee f.name
  let scope ← Run.store fun s =>
    let (scope, s) := s.child f.scope
    (scope, s.bindAll scope f.params args)
  (self f.body ⟨scope, trace⟩).toRun trace fun v => if f.arrow then v else .null

def callBuiltin (self : Visit H) (callee : Value) (b : Builtin) (args : List Value) :
    Run H Value := do
  checkCount callee b.params.length args.length
  Run.note (.calling b args.length)
  b.execute (runSource self) ⟨callee.span, entered callee b.name⟩ args

/-- What a callee does with its arguments. -/
def enter (self : Visit H) (callee : Value) (args : List Value) : Run H Value :=
  match callee.datum with
  | .function f => callClosure self callee f args
  | .builtin b => callBuiltin self callee b args
  | _ => .fail (Operation.illegal callee callee)

/-- Calls a value. The call counts as active until it ends, however it ends. -/
def apply (self : Visit H) (callee : Value) (args : List Value) : Run H Value :=
  fun m =>
    if maxDepth ≤ m.depth then
      .error (.failure (callee.failure callee.span "Maximum recursion depth exceeded")) m
    else
      match enter self callee args { m with depth := m.depth + 1 } with
      | .ok v m => .ok v { m with depth := m.depth - 1 }
      | .error h m => .error h { m with depth := m.depth - 1 }

def call (self : Visit H) (env : Env) (callee : Node) (args : List Node) (span : Span) :
    Eval H Value := do
  let f ← self callee env
  let values ← all self env [] args
  let v ← Eval.ofRun (apply self (f.withSpan span) values)
  return env.made v.datum span

end Visit

end BasicScript
