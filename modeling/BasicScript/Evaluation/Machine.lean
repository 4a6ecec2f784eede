import BasicScript.Console.Host
import BasicScript.Data.Operation

/-!
The state of an evaluation and the ways it can end. Evaluating a node yields a value or is
interrupted; what calls a function or runs a program only ever halts, so a loop or return signal
never leaves the function it is written in.
-/

namespace BasicScript

/-- What an evaluation notes in its log as it goes: programs begun and ended, bodies of functions
entered, built-in functions called and scripts about to be run. -/
inductive Event where
  | started (program : String)
  | finished (program : String) (ok : Bool)
  | entering (function : String) (args : Nat)
  | calling (b : Builtin) (args : Nat)
  | including (path : String)
deriving Repr, DecidableEq

/-- The store and the host, how many calls are active, and the log, latest event first. -/
structure Machine (H : Type) where
  store : Store
  host : H
  depth : Nat
  log : List Event

/-- Why an evaluation ends without a value. One that awaits an answer or has no fuel left can be
made again with more of it. -/
inductive Halt where
  | failure (d : Diagnostic)
  | awaits (q : Host.Query)
  | outOfFuel

/-- What interrupts the evaluation of a node. -/
inductive Interrupt where
  | halt (h : Halt)
  | returned (v : Value)
  | continued (span : Span)
  | broken (span : Span)

/-- The scope a node is evaluated in, and the active frames. -/
structure Env where
  scope : Scope
  trace : Trace
deriving Inhabited

/-- The evaluation of a call or a program. -/
abbrev Run (H : Type) := EStateM Halt (Machine H)

/-- The evaluation of a node. -/
abbrev Eval (H : Type) := EStateM Interrupt (Machine H)

variable {H : Type} {α : Type}

namespace Run

def fail (d : Diagnostic) : Run H α :=
  throw (.failure d)

/-- Reads the store. -/
def inspect (f : Store → α) : Run H α := fun m => .ok (f m.store) m

/-- Reads the store and changes it. -/
def store (f : Store → α × Store) : Run H α := fun m =>
  .ok (f m.store).1 { m with store := (f m.store).2 }

/-- Changes the store. -/
def change (f : Store → Store) : Run H Unit := fun m => .ok () { m with store := f m.store }

/-- Asks the host; `onFault` tells what a fault means. -/
def ask (onFault : Host.Fault → Diagnostic) (f : H → Host.Reply α × H) : Run H α := fun m =>
  match f m.host with
  | (.answer a, host) => .ok a { m with host }
  | (.fault e, host) => .error (.failure (onFault e)) { m with host }
  | (.pending q, host) => .error (.awaits q) { m with host }

/-- Tells a failure in other words. -/
def mapFailure (f : Diagnostic → Diagnostic) (r : Run H α) : Run H α := fun m =>
  match r m with
  | .error (.failure d) m => .error (.failure (f d)) m
  | other => other

/-- Tells the host. -/
def tell (f : H → H) : Run H Unit := fun m => .ok () { m with host := f m.host }

/-- Notes an event in the log. -/
def note (e : Event) : Run H Unit := fun m => .ok () { m with log := e :: m.log }

/-- Notes how an evaluation ends, by a value or a failure. -/
def noteEnd (e : Bool → Event) (r : Run H α) : Run H α := fun m =>
  match r m with
  | .ok a m => .ok a { m with log := e true :: m.log }
  | .error (.failure d) m => .error (.failure d) { m with log := e false :: m.log }
  | other => other

end Run

namespace Eval

/-- A call inside a node: what halts it interrupts the node. -/
def ofRun (r : Run H α) : Eval H α := fun m =>
  match r m with
  | .ok a m => .ok a m
  | .error h m => .error (.halt h) m

def fail (d : Diagnostic) : Eval H α :=
  throw (.halt (.failure d))

def outOfFuel : Eval H α :=
  throw (.halt .outOfFuel)

/-- Reads the store. -/
def inspect (f : Store → α) : Eval H α := fun m => .ok (f m.store) m

/-- Reads the store and changes it. -/
def store (f : Store → α × Store) : Eval H α := fun m =>
  .ok (f m.store).1 { m with store := (f m.store).2 }

/-- Changes the store. -/
def change (f : Store → Store) : Eval H Unit := fun m => .ok () { m with store := f m.store }

/-- An operator; what it refuses halts the evaluation. -/
def operation (o : Operation α) : Eval H α := fun m =>
  match o m.store with
  | .ok a store => .ok a { m with store }
  | .error d store => .error (.halt (.failure d)) { m with store }

/-- How one evaluation of a loop's body ends. -/
inductive Turn where
  | value (v : Value)
  | continued
  | broken

/-- Evaluates the body of a loop; the loop signals end here. -/
def turn (body : Eval H Value) : Eval H Turn := fun m =>
  match body m with
  | .ok v m => .ok (.value v) m
  | .error (.continued _) m => .ok .continued m
  | .error (.broken _) m => .ok .broken m
  | .error i m => .error i m

/-- A signal that reaches the edge of a function or a program in frames `trace`. -/
def outsideLoop (keyword : String) (span : Span) (trace : Trace) : Halt :=
  .failure ⟨.runtime, "'" ++ keyword ++ "' used outside of a loop", none, span, trace⟩

/-- Evaluates the body of a function or a program; all signals end here. `finish` tells what the
value of the body is good for when no `RETURN` is met. -/
def toRun (body : Eval H Value) (trace : Trace) (finish : Value → Value) : Run H Value := fun m =>
  match body m with
  | .ok v m => .ok (finish v) m
  | .error (.returned v) m => .ok v m
  | .error (.halt h) m => .error h m
  | .error (.continued span) m => .error (outsideLoop "CONTINUE" span trace) m
  | .error (.broken span) m => .error (outsideLoop "BREAK" span trace) m

end Eval

end BasicScript
