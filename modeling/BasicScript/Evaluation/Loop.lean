import BasicScript.Evaluation.Expression

/-!
Evaluation of loops, given a way to evaluate the nodes below them. The bounds of a `FOR` are
evaluated once, before its first turn, and the condition of a `WHILE` before each turn.
-/

namespace BasicScript.Visit

variable {H : Type}

/-- A bound of a loop. -/
def bound (self : Visit H) (env : Env) (node : Node) : Eval H Number := do
  let v ← self node env
  match v.number? with
  | some n => return n
  | none =>
    .fail (env.failure node.span
      ("Loop bound must be a number, not '" ++ v.datum.typeName ++ "'"))

/-- The value of a loop: what its body produced, or null for a block. -/
def collected (env : Env) (b : Branch Node) (span : Span) (done : List Value) : Eval H Value :=
  if b.block then return .null else newList env span done.reverse

/-- The variable and the bounds of a `FOR`. -/
structure Range where
  name : String
  last : Number
  step : Number
  span : Span

/-- Whether the loop goes on at `i`: below the end going up, above it going down. -/
def Range.goesOn (r : Range) (i : Number) : Bool :=
  if 0.0 ≤ r.step.toFloat then i.lessThan r.last else r.last.lessThan i

/-- The turns of a `FOR` from `i` on. -/
def forTurns (self : Visit H) (env : Env) (r : Range) (body : Node) :
    Nat → Number → List Value → Eval H (List Value)
  | 0, _, _ => .outOfFuel
  | n + 1, i, done =>
    if r.goesOn i then do
      bindName env r.name ((Value.ofNumber i).withSpan r.span)
      match ← Eval.turn (self body env) with
      | .value v => forTurns self env r body n (i.add r.step) (v :: done)
      | .continued => forTurns self env r body n (i.add r.step) done
      | .broken => return done
    else return done

def forLoop (self : Visit H) (limit : Nat) (env : Env) (name : String) (first last : Node)
    (step : Option Node) (b : Branch Node) (span : Span) : Eval H Value := do
  let i ← bound self env first
  let last ← bound self env last
  let step ← (do
    match step with
    | some step => bound self env step
    | none => return .int 1)
  let done ← forTurns self env ⟨name, last, step, span⟩ b.body limit i []
  collected env b span done

/-- The turns of a `WHILE`. -/
def whileTurns (self : Visit H) (env : Env) (condition body : Node) :
    Nat → List Value → Eval H (List Value)
  | 0, _ => .outOfFuel
  | n + 1, done => do
    let c ← self condition env
    if ← Eval.inspect (·.holds c) then
      match ← Eval.turn (self body env) with
      | .value v => whileTurns self env condition body n (v :: done)
      | .continued => whileTurns self env condition body n done
      | .broken => return done
    else return done

def whileLoop (self : Visit H) (limit : Nat) (env : Env) (condition : Node) (b : Branch Node)
    (span : Span) : Eval H Value := do
  collected env b span (← whileTurns self env condition b.body limit [])

end BasicScript.Visit
