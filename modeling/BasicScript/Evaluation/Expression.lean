import BasicScript.Evaluation.Machine

/-!
Evaluation of expressions, given a way to evaluate the nodes below them. Operands, elements and
arguments are evaluated from left to right, and a value carries the span of the node that made it
and the frames that were active there.
-/

namespace BasicScript

/-- A way to evaluate nodes. -/
abbrev Visit (H : Type) := Node → Env → Eval H Value

variable {H : Type}

/-- A value made by the node that spans `span`. -/
def Env.made (env : Env) (d : Datum) (span : Span) : Value :=
  ⟨d, span, env.trace⟩

/-- Something that goes wrong in the innermost frame. -/
def Env.failure (env : Env) (span : Span) (message : String) : Diagnostic :=
  ⟨.runtime, message, none, span, env.trace⟩

namespace Visit

/-- Evaluates nodes in turn, behind the values `done`, which are in reverse. -/
def all (self : Visit H) (env : Env) (done : List Value) : List Node → Eval H (List Value)
  | [] => return done.reverse
  | x :: xs => do
    let v ← self x env
    all self env (v :: done) xs

/-- A new list, made by the node that spans `span`. -/
def newList (env : Env) (span : Span) (values : List Value) : Eval H Value := do
  let l ← Eval.store (·.newList values.toArray)
  return env.made (.list l) span

/-- Binds a name in the scope of the node. -/
def bindName (env : Env) (name : String) (v : Value) : Eval H Unit :=
  Eval.change (·.bind env.scope name v)

def ident (env : Env) (name : String) (span : Span) : Eval H Value := do
  match ← Eval.inspect (·.lookup env.scope name) with
  | some v => return env.made v.datum span
  | none => .fail (env.failure span ("'" ++ name ++ "' is not defined"))

def declaration (self : Visit H) (env : Env) (tag : Tag) (name : String) (value : Node)
    (span : Span) : Eval H Value := do
  let v ← self value env
  if v.datum.conforms tag then
    bindName env name v
    return v
  else
    .fail (env.failure span
      ("no viable conversion from '" ++ v.datum.typeName ++ "' to '" ++ tag.spelling ++ "'"))

/-- Both operands are always evaluated, the left one first. -/
def binary (self : Visit H) (env : Env) (op : BinaryOp) (left right : Node) (span : Span) :
    Eval H Value := do
  let a ← self left env
  let b ← self right env
  return (← Eval.operation (Operation.binary op a b)).withSpan span

def unary (self : Visit H) (env : Env) (op : UnaryOp) (operand : Node) (span : Span) :
    Eval H Value := do
  let a ← self operand env
  let o :=
    match op with
    | .negate => Operation.negate a span
    | .not => Operation.not a
  return (← Eval.operation o).withSpan span

/-- A block has no value of its own. -/
def branch (self : Visit H) (env : Env) (b : Branch Node) : Eval H Value := do
  let v ← self b.body env
  return if b.block then .null else v

/-- The first arm whose condition holds, or what stands for the rest. -/
def choice (self : Visit H) (env : Env) (otherwise : Option (Branch Node)) :
    List (Arm Node) → Eval H Value
  | [] =>
    match otherwise with
    | some b => branch self env b
    | none => return .null
  | arm :: arms => do
    let c ← self arm.condition env
    if ← Eval.inspect (·.holds c) then branch self env arm.branch
    else choice self env otherwise arms

/-- A definition yields the function it makes; a name is bound in the scope that the function
closes over. -/
def function (env : Env) (name : Option String) (params : List String) (body : Node)
    (arrow : Bool) (span : Span) : Eval H Value := do
  let v := env.made (.function ⟨name.getD "<anonymous>", params, body, arrow, env.scope⟩) span
  match name with
  | some name => bindName env name v
  | none => pure ()
  return v

def returnWith (self : Visit H) (env : Env) (value : Option Node) : Eval H Value := do
  match value with
  | some value => throw (.returned (← self value env))
  | none => throw (.returned .null)

end Visit

end BasicScript
