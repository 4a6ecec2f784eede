import BasicScript.Evaluation.Visit
import BasicScript.Proofs.Data.Outcomes

/-! # What an evaluation may do to the machine

A relation between the machine before and the machine after, however the evaluation ends. If it is
reflexive and transitive and allows what a node does itself, it holds of the evaluation of a node
whenever it holds of those below it and of the calls it makes. -/

namespace BasicScript

variable {H α β ε : Type} {R : Machine H → Machine H → Prop}

/-- The machine that an evaluation leaves, by a value or without one. -/
def Machine.ofResult : EStateM.Result ε (Machine H) α → Machine H
  | .ok _ m => m
  | .error _ m => m

theorem EndsIn.ofResult {I : Machine H → Prop} {Q : α → Prop} {E : ε → Prop}
    {res : EStateM.Result ε (Machine H) α} (h : EndsIn I Q E res) : I (Machine.ofResult res) := by
  cases res with
  | ok a m => exact h.1
  | error e m => exact h.1

/-- Whatever machine an evaluation starts from, `R` relates it to the one that is left. -/
def Moves (R : Machine H → Machine H → Prop) (r : EStateM ε (Machine H) α) : Prop :=
  ∀ m, R m (Machine.ofResult (r m))

/-- A relation that allows doing nothing, and one thing after another. -/
structure Motion (R : Machine H → Machine H → Prop) : Prop where
  refl : ∀ m, R m m
  trans : ∀ {a b c}, R a b → R b c → R a c

namespace Moves

theorem mono {R' : Machine H → Machine H → Prop} {r : EStateM ε (Machine H) α} (h : Moves R r)
    (hR : ∀ {m m'}, R m m' → R' m m') : Moves R' r :=
  fun m => hR (h m)

variable (hR : Motion R)

include hR

theorem pure (a : α) : Moves R (pure a : EStateM ε (Machine H) α) :=
  hR.refl

theorem throw (e : ε) : Moves R (throw e : EStateM ε (Machine H) α) :=
  hR.refl

theorem bind {r : EStateM ε (Machine H) α} {f : α → EStateM ε (Machine H) β} (h : Moves R r)
    (hf : ∀ a, Moves R (f a)) : Moves R (r >>= f) := by
  intro m
  have hm := h m
  cases hr : r m with
  | ok a m' =>
      rw [hr] at hm
      rw [bind_of_ok hr]
      exact hR.trans hm (hf a m')
  | error e m' =>
      rw [hr] at hm
      rw [bind_of_error hr]
      exact hm

theorem inspect (f : Store → α) : Moves R (Eval.inspect f) :=
  hR.refl

theorem run_inspect (f : Store → α) : Moves R (Run.inspect f) :=
  hR.refl

theorem run_fail (d : Diagnostic) : Moves R (Run.fail d : Run H α) :=
  hR.refl

theorem fail (d : Diagnostic) : Moves R (Eval.fail d : Eval H α) :=
  hR.refl

theorem checkCount (callee : Value) (expected got : Nat) :
    Moves R (Visit.checkCount callee expected got : Run H Unit) := by
  unfold Visit.checkCount
  split
  · exact pure hR _
  · exact bind hR (run_inspect hR _) fun _ => run_fail hR _

theorem bound {self : Visit H} {env : Env} {x : Node} (h : Moves R (self x env)) :
    Moves R (Visit.bound self env x) := by
  refine .bind hR h fun v => ?_
  split
  · exact .pure hR _
  · exact .fail hR _

omit hR

theorem ofRun {r : Run H α} (h : Moves R r) : Moves R (Eval.ofRun r) := by
  intro m
  have hm := h m
  unfold Eval.ofRun
  split <;> rename_i hr <;> rw [hr] at hm <;> exact hm

theorem turn {r : Eval H Value} (h : Moves R r) : Moves R (Eval.turn r) := by
  intro m
  have hm := h m
  unfold Eval.turn
  split <;> rename_i hr <;> rw [hr] at hm <;> exact hm

theorem toRun {r : Eval H Value} (h : Moves R r) (trace : Trace) (finish : Value → Value) :
    Moves R (r.toRun trace finish) := by
  intro m
  have hm := h m
  unfold Eval.toRun
  split <;> rename_i hr <;> rw [hr] at hm <;> exact hm

theorem mapFailure {r : Run H α} (h : Moves R r) (f : Diagnostic → Diagnostic) :
    Moves R (r.mapFailure f) := by
  intro m
  have hm := h m
  unfold Run.mapFailure
  split
  · rename_i hr
    rw [hr] at hm
    exact hm
  · exact hm

end Moves

/-! ## Nodes -/

/-- What the evaluation of a node in `env` does itself: it makes lists, and it binds names in its
own scope. -/
structure NodeMotion (R : Machine H → Machine H → Prop) (env : Env) : Prop extends Motion R where
  newList : ∀ m xs, R m { m with store := (m.store.newList xs).2 }
  bind : ∀ m x v, R m { m with store := m.store.bind env.scope x v }

namespace NodeMotion

variable {env : Env} (hR : NodeMotion R env)

include hR

theorem newList_moves (span : Span) (values : List Value) :
    Moves R (Visit.newList env span values : Eval H Value) :=
  .bind hR.toMotion (fun m => hR.newList m _) fun _ => .pure hR.toMotion _

theorem bindName_moves (x : String) (v : Value) : Moves R (Visit.bindName env x v : Eval H Unit) :=
  fun m => hR.bind m x v

theorem operation_moves {i : Prop} {a b : Value} {o : Operation Value} (ho : o.Computes i a b) :
    Moves R (Eval.operation o : Eval H Value) := by
  intro m
  have h := ho m.store
  unfold Eval.operation
  generalize o m.store = r at h
  cases h with
  | list => exact hR.newList m _
  | _ => exact hR.refl m

theorem ident_moves (x : String) (span : Span) :
    Moves R (Visit.ident env x span : Eval H Value) := by
  refine .bind hR.toMotion (.inspect hR.toMotion _) fun v => ?_
  split
  · exact .pure hR.toMotion _
  · exact .fail hR.toMotion _

theorem function_moves (name : Option String) (params : List String) (body : Node) (arrow : Bool)
    (span : Span) : Moves R (Visit.function env name params body arrow span : Eval H Value) := by
  unfold Visit.function
  cases name with
  | none => exact .bind hR.toMotion (.pure hR.toMotion _) fun _ => .pure hR.toMotion _
  | some x => exact .bind hR.toMotion (hR.bindName_moves x _) fun _ => .pure hR.toMotion _

theorem collected_moves (b : Branch Node) (span : Span) (done : List Value) :
    Moves R (Visit.collected env b span done : Eval H Value) := by
  unfold Visit.collected
  split
  · exact .pure hR.toMotion _
  · exact hR.newList_moves span _

variable {self : Visit H} (hself : ∀ node, Moves R (self node env))

include hself

theorem all_moves (done : List Value) (xs : List Node) : Moves R (Visit.all self env done xs) := by
  induction xs generalizing done with
  | nil => exact .pure hR.toMotion _
  | cons x xs ih => exact .bind hR.toMotion (hself x) fun v => ih (v :: done)

theorem declaration_moves (tag : Tag) (x : String) (value : Node) (span : Span) :
    Moves R (Visit.declaration self env tag x value span) := by
  refine .bind hR.toMotion (hself value) fun v => ?_
  split
  · exact .bind hR.toMotion (hR.bindName_moves x v) fun _ => .pure hR.toMotion _
  · exact .fail hR.toMotion _

theorem binary_moves (op : BinaryOp) (left right : Node) (span : Span) :
    Moves R (Visit.binary self env op left right span) :=
  .bind hR.toMotion (hself left) fun a => .bind hR.toMotion (hself right) fun b =>
    .bind hR.toMotion (hR.operation_moves (Operation.binary_computes op a b)) fun _ =>
      .pure hR.toMotion _

theorem unary_moves (op : UnaryOp) (operand : Node) (span : Span) :
    Moves R (Visit.unary self env op operand span) := by
  refine .bind hR.toMotion (hself operand) fun a => .bind hR.toMotion ?_ fun _ =>
    .pure hR.toMotion _
  cases op with
  | negate => exact hR.operation_moves (Operation.multiply_computes a _)
  | not => exact hR.operation_moves (Operation.not_computes a)

theorem branch_moves (b : Branch Node) : Moves R (Visit.branch self env b) :=
  .bind hR.toMotion (hself b.body) fun _ => .pure hR.toMotion _

theorem choice_moves (otherwise : Option (Branch Node)) (arms : List (Arm Node)) :
    Moves R (Visit.choice self env otherwise arms) := by
  induction arms with
  | nil =>
      unfold Visit.choice
      cases otherwise with
      | none => exact .pure hR.toMotion _
      | some b => exact hR.branch_moves hself b
  | cons arm arms ih =>
      refine .bind hR.toMotion (hself arm.condition) fun c =>
        .bind hR.toMotion (.inspect hR.toMotion _) fun holds => ?_
      split
      · exact hR.branch_moves hself arm.branch
      · exact ih

theorem bound_moves (node : Node) : Moves R (Visit.bound self env node) :=
  .bound hR.toMotion (hself node)

theorem forTurns_moves (r : Visit.Range) (body : Node) (n : Nat) (i : Number)
    (done : List Value) : Moves R (Visit.forTurns self env r body n i done) := by
  induction n generalizing i done with
  | zero => exact .throw hR.toMotion _
  | succ n ih =>
      unfold Visit.forTurns
      split
      · refine .bind hR.toMotion (hR.bindName_moves _ _) fun _ =>
          .bind hR.toMotion (hself body).turn fun t => ?_
        cases t with
        | value v => exact ih _ _
        | continued => exact ih _ _
        | broken => exact .pure hR.toMotion _
      · exact .pure hR.toMotion _

theorem forLoop_moves (limit : Nat) (x : String) (first last : Node) (step : Option Node)
    (b : Branch Node) (span : Span) :
    Moves R (Visit.forLoop self limit env x first last step b span) := by
  refine .bind hR.toMotion (hR.bound_moves hself first) fun i =>
    .bind hR.toMotion (hR.bound_moves hself last) fun last => .bind hR.toMotion ?_ fun step =>
    .bind hR.toMotion (hR.forTurns_moves hself _ b.body limit i []) fun done =>
    hR.collected_moves b span done
  cases step with
  | none => exact .pure hR.toMotion _
  | some step => exact hR.bound_moves hself step

theorem whileTurns_moves (condition body : Node) (n : Nat) (done : List Value) :
    Moves R (Visit.whileTurns self env condition body n done) := by
  induction n generalizing done with
  | zero => exact .throw hR.toMotion _
  | succ n ih =>
      refine .bind hR.toMotion (hself condition) fun c =>
        .bind hR.toMotion (.inspect hR.toMotion _) fun holds => ?_
      split
      · refine .bind hR.toMotion (hself body).turn fun t => ?_
        cases t with
        | value v => exact ih _
        | continued => exact ih _
        | broken => exact .pure hR.toMotion _
      · exact .pure hR.toMotion _

theorem returnWith_moves (value : Option Node) : Moves R (Visit.returnWith self env value) := by
  cases value with
  | none => exact .throw hR.toMotion _
  | some x => exact .bind hR.toMotion (hself x) fun _ => .throw hR.toMotion _

variable [Host H]

/-- The evaluation of a node does what it does itself, what those below it do and what the calls
do that it makes. -/
theorem step_moves (hcall : ∀ callee args, Moves R (Visit.apply self callee args)) (limit : Nat)
    (node : Node) : Moves R (Visit.step self limit node env) := by
  cases node with
  | number n span => exact .pure hR.toMotion _
  | text s span => exact .pure hR.toMotion _
  | list xs span =>
      exact .bind hR.toMotion (hR.all_moves hself [] xs) fun _ => hR.newList_moves span _
  | ident x span => exact hR.ident_moves x span
  | declaration tag x v span => exact hR.declaration_moves hself tag x v span
  | binary op l r span => exact hR.binary_moves hself op l r span
  | unary op x span => exact hR.unary_moves hself op x span
  | choice arms otherwise span => exact hR.choice_moves hself otherwise arms
  | forLoop x first last step b span =>
      exact hR.forLoop_moves hself limit x first last step b span
  | whileLoop c b span =>
      exact .bind hR.toMotion (hR.whileTurns_moves hself c b.body limit []) fun done =>
        hR.collected_moves b span done
  | function name params body arrow span => exact hR.function_moves name params body arrow span
  | call callee args span =>
      exact .bind hR.toMotion (hself callee) fun f =>
        .bind hR.toMotion (hR.all_moves hself [] args) fun values =>
        .bind hR.toMotion (hcall _ values).ofRun fun _ => .pure hR.toMotion _
  | returnWith value span => exact hR.returnWith_moves hself value
  | continueLoop span => exact .throw hR.toMotion _
  | breakLoop span => exact .throw hR.toMotion _

end NodeMotion

/-! ## Built-in functions -/

/-- Whether a built-in function writes to the host or takes lines from it. -/
def Builtin.turnsToHost : Builtin → Bool
  | print | input | inputNum | clear => true
  | _ => false

/-- Whether a built-in function changes the elements of a list. -/
def Builtin.changesLists : Builtin → Bool
  | append | pop | extend => true
  | _ => false

/-- Whether an event is the call of a built-in function that turns to the host. -/
def Event.turnsToHost : Event → Bool
  | calling b _ => b.turnsToHost
  | _ => false

/-- What all built-in functions and programs do themselves: they are noted. The calls that turn to
the host are left to those who say what they do there. -/
structure LogMotion (R : Machine H → Machine H → Prop) : Prop extends Motion R where
  note : ∀ m e, e.turnsToHost = false → R m { m with log := e :: m.log }

namespace LogMotion

variable (hR : LogMotion R)

include hR

theorem note_moves {e : Event} (he : e.turnsToHost = false) : Moves R (Run.note e : Run H Unit) :=
  fun m => hR.note m e he

theorem noteEnd_moves {e : Bool → Event} (he : ∀ ok, (e ok).turnsToHost = false) {r : Run H α}
    (h : Moves R r) : Moves R (r.noteEnd e) := by
  intro m
  have hm := h m
  unfold Run.noteEnd
  split
  · rename_i hr
    rw [hr] at hm
    exact hR.trans hm (hR.note _ _ (he true))
  · rename_i hr
    rw [hr] at hm
    exact hR.trans hm (hR.note _ _ (he false))
  · exact hm

theorem listArg_moves (site : CallSite) (which : String) (v : Value) :
    Moves R (Builtin.listArg site which v : Run H ListRef) := by
  unfold Builtin.listArg
  split
  · exact .pure hR.toMotion _
  · exact .run_fail hR.toMotion _

theorem popAt_moves (hmodify : ∀ m l f, R m { m with store := m.store.modifyList l f })
    (site : CallSite) (l : ListRef) (n : Number) :
    Moves R (Builtin.popAt site l n : Run H Value) := by
  refine .bind hR.toMotion (.run_inspect hR.toMotion _) fun xs => ?_
  split
  · exact .run_fail hR.toMotion _
  · exact .bind hR.toMotion (fun m => hmodify m l _) fun _ => .pure hR.toMotion _

/-- A program does what its node does. -/
theorem runSource_moves {self : Visit H}
    (hself : ∀ program, Moves R (self program Visit.programEnv)) (source : Source) :
    Moves R (Visit.runSource self source) := by
  refine .bind hR.toMotion (hR.note_moves rfl) fun _ => ?_
  split
  · exact .run_fail hR.toMotion _
  · exact hR.noteEnd_moves (fun _ => rfl) ((hself _).toRun _ _)

variable [Host H]

/-- A built-in function does what it does itself, and `RUN` what the scripts do that it includes. -/
theorem execute_moves {runSource : Source → Run H Value} {b : Builtin}
    (hhost : b.turnsToHost → ∀ m host, R m { m with host })
    (hmodify : b.changesLists → ∀ m l f, R m { m with store := m.store.modifyList l f })
    (hrun : b = .run → ∀ source, Moves R (runSource source)) (site : CallSite)
    (args : List Value) : Moves R (b.execute runSource site args) := by
  have hM := hR.toMotion
  have hask {α : Type} (hb : b.turnsToHost) (onFault : Host.Fault → Diagnostic)
      (f : H → Host.Reply α × H) : Moves R (Run.ask onFault f) := by
    intro m
    unfold Run.ask
    split <;> exact hhost hb m _
  have hload (onFault : Host.Fault → Diagnostic) (path : String) :
      Moves R (Run.ask onFault fun h => (Host.load h path, h)) := by
    intro m
    unfold Run.ask
    split <;> rename_i hload <;> obtain ⟨-, rfl⟩ := Prod.mk.inj hload <;> exact hR.refl m
  unfold Builtin.execute
  split
  · exact .bind hM (.run_inspect hM _) fun _ => .bind hM (fun m => hhost rfl m _) fun _ => .pure hM _
  · exact .bind hM (.run_inspect hM _) fun _ => .pure hM _
  · exact .bind hM (hask rfl _ _) fun _ => .pure hM _
  · exact .bind hM (hask rfl _ _) fun _ => .pure hM _
  · exact .bind hM (fun m => hhost rfl m _) fun _ => .pure hM _
  · exact .pure hM _
  · exact .pure hM _
  · exact .pure hM _
  · exact .pure hM _
  · exact .bind hM (hR.listArg_moves _ _ _) fun l =>
      .bind hM (fun m => hmodify rfl m l _) fun _ => .pure hM _
  · refine .bind hM (hR.listArg_moves _ _ _) fun l => ?_
    split
    · exact .run_fail hM _
    · exact hR.popAt_moves (hmodify rfl) site l _
  · exact .bind hM (hR.listArg_moves _ _ _) fun a => .bind hM (hR.listArg_moves _ _ _) fun b =>
      .bind hM (.run_inspect hM _) fun _ => .bind hM (fun m => hmodify rfl m a _) fun _ =>
      .pure hM _
  · exact .bind hM (hR.listArg_moves _ _ _) fun l => .bind hM (.run_inspect hM _) fun _ =>
      .pure hM _
  · split
    · exact .run_fail hM _
    · exact .bind hM (hload _ _) fun text => .bind hM (hR.note_moves rfl) fun _ =>
        .bind hM ((hrun rfl _).mapFailure _) fun _ => .pure hM _
  · exact .run_fail hM _

end LogMotion

/-- What built-in functions and programs do themselves apart from changing lists: they turn to the
host, and they are noted. -/
structure HostMotion (R : Machine H → Machine H → Prop) : Prop extends Motion R where
  host : ∀ m host, R m { m with host }
  note : ∀ m e, R m { m with log := e :: m.log }

/-- What all built-in functions do themselves. -/
structure BuiltinMotion (R : Machine H → Machine H → Prop) : Prop extends HostMotion R where
  modifyList : ∀ m l f, R m { m with store := m.store.modifyList l f }

namespace HostMotion

variable (hR : HostMotion R)

include hR

theorem logMotion : LogMotion R where
  toMotion := hR.toMotion
  note m e _ := hR.note m e

theorem note_moves (e : Event) : Moves R (Run.note e : Run H Unit) :=
  fun m => hR.note m e

theorem execute_moves [Host H] {runSource : Source → Run H Value} {b : Builtin}
    (hmodify : b.changesLists → ∀ m l f, R m { m with store := m.store.modifyList l f })
    (hrun : b = .run → ∀ source, Moves R (runSource source)) (site : CallSite)
    (args : List Value) : Moves R (b.execute runSource site args) :=
  hR.logMotion.execute_moves (fun _ => hR.host) hmodify hrun site args

theorem runSource_moves {self : Visit H}
    (hself : ∀ program, Moves R (self program Visit.programEnv)) (source : Source) :
    Moves R (Visit.runSource self source) :=
  hR.logMotion.runSource_moves hself source

end HostMotion

/-! ## Calls and whole evaluations -/

/-- What an evaluation may do wherever it is, the calls that turn to the host apart. -/
structure CallMotion (R : Machine H → Machine H → Prop) : Prop extends LogMotion R where
  newList : ∀ m xs, R m { m with store := (m.store.newList xs).2 }
  modifyList : ∀ m l f, R m { m with store := m.store.modifyList l f }
  bind : ∀ m scope x v, R m { m with store := m.store.bind scope x v }
  child : ∀ m scope, R m { m with store := (m.store.child scope).2 }
  depth : ∀ m depth, R m { m with depth }

/-- `R` allows what a built-in function that turns to the host does when it is called, and that the
log tells of it. -/
def HostCalls [Host H] (R : Machine H → Machine H → Prop) : Prop :=
  ∀ b : Builtin, b.turnsToHost → ∀ (m : Machine H) (runSource : Source → Run H Value)
    (site : CallSite) (args : List Value), b.params.length = args.length →
      R m (Machine.ofResult
        (b.execute runSource site args { m with log := .calling b args.length :: m.log }))

namespace CallMotion

variable (hR : CallMotion R)

include hR

theorem bindAll (m : Machine H) (scope : Scope) (xs : List String) (vs : List Value) :
    R m { m with store := m.store.bindAll scope xs vs } := by
  induction xs generalizing m vs with
  | nil => exact hR.refl m
  | cons x xs ih =>
      cases vs with
      | nil => exact hR.refl m
      | cons v vs => exact hR.trans (hR.bind m scope x v) (ih { m with store := _ } vs)

section

variable {self : Visit H} (hself : ∀ node env, Moves R (self node env))

include hself

theorem callClosure_moves (callee : Value) (f : Closure) (args : List Value) :
    Moves R (Visit.callClosure self callee f args) := by
  refine .bind hR.toMotion (.checkCount hR.toMotion _ _ _) fun _ =>
    .bind hR.toMotion (hR.note_moves rfl) fun _ =>
    .bind hR.toMotion (fun m => ?_) fun scope => (hself f.body ⟨scope, _⟩).toRun _ _
  exact hR.trans (hR.child m f.scope) (hR.bindAll { m with store := _ } _ f.params args)

variable [Host H] (hhost : HostCalls R)

include hhost

theorem callBuiltin_moves (callee : Value) (b : Builtin) (args : List Value) :
    Moves R (Visit.callBuiltin self callee b args) := by
  intro m
  unfold Visit.callBuiltin Visit.checkCount
  by_cases hcount : b.params.length = args.length
  · rw [if_pos hcount]
    by_cases hb : b.turnsToHost
    · exact hhost b hb m _ _ args hcount
    · have hnote : (Event.calling b args.length).turnsToHost = false := by
        simpa [Event.turnsToHost] using hb
      exact Moves.bind hR.toMotion (hR.note_moves hnote) (fun _ => hR.execute_moves
        (fun h => absurd h hb) (fun _ => hR.modifyList)
        (fun _ => hR.runSource_moves fun program => hself program Visit.programEnv) _ _) m
  · rw [if_neg hcount]
    exact hR.refl m

theorem apply_moves (callee : Value) (args : List Value) :
    Moves R (Visit.apply self callee args) := by
  have henter : Moves R (Visit.enter self callee args) := by
    unfold Visit.enter
    split
    · exact hR.callClosure_moves hself callee _ args
    · exact hR.callBuiltin_moves hself hhost callee _ args
    · exact .run_fail hR.toMotion _
  intro m
  unfold Visit.apply
  split
  · exact hR.refl m
  · have hm := hR.trans (hR.depth m (m.depth + 1)) (henter { m with depth := m.depth + 1 })
    split <;> rename_i hr <;> rw [hr] at hm <;> exact hR.trans hm (hR.depth _ _)

end

theorem visit_moves [Host H] (hhost : HostCalls R) (n : Nat) (node : Node) (env : Env) :
    Moves R (visit n node env) := by
  induction n generalizing node env with
  | zero => exact .throw hR.toMotion _
  | succ n ih =>
      have hnode : NodeMotion R env := ⟨hR.toMotion, hR.newList, fun m => hR.bind m env.scope⟩
      exact hnode.step_moves (fun node => ih node env) (hR.apply_moves ih hhost) n node

end CallMotion

end BasicScript
