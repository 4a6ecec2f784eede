import BasicScript.Evaluation.Visit

/-! # The fuel of an evaluation

An evaluation that ends with some fuel ends in the same way with more. -/

namespace BasicScript

variable {H α β ε : Type}

/-- Unless `r` is stopped by `e`, it ends as `r'` does. -/
def Extends (e : ε) (r r' : EStateM ε (Machine H) α) : Prop :=
  ∀ m, r m = r' m ∨ ∃ m', r m = .error e m'

/-- What interrupts a node that has no fuel left. -/
abbrev Interrupt.spent : Interrupt :=
  .halt .outOfFuel

namespace Extends

theorem refl (e : ε) (r : EStateM ε (Machine H) α) : Extends e r r :=
  fun _ => .inl rfl

theorem throw (e : ε) (r : EStateM ε (Machine H) α) : Extends e (throw e) r :=
  fun m => .inr ⟨m, rfl⟩

theorem bind {e : ε} {r r' : EStateM ε (Machine H) α} {f f' : α → EStateM ε (Machine H) β}
    (h : Extends e r r') (hf : ∀ a, Extends e (f a) (f' a)) :
    Extends e (r >>= f) (r' >>= f') := by
  intro m
  obtain hm | ⟨m', hm⟩ := h m
  · cases hr : r' m with
    | ok a m' =>
        have hleft : (r >>= f) m = f a m' := by simp [Bind.bind, EStateM.bind, hm, hr]
        have hright : (r' >>= f') m = f' a m' := by simp [Bind.bind, EStateM.bind, hr]
        rw [hleft, hright]
        exact hf a m'
    | error e' m' =>
        exact .inl (by simp [Bind.bind, EStateM.bind, hm, hr])
  · exact .inr ⟨m', by simp [Bind.bind, EStateM.bind, hm]⟩

/-- What comes first is the same. -/
theorem next {e : ε} {r : EStateM ε (Machine H) α} {f f' : α → EStateM ε (Machine H) β}
    (hf : ∀ a, Extends e (f a) (f' a)) : Extends e (r >>= f) (r >>= f') :=
  bind (refl e r) hf

theorem ofRun {r r' : Run H α} (h : Extends .outOfFuel r r') :
    Extends Interrupt.spent (Eval.ofRun r) (Eval.ofRun r') := by
  intro m
  obtain hm | ⟨m', hm⟩ := h m
  · exact .inl (by rw [Eval.ofRun, hm, Eval.ofRun])
  · exact .inr ⟨m', by rw [Eval.ofRun, hm]⟩

theorem turn {r r' : Eval H Value} (h : Extends Interrupt.spent r r') :
    Extends Interrupt.spent (Eval.turn r) (Eval.turn r') := by
  intro m
  obtain hm | ⟨m', hm⟩ := h m
  · exact .inl (by rw [Eval.turn, hm, Eval.turn])
  · exact .inr ⟨m', by rw [Eval.turn, hm]⟩

theorem toRun {r r' : Eval H Value} (h : Extends Interrupt.spent r r') (trace : Trace)
    (finish : Value → Value) :
    Extends .outOfFuel (r.toRun trace finish) (r'.toRun trace finish) := by
  intro m
  obtain hm | ⟨m', hm⟩ := h m
  · exact .inl (by rw [Eval.toRun, hm, Eval.toRun])
  · exact .inr ⟨m', by rw [Eval.toRun, hm]⟩

theorem mapFailure {r r' : Run H α} (h : Extends .outOfFuel r r')
    (f : Diagnostic → Diagnostic) : Extends .outOfFuel (r.mapFailure f) (r'.mapFailure f) := by
  intro m
  obtain hm | ⟨m', hm⟩ := h m
  · exact .inl (by rw [Run.mapFailure, hm, Run.mapFailure])
  · exact .inr ⟨m', by rw [Run.mapFailure, hm]⟩

theorem noteEnd {r r' : Run H α} (h : Extends .outOfFuel r r') (e : Bool → Event) :
    Extends .outOfFuel (r.noteEnd e) (r'.noteEnd e) := by
  intro m
  obtain hm | ⟨m', hm⟩ := h m
  · exact .inl (by rw [Run.noteEnd, hm, Run.noteEnd])
  · exact .inr ⟨m', by rw [Run.noteEnd, hm]⟩

end Extends

namespace Visit

variable {self self' : Visit H} (h : ∀ x env, Extends Interrupt.spent (self x env) (self' x env))

include h

section

variable (env : Env)

theorem all_extends (done : List Value) (xs : List Node) :
    Extends Interrupt.spent (all self env done xs) (all self' env done xs) := by
  induction xs generalizing done with
  | nil => exact .refl _ _
  | cons x xs ih => exact .bind (h x env) fun v => ih (v :: done)

theorem declaration_extends (tag : Tag) (name : String) (x : Node) (span : Span) :
    Extends Interrupt.spent (declaration self env tag name x span)
      (declaration self' env tag name x span) :=
  .bind (h x env) fun _ => .refl _ _

theorem binary_extends (op : BinaryOp) (x y : Node) (span : Span) :
    Extends Interrupt.spent (binary self env op x y span) (binary self' env op x y span) :=
  .bind (h x env) fun _ => .bind (h y env) fun _ => .refl _ _

theorem unary_extends (op : UnaryOp) (x : Node) (span : Span) :
    Extends Interrupt.spent (unary self env op x span) (unary self' env op x span) :=
  .bind (h x env) fun _ => .refl _ _

theorem branch_extends (b : Branch Node) :
    Extends Interrupt.spent (branch self env b) (branch self' env b) :=
  .bind (h b.body env) fun _ => .refl _ _

theorem choice_extends (otherwise : Option (Branch Node)) (arms : List (Arm Node)) :
    Extends Interrupt.spent (choice self env otherwise arms) (choice self' env otherwise arms) := by
  induction arms with
  | nil =>
      cases otherwise with
      | none => exact .refl _ _
      | some b => exact branch_extends h env b
  | cons arm arms ih =>
      refine .bind (h arm.condition env) fun c => .next fun holds => ?_
      split
      · exact branch_extends h env arm.branch
      · exact ih

theorem bound_extends (x : Node) :
    Extends Interrupt.spent (bound self env x) (bound self' env x) :=
  .bind (h x env) fun _ => .refl _ _

theorem forTurns_extends (r : Range) (body : Node) {n n' : Nat} (hn : n ≤ n') (i : Number)
    (done : List Value) :
    Extends Interrupt.spent (forTurns self env r body n i done)
      (forTurns self' env r body n' i done) := by
  induction n generalizing n' i done with
  | zero => exact .throw _ _
  | succ n ih =>
      obtain ⟨k, rfl⟩ : ∃ k, n' = k + 1 := ⟨n' - 1, by omega⟩
      have hk : n ≤ k := by omega
      unfold forTurns
      split
      · refine .next fun _ => .bind (h body env).turn fun t => ?_
        cases t with
        | value v => exact ih hk _ _
        | continued => exact ih hk _ _
        | broken => exact .refl _ _
      · exact .refl _ _

theorem forLoop_extends {n n' : Nat} (hn : n ≤ n') (name : String) (first last : Node)
    (step : Option Node) (b : Branch Node) (span : Span) :
    Extends Interrupt.spent (forLoop self n env name first last step b span)
      (forLoop self' n' env name first last step b span) := by
  refine .bind (bound_extends h env first) fun i => .bind (bound_extends h env last) fun last =>
    .bind ?_ fun step => .bind (forTurns_extends h env _ b.body hn i []) fun _ => .refl _ _
  cases step with
  | none => exact .refl _ _
  | some step => exact bound_extends h env step

theorem whileTurns_extends (condition body : Node) {n n' : Nat} (hn : n ≤ n')
    (done : List Value) :
    Extends Interrupt.spent (whileTurns self env condition body n done)
      (whileTurns self' env condition body n' done) := by
  induction n generalizing n' done with
  | zero => exact .throw _ _
  | succ n ih =>
      obtain ⟨k, rfl⟩ : ∃ k, n' = k + 1 := ⟨n' - 1, by omega⟩
      have hk : n ≤ k := by omega
      refine .bind (h condition env) fun c => .next fun holds => ?_
      split
      · refine .bind (h body env).turn fun t => ?_
        cases t with
        | value v => exact ih hk _
        | continued => exact ih hk _
        | broken => exact .refl _ _
      · exact .refl _ _

theorem returnWith_extends (x : Option Node) :
    Extends Interrupt.spent (returnWith self env x) (returnWith self' env x) := by
  cases x with
  | none => exact .refl _ _
  | some x => exact .bind (h x env) fun _ => .refl _ _

end

theorem runSource_extends (source : Source) :
    Extends .outOfFuel (runSource self source) (runSource self' source) := by
  refine .next fun _ => ?_
  split
  · exact .refl _ _
  · exact ((h _ _).toRun _ _).noteEnd _

variable [Host H]

omit h in
theorem execute_extends {run run' : Source → Run H Value}
    (hrun : ∀ source, Extends .outOfFuel (run source) (run' source)) (b : Builtin)
    (site : CallSite) (args : List Value) :
    Extends .outOfFuel (b.execute run site args) (b.execute run' site args) := by
  unfold Builtin.execute
  split
  case h_14 =>
    split
    · exact .refl _ _
    · exact .next fun text => .next fun _ => .bind ((hrun _).mapFailure _) fun _ => .refl _ _
  all_goals exact .refl _ _

theorem apply_extends (callee : Value) (args : List Value) :
    Extends .outOfFuel (apply self callee args) (apply self' callee args) := by
  have henter : Extends .outOfFuel (enter self callee args) (enter self' callee args) := by
    unfold enter
    split
    · exact .next fun _ => .next fun _ => .next fun _ => (h _ _).toRun _ _
    · exact .next fun _ => .next fun _ => execute_extends (runSource_extends h) _ _ args
    · exact .refl _ _
  intro m
  unfold apply
  split
  · exact .inl rfl
  · obtain hm | ⟨m', hm⟩ := henter { m with depth := m.depth + 1 }
    · exact .inl (by rw [hm])
    · exact .inr ⟨_, by rw [hm]⟩

theorem step_extends {n n' : Nat} (hn : n ≤ n') (x : Node) (env : Env) :
    Extends Interrupt.spent (step self n x env) (step self' n' x env) := by
  cases x with
  | list xs span => exact .bind (all_extends h env [] xs) fun _ => .refl _ _
  | declaration tag name v span => exact declaration_extends h env tag name v span
  | binary op l r span => exact binary_extends h env op l r span
  | unary op v span => exact unary_extends h env op v span
  | choice arms otherwise span => exact choice_extends h env otherwise arms
  | forLoop name first last step b span =>
      exact forLoop_extends h env hn name first last step b span
  | whileLoop c b span => exact .bind (whileTurns_extends h env c b.body hn []) fun _ => .refl _ _
  | call callee args span =>
      exact .bind (h callee env) fun f => .bind (all_extends h env [] args) fun values =>
        .bind (apply_extends h _ values).ofRun fun _ => .refl _ _
  | returnWith v span => exact returnWith_extends h env v
  | _ => exact .refl _ _

end Visit

/-- An evaluation that does not run out of fuel is the same with more. -/
theorem visit_extends [Host H] {n n' : Nat} (hn : n ≤ n') (x : Node) (env : Env) :
    Extends Interrupt.spent (visit (H := H) n x env) (visit n' x env) := by
  induction n generalizing n' x env with
  | zero => exact .throw _ _
  | succ n ih =>
      obtain ⟨k, rfl⟩ : ∃ k, n' = k + 1 := ⟨n' - 1, by omega⟩
      have hk : n ≤ k := by omega
      exact Visit.step_extends (fun x env => ih hk x env) hk x env

theorem apply_extends [Host H] {n n' : Nat} (hn : n ≤ n') (callee : Value)
    (args : List Value) :
    Extends .outOfFuel (Visit.apply (visit (H := H) n) callee args)
      (Visit.apply (visit n') callee args) :=
  Visit.apply_extends (visit_extends hn) callee args

/-! ## How an evaluation ends -/

/-- From `m` on and with some fuel, the evaluation `f` ends in `r`. -/
def Ends (spent : ε) (f : Nat → EStateM ε (Machine H) α) (m : Machine H)
    (r : EStateM.Result ε (Machine H) α) : Prop :=
  ∃ n, f n m = r ∧ ∀ m', r ≠ .error spent m'

namespace Ends

variable {spent : ε} {f : Nat → EStateM ε (Machine H) α} {m : Machine H}
  {r r' : EStateM.Result ε (Machine H) α}
  (hf : ∀ {n n' : Nat}, n ≤ n' → Extends spent (f n) (f n'))

include hf

/-- More fuel makes no difference. -/
theorem exists_forall_ge (h : Ends spent f m r) : ∃ n, ∀ k, n ≤ k → f k m = r := by
  obtain ⟨n, rfl, hr⟩ := h
  refine ⟨n, fun k hk => ?_⟩
  obtain heq | ⟨m', hm'⟩ := hf hk m
  · exact heq.symm
  · exact absurd hm' (hr m')

theorem unique (h : Ends spent f m r) (h' : Ends spent f m r') : r = r' := by
  obtain ⟨n, hn⟩ := h.exists_forall_ge hf
  obtain ⟨n', hn'⟩ := h'.exists_forall_ge hf
  rw [← hn _ (Nat.le_max_left n n'), hn' _ (Nat.le_max_right n n')]

end Ends

/-- If either evaluation ends, so does the other, and `R` relates how the two end. -/
def EndTogether (spent : ε)
    (R : EStateM.Result ε (Machine H) α → EStateM.Result ε (Machine H) α → Prop)
    (f f' : Nat → EStateM ε (Machine H) α) (m m' : Machine H) : Prop :=
  (∀ r, Ends spent f m r → ∃ r', Ends spent f' m' r' ∧ R r r') ∧
    ∀ r', Ends spent f' m' r' → ∃ r, Ends spent f m r ∧ R r r'

/-- It is enough that the two end in one way whenever the fuel is large. -/
theorem EndTogether.of_forall_ge {spent : ε}
    {R : EStateM.Result ε (Machine H) α → EStateM.Result ε (Machine H) α → Prop}
    {f f' : Nat → EStateM ε (Machine H) α} {m m' : Machine H}
    (hf : ∀ {n n' : Nat}, n ≤ n' → Extends spent (f n) (f n'))
    (hf' : ∀ {n n' : Nat}, n ≤ n' → Extends spent (f' n) (f' n'))
    (hR : ∀ {r r'}, R r r' → ((∃ t, r = .error spent t) ↔ ∃ t, r' = .error spent t)) (n : Nat)
    (h : ∀ k, n ≤ k → R (f k m) (f' k m')) : EndTogether spent R f f' m m' := by
  constructor
  · intro r hr
    obtain ⟨k, hk⟩ := hr.exists_forall_ge hf
    obtain ⟨-, -, hne⟩ := hr
    have hrel := h _ (Nat.le_max_left n k)
    rw [hk _ (Nat.le_max_right n k)] at hrel
    exact ⟨_, ⟨_, rfl, fun t ht => ((hR hrel).mpr ⟨t, ht⟩).elim hne⟩, hrel⟩
  · intro r' hr'
    obtain ⟨k, hk⟩ := hr'.exists_forall_ge hf'
    obtain ⟨-, -, hne⟩ := hr'
    have hrel := h _ (Nat.le_max_left n k)
    rw [hk _ (Nat.le_max_right n k)] at hrel
    exact ⟨_, ⟨_, rfl, fun t ht => ((hR hrel).mp ⟨t, ht⟩).elim hne⟩, hrel⟩

end BasicScript
