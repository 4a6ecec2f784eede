import BasicScript.Proofs.Evaluation.Calls
import BasicScript.Proofs.Evaluation.Refusals
import BasicScript.Proofs.Program.Parts

/-! # Where an evaluation fails

An evaluation fails because one that it makes fails, or of itself. When it fails of itself, the
frames of the failure are those of the node, or those that the operand or the callee carries which
the failure is put down to. -/

namespace BasicScript

variable {H α : Type} {m m' : Machine H} {d : Diagnostic}

namespace Eval

/-- From `m` the evaluation of a node fails. -/
abbrev Fails (r : Eval H α) (m : Machine H) (d : Diagnostic) : Prop :=
  Stops r m (.halt (.failure d))

@[simp]
theorem fails_fail {f : Diagnostic} : Fails (fail f : Eval H α) m d ↔ f = d := by
  simp [Fails, fail]

@[simp]
theorem not_fails_inspect (f : Store → α) : ¬ Fails (inspect f : Eval H α) m d :=
  fun ⟨_, h⟩ => by cases h

@[simp]
theorem not_fails_store (f : Store → α × Store) : ¬ Fails (store f : Eval H α) m d :=
  fun ⟨_, h⟩ => by cases h

@[simp]
theorem not_fails_change (f : Store → Store) : ¬ Fails (change f : Eval H Unit) m d :=
  fun ⟨_, h⟩ => by cases h

@[simp]
theorem inspect_eq_ok {f : Store → α} {a : α} :
    (inspect f : Eval H α) m = .ok a m' ↔ f m.store = a ∧ m = m' := by
  simp [inspect]

@[simp]
theorem change_eq_ok {f : Store → Store} {u : Unit} :
    (change f : Eval H Unit) m = .ok u m' ↔ { m with store := f m.store } = m' := by
  simp [change]

@[simp]
theorem fails_operation {o : Operation α} :
    Fails (operation o : Eval H α) m d ↔ Stops o m.store d := by
  constructor
  · rintro ⟨m', h⟩
    unfold operation at h
    split at h
    · cases h
    · cases h
      exact ⟨_, ‹_›⟩
  · rintro ⟨s, h⟩
    exact ⟨{ m with store := s }, by rw [operation, h]⟩

@[simp]
theorem fails_turn {body : Eval H Value} : Fails (turn body) m d ↔ Fails body m d := by
  constructor
  · rintro ⟨m', h⟩
    unfold turn at h
    split at h
    · cases h
    · cases h
    · cases h
    · cases h
      exact ⟨_, ‹_›⟩
  · rintro ⟨m', h⟩
    exact ⟨m', by rw [turn, h]⟩

@[simp]
theorem fails_ofRun {r : Run H α} : Fails (ofRun r) m d ↔ Stops r m (.failure d) := by
  constructor
  · rintro ⟨m', h⟩
    unfold ofRun at h
    split at h
    · cases h
    · cases h
      exact ⟨_, ‹_›⟩
  · rintro ⟨m', h⟩
    exact ⟨m', by rw [ofRun, h]⟩

/-- What a body does not fail with is a loop signal that reaches its edge. -/
theorem raised_of_toRun {body : Eval H Value} {trace : Trace} {finish : Value → Value}
    (h : Stops (body.toRun trace finish) m (.failure d)) :
    body.Fails m d ∨ d.RaisedIn trace := by
  obtain ⟨m', h⟩ := h
  unfold toRun at h
  split at h
  · cases h
  · cases h
  · cases h
    exact .inl ⟨_, ‹_›⟩
  · cases h
    exact .inr ⟨rfl, rfl⟩
  · cases h
    exact .inr ⟨rfl, rfl⟩

theorem fails_of_toRun {body : Eval H Value} {trace : Trace} {finish : Value → Value}
    (h : Stops (body.toRun trace finish) m (.failure d)) : body.Fails m d ∨ d.trace = trace :=
  (raised_of_toRun h).imp_right (·.trace)

theorem Fails.toRun {body : Eval H Value} (h : body.Fails m d) (trace : Trace)
    (finish : Value → Value) : Stops (body.toRun trace finish) m (.failure d) := by
  obtain ⟨m', h⟩ := h
  exact ⟨m', by rw [Eval.toRun, h]⟩

end Eval

theorem Run.fails_noteEnd {r : Run H α} {e : Bool → Event} :
    Stops (r.noteEnd e) m (.failure d) ↔ Stops r m (.failure d) := by
  constructor
  · rintro ⟨m', h⟩
    unfold noteEnd at h
    split at h
    · cases h
    · cases h
      exact ⟨_, ‹_›⟩
    · exact ⟨m', h⟩
  · rintro ⟨m', h⟩
    exact ⟨_, by rw [noteEnd, h]⟩

/-- The name of the frame of a call of it, and the number of arguments that the call has to have. -/
def Datum.signature? : Datum → Option (String × Nat)
  | .function f => some (f.name, f.params.length)
  | .builtin b => some (b.name, b.params.length)
  | _ => none

/-- The operand or the callee that a failure of the node is put down to. -/
def Node.subject? : Node → Option Node
  | .binary _ left _ _ => some left
  | .unary _ operand _ => some operand
  | .call callee _ _ => some callee
  | _ => none

def Node.isCall : Node → Bool
  | .call .. => true
  | _ => false

/-- A call that has been entered: the name of what is called and the span of the call. -/
structure Activation where
  name : String
  call : Span

def Activation.frame (a : Activation) : Frame :=
  ⟨a.name, some a.call.start⟩

namespace Visit

variable (self : Visit H) (env : Env)

/-! ## The evaluations that an evaluation makes -/

/-- While nodes are evaluated in turn from `m` on, `y` is evaluated on `m'`. -/
inductive Elements (f : Node → Eval H α) : List Node → Machine H → Node → Machine H → Prop
  | here {x xs m} : Elements f (x :: xs) m x m
  | later {x y xs m m₁ m' v} (hx : f x m = .ok v m₁) (h : Elements f xs m₁ y m') :
      Elements f (x :: xs) m y m'

/-- While the arms of an `IF` are tried from `m` on, the condition `y` is evaluated on `m'`. -/
inductive Conditions : List (Arm Node) → Machine H → Node → Machine H → Prop
  | here {a arms m} : Conditions (a :: arms) m a.condition m
  | later {a arms y m m₁ m' c} (hc : self a.condition env m = .ok c m₁)
      (hholds : m₁.store.holds c = false) (h : Conditions arms m₁ y m') :
      Conditions (a :: arms) m y m'

/-- An `IF` whose arms are tried from `m` on comes to the branch `b`, if it has it, on `m'`. -/
inductive Chooses (otherwise : Option (Branch Node)) :
    List (Arm Node) → Machine H → Option (Branch Node) → Machine H → Prop
  | otherwise {m : Machine H} : Chooses otherwise [] m otherwise m
  | here {a arms m m₁ c} (hc : self a.condition env m = .ok c m₁)
      (hholds : m₁.store.holds c = true) : Chooses otherwise (a :: arms) m (some a.branch) m₁
  | later {a arms b m m₁ m' c} (hc : self a.condition env m = .ok c m₁)
      (hholds : m₁.store.holds c = false) (h : Chooses otherwise arms m₁ b m') :
      Chooses otherwise (a :: arms) m b m'

/-- The machine on which a turn of a `FOR` starts. -/
def turnMachine (r : Range) (i : Number) (m : Machine H) : Machine H :=
  { m with store := m.store.bind env.scope r.name ((Value.ofNumber i).withSpan r.span) }

/-- In a turn of the `FOR` that goes on from `i` on `m`, the body is evaluated on `m'`. -/
inductive ForTurns (r : Range) (body : Node) : Nat → Number → Machine H → Machine H → Prop
  | here {n i m} (hi : r.goesOn i = true) : ForTurns r body (n + 1) i m (turnMachine env r i m)
  | later {n i m m₁ m' t} (hi : r.goesOn i = true)
      (ht : Eval.turn (self body env) (turnMachine env r i m) = .ok t m₁) (hgoes : t ≠ .broken)
      (h : ForTurns r body n (i.add r.step) m₁ m') : ForTurns r body (n + 1) i m m'

/-- In a turn of the `WHILE` that goes on from `m`, the condition or the body is evaluated on `m'`.
-/
inductive WhileTurns (condition body : Node) : Nat → Machine H → Node → Machine H → Prop
  | condition {n m} : WhileTurns condition body (n + 1) m condition m
  | body {n m m₁ c} (hc : self condition env m = .ok c m₁) (hholds : m₁.store.holds c = true) :
      WhileTurns condition body (n + 1) m body m₁
  | later {n m m₁ m₂ m' y c t} (hc : self condition env m = .ok c m₁)
      (hholds : m₁.store.holds c = true) (ht : Eval.turn (self body env) m₁ = .ok t m₂)
      (hgoes : t ≠ .broken) (h : WhileTurns condition body n m₂ y m') :
      WhileTurns condition body (n + 1) m y m'

/-- The step of a `FOR`, which is one where none is given. -/
def stepBound : Option Node → Eval H Number
  | some step => bound self env step
  | none => return .int 1

/-- The evaluation of a node on `m` makes that of `y` on `m'`, in the same frame; a loop makes at
most `limit` turns. -/
inductive Makes (limit : Nat) : Node → Machine H → Node → Machine H → Prop
  | subject {x y m} (h : x.subject? = some y) : Makes limit x m y m
  | element {xs span y m m'} (h : Elements (self · env) xs m y m') :
      Makes limit (.list xs span) m y m'
  | declared {tag name x span m} : Makes limit (.declaration tag name x span) m x m
  | right {op l r span m m' a} (hl : self l env m = .ok a m') :
      Makes limit (.binary op l r span) m r m'
  | condition {arms otherwise span y m m'} (h : Conditions self env arms m y m') :
      Makes limit (.choice arms otherwise span) m y m'
  | branch {arms otherwise span b m m'} (h : Chooses self env otherwise arms m (some b) m') :
      Makes limit (.choice arms otherwise span) m b.body m'
  | bound {name first last step b span y m m'}
      (h : Elements (bound self env) ([first, last] ++ step.toList) m y m') :
      Makes limit (.forLoop name first last step b span) m y m'
  | forTurn {name first last step b span i j k m m₁ m₂ m₃ m'}
      (hfirst : Visit.bound self env first m = .ok i m₁)
      (hlast : Visit.bound self env last m₁ = .ok j m₂)
      (hstep : stepBound self env step m₂ = .ok k m₃)
      (h : ForTurns self env ⟨name, j, k, span⟩ b.body limit i m₃ m') :
      Makes limit (.forLoop name first last step b span) m b.body m'
  | whileTurn {condition b span y m m'} (h : WhileTurns self env condition b.body limit m y m') :
      Makes limit (.whileLoop condition b span) m y m'
  | argument {callee args span g y m m₁ m'} (hg : self callee env m = .ok g m₁)
      (h : Elements (self · env) args m₁ y m') : Makes limit (.call callee args span) m y m'
  | returned {x span m} : Makes limit (.returnWith (some x) span) m x m

variable {self env}

theorem Elements.mem {f : Node → Eval H α} {xs : List Node} {y : Node}
    (h : Elements f xs m y m') : y ∈ xs := by
  induction h with
  | here => exact List.mem_cons_self
  | later _ _ ih => exact List.mem_cons_of_mem _ ih

theorem Conditions.mem {arms : List (Arm Node)} {y : Node} (h : Conditions self env arms m y m') :
    ∃ a ∈ arms, y = a.condition := by
  induction h with
  | here => exact ⟨_, List.mem_cons_self, rfl⟩
  | later _ _ _ ih =>
      obtain ⟨a, ha, rfl⟩ := ih
      exact ⟨a, List.mem_cons_of_mem _ ha, rfl⟩

theorem Chooses.mem {otherwise : Option (Branch Node)} {arms : List (Arm Node)}
    {b : Option (Branch Node)} (h : Chooses self env otherwise arms m b m') :
    (∃ a ∈ arms, b = some a.branch) ∨ b = otherwise := by
  induction h with
  | otherwise => exact .inr rfl
  | here => exact .inl ⟨_, List.mem_cons_self, rfl⟩
  | later _ _ _ ih =>
      exact ih.imp_left fun ⟨a, ha, hb⟩ => ⟨a, List.mem_cons_of_mem _ ha, hb⟩

theorem WhileTurns.mem {condition body : Node} {n : Nat} {y : Node}
    (h : WhileTurns self env condition body n m y m') : y = condition ∨ y = body := by
  induction h with
  | condition => exact .inl rfl
  | body => exact .inr rfl
  | later _ _ _ _ _ ih => exact ih

/-- What a node evaluates in its frame is a part of it. -/
theorem Makes.mem_parts {limit : Nat} {x y : Node} (h : Makes self env limit x m y m') :
    y ∈ x.parts := by
  cases h with
  | @subject x y _ h =>
      cases x with
      | binary | unary | call =>
          cases h
          exact List.mem_cons_self
      | _ => cases h
  | element h => exact h.mem
  | declared => exact List.mem_cons_self
  | right => exact List.mem_cons_of_mem _ List.mem_cons_self
  | condition h =>
      obtain ⟨a, ha, rfl⟩ := h.mem
      exact Node.condition_mem_parts ha
  | branch h =>
      rcases h.mem with ⟨a, ha, hb⟩ | rfl
      · cases hb
        exact Node.body_mem_parts ha
      · exact Node.otherwise_mem_parts rfl
  | bound h => exact List.mem_append_left _ h.mem
  | forTurn => exact List.mem_append_right _ List.mem_cons_self
  | whileTurn h => simpa [Node.parts] using h.mem
  | argument _ h => exact List.mem_cons_of_mem _ h.mem
  | returned => exact List.mem_cons_self

/-- What stops the evaluation of nodes in turn stops that of one of them. -/
theorem stops_all {done : List Value} {xs : List Node} {i : Interrupt} :
    Stops (all self env done xs) m i ↔
      ∃ y m', Elements (self · env) xs m y m' ∧ Stops (self y env) m' i := by
  induction xs generalizing done m with
  | nil =>
      simp only [all, not_stops_pure, false_iff]
      rintro ⟨y, m', h, -⟩
      cases h
  | cons x xs ih =>
      simp only [all, stops_bind, ih]
      constructor
      · rintro (h | ⟨v, m₁, hx, y, m', hy, h⟩)
        · exact ⟨x, m, .here, h⟩
        · exact ⟨y, m', .later hx hy, h⟩
      · rintro ⟨y, m', hy, h⟩
        cases hy with
        | here => exact .inl h
        | later hx hy => exact .inr ⟨_, _, hx, y, m', hy, h⟩

theorem fails_all {done : List Value} {xs : List Node} :
    (all self env done xs).Fails m d ↔
      ∃ y m', Elements (self · env) xs m y m' ∧ (self y env).Fails m' d :=
  stops_all

theorem fails_branch {b : Branch Node} :
    (branch self env b).Fails m d ↔ (self b.body env).Fails m d := by
  simp only [branch, stops_bind, not_stops_pure, and_false, exists_false, or_false]

theorem fails_choice {otherwise : Option (Branch Node)} {arms : List (Arm Node)} :
    (choice self env otherwise arms).Fails m d ↔
      (∃ y m', Conditions self env arms m y m' ∧ (self y env).Fails m' d) ∨
      ∃ b m', Chooses self env otherwise arms m (some b) m' ∧ (self b.body env).Fails m' d := by
  induction arms generalizing m with
  | nil =>
      unfold choice
      constructor
      · intro h
        cases otherwise with
        | none => exact absurd h (not_stops_pure _)
        | some b => exact .inr ⟨b, m, .otherwise, fails_branch.mp h⟩
      · rintro (⟨y, m', hy, -⟩ | ⟨b, m', hb, h⟩)
        · cases hy
        · cases hb
          exact fails_branch.mpr h
  | cons a arms ih =>
      simp only [choice, stops_bind, Eval.not_fails_inspect, false_or, Eval.inspect_eq_ok]
      constructor
      · rintro (h | ⟨c, m₁, hc, holds, _, ⟨hholds, rfl⟩, h⟩)
        · exact .inl ⟨_, m, .here, h⟩
        · split at h
          · exact .inr ⟨_, m₁, .here hc (by simp_all), fails_branch.mp h⟩
          · have hfalse : m₁.store.holds c = false := by simp_all
            obtain ⟨y, m', hy, h⟩ | ⟨b, m', hb, h⟩ := ih.mp h
            · exact .inl ⟨y, m', .later hc hfalse hy, h⟩
            · exact .inr ⟨b, m', .later hc hfalse hb, h⟩
      · rintro (⟨y, m', hy, h⟩ | ⟨b, m', hb, h⟩)
        · cases hy with
          | here => exact .inl h
          | later hc hholds hy =>
              refine .inr ⟨_, _, hc, _, _, ⟨hholds, rfl⟩, ih.mpr (.inl ⟨y, m', hy, h⟩)⟩
        · cases hb with
          | here hc hholds => exact .inr ⟨_, _, hc, _, _, ⟨hholds, rfl⟩, fails_branch.mpr h⟩
          | later hc hholds hb =>
              exact .inr ⟨_, _, hc, _, _, ⟨hholds, rfl⟩, ih.mpr (.inr ⟨b, m', hb, h⟩)⟩

theorem fails_forTurns {r : Range} {body : Node} {n : Nat} {i : Number} {done : List Value} :
    (forTurns self env r body n i done).Fails m d ↔
      ∃ m', ForTurns self env r body n i m m' ∧ (self body env).Fails m' d := by
  induction n generalizing i done m with
  | zero =>
      simp only [forTurns, Eval.outOfFuel, stops_throw]
      constructor
      · intro h
        cases h
      · rintro ⟨m', h, -⟩
        cases h
  | succ n ih =>
      unfold forTurns
      by_cases hi : r.goesOn i = true
      · rw [if_pos hi]
        simp only [bindName, stops_bind, Eval.not_fails_change, false_or, Eval.change_eq_ok,
          Eval.fails_turn]
        constructor
        · rintro ⟨-, _, rfl, h | ⟨t, m₁, ht, h⟩⟩
          · exact ⟨_, .here hi, h⟩
          · cases t with
            | value v =>
                obtain ⟨m', hm', h⟩ := ih.mp h
                exact ⟨m', .later hi ht (by simp) hm', h⟩
            | continued =>
                obtain ⟨m', hm', h⟩ := ih.mp h
                exact ⟨m', .later hi ht (by simp) hm', h⟩
            | broken => exact absurd h (not_stops_pure _)
        · rintro ⟨m', hm', h⟩
          refine ⟨(), _, rfl, ?_⟩
          cases hm' with
          | here => exact .inl h
          | @later _ _ _ _ _ t _ ht hgoes hm' =>
              refine .inr ⟨t, _, ht, ?_⟩
              cases t with
              | value v => exact ih.mpr ⟨m', hm', h⟩
              | continued => exact ih.mpr ⟨m', hm', h⟩
              | broken => exact absurd rfl hgoes
      · rw [if_neg hi]
        simp only [not_stops_pure, false_iff]
        rintro ⟨m', hm', -⟩
        cases hm' <;> exact hi ‹_›

theorem fails_whileTurns {condition body : Node} {n : Nat} {done : List Value} :
    (whileTurns self env condition body n done).Fails m d ↔
      ∃ y m', WhileTurns self env condition body n m y m' ∧ (self y env).Fails m' d := by
  induction n generalizing done m with
  | zero =>
      simp only [whileTurns, Eval.outOfFuel, stops_throw]
      constructor
      · intro h
        cases h
      · rintro ⟨y, m', h, -⟩
        cases h
  | succ n ih =>
      simp only [whileTurns, stops_bind, Eval.not_fails_inspect, false_or, Eval.inspect_eq_ok]
      constructor
      · rintro (h | ⟨c, m₁, hc, holds, _, ⟨hholds, rfl⟩, h⟩)
        · exact ⟨_, m, .condition, h⟩
        · cases holds with
          | false => exact absurd h (not_stops_pure _)
          | true =>
              simp only [if_true, stops_bind, Eval.fails_turn] at h
              obtain h | ⟨t, m₂, ht, h⟩ := h
              · exact ⟨_, m₁, .body hc hholds, h⟩
              · cases t with
                | value v =>
                    obtain ⟨y, m', hy, h⟩ := ih.mp h
                    exact ⟨y, m', .later hc hholds ht (by simp) hy, h⟩
                | continued =>
                    obtain ⟨y, m', hy, h⟩ := ih.mp h
                    exact ⟨y, m', .later hc hholds ht (by simp) hy, h⟩
                | broken => exact absurd h (not_stops_pure _)
      · rintro ⟨y, m', hy, h⟩
        cases hy with
        | condition => exact .inl h
        | body hc hholds =>
            refine .inr ⟨_, _, hc, true, _, ⟨hholds, rfl⟩, ?_⟩
            simp only [if_true, stops_bind, Eval.fails_turn]
            exact .inl h
        | @later _ _ _ _ _ _ _ t hc hholds ht hgoes hy =>
            refine .inr ⟨_, _, hc, true, _, ⟨hholds, rfl⟩, ?_⟩
            simp only [if_true, stops_bind, Eval.fails_turn]
            refine .inr ⟨t, _, ht, ?_⟩
            cases t with
            | value v => exact ih.mpr ⟨y, m', hy, h⟩
            | continued => exact ih.mpr ⟨y, m', hy, h⟩
            | broken => exact absurd rfl hgoes

@[simp]
theorem not_fails_collected (b : Branch Node) (span : Span) (done : List Value) :
    ¬ (collected env b span done : Eval H Value).Fails m d := by
  unfold collected
  split
  · exact not_stops_pure _
  · simp [newList]

theorem fails_bound_of {x : Node} (h : (self x env).Fails m d) : (bound self env x).Fails m d :=
  stops_bind.mpr (.inl h)

theorem fails_of_bound {x : Node} (h : (bound self env x).Fails m d) :
    (self x env).Fails m d ∨ d.RaisedIn env.trace := by
  obtain h | ⟨v, m₁, -, h⟩ := stops_bind.mp h
  · exact .inl h
  · right
    cases hv : v.number? with
    | some n =>
        simp only [hv] at h
        exact absurd h (not_stops_pure _)
    | none =>
        simp only [hv, Eval.fails_fail] at h
        subst h
        exact ⟨rfl, rfl⟩

theorem forLoop_eq {limit : Nat} {name : String} {first last : Node} {step : Option Node}
    {b : Branch Node} {span : Span} :
    forLoop self limit env name first last step b span = (do
      let i ← bound self env first
      let last ← bound self env last
      let step ← stepBound self env step
      let done ← forTurns self env ⟨name, last, step, span⟩ b.body limit i []
      collected env b span done) := by
  cases step <;> rfl

section

variable {limit : Nat} {name : String} {first last : Node} {step : Option Node} {b : Branch Node}
  {span : Span}

theorem fails_forLoop_of_bound {y : Node}
    (hy : Elements (bound self env) ([first, last] ++ step.toList) m y m')
    (h : (self y env).Fails m' d) :
    (forLoop self limit env name first last step b span).Fails m d := by
  simp only [forLoop_eq, stops_bind]
  cases hy with
  | here => exact .inl (fails_bound_of h)
  | later hfirst hy =>
      refine .inr ⟨_, _, hfirst, ?_⟩
      cases hy with
      | here => exact .inl (fails_bound_of h)
      | later hlast hy =>
          refine .inr ⟨_, _, hlast, .inl ?_⟩
          cases step with
          | none => cases hy
          | some step =>
              cases hy with
              | here => exact fails_bound_of h
              | later _ hy => cases hy

theorem fails_of_forLoop (h : (forLoop self limit env name first last step b span).Fails m d) :
    (∃ y m', Makes self env limit (.forLoop name first last step b span) m y m' ∧
      (self y env).Fails m' d) ∨ d.RaisedIn env.trace := by
  have of_bound {y : Node} {m' : Machine H}
      (hy : Elements (bound self env) ([first, last] ++ step.toList) m y m')
      (h : (bound self env y).Fails m' d) :
      (∃ y m', Makes self env limit (.forLoop name first last step b span) m y m' ∧
        (self y env).Fails m' d) ∨ d.RaisedIn env.trace :=
    (fails_of_bound h).imp_left fun h => ⟨y, m', .bound hy, h⟩
  simp only [forLoop_eq, stops_bind] at h
  obtain h | ⟨i, m₁, hfirst, h | ⟨j, m₂, hlast, h | ⟨k, m₃, hstep, h | ⟨done, m₄, -, h⟩⟩⟩⟩ := h
  · exact of_bound .here h
  · exact of_bound (.later hfirst .here) h
  · cases step with
    | none => exact absurd h (not_stops_pure _)
    | some step => exact of_bound (.later hfirst (.later hlast .here)) h
  · obtain ⟨m', hm', h⟩ := fails_forTurns.mp h
    exact .inl ⟨b.body, m', .forTurn hfirst hlast hstep hm', h⟩
  · exact absurd h (not_fails_collected b span done)

end

end Visit

namespace Visit

/-! ## Calls -/

section

variable (self : Visit H) (env : Env)

/-- The evaluation of a call on `m` calls `g` with `values` on `m'`. -/
inductive Calls : Node → Machine H → Value → List Value → Machine H → Prop
  | mk {callee args span g values m m₁ m₂} (hg : self callee env m = .ok g m₁)
      (hargs : all self env [] args m₁ = .ok values m₂) :
      Calls (.call callee args span) m (g.withSpan span) values m₂

/-- The evaluation of a call on `m` enters what is called. -/
inductive Enters : Node → Machine H → Activation → Prop
  | mk {callee args span g values name m m₁ m₂} (hg : self callee env m = .ok g m₁)
      (hargs : all self env [] args m₁ = .ok values m₂) (hdepth : m₂.depth < maxDepth)
      (hsignature : g.datum.signature? = some (name, values.length)) :
      Enters (.call callee args span) m ⟨name, span⟩

/-- The evaluation of a call on `m` enters a function and makes the evaluation of its body, `y` in
`env'` on `m'`. -/
inductive EntersBody : Node → Machine H → Activation → Node → Env → Machine H → Prop
  | mk {callee args span g f values m m₁ m₂} (hg : self callee env m = .ok g m₁)
      (hargs : all self env [] args m₁ = .ok values m₂) (hdepth : m₂.depth < maxDepth)
      (hf : g.datum = .function f) (hcount : f.params.length = values.length) :
      EntersBody (.call callee args span) m ⟨f.name, span⟩ f.body (bodyEnv (g.withSpan span) f m₂)
        (bodyMachine f values { m₂ with depth := m₂.depth + 1 })

/-- The frames that a failure of the node itself, evaluated on `m`, comes with, but for that of a
call that has been entered. -/
inductive Answers : Node → Machine H → Trace → Prop
  | node {x m} (h : x.subject? = none) : Answers x m env.trace
  | subject {x y m m' a} (h : x.subject? = some y) (ha : self y env m = .ok a m') :
      Answers x m a.trace

/-- The calls that the node itself, evaluated on `m`, is in the middle of. -/
inductive Entered : Node → Machine H → List Activation → Prop
  | outside {x m} (h : ∀ a, ¬ Enters self env x m a) : Entered x m []
  | inside {x m a} (h : Enters self env x m a) : Entered x m [a]

end

variable {self : Visit H} {env : Env} {g : Value} {values : List Value}

theorem fails_of_checkCount {expected got : Nat}
    (h : Stops (checkCount g expected got : Run H Unit) m (.failure d)) :
    expected ≠ got ∧ d.RaisedIn g.trace := by
  unfold checkCount at h
  split at h
  · exact absurd h (not_stops_pure _)
  · refine ⟨‹_›, ?_⟩
    obtain ⟨m', h⟩ := h
    cases h
    exact ⟨rfl, rfl⟩

/-- A call that is refused for the number of its arguments is not entered. -/
theorem fails_of_miscount {r : Unit → Run H Value} {name : String} {expected : Nat}
    (hsignature : g.datum.signature? = some (name, expected)) (hcount : expected ≠ values.length)
    (h : Stops (checkCount g expected values.length >>= r) m (.failure d)) :
    (∀ name, g.datum.signature? ≠ some (name, values.length)) ∧ d.RaisedIn g.trace := by
  obtain h | ⟨u, m₁, hcheck, -⟩ := stops_bind.mp h
  · refine ⟨fun name h' => ?_, (fails_of_checkCount h).2⟩
    cases hsignature.symm.trans h'
    exact hcount rfl
  · exact absurd (eq_of_checkCount hcheck) hcount

/-- A program that can be read fails where its evaluation does, or by a loop signal that reaches its
edge. -/
theorem fails_runSource {source : Source} {x : Node} (hx : Node.ofSource source = .ok x) :
    Stops (runSource self source) m (.failure d) ↔
      Stops ((self x programEnv).toRun programEnv.trace id)
        { m with log := .started source.name :: m.log } (.failure d) := by
  rw [Stops, runSource_of_ok hx]
  exact Run.fails_noteEnd

variable [Host H]

theorem fails_apply (hdepth : m.depth < maxDepth) :
    Stops (apply self g values) m (.failure d) ↔
      Stops (enter self g values) { m with depth := m.depth + 1 } (.failure d) := by
  unfold Stops apply
  rw [if_neg (Nat.not_le.mpr hdepth)]
  cases enter self g values { m with depth := m.depth + 1 } <;> simp

theorem raised_of_deep_apply (hdepth : ¬ m.depth < maxDepth)
    (h : Stops (apply self g values) m (.failure d)) : d.RaisedIn g.trace := by
  obtain ⟨m', h⟩ := h
  rw [apply, if_pos (Nat.le_of_not_lt hdepth)] at h
  cases h
  exact ⟨rfl, rfl⟩

theorem fails_enter_of_body {f : Closure} (hf : g.datum = .function f)
    (hcount : f.params.length = values.length)
    (h : (self f.body (bodyEnv g f m)).Fails (bodyMachine f values m) d) :
    Stops (enter self g values) m (.failure d) := by
  rw [enter_of_function hf, Stops, callClosure_of_eq hcount]
  exact h.toRun _ _

theorem fails_enter_of_builtin {b : Builtin} (hb : g.datum = .builtin b)
    (hcount : b.params.length = values.length)
    (h : Stops (b.execute (runSource self) ⟨g.span, entered g b.name⟩ values)
      { m with log := .calling b values.length :: m.log } (.failure d)) :
    Stops (enter self g values) m (.failure d) := by
  rwa [enter_of_builtin hb, Stops, callBuiltin_of_eq hcount]

theorem fails_of_enter (h : Stops (enter self g values) m (.failure d)) :
    (∃ f, g.datum = .function f ∧ f.params.length = values.length ∧
      (self f.body (bodyEnv g f m)).Fails (bodyMachine f values m) d) ∨
    (∃ b, g.datum = .builtin b ∧ b.params.length = values.length ∧
      Stops (b.execute (runSource self) ⟨g.span, entered g b.name⟩ values)
        { m with log := .calling b values.length :: m.log } (.failure d)) ∨
    (∃ name, g.datum.signature? = some (name, values.length) ∧ d.RaisedIn (entered g name)) ∨
    (∀ name, g.datum.signature? ≠ some (name, values.length)) ∧ d.RaisedIn g.trace := by
  unfold enter at h
  split at h
  · rename_i f hf
    have hsignature : g.datum.signature? = some (f.name, f.params.length) := by rw [hf]; rfl
    by_cases hcount : f.params.length = values.length
    · rw [Stops, callClosure_of_eq hcount] at h
      obtain h | h := Eval.raised_of_toRun h
      · exact .inl ⟨f, hf, hcount, h⟩
      · exact .inr (.inr (.inl ⟨f.name, hcount ▸ hsignature, h⟩))
    · exact .inr (.inr (.inr (fails_of_miscount hsignature hcount h)))
  · rename_i b hb
    have hsignature : g.datum.signature? = some (b.name, b.params.length) := by rw [hb]; rfl
    by_cases hcount : b.params.length = values.length
    · rw [Stops, callBuiltin_of_eq hcount] at h
      exact .inr (.inl ⟨b, hb, hcount, h⟩)
    · exact .inr (.inr (.inr (fails_of_miscount hsignature hcount h)))
  · rename_i hfunction hbuiltin
    refine .inr (.inr (.inr ⟨fun name hsignature => ?_, ?_⟩))
    · unfold Datum.signature? at hsignature
      split at hsignature
      · exact hfunction _ ‹_›
      · exact hbuiltin _ ‹_›
      · cases hsignature
    · obtain ⟨m', h⟩ := h
      cases h
      exact ⟨rfl, rfl⟩

theorem fails_call {callee : Node} {args : List Node} {span : Span} :
    (call self env callee args span).Fails m d ↔
      (self callee env).Fails m d ∨ ∃ g m₁, self callee env m = .ok g m₁ ∧
        ((∃ y m', Elements (self · env) args m₁ y m' ∧ (self y env).Fails m' d) ∨
          ∃ values m₂, all self env [] args m₁ = .ok values m₂ ∧
            Stops (apply self (g.withSpan span) values) m₂ (.failure d)) := by
  simp only [call, stops_bind, fails_all, Eval.fails_ofRun, not_stops_pure, and_false,
    exists_false, or_false]

/-- A call fails where the body of what it calls does. -/
theorem EntersBody.fails {x y : Node} {a : Activation} {env' : Env} {limit : Nat}
    (he : EntersBody self env x m a y env' m') (h : (self y env').Fails m' d) :
    (step self limit x env).Fails m d := by
  obtain ⟨hg, hargs, hdepth, hf, hcount⟩ := he
  exact fails_call.mpr (.inr ⟨_, _, hg, .inr ⟨_, _, hargs,
    (fails_apply hdepth).mpr (fails_enter_of_body hf hcount h)⟩⟩)

/-- A node fails where a node does that its evaluation evaluates. -/
theorem Makes.fails {x y : Node} {limit : Nat} (hx : Makes self env limit x m y m')
    (h : (self y env).Fails m' d) : (step self limit x env).Fails m d := by
  cases hx with
  | subject hy =>
      cases x with
      | binary op l r span =>
          cases hy
          exact stops_bind.mpr (.inl h)
      | unary op x span =>
          cases hy
          exact stops_bind.mpr (.inl h)
      | call callee args span =>
          cases hy
          exact fails_call.mpr (.inl h)
      | _ => cases hy
  | element hy => exact stops_bind.mpr (.inl (fails_all.mpr ⟨y, m', hy, h⟩))
  | declared => exact stops_bind.mpr (.inl h)
  | right hl => exact stops_bind.mpr (.inr ⟨_, _, hl, stops_bind.mpr (.inl h)⟩)
  | condition hy => exact fails_choice.mpr (.inl ⟨y, m', hy, h⟩)
  | branch hb => exact fails_choice.mpr (.inr ⟨_, m', hb, h⟩)
  | bound hy => exact fails_forLoop_of_bound hy h
  | forTurn hfirst hlast hstep hm' =>
      refine Eq.mpr (congrArg (Eval.Fails · m d) forLoop_eq) ?_
      exact stops_bind.mpr (.inr ⟨_, _, hfirst, stops_bind.mpr (.inr ⟨_, _, hlast,
        stops_bind.mpr (.inr ⟨_, _, hstep, stops_bind.mpr (.inl
          (fails_forTurns.mpr ⟨m', hm', h⟩))⟩)⟩)⟩)
  | whileTurn hy => exact stops_bind.mpr (.inl (fails_whileTurns.mpr ⟨y, m', hy, h⟩))
  | argument hg hy => exact fails_call.mpr (.inr ⟨_, _, hg, .inl ⟨y, m', hy, h⟩⟩)
  | returned => exact stops_bind.mpr (.inl h)

/-! ## Failures of a node itself -/

/-- The evaluation of a node on `m` fails, because one that it makes fails or of itself. -/
def FailsSomewhere (self : Visit H) (env : Env) (limit : Nat) (x : Node) (m : Machine H)
    (d : Diagnostic) : Prop :=
  (∃ y m', Makes self env limit x m y m' ∧ (self y env).Fails m' d) ∨
  (∃ a y env' m', EntersBody self env x m a y env' m' ∧ (self y env').Fails m' d) ∨
  ∃ as t, Entered self env x m as ∧ Answers self env x m t ∧
    d.trace = as.map Activation.frame ++ t

namespace FailsSomewhere

variable {limit : Nat} {x : Node}

omit [Host H] in
theorem made {y : Node} (hx : Makes self env limit x m y m') (h : (self y env).Fails m' d) :
    FailsSomewhere self env limit x m d :=
  .inl ⟨y, m', hx, h⟩

omit [Host H] in
/-- A node that is no call fails of itself. -/
theorem node {t : Trace} (hx : x.isCall = false) (ht : Answers self env x m t)
    (h : d.trace = t) : FailsSomewhere self env limit x m d := by
  refine .inr (.inr ⟨[], t, .outside fun a ha => ?_, ht, h⟩)
  cases ha
  cases hx

end FailsSomewhere

variable {limit : Nat}

omit [Host H] in
theorem fails_of_ident {name : String} {span : Span} (h : (ident env name span).Fails m d) :
    d.RaisedIn env.trace := by
  simp only [ident, stops_bind, Eval.not_fails_inspect, false_or, Eval.inspect_eq_ok] at h
  obtain ⟨v, m₁, ⟨-, rfl⟩, h⟩ := h
  cases v with
  | some v => exact absurd h (not_stops_pure _)
  | none =>
      obtain rfl := Eval.fails_fail.mp h
      exact ⟨rfl, rfl⟩

omit [Host H] in
theorem fails_of_declaration {tag : Tag} {name : String} {value : Node} {span : Span}
    (h : (declaration self env tag name value span).Fails m d) :
    (self value env).Fails m d ∨ d.RaisedIn env.trace := by
  obtain h | ⟨v, m₁, -, h⟩ := stops_bind.mp h
  · exact .inl h
  · right
    split at h
    · simp [bindName] at h
    · obtain rfl := Eval.fails_fail.mp h
      exact ⟨rfl, rfl⟩

omit [Host H] in
theorem fails_of_binary {op : BinaryOp} {l r : Node} {span : Span}
    (h : (binary self env op l r span).Fails m d) :
    (∃ y m', Makes self env limit (.binary op l r span) m y m' ∧ (self y env).Fails m' d) ∨
      ∃ a m₁, self l env m = .ok a m₁ ∧ d.RaisedIn a.trace := by
  obtain h | ⟨a, m₁, ha, h⟩ := stops_bind.mp h
  · exact .inl ⟨l, m, .subject rfl, h⟩
  · obtain h | ⟨b, m₂, -, h⟩ := stops_bind.mp h
    · exact .inl ⟨r, m₁, .right ha, h⟩
    · obtain h | ⟨v, m₃, -, h⟩ := stops_bind.mp h
      · have hrefused := (Operation.binary_computes op a b).inFrames.of_stops trivial
          (Eval.fails_operation.mp h)
        exact .inr ⟨a, m₁, ha, hrefused⟩
      · exact absurd h (not_stops_pure _)

omit [Host H] in
theorem fails_of_unary {op : UnaryOp} {x : Node} {span : Span}
    (h : (unary self env op x span).Fails m d) :
    (self x env).Fails m d ∨ ∃ a m₁, self x env m = .ok a m₁ ∧ d.RaisedIn a.trace := by
  obtain h | ⟨a, m₁, ha, h⟩ := stops_bind.mp h
  · exact .inl h
  · obtain h | ⟨v, m₂, -, h⟩ := stops_bind.mp h
    · have hstops := Eval.fails_operation.mp h
      refine .inr ⟨a, m₁, ha, ?_⟩
      cases op with
      | negate => exact (Operation.multiply_computes a _).inFrames.of_stops trivial hstops
      | not => exact (Operation.not_computes a).inFrames.of_stops trivial hstops
    · exact absurd h (not_stops_pure _)

/-- The evaluation of a node fails because one that it makes fails, because the call fails that it
makes, or, if it is no call, of itself. -/
theorem fails_parts {x : Node} (h : (step self limit x env).Fails m d) :
    (∃ y m', Makes self env limit x m y m' ∧ (self y env).Fails m' d) ∨
    (∃ g values m', Calls self env x m g values m' ∧ Stops (apply self g values) m' (.failure d)) ∨
    x.isCall = false ∧ ∃ t, Answers self env x m t ∧ d.RaisedIn t := by
  cases x with
  | number n span => exact absurd h (not_stops_pure _)
  | text s span => exact absurd h (not_stops_pure _)
  | list xs span =>
      obtain h | ⟨vs, m₁, -, h⟩ := stops_bind.mp h
      · obtain ⟨y, m', hy, h⟩ := fails_all.mp h
        exact .inl ⟨y, m', .element hy, h⟩
      · simp [newList] at h
  | ident name span => exact .inr (.inr ⟨rfl, _, .node rfl, fails_of_ident h⟩)
  | declaration tag name value span =>
      obtain h | h := fails_of_declaration h
      · exact .inl ⟨value, m, .declared, h⟩
      · exact .inr (.inr ⟨rfl, _, .node rfl, h⟩)
  | binary op l r span =>
      obtain h | ⟨a, m₁, ha, h⟩ := fails_of_binary h
      · exact .inl h
      · exact .inr (.inr ⟨rfl, _, .subject rfl ha, h⟩)
  | unary op x span =>
      obtain h | ⟨a, m₁, ha, h⟩ := fails_of_unary h
      · exact .inl ⟨x, m, .subject rfl, h⟩
      · exact .inr (.inr ⟨rfl, _, .subject rfl ha, h⟩)
  | choice arms otherwise span =>
      obtain ⟨y, m', hy, h⟩ | ⟨b, m', hb, h⟩ := fails_choice.mp h
      · exact .inl ⟨y, m', .condition hy, h⟩
      · exact .inl ⟨b.body, m', .branch hb, h⟩
  | forLoop name first last step b span =>
      obtain h | h := fails_of_forLoop h
      · exact .inl h
      · exact .inr (.inr ⟨rfl, _, .node rfl, h⟩)
  | whileLoop condition b span =>
      obtain h | ⟨done, m₁, -, h⟩ := stops_bind.mp h
      · obtain ⟨y, m', hy, h⟩ := fails_whileTurns.mp h
        exact .inl ⟨y, m', .whileTurn hy, h⟩
      · exact absurd h (not_fails_collected b span done)
  | function name params body arrow span =>
      cases name <;> simp [step, function, bindName] at h
  | call callee args span =>
      obtain h | ⟨g, m₁, hg, ⟨y, m', hy, h⟩ | ⟨values, m₂, hvalues, h⟩⟩ := fails_call.mp h
      · exact .inl ⟨callee, m, .subject rfl, h⟩
      · exact .inl ⟨y, m', .argument hg hy, h⟩
      · exact .inr (.inl ⟨_, values, m₂, ⟨hg, hvalues⟩, h⟩)
  | returnWith value span =>
      cases value with
      | none => cases (stops_throw.mp h)
      | some x =>
          obtain h | ⟨v, m₁, -, h⟩ := stops_bind.mp h
          · exact .inl ⟨x, m, .returned, h⟩
          · cases (stops_throw.mp h)
  | continueLoop span => cases (stops_throw.mp h)
  | breakLoop span => cases (stops_throw.mp h)

theorem fails_of_calls {x : Node} (hx : Calls self env x m g values m')
    (h : Stops (apply self g values) m' (.failure d)) : FailsSomewhere self env limit x m d := by
  obtain ⟨hg, hvalues⟩ := hx
  rename_i callee args span g m₁
  have answers : Answers self env (.call callee args span) m g.trace := .subject rfl hg
  -- what a callee and arguments come to is the same whenever they are evaluated
  have outside (hout : ∀ name, m'.depth < maxDepth →
      g.datum.signature? ≠ some (name, values.length)) (htrace : d.trace = g.trace) :
      FailsSomewhere self env limit (.call callee args span) m d := by
    refine .inr (.inr ⟨[], g.trace, .outside fun a ha => ?_, answers, htrace⟩)
    obtain ⟨hg', hargs', hdepth, hsignature⟩ := ha
    cases hg.symm.trans hg'
    cases hvalues.symm.trans hargs'
    exact hout _ hdepth hsignature
  have inside {name : String} (hdepth : m'.depth < maxDepth)
      (hsignature : g.datum.signature? = some (name, values.length))
      (htrace : d.trace = entered (g.withSpan span) name) :
      FailsSomewhere self env limit (.call callee args span) m d :=
    .inr (.inr ⟨[⟨name, span⟩], g.trace, .inside ⟨hg, hvalues, hdepth, hsignature⟩, answers,
      htrace⟩)
  by_cases hdepth : m'.depth < maxDepth
  · obtain ⟨f, hf, hcount, h⟩ | ⟨b, hb, hcount, h⟩ | ⟨name, hsignature, h⟩ | ⟨hsignature, h⟩ :=
      fails_of_enter ((fails_apply hdepth).mp h)
    · exact .inr (.inl ⟨_, _, _, _, ⟨hg, hvalues, hdepth, hf, hcount⟩, h⟩)
    · have hsignature : g.datum.signature? = some (b.name, values.length) := by
        rw [show g.datum = _ from hb, ← hcount]
        rfl
      have hframes : Run.Refuses (·.trace = entered (g.withSpan span) b.name)
          (b.execute (runSource self) ⟨span, entered (g.withSpan span) b.name⟩ values) :=
        Builtin.execute_refuses (fun _ => rfl) (fun _ _ => rfl) _ _
      exact inside hdepth hsignature (hframes.of_stops trivial h)
    · exact inside hdepth hsignature h.trace
    · exact outside (fun name _ => hsignature name) h.trace
  · exact outside (fun name h => absurd h hdepth) (raised_of_deep_apply hdepth h).trace

/-- Where the evaluation of a node fails. -/
theorem fails_of_step {x : Node} (h : (step self limit x env).Fails m d) :
    FailsSomewhere self env limit x m d := by
  obtain ⟨y, m', hy, h⟩ | ⟨g, values, m', hcalls, h⟩ | ⟨hx, t, ht, h⟩ := fails_parts h
  · exact .made hy h
  · exact fails_of_calls hcalls h
  · exact .node hx ht h.trace

end Visit

end BasicScript
