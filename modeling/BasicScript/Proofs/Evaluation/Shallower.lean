import BasicScript.Proofs.Evaluation.Depth
import BasicScript.Proofs.Evaluation.Linking

/-! # Fewer calls around it

An evaluation does not tell how many calls are active around it, as long as it never makes a call
that is refused for being one too many. Two runs of it, one with fewer calls around it than the
other, do the same and end in the same way. -/

namespace BasicScript

variable {H α β ε : Type}

/-- The second machine is the first but for the log, and no more calls are active. -/
structure Machine.Shallower (m m' : Machine H) : Prop where
  store : m'.store = m.store
  host : m'.host = m.host
  depth : m'.depth ≤ m.depth

open Machine (Shallower)

/-- Carried out on either machine, `r` yields the same or stops for the same reason, and what has
been done by then is the same. -/
def Agrees (r : EStateM ε (Machine H) α) (m m' : Machine H) : Prop :=
  EndsAlike (fun _ => Eq) (fun _ => Eq) Shallower (r m) (r m')

/-- What agrees wherever it is carried out. -/
def Blind (r : EStateM ε (Machine H) α) : Prop :=
  ∀ m m', Shallower m m' → Agrees r m m'

namespace Agrees

variable {r : EStateM ε (Machine H) α} {f : α → EStateM ε (Machine H) β} {m m' : Machine H}

/-- The second step has to agree only where the first one leads. -/
theorem bind (h : Agrees r m m')
    (hf : ∀ a m₁ m₁', r m = .ok a m₁ → Shallower m₁ m₁' → Agrees (f a) m₁ m₁') :
    Agrees (r >>= f) m m' := by
  unfold Agrees at h ⊢
  cases hr : r m with
  | ok a m₁ =>
      cases hr' : r m' with
      | ok a' m₁' =>
          rw [hr, hr'] at h
          rcases h with ⟨rfl, hm₁⟩
          rw [bind_of_ok hr, bind_of_ok hr']
          exact hf a m₁ m₁' hr hm₁
      | error e' m₁' =>
          rw [hr, hr'] at h
          cases h
  | error e m₁ =>
      cases hr' : r m' with
      | ok a' m₁' =>
          rw [hr, hr'] at h
          cases h
      | error e' m₁' =>
          rw [hr, hr'] at h
          rcases h with _ | ⟨rfl, hm₁⟩
          rw [bind_of_error hr, bind_of_error hr']
          exact .error rfl hm₁

theorem next (h : Agrees r m m') (hf : ∀ a, Blind (f a)) : Agrees (r >>= f) m m' :=
  h.bind fun a m₁ m₁' _ hm => hf a m₁ m₁' hm

theorem pure (a : α) (hm : Shallower m m') : Agrees (pure a : EStateM ε (Machine H) α) m m' :=
  .ok rfl hm

theorem throw (e : ε) (hm : Shallower m m') : Agrees (throw e : EStateM ε (Machine H) α) m m' :=
  .error rfl hm

theorem exists_ok {a : α} {m₁' : Machine H} (h : Agrees r m m') (hr : r m' = .ok a m₁') :
    ∃ m₁, r m = .ok a m₁ ∧ Shallower m₁ m₁' := by
  unfold Agrees at h
  rw [hr] at h
  generalize r m = q at h ⊢
  cases h with
  | ok hv hm => exact ⟨_, by rw [hv], hm⟩

theorem exists_error {e : ε} {m₁' : Machine H} (h : Agrees r m m') (hr : r m' = .error e m₁') :
    ∃ m₁, r m = .error e m₁ ∧ Shallower m₁ m₁' := by
  unfold Agrees at h
  rw [hr] at h
  generalize r m = q at h ⊢
  cases h with
  | error he hm => exact ⟨_, by rw [he], hm⟩

theorem ofRun {r : Run H α} (h : Agrees r m m') : Agrees (Eval.ofRun r) m m' := by
  unfold Agrees Eval.ofRun at *
  generalize r m = q at h ⊢
  generalize r m' = q' at h ⊢
  cases h with
  | ok hv hm => exact .ok hv hm
  | error he hm => exact .error (congrArg Interrupt.halt he) hm

theorem turn {body : Eval H Value} (h : Agrees body m m') : Agrees (Eval.turn body) m m' := by
  unfold Agrees Eval.turn at *
  generalize body m = q at h ⊢
  generalize body m' = q' at h ⊢
  cases h with
  | ok hv hm => exact .ok (congrArg Eval.Turn.value hv) hm
  | @error e e' _ _ he hm =>
      subst he
      cases e with
      | continued => exact .ok rfl hm
      | broken => exact .ok rfl hm
      | halt => exact .error rfl hm
      | returned => exact .error rfl hm

theorem toRun {body : Eval H Value} (h : Agrees body m m') (trace : Trace)
    (finish : Value → Value) : Agrees (body.toRun trace finish) m m' := by
  unfold Agrees Eval.toRun at *
  generalize body m = q at h ⊢
  generalize body m' = q' at h ⊢
  cases h with
  | ok hv hm => exact .ok (congrArg finish hv) hm
  | @error e e' _ _ he hm =>
      subst he
      cases e with
      | returned => exact .ok rfl hm
      | halt => exact .error rfl hm
      | continued => exact .error rfl hm
      | broken => exact .error rfl hm

theorem mapFailure {r : Run H α} (h : Agrees r m m') (f : Diagnostic → Diagnostic) :
    Agrees (r.mapFailure f) m m' := by
  unfold Agrees Run.mapFailure at *
  generalize r m = q at h ⊢
  generalize r m' = q' at h ⊢
  cases h with
  | ok hv hm => exact .ok hv hm
  | @error e e' _ _ he hm =>
      subst he
      cases e <;> exact .error rfl hm

theorem noteEnd {r : Run H α} (h : Agrees r m m') (e : Bool → Event) :
    Agrees (r.noteEnd e) m m' := by
  unfold Agrees Run.noteEnd at *
  generalize r m = q at h ⊢
  generalize r m' = q' at h ⊢
  cases h with
  | ok hv hm => exact .ok hv ⟨hm.store, hm.host, hm.depth⟩
  | @error e e' _ _ he hm =>
      subst he
      cases e with
      | failure d => exact .error rfl ⟨hm.store, hm.host, hm.depth⟩
      | awaits q => exact .error rfl hm
      | outOfFuel => exact .error rfl hm

end Agrees

/-! ## What does not ask how deep it is -/

namespace Blind

theorem agrees {r : EStateM ε (Machine H) α} {m m' : Machine H} (h : Blind r)
    (hm : Shallower m m') : Agrees r m m' :=
  h m m' hm

theorem pure (a : α) : Blind (pure a : EStateM ε (Machine H) α) :=
  fun _ _ hm => .pure a hm

theorem throw (e : ε) : Blind (throw e : EStateM ε (Machine H) α) :=
  fun _ _ hm => .throw e hm

theorem bind {r : EStateM ε (Machine H) α} {f : α → EStateM ε (Machine H) β} (h : Blind r)
    (hf : ∀ a, Blind (f a)) : Blind (r >>= f) :=
  fun _ _ hm => (h.agrees hm).next hf

theorem inspect (f : Store → α) : Blind (Eval.inspect f : Eval H α) :=
  fun _ _ hm => .ok (by rw [hm.store]) hm

theorem store (f : Store → α × Store) : Blind (Eval.store f : Eval H α) :=
  fun _ _ hm => .ok (by rw [hm.store]) ⟨by rw [hm.store], hm.host, hm.depth⟩

theorem change (f : Store → Store) : Blind (Eval.change f : Eval H Unit) :=
  fun _ _ hm => .ok rfl ⟨by rw [hm.store], hm.host, hm.depth⟩

theorem operation (o : Operation α) : Blind (Eval.operation o : Eval H α) := by
  intro m m' hm
  unfold Agrees Eval.operation
  rw [hm.store]
  cases o m.store with
  | ok a s => exact .ok rfl ⟨rfl, hm.host, hm.depth⟩
  | error d s => exact .error rfl ⟨rfl, hm.host, hm.depth⟩

theorem run_inspect (f : Store → α) : Blind (Run.inspect f : Run H α) :=
  fun _ _ hm => .ok (by rw [hm.store]) hm

theorem run_change (f : Store → Store) : Blind (Run.change f : Run H Unit) :=
  fun _ _ hm => .ok rfl ⟨by rw [hm.store], hm.host, hm.depth⟩

theorem tell (f : H → H) : Blind (Run.tell f) :=
  fun _ _ hm => .ok rfl ⟨hm.store, by rw [hm.host], hm.depth⟩

theorem note (e : Event) : Blind (Run.note e : Run H Unit) :=
  fun _ _ hm => .ok rfl ⟨hm.store, hm.host, hm.depth⟩

theorem ask (onFault : Host.Fault → Diagnostic) (f : H → Host.Reply α × H) :
    Blind (Run.ask onFault f) := by
  intro m m' hm
  unfold Agrees Run.ask
  rw [hm.host]
  split
  · exact .ok rfl ⟨hm.store, rfl, hm.depth⟩
  · exact .error rfl ⟨hm.store, rfl, hm.depth⟩
  · exact .error rfl ⟨hm.store, rfl, hm.depth⟩

theorem checkCount (callee : Value) (expected got : Nat) :
    Blind (Visit.checkCount callee expected got : Run H Unit) := by
  unfold Visit.checkCount
  split
  · exact pure _
  · exact bind (run_inspect _) fun _ => throw _

theorem ident (env : Env) (name : String) (span : Span) :
    Blind (Visit.ident env name span : Eval H Value) := by
  apply bind (inspect _)
  intro v
  cases v with
  | some v => exact pure _
  | none => exact throw _

theorem newList (env : Env) (span : Span) (values : List Value) :
    Blind (Visit.newList env span values : Eval H Value) :=
  bind (store _) fun _ => pure _

theorem collected (env : Env) (b : Branch Node) (span : Span) (done : List Value) :
    Blind (Visit.collected env b span done : Eval H Value) := by
  unfold Visit.collected
  split
  · exact pure _
  · exact newList env span _

theorem function (env : Env) (name : Option String) (params : List String) (body : Node)
    (arrow : Bool) (span : Span) :
    Blind (Visit.function env name params body arrow span : Eval H Value) := by
  cases name with
  | none => exact bind (pure _) fun _ => pure _
  | some name => exact bind (change _) fun _ => pure _

theorem listArg (site : CallSite) (which : String) (v : Value) :
    Blind (Builtin.listArg site which v : Run H ListRef) := by
  unfold Builtin.listArg
  split
  · exact pure _
  · exact throw _

theorem popAt (site : CallSite) (l : ListRef) (n : Number) :
    Blind (Builtin.popAt site l n : Run H Value) := by
  apply bind (run_inspect _)
  intro xs
  split
  · exact throw _
  · exact bind (run_change _) fun _ => pure _

end Blind

/-! ## Nodes -/

namespace Visit

variable {self : Visit H} {env : Env} {m m' : Machine H}

/-- The evaluation of a node agrees from wherever `M` says that the node is evaluated. -/
def AgreesOn (self : Visit H) (env : Env) (M : Node → Machine H → Prop) : Prop :=
  ∀ {y m m'}, M y m → Shallower m m' → Agrees (self y env) m m'

theorem all_agrees {xs : List Node} {done : List Value}
    (h : AgreesOn self env (Elements (self · env) xs m)) (hm : Shallower m m') :
    Agrees (all self env done xs) m m' := by
  induction xs generalizing done m m' with
  | nil => exact .pure _ hm
  | cons x xs ih =>
      apply (h .here hm).bind
      intro v m₁ m₁' hv hm₁
      exact ih (fun hy => h (.later hv hy)) hm₁

theorem branch_agrees {b : Branch Node} (h : Agrees (self b.body env) m m') :
    Agrees (branch self env b) m m' :=
  h.next fun _ => .pure _

theorem choice_agrees {otherwise : Option (Branch Node)} {arms : List (Arm Node)}
    (hc : AgreesOn self env (Conditions self env arms m))
    (hb : AgreesOn self env fun y m₁ =>
      ∃ b, y = b.body ∧ Chooses self env otherwise arms m (some b) m₁)
    (hm : Shallower m m') : Agrees (choice self env otherwise arms) m m' := by
  induction arms generalizing m m' with
  | nil =>
      cases otherwise with
      | none => exact .pure _ hm
      | some b => exact branch_agrees (hb ⟨b, rfl, .otherwise⟩ hm)
  | cons a arms ih =>
      apply (hc .here hm).bind
      intro c m₁ m₁' hca hm₁
      apply ((Blind.inspect _).agrees hm₁).bind
      intro holds m₂ m₂' hinspect hm₂
      rcases Eval.inspect_eq_ok.mp hinspect with ⟨hholds, rfl⟩
      cases holds with
      | true => exact branch_agrees (hb ⟨_, rfl, .here hca hholds⟩ hm₂)
      | false =>
          refine ih (fun hy => hc (.later hca hholds hy)) ?_ hm₂
          rintro y m₃ m₃' ⟨b, rfl, hchooses⟩
          exact hb ⟨b, rfl, .later hca hholds hchooses⟩

theorem bound_agrees {x : Node} (h : Agrees (self x env) m m') :
    Agrees (bound self env x) m m' := by
  apply h.next
  intro v
  split
  · exact .pure _
  · exact .throw _

theorem forTurns_agrees {r : Range} {body : Node} {n : Nat} {i : Number} {done : List Value}
    (h : AgreesOn self env fun y m₁ => y = body ∧ ForTurns self env r body n i m m₁)
    (hm : Shallower m m') : Agrees (forTurns self env r body n i done) m m' := by
  induction n generalizing i done m m' with
  | zero => exact .throw _ hm
  | succ n ih =>
      unfold forTurns
      by_cases hi : r.goesOn i = true
      · simp only [if_pos hi]
        have hbound : Shallower (turnMachine env r i m) (turnMachine env r i m') :=
          ⟨by simp only [turnMachine, hm.store], hm.host, hm.depth⟩
        show Agrees (Eval.turn (self body env) >>= _) (turnMachine env r i m)
          (turnMachine env r i m')
        apply (h ⟨rfl, .here hi⟩ hbound).turn.bind
        intro t m₁ m₁' ht hm₁
        have hlater (hgoes : t ≠ .broken) : AgreesOn self env fun y m₂ =>
            y = body ∧ ForTurns self env r body n (i.add r.step) m₁ m₂ :=
          fun hy => h ⟨hy.1, .later hi ht hgoes hy.2⟩
        cases t with
        | value v => exact ih (hlater (by simp)) hm₁
        | continued => exact ih (hlater (by simp)) hm₁
        | broken => exact .pure _ hm₁
      · simp only [if_neg hi]
        exact .pure _ hm

theorem whileTurns_agrees {condition body : Node} {n : Nat} {done : List Value}
    (h : AgreesOn self env (WhileTurns self env condition body n m)) (hm : Shallower m m') :
    Agrees (whileTurns self env condition body n done) m m' := by
  induction n generalizing done m m' with
  | zero => exact .throw _ hm
  | succ n ih =>
      apply (h .condition hm).bind
      intro c m₁ m₁' hc hm₁
      apply ((Blind.inspect _).agrees hm₁).bind
      intro holds m₂ m₂' hinspect hm₂
      rcases Eval.inspect_eq_ok.mp hinspect with ⟨hholds, rfl⟩
      cases holds with
      | false => exact .pure _ hm₂
      | true =>
          apply (h (.body hc hholds) hm₂).turn.bind
          intro t m₃ m₃' ht hm₃
          have hlater (hgoes : t ≠ .broken) :
              AgreesOn self env (WhileTurns self env condition body n m₃) :=
            fun hy => h (.later hc hholds ht hgoes hy)
          cases t with
          | value v => exact ih (hlater (by simp)) hm₃
          | continued => exact ih (hlater (by simp)) hm₃
          | broken => exact .pure _ hm₃

theorem forLoop_agrees {limit : Nat} {name : String} {first last : Node} {step : Option Node}
    {b : Branch Node} {span : Span}
    (h : AgreesOn self env (Makes self env limit (.forLoop name first last step b span) m))
    (hm : Shallower m m') :
    Agrees (forLoop self limit env name first last step b span) m m' := by
  rw [forLoop_eq]
  apply (bound_agrees (h (.bound .here) hm)).bind
  intro i m₁ m₁' hfirst hm₁
  apply (bound_agrees (h (.bound (.later hfirst .here)) hm₁)).bind
  intro j m₂ m₂' hlast hm₂
  have hbound : Agrees (stepBound self env step) m₂ m₂' := by
    cases step with
    | none => exact .pure _ hm₂
    | some step => exact bound_agrees (h (.bound (.later hfirst (.later hlast .here))) hm₂)
  apply hbound.bind
  intro k m₃ m₃' hstep hm₃
  refine (forTurns_agrees (fun hy => ?_) hm₃).next fun done => .collected env b span done
  rcases hy with ⟨rfl, hturns⟩
  exact h (.forTurn hfirst hlast hstep hturns)

variable [Host H]

/-- A node agrees if those agree that its evaluation evaluates, and the call that it makes. -/
theorem step_agrees {limit : Nat} {x : Node} (h : AgreesOn self env (Makes self env limit x m))
    (hcall : ∀ callee args span g values m₁ m₂ m₂', x = .call callee args span →
      self callee env m = .ok g m₁ → all self env [] args m₁ = .ok values m₂ →
      Shallower m₂ m₂' → Agrees (apply self (g.withSpan span) values) m₂ m₂')
    (hm : Shallower m m') : Agrees (step self limit x env) m m' := by
  cases x with
  | number n span => exact .pure _ hm
  | text s span => exact .pure _ hm
  | list xs span =>
      exact (all_agrees (fun hy => h (.element hy)) hm).next fun vs => .newList env span vs
  | ident name span => exact (Blind.ident env name span).agrees hm
  | declaration tag name value span =>
      apply (h .declared hm).next
      intro v
      split
      · exact .bind (.change _) fun _ => .pure _
      · exact .throw _
  | binary op l r span =>
      apply (h (.subject rfl) hm).bind
      intro a m₁ m₁' ha hm₁
      apply (h (.right ha) hm₁).next
      intro b
      exact .bind (.operation _) fun _ => .pure _
  | unary op x span =>
      apply (h (.subject rfl) hm).next
      intro a
      exact .bind (.operation _) fun _ => .pure _
  | choice arms otherwise span =>
      refine choice_agrees (fun hy => h (.condition hy)) ?_ hm
      rintro y m₁ m₁' ⟨b, rfl, hb⟩
      exact h (.branch hb)
  | forLoop name first last step b span => exact forLoop_agrees h hm
  | whileLoop condition b span =>
      exact (whileTurns_agrees (fun hy => h (.whileTurn hy)) hm).next fun done =>
        .collected env b span done
  | function name params body arrow span => exact (Blind.function env name params body arrow span).agrees hm
  | call callee args span =>
      apply (h (.subject rfl) hm).bind
      intro g m₁ m₁' hg hm₁
      apply (all_agrees (fun hy => h (.argument hg hy)) hm₁).bind
      intro values m₂ m₂' hvalues hm₂
      exact (hcall _ _ _ g values m₁ m₂ m₂' rfl hg hvalues hm₂).ofRun.next fun _ => .pure _
  | returnWith value span =>
      cases value with
      | none => exact .throw _ hm
      | some value => exact (h .returned hm).next fun _ => .throw _
  | continueLoop span => exact .throw _ hm
  | breakLoop span => exact .throw _ hm

/-! ## Calls -/

variable {g : Value} {values : List Value}

theorem apply_agrees (hdepth : m.depth < maxDepth)
    (h : Agrees (enter self g values) { m with depth := m.depth + 1 }
      { m' with depth := m'.depth + 1 }) (hm : Shallower m m') :
    Agrees (apply self g values) m m' := by
  have hdepth' : m'.depth < maxDepth := Nat.lt_of_le_of_lt hm.depth hdepth
  unfold Agrees apply at *
  rw [if_neg (Nat.not_le.mpr hdepth), if_neg (Nat.not_le.mpr hdepth')]
  generalize enter self g values { m with depth := m.depth + 1 } = q at h ⊢
  generalize enter self g values { m' with depth := m'.depth + 1 } = q' at h ⊢
  cases h with
  | ok hv hm₁ => exact .ok hv ⟨hm₁.store, hm₁.host, Nat.sub_le_sub_right hm₁.depth 1⟩
  | error he hm₁ => exact .error he ⟨hm₁.store, hm₁.host, Nat.sub_le_sub_right hm₁.depth 1⟩

omit [Host H] in
theorem callClosure_agrees {f : Closure}
    (h : f.params.length = values.length → Agrees (self f.body (bodyEnv g f m))
      (bodyMachine f values m) (bodyMachine f values m')) (hm : Shallower m m') :
    Agrees (callClosure self g f values) m m' := by
  by_cases hcount : f.params.length = values.length
  · have henv : bodyEnv g f m' = bodyEnv g f m := by rw [bodyEnv, bodyEnv, hm.store]
    unfold Agrees
    rw [callClosure_of_eq hcount, callClosure_of_eq hcount, henv]
    exact (h hcount).toRun _ _
  · apply ((Blind.checkCount _ _ _).agrees hm).bind
    intro _ m₁ m₁' hcheck hm₁
    exact absurd (eq_of_checkCount hcheck) hcount

/-- Built-in functions do not ask how deep they are called; a script that `RUN` includes is a
program that is run. -/
theorem execute_agrees {runSource : Source → Run H Value} {b : Builtin} {site : CallSite}
    (h : ∀ v path text m₁', b = .run → values = [v] → v.text? = some path →
      Host.load m.host path = .answer text →
      Shallower { m with log := .including path :: m.log } m₁' →
      Agrees (runSource ⟨path, text⟩) { m with log := .including path :: m.log } m₁')
    (hm : Shallower m m') : Agrees (b.execute runSource site values) m m' := by
  unfold Builtin.execute
  split
  · apply ((Blind.run_inspect _).agrees hm).next
    exact fun _ => .bind (.tell _) fun _ => .pure _
  · exact ((Blind.run_inspect _).agrees hm).next fun _ => .pure _
  · exact ((Blind.ask _ _).agrees hm).next fun _ => .pure _
  · exact ((Blind.ask _ _).agrees hm).next fun _ => .pure _
  · exact ((Blind.tell _).agrees hm).next fun _ => .pure _
  · exact .pure _ hm
  · exact .pure _ hm
  · exact .pure _ hm
  · exact .pure _ hm
  · apply ((Blind.listArg _ _ _).agrees hm).next
    exact fun _ => .bind (.run_change _) fun _ => .pure _
  · apply ((Blind.listArg _ _ _).agrees hm).next
    intro l
    split
    · exact .throw _
    · exact .popAt _ _ _
  · apply ((Blind.listArg _ _ _).agrees hm).next
    exact fun _ => .bind (.listArg _ _ _) fun _ => .bind (.run_inspect _) fun _ =>
      .bind (.run_change _) fun _ => .pure _
  · apply ((Blind.listArg _ _ _).agrees hm).next
    exact fun _ => .bind (.run_inspect _) fun _ => .pure _
  · rename_i v
    cases hpath : v.text? with
    | none => exact .throw _ hm
    | some path =>
        apply ((Blind.ask _ _).agrees hm).bind
        intro text m₁ m₁' hask hm₁
        rcases Run.load_of_ask hask with ⟨hload, rfl⟩
        apply ((Blind.note _).agrees hm₁).bind
        rintro _ _ m₂' ⟨⟩ hm₂
        exact ((h v path text m₂' rfl rfl hpath hload hm₂).mapFailure _).next fun _ => .pure _
  · exact .throw _ hm

end Visit

end BasicScript
