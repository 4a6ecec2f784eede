import BasicScript.Proofs.Evaluation.Termination

/-! # Scopes below the globals

Everything is evaluated in a scope from which the parents lead to the globals, and such is the scope
of each function that is at hand, wherever it is kept and however long ago it was made. So a name
that the globals bind is seen everywhere, unless a nearer table hides it. -/

namespace BasicScript

/-! ## Scopes -/

/-- Going on from parent to parent, the globals are come to in the end. -/
inductive Scope.BelowGlobals : Scope → Prop
  | globals : BelowGlobals .globals
  | inside {s t : Scope} (hparent : s.parent? = some t) (h : t.BelowGlobals) : BelowGlobals s

/-- A function has a scope below the globals. -/
def Closure.Rooted (f : Closure) : Prop :=
  f.scope.BelowGlobals

theorem Scope.chain_of_parent? {s t : Scope} (h : s.parent? = some t) :
    s.chain = s.table :: t.chain := by
  obtain ⟨table, outer⟩ := s
  cases outer with
  | nil => cases h
  | cons k outer =>
      cases h
      rfl

namespace Scope.BelowGlobals

variable {scope : Scope}

theorem child (h : scope.BelowGlobals) (s : Store) : (s.child scope).1.BelowGlobals :=
  .inside rfl h

/-- The globals are the last table in which a name is looked up. -/
theorem chain_eq (h : scope.BelowGlobals) : ∃ inner, scope.chain = inner ++ [0] := by
  induction h with
  | globals => exact ⟨[], rfl⟩
  | inside hparent _ ih =>
      obtain ⟨inner, hinner⟩ := ih
      exact ⟨_ :: inner, by rw [chain_of_parent? hparent, hinner, List.cons_append]⟩

end Scope.BelowGlobals

/-- A name that table 0 binds means that binding, where it is looked up last and no other table
binds the name. -/
theorem Store.lookupIn_of_last {s : Store} {x : String} {v : Value} {inner : List Nat}
    (hv : (s.table 0)[x]? = some v) (hinner : ∀ t ∈ inner, t ≠ 0 → (s.table t)[x]? = none) :
    s.lookupIn x (inner ++ [0]) = some v := by
  induction inner with
  | nil => simp [lookupIn, hv]
  | cons t inner ih =>
      obtain ⟨ht, hinner⟩ := List.forall_mem_cons.mp hinner
      rw [List.cons_append, lookupIn]
      by_cases hzero : t = 0
      · rw [hzero, hv]
      · rw [ht hzero]
        exact ih hinner

/-- A name that the globals bind is seen in a scope below them, unless another table binds it. -/
theorem Scope.BelowGlobals.lookup {scope : Scope} (h : scope.BelowGlobals) {s : Store} {x : String}
    {v : Value} (hv : s.localValue .globals x = some v) :
    s.lookup scope x = some v ∨ ∃ t ∈ scope.chain, t ≠ 0 ∧ ((s.table t)[x]?).isSome := by
  by_cases hhidden : ∃ t ∈ scope.chain, t ≠ 0 ∧ ((s.table t)[x]?).isSome
  · exact .inr hhidden
  · obtain ⟨inner, hinner⟩ := h.chain_eq
    refine .inl ?_
    rw [Store.lookup, hinner]
    refine Store.lookupIn_of_last hv fun t ht hzero => ?_
    rw [← Option.not_isSome_iff_eq_none]
    exact fun hsome => hhidden ⟨t, hinner ▸ List.mem_append_left _ ht, hzero, hsome⟩

/-! ## What an evaluation keeps -/

variable {H : Type}

/-- All functions in the store are rooted, and so many calls are active. -/
abbrev Machine.Rooted (d : Nat) (m : Machine H) : Prop :=
  m.Upholds Closure.Rooted (fun _ => True) d

/-- All functions are rooted that are in the store that a call leaves, or in its value. -/
abbrev Run.Rooted (d : Nat) : EStateM.Result Halt (Machine H) Value → Prop :=
  Run.Upholds Closure.Rooted (fun _ => True) (fun _ => True) d (·.Closures Closure.Rooted)

/-- The same of the evaluation of a node. -/
abbrev Eval.Rooted (d : Nat) : EStateM.Result Interrupt (Machine H) Value → Prop :=
  Eval.Upholds Closure.Rooted (fun _ => True) (fun _ => True) d (·.Closures Closure.Rooted)

theorem Machine.rooted_of_store {m : Machine H} (h : m.store.Closures Closure.Rooted) :
    m.Rooted m.depth :=
  ⟨h, trivial, rfl⟩

/-- A node that is evaluated below the globals makes no other functions than rooted ones. -/
def Visit.Rooted (self : Visit H) : Prop :=
  ∀ (x : Node) {env : Env} {d : Nat} {m : Machine H}, env.scope.BelowGlobals → m.Rooted d →
    Eval.Rooted d (self x env m)

namespace Visit.Rooted

variable {self : Visit H} (hself : self.Rooted) {d : Nat} {m : Machine H}

include hself

theorem toRun (x : Node) {env : Env} (henv : env.scope.BelowGlobals) (hm : m.Rooted d)
    (trace : Trace) {finish : Value → Value}
    (hfinish : ∀ v, v.Closures Closure.Rooted → (finish v).Closures Closure.Rooted) :
    Run.Rooted d ((self x env).toRun trace finish m) :=
  Eval.toRun_upholds (hself x henv hm) (fun _ _ _ _ => trivial) trace hfinish

theorem runSource (hm : m.Rooted d) (source : Source) :
    Run.Rooted d (Visit.runSource self source m) :=
  Visit.runSource_upholds hm (fun _ _ => trivial) fun x _ hstarted =>
    hself.toRun x .globals hstarted _ fun _ hv => hv

theorem all {env : Env} (henv : env.scope.BelowGlobals) (hm : m.Rooted d)
    (args : List Node) :
    Eval.Upholds Closure.Rooted (fun _ => True) (fun _ => True) d
      (fun values => ∀ v ∈ values, v.Closures Closure.Rooted) (Visit.all self env [] args m) :=
  Visit.all_upholds hm (fun y _ _ hm' => hself y henv hm') nofun

variable [Host H]

theorem enter (hm : m.Rooted d) {callee : Value} {args : List Value}
    (hcallee : callee.Closures Closure.Rooted) (hargs : ∀ v ∈ args, v.Closures Closure.Rooted) :
    Run.Rooted d (Visit.enter self callee args m) := by
  refine Visit.enter_upholds (fun _ _ => trivial) (Host.upholds_nothing fun _ => trivial) hm hargs
    (fun f hf _ hbody => ?_) fun v path text _ _ _ _ hscript => ?_
  · have hscope : f.scope.BelowGlobals := hcallee f hf
    refine hself.toRun f.body (hscope.child m.store) hbody _ fun v hv => ?_
    split
    · exact hv
    · exact .of_not_function rfl
  · exact EndsIn.imp_error (hself.runSource hscript _)
      fun _ => Halt.FailsOr.of (E := fun _ => True)

theorem apply (hm : m.Rooted d) {callee : Value} {args : List Value}
    (hcallee : callee.Closures Closure.Rooted) (hargs : ∀ v ∈ args, v.Closures Closure.Rooted) :
    Run.Rooted d (Visit.apply self callee args m) :=
  Visit.apply_upholds (fun _ _ => trivial) hm fun _ hentered =>
    hself.enter hentered hcallee hargs

end Visit.Rooted

variable [Host H]

theorem visit_rooted (n : Nat) : Visit.Rooted (H := H) (visit n) := by
  induction n with
  | zero => exact fun _ _ _ _ _ hm => ⟨hm, trivial⟩
  | succ n ih =>
      intro x env d m henv hm
      exact Visit.step_upholds hm (fun y _ _ hm' => ih y henv hm')
        (fun g values _ _ hg hvalues hm' => ih.apply hm' hg hvalues)
        (fun _ _ _ _ _ _ => henv) (fun _ _ => trivial) fun _ => trivial

/-! ## Moments -/

/-- All functions in the store stay rooted. -/
def Machine.StaysRooted (m m' : Machine H) : Prop :=
  m.store.Closures Closure.Rooted → m'.store.Closures Closure.Rooted

namespace Machine.StaysRooted

omit [Host H] in
theorem motion : Motion (StaysRooted (H := H)) where
  refl _ := id
  trans h h' := h' ∘ h

theorem visit (n : Nat) (x : Node) {env : Env} (henv : env.scope.BelowGlobals) :
    Moves StaysRooted (visit (H := H) n x env) :=
  fun _ hm => (visit_rooted n x henv (Machine.rooted_of_store hm)).ofResult.store

theorem makes {n limit : Nat} {env : Env} (henv : env.scope.BelowGlobals) {x y : Node}
    {m m' : Machine H} (h : Visit.Makes (BasicScript.visit n) env limit x m y m') :
    m.StaysRooted m' :=
  motion.makes_moved (fun x => visit n x henv)
    (fun r _ _ hm => hm.bind env.scope r.name (.of_not_function rfl)) h

end Machine.StaysRooted

/-- A task has a scope below the globals, or is a call of rooted values. -/
def Task.Rooted : Task → Prop
  | .node _ env => env.scope.BelowGlobals
  | .call callee args | .inside callee args =>
    callee.Closures Closure.Rooted ∧ ∀ v ∈ args, v.Closures Closure.Rooted
  | .program _ => True

/-- A built-in function that is carried out has a scope inside the globals. Nothing is bound in it
and nothing is looked up, so there is no table for it in the store. -/
def Visit.builtinScope? (callee : Value) (args : List Value) (m : Machine H) : Option Scope :=
  match callee.datum with
  | .builtin b => if b.params.length = args.length then some (m.store.child .globals).1 else none
  | _ => none

namespace Moment

/-- The scope that is opened when one task comes to another: a program or a body is begun, or a
built-in function is carried out. -/
def opened? (p q : Moment H) : Option Scope :=
  match p.task, q.task with
  | .node .., _ => none
  | _, .node _ env => some env.scope
  | _, .inside callee args => Visit.builtinScope? callee args q.machine
  | _, _ => none

/-- All functions at hand are rooted, and so is what is carried out. -/
structure Rooted (p : Moment H) : Prop where
  store : p.machine.store.Closures Closure.Rooted
  task : p.task.Rooted

/-- On the way from `p` these scopes have been opened, the latest first. None has been left, since a
task comes to another only while it is carried out itself. -/
inductive Opens (p : Moment H) : Moment H → List Scope → Prop
  | start : Opens p p []
  | next {q r : Moment H} {scopes : List Scope} (h : Opens p q scopes) (hnext : q.Next r) :
      Opens p r ((q.opened? r).toList ++ scopes)

variable {p q : Moment H} {scopes : List Scope}

theorem Reaches.exists_opens (h : p.Reaches q) : ∃ scopes, p.Opens q scopes := by
  induction h with
  | refl => exact ⟨[], .start⟩
  | tail _ hnext ih =>
      obtain ⟨scopes, ih⟩ := ih
      exact ⟨_, ih.next hnext⟩

theorem Next.rooted (h : p.Next q) (hp : p.Rooted) : q.Rooted := by
  obtain ⟨hstore, htask⟩ := hp
  cases h with
  | part h => exact ⟨Machine.StaysRooted.makes htask h hstore, htask⟩
  | @call n callee args span env g values m m₁ m₂ calls hg hargs =>
      have hcallee := visit_rooted n callee htask (Machine.rooted_of_store hstore)
      rw [hg] at hcallee
      have hvalues := (visit_rooted n).all htask hcallee.1 args
      rw [hargs] at hvalues
      exact ⟨hvalues.1.store, hcallee.2.of_datum_eq rfl, hvalues.2⟩
  | enter _ => exact ⟨hstore, htask⟩
  | @body n g f values m calls hf _ =>
      have hscope : f.scope.BelowGlobals := htask.1 f hf
      exact ⟨(hstore.child f.scope).bindAll _ f.params htask.2, hscope.child m.store⟩
  | script _ _ _ => exact ⟨hstore, trivial⟩
  | program _ => exact ⟨hstore, .globals⟩

theorem Opens.rooted (h : p.Opens q scopes) (hp : p.Rooted) : q.Rooted := by
  induction h with
  | start => exact hp
  | next _ hnext ih => exact hnext.rooted ih

omit [Host H] in
theorem Rooted.opened? {scope : Scope} (hq : q.Rooted) (h : p.opened? q = some scope) :
    scope.BelowGlobals := by
  obtain ⟨n, task, m, calls⟩ := q
  have htask := hq.task
  unfold Moment.opened? at h
  split at h
  · cases h
  · rename_i heq _
    cases heq
    cases h
    exact htask
  · unfold Visit.builtinScope? at h
    split at h
    · split at h
      · cases h
        exact .child .globals _
      · cases h
    · cases h
  · cases h

/-- Every scope that is open is below the globals. -/
theorem Opens.belowGlobals (h : p.Opens q scopes) (hp : p.Rooted) :
    ∀ scope ∈ scopes, scope.BelowGlobals := by
  induction h with
  | start => exact nofun
  | @next q r scopes h hnext ih =>
      refine List.forall_mem_append.mpr ⟨fun scope hscope => ?_, ih⟩
      exact (hnext.rooted (h.rooted hp)).opened? (Option.mem_toList.mp hscope)

/-- A node is evaluated in the scope that was opened last. -/
theorem Opens.head?_eq (h : p.Opens q scopes) (hp : ∀ x env, p.task ≠ .node x env) {x : Node}
    {env : Env} (hq : q.task = .node x env) : scopes.head? = some env.scope := by
  induction h generalizing x env with
  | start => exact absurd hq (hp x env)
  | next _ hnext ih =>
      cases hnext with
      | part _ =>
          cases hq
          exact ih rfl
      | body _ _ =>
          cases hq
          rfl
      | program _ =>
          cases hq
          rfl
      | _ => cases hq

/-- A built-in function is carried out in the scope that was opened last. -/
theorem Opens.head?_eq_builtin (h : p.Opens q scopes) (hp : ∀ g args, p.task ≠ .inside g args)
    {g : Value} {args : List Value} (hq : q.task = .inside g args) {b : Builtin}
    (hb : g.datum = .builtin b) (hcount : b.params.length = args.length) :
    scopes.head? = some (q.machine.store.child .globals).1 := by
  cases h with
  | start => exact absurd hq (hp g args)
  | next _ hnext =>
      cases hnext with
      | enter _ =>
          cases hq
          simp [Moment.opened?, Visit.builtinScope?, hb, hcount]
      | _ => cases hq

/-- What is left when a task is over, however it ends. -/
theorem Rooted.left (hp : p.Rooted) : p.left.store.Closures Closure.Rooted := by
  obtain ⟨n, task, m, calls⟩ := p
  obtain ⟨hstore, htask⟩ := hp
  have hm := Machine.rooted_of_store hstore
  have hself : Visit.Rooted (H := H) (visit n) := visit_rooted n
  cases task with
  | node x env => exact (hself x htask hm).ofResult.store
  | call g args => exact (hself.apply hm htask.1 htask.2).ofResult.store
  | inside g args => exact (hself.enter hm htask.1 htask.2).ofResult.store
  | program source => exact (hself.runSource hm source).ofResult.store

end Moment

/-! ## Sessions -/

namespace Session

/-- A session comes to `m` by running programs and files. In between the host may change, make lists
and bind and drop global names, with values that are no functions of programs. -/
inductive Reachable : Machine H → Prop
  | start (host : H) : Reachable (start host)
  | host {m : Machine H} (h : Reachable m) (host : H) : Reachable { m with host }
  | run {m : Machine H} (h : Reachable m) (n : Nat) (source : Source) :
      Reachable (.ofResult (run n source m))
  | runFile {m : Machine H} (h : Reachable m) (n : Nat) (path : String) :
      Reachable (.ofResult (runFile n path m))
  | list {m : Machine H} (h : Reachable m) {xs : Array Value}
      (hxs : ∀ v ∈ xs, v.datum.isFunction = false) :
      Reachable { m with store := (m.store.newList xs).2 }
  | set {m : Machine H} (h : Reachable m) (x : String) {v : Value}
      (hv : v.datum.isFunction = false) : Reachable { m with store := m.store.bind .globals x v }
  | remove {m : Machine H} (h : Reachable m) (x : String) :
      Reachable { m with store := m.store.unbind .globals x }

variable {m : Machine H}

theorem runFile_rooted {d : Nat} (hm : m.Rooted d) (n : Nat) (path : String) :
    Run.Rooted d (runFile n path m) :=
  .bind (Q := fun _ => True) (Run.ask_upholds hm (fun _ => trivial)
    ⟨trivial, fun _ _ => trivial, fun _ _ => trivial⟩)
    fun text _ _ hm' _ => (visit_rooted n).runSource hm' ⟨path, text⟩

/-- Whatever a session has come to, it holds no functions but rooted ones. -/
theorem Reachable.rooted (h : Reachable m) : m.store.Closures Closure.Rooted := by
  induction h with
  | start host => exact startStore_closures _
  | host _ _ ih => exact ih
  | run _ n source ih =>
      exact ((visit_rooted n).runSource (Machine.rooted_of_store ih) source).ofResult.store
  | runFile _ n path ih => exact (runFile_rooted (Machine.rooted_of_store ih) n path).ofResult.store
  | list _ hxs ih => exact ih.newList fun v hv => .of_not_function (hxs v hv)
  | set _ x hv ih => exact ih.bind .globals x (.of_not_function hv)
  | remove _ x ih => exact ih.unbind .globals x

/-- In any session, at every moment of a run: from each scope that is open, and from the scope of
each function that a name, a list, a call or the value of a node holds, the parents lead to the
globals, and they do from a scope inside such a one. A node is evaluated in the scope opened last,
and so is a built-in function carried out, which has a new one inside the globals. A name that the
globals bind means that binding where a node is evaluated, unless a nearer table binds it. -/
theorem scopes_below_globals (hm : Reachable m) (n : Nat) (source : Source) :
    let p : Moment H := ⟨n, .program source, m, []⟩
    (∀ q, p.Reaches q → ∃ scopes, p.Opens q scopes) ∧
    (∀ q scopes, p.Opens q scopes →
      (∀ scope ∈ scopes, scope.BelowGlobals) ∧ q.task.Rooted ∧
      q.machine.store.Closures (·.scope.BelowGlobals) ∧
      q.left.store.Closures (·.scope.BelowGlobals) ∧
      (∀ g args b, q.task = .inside g args → g.datum = .builtin b →
        b.params.length = args.length →
        scopes.head? = some (q.machine.store.child .globals).1) ∧
      ∀ x env, q.task = .node x env →
        scopes.head? = some env.scope ∧
        (∀ v m', visit q.fuel x env q.machine = .ok v m' →
          v.Closures (·.scope.BelowGlobals)) ∧
        ∀ name v, q.machine.store.localValue .globals name = some v →
          q.machine.store.lookup env.scope name = some v ∨
            ∃ t ∈ env.scope.chain, t ≠ 0 ∧ ((q.machine.store.table t)[name]?).isSome) ∧
    ∀ scope : Scope, scope.BelowGlobals →
      (∃ inner, scope.chain = inner ++ [0]) ∧ ∀ s : Store, (s.child scope).1.BelowGlobals := by
  intro p
  have hp : p.Rooted := ⟨hm.rooted, trivial⟩
  refine ⟨fun q hq => hq.exists_opens, fun q scopes hopens => ?_,
    fun scope hscope => ⟨hscope.chain_eq, hscope.child⟩⟩
  have hq : q.Rooted := hopens.rooted hp
  refine ⟨hopens.belowGlobals hp, hq.task, hq.store, hq.left,
    fun g args b htask => hopens.head?_eq_builtin nofun htask, fun x env htask => ?_⟩
  have henv : env.scope.BelowGlobals := by
    have hnode := hq.task
    rw [htask] at hnode
    exact hnode
  refine ⟨hopens.head?_eq nofun htask, fun v m' hv => ?_, fun name v hv => henv.lookup hv⟩
  have hends := visit_rooted q.fuel x henv (Machine.rooted_of_store hq.store)
  rw [hv] at hends
  exact hends.2

/-- A function that another one returned into a list is called in a later program, and adds a global
to its own names that was bound in between. -/
theorem scopes_below_globals_later :
    let first : Source := ⟨"a", "FN add(x)\nRETURN FN(y) -> x + y + k\nEND\nlist l = [add(1)]"⟩
    let second : Source := ⟨"b", "(l / 0)(2)"⟩
    let m₁ : Machine MemoryHost := .ofResult (run 30 first (start (.ofInput [] [])))
    let m₂ : Machine MemoryHost := { m₁ with store := m₁.store.bind .globals "k" (.ofInt 3) }
    let p : Moment MemoryHost := ⟨30, .program second, m₂, []⟩
    Reachable m₂ ∧ (match run 30 second m₂ with
      | .ok v m₃ => some (m₃.store.display v)
      | .error _ _ => none) = some "6" ∧
    m₂.store.Closures (·.scope.BelowGlobals) ∧
    ∀ q, p.Reaches q → ∃ scopes, p.Opens q scopes ∧ ∀ scope ∈ scopes, scope.BelowGlobals := by
  intro first second m₁ m₂ p
  have hreachable : Reachable m₂ := .set (.run (.start _) 30 first) "k" rfl
  obtain ⟨hopens, hrooted, -⟩ := scopes_below_globals hreachable 30 second
  refine ⟨hreachable, by decide +kernel, (hrooted p [] .start).2.2.1, fun q hq => ?_⟩
  obtain ⟨scopes, hscopes⟩ := hopens q hq
  exact ⟨scopes, hscopes, (hrooted q scopes hscopes).1⟩

end Session

end BasicScript
