import BasicScript.Proofs.Evaluation.Failing
import BasicScript.Proofs.Evaluation.Footprint
import Mathlib.Logic.Relation

/-! # What an evaluation comes to

To evaluate a node, to call a value and to run a program come to other such tasks, each on a machine
of its own. The evaluator takes up all of these, and it does nothing but put together what they come
to. -/

namespace BasicScript

variable {H : Type} [Host H]

/-- An end with so many calls active. -/
def Machine.withDepth {ε α : Type} (depth : Nat) :
    EStateM.Result ε (Machine H) α → EStateM.Result ε (Machine H) α
  | .ok a m => .ok a { m with depth }
  | .error e m => .error e { m with depth }

omit [Host H] in
theorem Machine.depth_withDepth {ε α : Type} (depth : Nat) (r : EStateM.Result ε (Machine H) α) :
    (ofResult (withDepth depth r)).depth = depth := by
  cases r <;> rfl

/-- What an evaluation consists of: nodes are evaluated, values are called, what is called is
carried out, and programs are run from their texts. -/
inductive Task where
  | node (x : Node) (env : Env)
  | call (callee : Value) (args : List Value)
  | inside (callee : Value) (args : List Value)
  | program (source : Source)

/-- A task about to be carried out on a machine, and what has been called and not been left by then,
innermost first. -/
structure Moment (H : Type) where
  fuel : Nat
  task : Task
  machine : Machine H
  calls : List Value

namespace Moment

/-- The machine that is left when the task is over, however it ends. -/
def left (p : Moment H) : Machine H :=
  match p.task with
  | .node x env => .ofResult (visit p.fuel x env p.machine)
  | .call g args => .ofResult (Visit.apply (visit p.fuel) g args p.machine)
  | .inside g args => .ofResult (Visit.enter (visit p.fuel) g args p.machine)
  | .program source => .ofResult (Visit.runSource (visit p.fuel) source p.machine)

/-- The machine on which a script starts that `RUN` includes. -/
def included (path : String) (m : Machine H) : Machine H :=
  { m with log := .including path :: .calling .run 1 :: m.log }

/-- Carrying out a task comes to carry out another. Only entering a call makes one call more. -/
inductive Next : Moment H → Moment H → Prop
  | part {n x y env m m' calls} (h : Visit.Makes (visit n) env n x m y m') :
      Next ⟨n + 1, .node x env, m, calls⟩ ⟨n, .node y env, m', calls⟩
  | call {n callee args span env g values m m₁ m₂ calls}
      (hg : visit n callee env m = .ok g m₁)
      (hargs : Visit.all (visit n) env [] args m₁ = .ok values m₂) :
      Next ⟨n + 1, .node (.call callee args span) env, m, calls⟩
        ⟨n, .call (g.withSpan span) values, m₂, calls⟩
  | enter {n g values m calls} (hdepth : m.depth < maxDepth) :
      Next ⟨n, .call g values, m, calls⟩
        ⟨n, .inside g values, { m with depth := m.depth + 1 }, g :: calls⟩
  | body {n g f values m calls} (hf : g.datum = .function f)
      (hcount : f.params.length = values.length) :
      Next ⟨n, .inside g values, m, calls⟩
        ⟨n, .node f.body (Visit.bodyEnv g f m), Visit.bodyMachine f values m, calls⟩
  | script {n g v path text m calls} (hg : g.datum = .builtin .run) (hpath : v.text? = some path)
      (hload : Host.load m.host path = .answer text) :
      Next ⟨n, .inside g [v], m, calls⟩ ⟨n, .program ⟨path, text⟩, included path m, calls⟩
  | program {n source x m calls} (hx : Node.ofSource source = .ok x) :
      Next ⟨n, .program source, m, calls⟩
        ⟨n, .node x Visit.programEnv, { m with log := .started source.name :: m.log }, calls⟩

/-- Carrying out a task comes to carry out another in the end. -/
def Reaches (p q : Moment H) : Prop :=
  Relation.ReflTransGen Next p q

/-! ## What is taken up -/

/-- The evaluator carries out `p` by carrying out `q`, with what stands around it. A node fails if
a part does; all else ends as what it comes to ends. A call counts while it is carried out. -/
def TakesUp (p q : Moment H) : Prop :=
  match p.task, q.task with
  | .node x env, .node y env' =>
    env' = env ∧
      ∀ d, (visit q.fuel y env).Fails q.machine d → (visit p.fuel x env).Fails p.machine d
  | .node x env, .call g values =>
    ∃ span, visit p.fuel x env p.machine =
      (Eval.ofRun (Visit.apply (visit q.fuel) g values) >>= fun v => return env.made v.datum span)
        q.machine
  | .call g values, .inside g' values' =>
    g' = g ∧ values' = values ∧ q.machine = { p.machine with depth := p.machine.depth + 1 } ∧
      Visit.apply (visit p.fuel) g values p.machine =
        Machine.withDepth p.machine.depth (Visit.enter (visit q.fuel) g values q.machine)
  | .inside g values, .node x env =>
    ∃ f, g.datum = .function f ∧ x = f.body ∧
      Visit.enter (visit p.fuel) g values p.machine =
        (visit q.fuel x env).toRun env.trace (fun v => if f.arrow then v else .null) q.machine
  | .inside g values, .program source =>
    ∃ told, Visit.enter (visit p.fuel) g values p.machine =
      ((Visit.runSource (visit q.fuel) source).mapFailure told >>= fun _ => return .null) q.machine
  | .program source, .node x env =>
    Visit.runSource (visit p.fuel) source p.machine =
      Run.noteEnd (.finished source.name) ((visit q.fuel x env).toRun env.trace id) q.machine
  | _, _ => False

/-- With `self` as the evaluator the task ends as it does. -/
def DoneBy (p : Moment H) (self : Visit H) : Prop :=
  match p.task with
  | .node x env => self x env p.machine = visit p.fuel x env p.machine
  | .call g values =>
    Visit.apply self g values p.machine = Visit.apply (visit p.fuel) g values p.machine
  | .inside g values =>
    Visit.enter self g values p.machine = Visit.enter (visit p.fuel) g values p.machine
  | .program source =>
    Visit.runSource self source p.machine = Visit.runSource (visit p.fuel) source p.machine

/-- The evaluator for the task that leaves what the task comes to to `self`. -/
def above (p : Moment H) (self : Visit H) : Visit H :=
  match p.task, p.fuel with
  | .node .., n + 1 => Visit.step self n
  | .node .., 0 => visit 0
  | _, _ => self

end Moment

/-! ## Nothing else is evaluated -/

namespace Visit

/-! An evaluator that does the same for what an evaluation makes does the same for it as a whole. -/

variable {self self' : Visit H} {env : Env} {m : Machine H}

/-- The two evaluators do the same with the nodes of which `M` says that they are evaluated. -/
def SameOn (self self' : Visit H) (env : Env) (M : Node → Machine H → Prop) : Prop :=
  ∀ {y m}, M y m → self' y env m = self y env m

section

omit [Host H]

theorem all_congr {done : List Value} {xs : List Node}
    (h : SameOn self self' env (Elements (self · env) xs m)) :
    all self' env done xs m = all self env done xs m := by
  induction xs generalizing done m with
  | nil => rfl
  | cons x xs ih => exact bind_eq_bind (h .here) fun v m₁ hv => ih fun hy => h (.later hv hy)

theorem branch_congr {b : Branch Node} (h : self' b.body env m = self b.body env m) :
    branch self' env b m = branch self env b m :=
  bind_eq_bind h fun _ _ _ => rfl

theorem choice_congr {otherwise : Option (Branch Node)} {arms : List (Arm Node)}
    (hc : SameOn self self' env (Conditions self env arms m))
    (hb : SameOn self self' env fun y m₁ =>
      ∃ b, y = b.body ∧ Chooses self env otherwise arms m (some b) m₁) :
    choice self' env otherwise arms m = choice self env otherwise arms m := by
  induction arms generalizing m with
  | nil =>
      cases otherwise with
      | none => rfl
      | some b => exact branch_congr (hb ⟨b, rfl, .otherwise⟩)
  | cons a arms ih =>
      refine bind_eq_bind (hc .here) fun c m₁ hca => bind_eq_bind rfl fun holds m₂ hinspect => ?_
      obtain ⟨hholds, rfl⟩ := Eval.inspect_eq_ok.mp hinspect
      cases holds with
      | true => exact branch_congr (hb ⟨_, rfl, .here hca hholds⟩)
      | false =>
          refine ih (fun hy => hc (.later hca hholds hy)) ?_
          rintro y m₃ ⟨b, rfl, hchooses⟩
          exact hb ⟨b, rfl, .later hca hholds hchooses⟩

theorem bound_congr {x : Node} (h : self' x env m = self x env m) :
    bound self' env x m = bound self env x m :=
  bind_eq_bind h fun _ _ _ => rfl

theorem turn_congr {body : Node} (h : self' body env m = self body env m) :
    Eval.turn (self' body env) m = Eval.turn (self body env) m := by
  rw [Eval.turn, Eval.turn, h]

theorem forTurns_congr {r : Range} {body : Node} {n : Nat} {i : Number} {done : List Value}
    (h : SameOn self self' env fun y m₁ => y = body ∧ ForTurns self env r body n i m m₁) :
    forTurns self' env r body n i done m = forTurns self env r body n i done m := by
  induction n generalizing i done m with
  | zero => rfl
  | succ n ih =>
      unfold forTurns
      by_cases hi : r.goesOn i = true
      · rw [if_pos hi, if_pos hi]
        refine bind_eq_bind rfl fun _ m₁ hbound => ?_
        obtain rfl := Eval.change_eq_ok.mp hbound
        refine bind_eq_bind (turn_congr (h ⟨rfl, .here hi⟩)) fun t m₂ ht => ?_
        have hlater (hgoes : t ≠ .broken) : SameOn self self' env fun y m₃ =>
            y = body ∧ ForTurns self env r body n (i.add r.step) m₂ m₃ :=
          fun hy => h ⟨hy.1, .later hi ht hgoes hy.2⟩
        cases t with
        | value v => exact ih (hlater (by simp))
        | continued => exact ih (hlater (by simp))
        | broken => rfl
      · rw [if_neg hi, if_neg hi]

theorem whileTurns_congr {condition body : Node} {n : Nat} {done : List Value}
    (h : SameOn self self' env (WhileTurns self env condition body n m)) :
    whileTurns self' env condition body n done m = whileTurns self env condition body n done m := by
  induction n generalizing done m with
  | zero => rfl
  | succ n ih =>
      refine bind_eq_bind (h .condition) fun c m₁ hc => bind_eq_bind rfl fun holds m₂ hinspect => ?_
      obtain ⟨hholds, rfl⟩ := Eval.inspect_eq_ok.mp hinspect
      cases holds with
      | false => rfl
      | true =>
          refine bind_eq_bind (turn_congr (h (.body hc hholds))) fun t m₃ ht => ?_
          have hlater (hgoes : t ≠ .broken) :
              SameOn self self' env (WhileTurns self env condition body n m₃) :=
            fun hy => h (.later hc hholds ht hgoes hy)
          cases t with
          | value v => exact ih (hlater (by simp))
          | continued => exact ih (hlater (by simp))
          | broken => rfl

theorem forLoop_congr {limit : Nat} {name : String} {first last : Node} {step : Option Node}
    {b : Branch Node} {span : Span}
    (h : SameOn self self' env (Makes self env limit (.forLoop name first last step b span) m)) :
    forLoop self' limit env name first last step b span m =
      forLoop self limit env name first last step b span m := by
  rw [forLoop_eq, forLoop_eq]
  refine bind_eq_bind (bound_congr (h (.bound .here))) fun i m₁ hfirst => ?_
  refine bind_eq_bind (bound_congr (h (.bound (.later hfirst .here)))) fun j m₂ hlast => ?_
  have hbound : stepBound self' env step m₂ = stepBound self env step m₂ := by
    cases step with
    | none => rfl
    | some step => exact bound_congr (h (.bound (.later hfirst (.later hlast .here))))
  refine bind_eq_bind hbound fun k m₃ hstep => bind_eq_bind ?_ fun _ _ _ => rfl
  apply forTurns_congr
  rintro y m₄ ⟨rfl, hturns⟩
  exact h (.forTurn hfirst hlast hstep hturns)

theorem runSource_congr {source : Source}
    (h : ∀ x, Node.ofSource source = .ok x →
      self' x programEnv { m with log := .started source.name :: m.log } =
        self x programEnv { m with log := .started source.name :: m.log }) :
    runSource self' source m = runSource self source m := by
  cases hx : Node.ofSource source with
  | error d => rw [runSource_of_error hx, runSource_of_error hx]
  | ok x =>
      rw [runSource_of_ok hx, runSource_of_ok hx]
      simp only [runProgram, Run.noteEnd, Eval.toRun, h x hx]

end

theorem step_congr {limit : Nat} {x : Node} (h : SameOn self self' env (Makes self env limit x m))
    (hcall : ∀ g values m', Calls self env x m g values m' →
      apply self' g values m' = apply self g values m') :
    step self' limit x env m = step self limit x env m := by
  cases x with
  | list xs span =>
      exact bind_eq_bind (all_congr fun hy => h (.element hy)) fun _ _ _ => rfl
  | declaration tag name x span => exact bind_eq_bind (h .declared) fun _ _ _ => rfl
  | binary op l r span =>
      refine bind_eq_bind (h (.subject rfl)) fun a m₁ ha => ?_
      exact bind_eq_bind (h (.right ha)) fun _ _ _ => rfl
  | unary op x span => exact bind_eq_bind (h (.subject rfl)) fun _ _ _ => rfl
  | choice arms otherwise span =>
      refine choice_congr (fun hy => h (.condition hy)) ?_
      rintro y m₁ ⟨b, rfl, hb⟩
      exact h (.branch hb)
  | forLoop name first last step b span => exact forLoop_congr h
  | whileLoop condition b span =>
      exact bind_eq_bind (whileTurns_congr fun hy => h (.whileTurn hy)) fun _ _ _ => rfl
  | call callee args span =>
      refine bind_eq_bind (h (.subject rfl)) fun g m₁ hg => ?_
      refine bind_eq_bind (all_congr fun hy => h (.argument hg hy)) fun values m₂ hvalues => ?_
      refine bind_eq_bind ?_ fun _ _ _ => rfl
      rw [Eval.ofRun, Eval.ofRun, hcall _ values m₂ ⟨hg, hvalues⟩]
  | returnWith value span =>
      cases value with
      | none => rfl
      | some x => exact bind_eq_bind (h .returned) fun _ _ _ => rfl
  | _ => rfl

/-- A built-in function runs no script but the one that `RUN` includes. -/
theorem execute_congr {run run' : Source → Run H Value} {b : Builtin} {site : CallSite}
    {values : List Value}
    (h : ∀ v path text, b = .run → values = [v] → v.text? = some path →
      Host.load m.host path = .answer text →
      run' ⟨path, text⟩ { m with log := .including path :: m.log } =
        run ⟨path, text⟩ { m with log := .including path :: m.log }) :
    b.execute run' site values m = b.execute run site values m := by
  unfold Builtin.execute
  split
  case h_14 v =>
    cases hpath : v.text? with
    | none => rfl
    | some path =>
        refine bind_eq_bind rfl fun text m₁ hask => ?_
        obtain ⟨hload, rfl⟩ := Run.load_of_ask hask
        refine bind_eq_bind rfl ?_
        rintro _ _ ⟨⟩
        refine bind_eq_bind ?_ fun _ _ _ => rfl
        rw [Run.mapFailure, Run.mapFailure, h v path text rfl rfl hpath hload]
  all_goals rfl

theorem enter_congr {g : Value} {values : List Value}
    (hbody : ∀ f, g.datum = .function f → f.params.length = values.length →
      self' f.body (bodyEnv g f m) (bodyMachine f values m) =
        self f.body (bodyEnv g f m) (bodyMachine f values m))
    (hscript : ∀ v path text, g.datum = .builtin .run → values = [v] → v.text? = some path →
      Host.load m.host path = .answer text →
      runSource self' ⟨path, text⟩ (Moment.included path m) =
        runSource self ⟨path, text⟩ (Moment.included path m)) :
    enter self' g values m = enter self g values m := by
  cases hg : g.datum with
  | function f =>
      rw [enter_of_function hg, enter_of_function hg]
      by_cases hcount : f.params.length = values.length
      · rw [callClosure_of_eq hcount, callClosure_of_eq hcount]
        simp only [Eval.toRun, hbody f hg hcount]
      · exact bind_eq_bind rfl fun _ _ hcheck => absurd (eq_of_checkCount hcheck) hcount
  | builtin b =>
      rw [enter_of_builtin hg, enter_of_builtin hg]
      by_cases hcount : b.params.length = values.length
      · rw [callBuiltin_of_eq hcount, callBuiltin_of_eq hcount]
        apply execute_congr
        rintro v path text rfl rfl hpath hload
        exact hscript v path text hg rfl hpath hload
      · exact bind_eq_bind rfl fun _ _ hcheck => absurd (eq_of_checkCount hcheck) hcount
  | _ => simp only [enter, hg]

theorem apply_congr {g : Value} {values : List Value}
    (h : m.depth < maxDepth →
      enter self' g values { m with depth := m.depth + 1 } =
        enter self g values { m with depth := m.depth + 1 }) :
    apply self' g values m = apply self g values m := by
  unfold apply
  split
  · rfl
  · rw [h (by omega)]

/-- Inside a call of `RUN` the script is run, and null stands for its value. -/
theorem enter_run {callee v : Value} {path text : String} (hcallee : callee.datum = .builtin .run)
    (hpath : v.text? = some path) (hload : Host.load m.host path = .answer text) :
    enter self callee [v] m =
      ((runSource self ⟨path, text⟩).mapFailure
          (Builtin.scriptFailure ⟨callee.span, entered callee "RUN"⟩ path) >>=
        fun _ => return .null) (Moment.included path m) := by
  rw [enter_of_builtin hcallee, callBuiltin_of_eq rfl, Builtin.execute, hpath]
  exact Builtin.runFile_of_load hload

end Visit

/-- A task is done by what it comes to, and by nothing else. -/
theorem Moment.doneBy_above {p : Moment H} {self : Visit H}
    (h : ∀ q, p.Next q → q.DoneBy self) : p.DoneBy (p.above self) := by
  obtain ⟨n, task, m, calls⟩ := p
  cases task with
  | node x env =>
      cases n with
      | zero => rfl
      | succ n =>
          refine Visit.step_congr (fun hy => h _ (.part hy)) ?_
          rintro _ values m' ⟨hg, hargs⟩
          exact h _ (.call hg hargs)
  | call g values => exact Visit.apply_congr fun hdepth => h _ (.enter hdepth)
  | inside g values =>
      refine Visit.enter_congr (fun f hf hcount => h _ (.body hf hcount)) ?_
      rintro v path text hg rfl hpath hload
      exact h _ (.script hg hpath hload)
  | program source => exact Visit.runSource_congr fun x hx => h _ (.program hx)

end BasicScript
