import BasicScript.Proofs.Evaluation.Failing
import BasicScript.Proofs.Evaluation.Lists
import BasicScript.Proofs.Evaluation.Origins

/-! # Tracebacks

A traceback has one line for each call that is active where a program fails, and one for the
program, as long as no operator and no call takes a value that carries other frames than those that
are active. A list element and the null of a construct without a value may do so; anything else
gets the frames of the node that yields it. -/

namespace BasicScript

open Visit (Chooses Makes EntersBody Entered Answers)

variable {H : Type}

namespace Activation

/-- The frames of a program in which these calls are active, innermost first. -/
def trace (calls : List Activation) : Trace :=
  calls.map frame ++ Visit.programEnv.trace

/-- The lines of a traceback from `p` outwards: one names the innermost call, and each further one
the place of a call and what it is made in. -/
def lines (p : Position) : List Activation → List String
  | [] => [Diagnostic.whereabouts p ++ ", in <program>"]
  | a :: calls => (Diagnostic.whereabouts p ++ ", in " ++ a.name) :: lines a.call.start calls

theorem length_lines (p : Position) (calls : List Activation) :
    (lines p calls).length = calls.length + 1 := by
  induction calls generalizing p with
  | nil => rfl
  | cons a calls ih => simp [lines, ih]

theorem frames_eq_lines {d : Diagnostic} {calls : List Activation} (h : d.trace = trace calls) :
    d.frames = lines d.span.start calls := by
  rw [Diagnostic.frames, h]
  generalize d.span.start = p
  clear h
  induction calls generalizing p with
  | nil =>
      show [_ ++ ", in " ++ "<program>"] = [_ ++ ", in <program>"]
      rw [String.append_assoc]
      rfl
  | cons a calls ih => exact congrArg _ (ih a.call.start)

end Activation

/-- A node about to be evaluated, and the calls that are active then, innermost first. -/
structure Point (H : Type) where
  fuel : Nat
  node : Node
  env : Env
  machine : Machine H
  calls : List Activation

namespace Point

variable [Host H]

def Fails (p : Point H) (d : Diagnostic) : Prop :=
  (visit p.fuel p.node p.env).Fails p.machine d

/-- The evaluation at a point makes the one at another: of a part of the node, or of the body of the
function that the node calls. -/
inductive Next : Point H → Point H → Prop
  | inside {n x y env m m' calls} (h : Makes (visit n) env n x m y m') :
      Next ⟨n + 1, x, env, m, calls⟩ ⟨n, y, env, m', calls⟩
  | body {n x y env env' m m' a calls} (h : EntersBody (visit n) env x m a y env' m') :
      Next ⟨n + 1, x, env, m, calls⟩ ⟨n, y, env', m', a :: calls⟩

/-- The evaluation at a point comes to make the one at another. -/
def Reaches (p q : Point H) : Prop :=
  Relation.ReflTransGen Next p q

/-- A point fails, and none that its evaluation makes does. -/
structure FailsItself (p : Point H) (d : Diagnostic) : Prop where
  fails : p.Fails d
  next : ∀ q, Next p q → ∀ d', ¬ q.Fails d'

/-- The calls that are active when a point fails itself: those active before, and the call that is
made there, if it has been entered. -/
inductive Active : Point H → List Activation → Prop
  | mk {n x env m calls as} (h : Entered (visit n) env x m as) :
      Active ⟨n + 1, x, env, m, calls⟩ (as ++ calls)

end Point

/-- The evaluation of a node hands on a value that was not made there: an element of a list, or the
null of a construct without a value. -/
inductive HandsOn [Host H] (env : Env) : Nat → Node → Machine H → Prop
  | element {n l r span m m' a} (hl : visit n l env m = .ok a m') (ha : a.list?.isSome) :
      HandsOn env (n + 1) (.binary .divide l r span) m
  | declaration {n tag name x span m} (h : HandsOn env n x m) :
      HandsOn env (n + 1) (.declaration tag name x span) m
  | noBranch {n arms otherwise span m m'} (h : Chooses (visit n) env otherwise arms m none m') :
      HandsOn env (n + 1) (.choice arms otherwise span) m
  | block {n arms otherwise span b m m'} (h : Chooses (visit n) env otherwise arms m (some b) m')
      (hb : b.block = true) : HandsOn env (n + 1) (.choice arms otherwise span) m
  | branch {n arms otherwise span b m m'} (h : Chooses (visit n) env otherwise arms m (some b) m')
      (hb : HandsOn env n b.body m') : HandsOn env (n + 1) (.choice arms otherwise span) m
  | forLoop {n name first last step b span m} (hb : b.block = true) :
      HandsOn env n (.forLoop name first last step b span) m
  | whileLoop {n condition b span m} (hb : b.block = true) :
      HandsOn env n (.whileLoop condition b span) m

/-- What is handed on to the operator or the call at a point carries the frames there. -/
def Point.TakesFramed [Host H] (p : Point H) : Prop :=
  ∀ n y a m', p.fuel = n + 1 → p.node.subject? = some y → HandsOn p.env n y p.machine →
    visit n y p.env p.machine = .ok a m' → a.trace = p.env.trace

namespace Point

variable [Host H]

/-- Only what is handed on needs to be looked at. -/
theorem TakesFramed.of_subject {p : Point H}
    (h : ∀ n y, p.node.subject? = some y → ¬ HandsOn p.env n y p.machine) : p.TakesFramed :=
  fun n y _ _ _ hy hout _ => absurd hout (h n y hy)

theorem TakesFramed.of_next {p : Point H} (hp : p.TakesFramed)
    (hnext : ∀ q, Next p q → ∀ r, Reaches q r → r.TakesFramed) :
    ∀ q, Reaches p q → q.TakesFramed := by
  intro q hq
  obtain rfl | ⟨r, hr, hq⟩ := hq.cases_head
  · exact hp
  · exact hnext r hr q hq

section

variable {n : Nat} {env : Env} {m : Machine H} {calls : List Activation} {span : Span}

theorem takesFramed_ident {x : String} :
    ∀ q, Reaches ⟨n, .ident x span, env, m, calls⟩ q → q.TakesFramed := by
  refine .of_next (.of_subject fun n y hy => by cases hy) fun q hq => ?_
  cases hq with
  | inside h => obtain ⟨⟨⟩⟩ := h
  | body h => cases h

theorem takesFramed_function {name : Option String} {params : List String} {body : Node}
    {arrow : Bool} :
    ∀ q, Reaches ⟨n, .function name params body arrow span, env, m, calls⟩ q → q.TakesFramed := by
  refine .of_next (.of_subject fun n y hy => by cases hy) fun q hq => ?_
  cases hq with
  | inside h => obtain ⟨⟨⟩⟩ := h
  | body h => cases h

end

theorem Reaches.trans_next {p q r : Point H} (h : Next p q) (hr : Reaches q r) : Reaches p r :=
  .head h hr

/-- A value that is made where it is yielded carries the frames that are active there. -/
theorem trace_of_made {n : Nat} {x : Node} {env : Env} {m m' : Machine H}
    {calls : List Activation} {v : Value}
    (htakes : ∀ q, Reaches ⟨n, x, env, m, calls⟩ q → q.TakesFramed)
    (h : visit n x env m = .ok v m') (hx : ¬ HandsOn env n x m) : v.trace = env.trace := by
  induction n generalizing x m m' v with
  | zero => cases h
  | succ n ih =>
      have part {y : Node} {m₁ m₂ : Machine H} {w : Value} (hy : Makes (visit n) env n x m y m₁)
          (h : visit n y env m₁ = .ok w m₂) (hout : ¬ HandsOn env n y m₁) : w.trace = env.trace :=
        ih (fun q hq => htakes q (.trans_next (.inside hy) hq)) h hout
      have subject {y : Node} (hy : x.subject? = some y) {w : Value} {m₂ : Machine H}
          (h : visit n y env m = .ok w m₂) : w.trace = env.trace := by
        by_cases hout : HandsOn env n y m
        · exact htakes _ .refl n y w m₂ rfl hy hout h
        · exact part (.subject hy) h hout
      cases x with
      | number k span => cases h; rfl
      | text s span => cases h; rfl
      | list xs span =>
          obtain ⟨vs, m₁, -, h⟩ := ok_of_bind h
          exact (Visit.newList_marks h).trace
      | ident name span => exact (Visit.ident_marks h).trace
      | declaration tag name x span =>
          obtain ⟨m₁, h⟩ := Visit.declaration_ok h
          exact part .declared h fun hout => hx (.declaration hout)
      | binary op l r span =>
          obtain ⟨a, m₁, ha, -, htrace | ⟨rfl, hlist⟩⟩ := Visit.binary_ok h
          · exact htrace.trans (subject rfl ha)
          · exact absurd (.element ha hlist) hx
      | unary op x span =>
          obtain ⟨a, m₁, ha, -, htrace⟩ := Visit.unary_ok h
          exact htrace.trans (subject rfl ha)
      | choice arms otherwise span =>
          obtain ⟨b, m₁, hb, -, hvalue⟩ := Visit.choice_ok h
          cases b with
          | none => exact absurd (.noBranch hb) hx
          | some b =>
              cases hblock : b.block with
              | true => exact absurd (.block hb hblock) hx
              | false =>
                  have hvalue := hvalue b rfl
                  rw [hblock, if_neg Bool.false_ne_true] at hvalue
                  exact part (.branch hb) hvalue fun hout => hx (.branch hb hout)
      | forLoop name first last step b span =>
          cases hblock : b.block with
          | true => exact absurd (.forLoop hblock) hx
          | false =>
              have hmarks := Visit.forLoop_ok h
              rw [hblock, if_neg Bool.false_ne_true] at hmarks
              exact hmarks.trace
      | whileLoop condition b span =>
          cases hblock : b.block with
          | true => exact absurd (.whileLoop hblock) hx
          | false =>
              have hmarks := Visit.whileLoop_ok h
              rw [hblock, if_neg Bool.false_ne_true] at hmarks
              exact hmarks.trace
      | function name params body arrow span => exact (Visit.function_marks h).trace
      | call callee args span => exact (Visit.call_marks h).trace
      | returnWith value span => exact absurd h Visit.returnWith_ne_ok
      | continueLoop span => cases h
      | breakLoop span => cases h

/-- What the operator or the call at a point takes carries the frames there. -/
theorem trace_of_subject {n : Nat} {x y : Node} {env : Env} {m m' : Machine H}
    {calls : List Activation} {a : Value} (hy : x.subject? = some y)
    (htakes : ∀ q, Reaches ⟨n + 1, x, env, m, calls⟩ q → q.TakesFramed)
    (h : visit n y env m = .ok a m') : a.trace = env.trace := by
  by_cases hout : HandsOn env n y m
  · exact htakes _ .refl n y a m' rfl hy hout h
  · exact trace_of_made (fun q hq => htakes q (.trans_next (.inside (.subject hy)) hq)) h hout

/-! ## Failures -/

/-- A failure of a point that another reaches is one of that other. -/
theorem Next.fails {p q : Point H} {d : Diagnostic} (h : Next p q) (hq : q.Fails d) :
    p.Fails d := by
  cases h with
  | inside h => exact h.fails hq
  | body h => exact h.fails hq

/-- The frames at a point are those of the calls that are active there. -/
def Framed (p : Point H) : Prop :=
  p.env.trace = Activation.trace p.calls

theorem Next.framed {p q : Point H} (h : Next p q) (hp : p.Framed)
    (htakes : ∀ q, Reaches p q → q.TakesFramed) : q.Framed := by
  cases h with
  | inside h => exact hp
  | body h =>
      obtain ⟨hg, hargs, hdepth, hf, hcount⟩ := h
      exact congrArg _ ((trace_of_subject rfl htakes hg).trans hp)

/-- A point that fails itself does so in the frames of the calls that are active there. -/
theorem FailsItself.trace {p : Point H} {d : Diagnostic} (h : p.FailsItself d) (hp : p.Framed)
    (htakes : ∀ q, Reaches p q → q.TakesFramed) :
    ∃ calls, p.Active calls ∧ d.trace = Activation.trace calls := by
  obtain ⟨n, x, env, m, calls⟩ := p
  cases n with
  | zero => cases stops_throw.mp h.fails
  | succ n =>
      obtain ⟨y, m', hy, hfails⟩ | ⟨a, y, env', m', hy, hfails⟩ | ⟨as, t, has, ht, htrace⟩ :=
        Visit.fails_of_step h.fails
      · exact absurd hfails (h.next _ (.inside hy) d)
      · exact absurd hfails (h.next _ (.body hy) d)
      · have htrace' : t = Activation.trace calls := by
          cases ht with
          | node _ => exact hp
          | subject hy ha => exact (trace_of_subject hy htakes ha).trans hp
        refine ⟨as ++ calls, .mk has, ?_⟩
        rw [htrace, htrace', Activation.trace, Activation.trace, List.map_append, List.append_assoc]

/-- Where the evaluation at a point fails, there is one that fails itself. -/
theorem exists_failsItself {p : Point H} {d : Diagnostic} (h : p.Fails d) :
    ∃ q, Reaches p q ∧ q.FailsItself d := by
  obtain ⟨n, x, env, m, calls⟩ := p
  induction n generalizing x env m calls with
  | zero => cases stops_throw.mp h
  | succ n ih =>
      by_cases hnext : ∃ q, Next ⟨n + 1, x, env, m, calls⟩ q ∧ ∃ d', q.Fails d'
      · obtain ⟨q, hq, d', hd'⟩ := hnext
        have hd : d' = d := by
          have := (hq.fails hd').unique h
          injection this with this
          injection this
        subst hd
        have hfuel : q.fuel = n := by cases hq <;> rfl
        obtain ⟨k, y, env', m', calls'⟩ := q
        cases hfuel
        obtain ⟨r, hr, hitself⟩ := ih y env' m' calls' hd'
        exact ⟨r, .trans_next hq hr, hitself⟩
      · exact ⟨_, .refl, h, fun q hq d' hd' => hnext ⟨q, hq, d', hd'⟩⟩

theorem Reaches.framed {p q : Point H} (h : Reaches p q) (hp : p.Framed)
    (htakes : ∀ q, Reaches p q → q.TakesFramed) : q.Framed := by
  induction h with
  | refl => exact hp
  | tail hr hnext ih => exact hnext.framed ih fun r hr' => htakes r (hr.trans hr')

end Point

namespace Session

variable [Host H]

/-- The machine on which a program is evaluated. -/
def begun (source : Source) (m : Machine H) : Machine H :=
  { m with log := .started source.name :: m.log }

/-- Where the evaluation of a program starts. -/
def outset (fuel : Nat) (x : Node) (source : Source) (m : Machine H) : Point H :=
  ⟨fuel, x, Visit.programEnv, begun source m, []⟩

theorem fails_of_run {fuel : Nat} {source : Source} {x : Node} {m : Machine H} {d : Diagnostic}
    (hx : Node.ofSource source = .ok x) (h : Stops (run fuel source) m (.failure d)) :
    Stops ((visit fuel x Visit.programEnv).toRun Visit.programEnv.trace id) (begun source m)
      (.failure d) :=
  (Visit.fails_runSource hx).mp h

/-- A program that fails does so at a point of its evaluation, and then the traceback has one line
for each call that is active there and one for the program, or it fails by a loop signal outside of
its loops. -/
theorem traceback_shows_active_calls {fuel : Nat} {source : Source} {x : Node} {m m' : Machine H}
    {d : Diagnostic} (hx : Node.ofSource source = .ok x)
    (htakes : ∀ q, (outset fuel x source m).Reaches q → q.TakesFramed)
    (h : run fuel source m = .error (.failure d) m') :
    (∃ q calls, (outset fuel x source m).Reaches q ∧
      q.FailsItself d ∧ q.Active calls ∧ d.frames = Activation.lines d.span.start calls) ∨
    (∀ d', ¬ (outset fuel x source m).Fails d') ∧
      d.frames = Activation.lines d.span.start [] := by
  have hrun := fails_of_run hx ⟨m', h⟩
  by_cases hfails : ∃ d', (outset fuel x source m).Fails d'
  · left
    obtain ⟨d', hd'⟩ := hfails
    obtain rfl : d' = d := by
      have hsame := (hd'.toRun Visit.programEnv.trace id).unique hrun
      injection hsame
    obtain ⟨q, hq, hitself⟩ := Point.exists_failsItself hd'
    have hframed : q.Framed := hq.framed rfl htakes
    obtain ⟨calls, hactive, htrace⟩ := hitself.trace hframed fun r hr => htakes r (hq.trans hr)
    exact ⟨q, calls, hq, hitself, hactive, Activation.frames_eq_lines htrace⟩
  · right
    refine ⟨fun d' hd' => hfails ⟨d', hd'⟩, Activation.frames_eq_lines ?_⟩
    obtain h | h := Eval.fails_of_toRun hrun
    · exact absurd ⟨d, h⟩ hfails
    · exact h

/-- What `f` tells of a run that fails. -/
def toldOf? {α : Type} (f : Diagnostic → Machine H → α) :
    EStateM.Result Halt (Machine H) Value → Option α
  | .error (.failure d) m => some (f d m)
  | _ => none

omit [Host H] in
theorem fails_of_toldOf? {α : Type} {f : Diagnostic → Machine H → α}
    {r : EStateM.Result Halt (Machine H) Value} {a : α} (h : toldOf? f r = some a) :
    ∃ d m, r = .error (.failure d) m ∧ f d m = a := by
  unfold toldOf? at h
  split at h
  · cases h
    exact ⟨_, _, rfl, rfl⟩
  · cases h

/-- Whether a program is a function `f` that yields `x`, and the call of it. -/
def isCallOfOwn : Node → Bool
  | .list [.function (some "f") [] (.ident "x" _) true _, .call (.ident "f" _) [] _] _ => true
  | _ => false

theorem eq_of_isCallOfOwn {x : Node} (h : isCallOfOwn x) :
    ∃ s s₁ s₂ s₃ t, x = .list [.function (some "f") [] (.ident "x" s) true s₁,
      .call (.ident "f" s₂) [] s₃] t := by
  unfold isCallOfOwn at h
  split at h
  · exact ⟨_, _, _, _, _, rfl⟩
  · cases h

/-- A name that is not defined, in a function that is called by its name. -/
theorem traceback_shows_active_calls_undefined :
    let source : Source := ⟨"t", "FN f() -> x\nf()"⟩
    let m : Machine MemoryHost := start (MemoryHost.ofInput [] [])
    ∃ x d m', Node.ofSource source = .ok x ∧
      (∀ q, (outset 3 x source m).Reaches q → q.TakesFramed) ∧
      run 3 source m = .error (.failure d) m' ∧
      d.frames = ["File t, line 1, in f", "File t, line 2, in <program>"] ∧
      ((∃ q calls, (outset 3 x source m).Reaches q ∧ q.FailsItself d ∧ q.Active calls ∧
        d.frames = Activation.lines d.span.start calls) ∨
      (∀ d', ¬ (outset 3 x source m).Fails d') ∧
        d.frames = Activation.lines d.span.start []) := by
  intro source m
  obtain ⟨s, s₁, s₂, s₃, t, hx⟩ : ∃ s s₁ s₂ s₃ t, Node.ofSource source =
      .ok (.list [.function (some "f") [] (.ident "x" s) true s₁,
        .call (.ident "f" s₂) [] s₃] t) := by
    have hread : (Node.ofSource source).map isCallOfOwn = .ok true := by decide +kernel
    obtain ⟨x, hx, hcall⟩ := ok_of_map hread
    obtain ⟨s, s₁, s₂, s₃, t, rfl⟩ := eq_of_isCallOfOwn hcall
    exact ⟨s, s₁, s₂, s₃, t, hx⟩
  have hends : toldOf? (fun d _ => d.frames) (run 3 source m) =
      some ["File t, line 1, in f", "File t, line 2, in <program>"] := by decide +kernel
  have hcall {m₁ : Machine MemoryHost} {v : Value}
      (hv : visit 2 (.function (some "f") [] (.ident "x" s) true s₁) Visit.programEnv
        (begun source m) = .ok v m₁) :
      ∀ q, Point.Reaches ⟨2, .call (.ident "f" s₂) [] s₃, Visit.programEnv, m₁, []⟩ q →
        q.TakesFramed := by
    refine .of_next (.of_subject fun n y hy hout => ?_) fun q hq => ?_
    · cases hy
      cases hout
    · cases hq with
      | inside h =>
          cases h with
          | subject hy =>
              cases hy
              exact Point.takesFramed_ident
          | argument _ h => cases h
      | body h =>
          obtain ⟨hg, -, -, hf, -⟩ := h
          obtain ⟨-, w, hw, hdatum⟩ := Visit.ident_passes hg
          have hsize : 0 < m.store.tables.size := by decide +kernel
          cases hv
          cases (m.store.lookup_bind .globals "f" _ hsize).symm.trans hw
          cases hdatum.symm.trans hf
          exact Point.takesFramed_ident
  have htakes : ∀ q, (outset 3 (.list [.function (some "f") [] (.ident "x" s) true s₁,
      .call (.ident "f" s₂) [] s₃] t) source m).Reaches q → q.TakesFramed := by
    refine .of_next (.of_subject fun n y hy => by cases hy) fun q hq => ?_
    cases hq with
    | inside h =>
        cases h with
        | subject hy => cases hy
        | element h =>
            cases h with
            | here => exact Point.takesFramed_function
            | later hv h =>
                cases h with
                | here => exact hcall hv
                | later _ h => cases h
    | body h => cases h
  obtain ⟨d, m', hrun, hframes⟩ := fails_of_toldOf? hends
  exact ⟨_, d, m', hx, htakes, hrun, hframes, traceback_shows_active_calls hx htakes hrun⟩

/-- A function that is taken from a list keeps the frames in which it was put there, so the call of
`g` is missing: `f` and `g` have been entered, and the traceback has two lines. -/
theorem traceback_misses_active_call :
    ∃ d m', run 20 ⟨"t", "FN f() -> 1/0\nlist l = [f]\nFN g() -> (l/0)()\ng()"⟩
        (start (MemoryHost.ofInput [] [])) = .error (.failure d) m' ∧
      m'.log = [.finished "t" false, .entering "f" 0, .entering "g" 0, .started "t"] ∧
      d.frames = ["File t, line 1, in f", "File t, line 3, in <program>"] ∧
      ∀ f g, d.frames ≠ Activation.lines d.span.start [⟨"f", f⟩, ⟨"g", g⟩] := by
  have hends : toldOf? (fun d m => (m.log, d.frames)) (run 20
      ⟨"t", "FN f() -> 1/0\nlist l = [f]\nFN g() -> (l/0)()\ng()"⟩
      (start (MemoryHost.ofInput [] []))) =
        some ([.finished "t" false, .entering "f" 0, .entering "g" 0, .started "t"],
          ["File t, line 1, in f", "File t, line 3, in <program>"]) := by decide +kernel
  obtain ⟨d, m', hrun, htold⟩ := fails_of_toldOf? hends
  obtain ⟨hlog, hframes⟩ := Prod.mk.inj htold
  refine ⟨d, m', hrun, hlog, hframes, fun f g hlines => ?_⟩
  have hlength := congrArg List.length hlines
  rw [hframes, Activation.length_lines] at hlength
  cases hlength

end Session

end BasicScript
