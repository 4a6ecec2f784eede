import BasicScript.Proofs.Evaluation.Scopes
import BasicScript.Proofs.Evaluation.Shallower

/-! # Including scripts

`RUN` does to the globals, the lists and the host what running the file on its own does, as long as
the script never makes a call that is one too many. -/

namespace BasicScript

variable {H : Type} [Host H]

open Machine (Shallower)

namespace Moment

/-- A call is about to be made where as many are active as may be. -/
def MeetsLimit (p : Moment H) : Prop :=
  (∃ g args, p.task = .call g args) ∧ maxDepth ≤ p.machine.depth

/-- Whatever carrying out the task comes to, no call is made that is one too many. -/
def StaysBelow (p : Moment H) : Prop :=
  ∀ q, p.Reaches q → ¬ q.MeetsLimit

theorem StaysBelow.next {p q : Moment H} (h : p.StaysBelow) (hq : p.Next q) : q.StaysBelow :=
  fun r hr => h r (.head hq hr)

theorem StaysBelow.depth {n : Nat} {g : Value} {args : List Value} {m : Machine H}
    {calls : List Value} (h : StaysBelow ⟨n, .call g args, m, calls⟩) : m.depth < maxDepth :=
  Nat.lt_of_not_le fun hle => h _ .refl ⟨⟨g, args, rfl⟩, hle⟩

/-! ## Fuel bounds the depth -/

/-- How deep the calls can become before the fuel ends. -/
def reach (p : Moment H) : Nat :=
  match p.task with
  | .call .. => p.machine.depth + p.fuel + 1
  | _ => p.machine.depth + p.fuel

theorem Next.reach_le {p q : Moment H} (h : p.Next q) : q.reach ≤ p.reach := by
  have hcounts := h.counts
  cases h with
  | part h =>
      rcases hcounts with ⟨-, hdepth⟩ | ⟨-, g, -, hdepth⟩ <;> simp [reach] at hdepth ⊢ <;> omega
  | call hg hargs =>
      rcases hcounts with ⟨-, hdepth⟩ | ⟨-, g, hcalls, -⟩
      · simp [reach] at hdepth ⊢
        omega
      · simp at hcalls
  | enter hdepth => simp [reach]; omega
  | body _ _ => exact Nat.le_refl _
  | script _ _ _ => exact Nat.le_refl _
  | program _ => exact Nat.le_refl _

/-- What has less fuel than there is room for calls never makes one too many. -/
theorem staysBelow_of_fuel {p : Moment H} (h : p.machine.depth + p.fuel < maxDepth) :
    p.StaysBelow := by
  have hstart : p.reach ≤ maxDepth := by
    unfold reach
    split <;> omega
  intro q hq
  have hreach : q.reach ≤ p.reach := by
    induction hq with
    | refl => exact Nat.le_refl _
    | tail _ hnext ih => exact Nat.le_trans hnext.reach_le ih
  rintro ⟨⟨g, args, htask⟩, hdepth⟩
  have hcall : q.reach = q.machine.depth + q.fuel + 1 := by simp only [reach, htask]
  omega

/-! ## Fewer calls around it -/

section

variable {n : Nat} {m m' : Machine H} {calls : List Value}
  (ih : ∀ {x env} {m m' : Machine H} {calls}, StaysBelow ⟨n, .node x env, m, calls⟩ →
    Shallower m m' → Agrees (visit n x env) m m')

include ih

theorem program_agrees_of {source : Source} (h : StaysBelow ⟨n, .program source, m, calls⟩)
    (hm : Shallower m m') : Agrees (Visit.runSource (visit n) source) m m' := by
  apply ((Blind.note _).agrees hm).bind
  rintro _ _ m₁' ⟨⟩ hm₁
  cases hx : Node.ofSource source with
  | error d => exact .throw _ hm₁
  | ok x => exact ((ih (h.next (.program hx)) hm₁).toRun _ _).noteEnd _

theorem inside_agrees {g : Value} {values : List Value}
    (h : StaysBelow ⟨n, .inside g values, m, calls⟩) (hm : Shallower m m') :
    Agrees (Visit.enter (visit n) g values) m m' := by
  unfold Visit.enter
  split
  · rename_i f hf
    apply Visit.callClosure_agrees _ hm
    intro hcount
    have hbody : Shallower (Visit.bodyMachine f values m) (Visit.bodyMachine f values m') :=
      ⟨by simp only [Visit.bodyMachine, hm.store], hm.host, hm.depth⟩
    exact ih (h.next (.body hf hcount)) hbody
  · rename_i b hb
    apply ((Blind.checkCount _ _ _).agrees hm).bind
    intro _ m₁ m₁' hcheck hm₁
    obtain rfl : m₁ = m := by
      rw [Visit.checkCount_of_eq (Visit.eq_of_checkCount hcheck)] at hcheck
      cases hcheck
      rfl
    apply ((Blind.note _).agrees hm₁).bind
    rintro _ _ m₂' ⟨⟩ hm₂
    apply Visit.execute_agrees _ hm₂
    rintro v path text m₃' rfl rfl hpath hload hm₃
    exact program_agrees_of ih (h.next (.script hb hpath hload)) hm₃
  · exact .throw _ hm

theorem call_agrees {g : Value} {values : List Value}
    (h : StaysBelow ⟨n, .call g values, m, calls⟩) (hm : Shallower m m') :
    Agrees (Visit.apply (visit n) g values) m m' := by
  have hinside : Shallower { m with depth := m.depth + 1 } { m' with depth := m'.depth + 1 } :=
    ⟨hm.store, hm.host, Nat.succ_le_succ hm.depth⟩
  exact Visit.apply_agrees h.depth (inside_agrees ih (h.next (.enter h.depth)) hinside) hm

end

end Moment

open Moment (StaysBelow)

/-- What never makes a call that is one too many does not tell how many are active around it. -/
theorem visit_agrees {n : Nat} {x : Node} {env : Env} {m m' : Machine H} {calls : List Value}
    (h : StaysBelow ⟨n, .node x env, m, calls⟩) (hm : Shallower m m') :
    Agrees (visit n x env) m m' := by
  induction n generalizing x env m m' calls with
  | zero => exact .throw _ hm
  | succ n ih =>
      refine Visit.step_agrees (fun hy => ih (h.next (.part hy))) ?_ hm
      rintro callee args span g values m₁ m₂ m₂' rfl hg hargs hm₂
      exact Moment.call_agrees ih (h.next (.call hg hargs)) hm₂

theorem program_agrees {n : Nat} {source : Source} {m m' : Machine H} {calls : List Value}
    (h : StaysBelow ⟨n, .program source, m, calls⟩) (hm : Shallower m m') :
    Agrees (Session.run n source) m m' :=
  Moment.program_agrees_of visit_agrees h hm

/-! ## Calls of `RUN` -/

section

variable {self : Visit H} {callee v : Value} {args : List Value} {path text : String} {n : Nat}
  {m m₁ : Machine H} {calls : List Value}

theorem apply_of_ok (hdepth : m.depth < maxDepth)
    (h : Visit.enter self callee args { m with depth := m.depth + 1 } = .ok v m₁) :
    Visit.apply self callee args m = .ok v { m₁ with depth := m₁.depth - 1 } := by
  rw [Visit.apply, if_neg (Nat.not_le.mpr hdepth), h]

theorem apply_of_error {e : Halt} (hdepth : m.depth < maxDepth)
    (h : Visit.enter self callee args { m with depth := m.depth + 1 } = .error e m₁) :
    Visit.apply self callee args m = .error e { m₁ with depth := m₁.depth - 1 } := by
  rw [Visit.apply, if_neg (Nat.not_le.mpr hdepth), h]

/-- A call of `RUN` does to the globals, the other scopes, the lists and the host what running the
file does from there on its own, as long as the script makes no call that is one too many. It yields
null if that run yields a value, and fails with the text of the failure if that run fails. No scope
but the globals is changed that was there before. -/
theorem included_as_on_its_own (hcallee : callee.datum = .builtin .run)
    (hpath : v.text? = some path) (hload : Host.load m.host path = .answer text)
    (hbelow : StaysBelow ⟨n, .call callee [v], m, calls⟩) :
    let direct := Session.run n ⟨path, text⟩ { m with depth := 0 }
    let called := Visit.apply (visit n) callee [v] m
    (∀ w m₁, direct = .ok w m₁ →
      ∃ m₂, called = .ok .null m₂ ∧ m₂.store = m₁.store ∧ m₂.host = m₁.host) ∧
    (∀ d m₁, direct = .error (.failure d) m₁ →
      ∃ e m₂, called = .error (.failure e) m₂ ∧ e.kind = .runtime ∧
        e.message =
          "Failed to finish executing script \"" ++ path ++ "\". Error: " ++ d.text ∧
        m₂.store = m₁.store ∧ m₂.host = m₁.host) ∧
    (∀ h m₁, direct = .error h m₁ → (∀ d, h ≠ .failure d) →
      ∃ m₂, called = .error h m₂ ∧ m₂.store = m₁.store ∧ m₂.host = m₁.host) ∧
    ∀ t, t ≠ 0 → t < m.store.tables.size →
      (Machine.ofResult called).store.table t = m.store.table t := by
  intro direct called
  let told := Builtin.scriptFailure ⟨callee.span, Visit.entered callee "RUN"⟩ path
  have hscript := (hbelow.next (.enter hbelow.depth)).next (.script hcallee hpath hload)
  have hrun : Agrees (Session.run n ⟨path, text⟩)
      (Moment.included path { m with depth := m.depth + 1 }) { m with depth := 0 } :=
    program_agrees hscript ⟨rfl, rfl, Nat.zero_le _⟩
  have hinside : Visit.enter (visit n) callee [v] { m with depth := m.depth + 1 } = _ :=
    Visit.enter_run hcallee hpath hload
  -- the end of the run on its own tells how the call ends
  have hends {h : Halt} {m₁ : Machine H}
      (hmapped : (Session.run n ⟨path, text⟩).mapFailure told { m with depth := 0 } =
        .error h m₁) :
      ∃ m₂, called = .error h m₂ ∧ m₂.store = m₁.store ∧ m₂.host = m₁.host := by
    rcases (hrun.mapFailure told).exists_error hmapped with ⟨m₂, hm₂, hsame⟩
    exact ⟨_, apply_of_error hbelow.depth (hinside.trans (bind_of_error hm₂)), hsame.store.symm,
      hsame.host.symm⟩
  refine ⟨fun w m₁ hdirect => ?_, fun d m₁ hdirect => ?_, fun h m₁ hdirect hother => ?_,
    fun t ht hlt => ?_⟩
  · have hmapped : (Session.run n ⟨path, text⟩).mapFailure told { m with depth := 0 } =
        .ok w m₁ := by
      rw [Run.mapFailure, show Session.run n ⟨path, text⟩ { m with depth := 0 } = _ from hdirect]
    rcases (hrun.mapFailure told).exists_ok hmapped with ⟨m₂, hm₂, hsame⟩
    exact ⟨_, apply_of_ok hbelow.depth (hinside.trans (bind_of_ok hm₂)), hsame.store.symm,
      hsame.host.symm⟩
  · have hmapped : (Session.run n ⟨path, text⟩).mapFailure told { m with depth := 0 } =
        .error (.failure (told d)) m₁ := by
      rw [Run.mapFailure, show Session.run n ⟨path, text⟩ { m with depth := 0 } = _ from hdirect]
    rcases hends hmapped with ⟨m₂, hcalled, hsame⟩
    exact ⟨told d, m₂, hcalled, rfl, rfl, hsame⟩
  · have hmapped : (Session.run n ⟨path, text⟩).mapFailure told { m with depth := 0 } =
        .error h m₁ := by
      rw [Run.mapFailure, show Session.run n ⟨path, text⟩ { m with depth := 0 } = _ from hdirect]
      cases h with
      | failure d => exact absurd rfl (hother d)
      | _ => rfl
    exact hends hmapped
  · rcases apply_keeps (visit_keeps n) callee [v] m with ⟨-, events, -, hkeep⟩
    exact hkeep t hlt not_false fun h0 => absurd h0 ht

end

/-- A script with a `RETURN`, included with 900 calls around it. -/
theorem included_as_on_its_own_return :
    let text := "print(1)\nRETURN 5\nprint(2)"
    let m : Machine MemoryHost :=
      { Session.start (.ofInput [] [("p", text)]) with depth := 900 }
    let callee : Value := .plain (.builtin .run)
    callee.datum = .builtin .run ∧ (Value.ofText "p").text? = some "p" ∧
    Host.load m.host "p" = .answer text ∧
    StaysBelow ⟨20, .call callee [.ofText "p"], m, []⟩ ∧
    ∃ m₂, Visit.apply (visit 20) callee [.ofText "p"] m = .ok .null m₂ ∧
      m₂.host.output = #["1"] := by
  intro text m callee
  have hload : Host.load m.host "p" = .answer text := rfl
  have hbelow : StaysBelow ⟨20, .call callee [.ofText "p"], m, []⟩ :=
    Moment.staysBelow_of_fuel (by decide)
  have hends : (match Session.run 20 ⟨"p", text⟩ { m with depth := 0 } with
      | .ok _ m => some m.host.output
      | .error _ _ => none) = some #["1"] := by decide +kernel
  refine ⟨rfl, rfl, hload, hbelow, ?_⟩
  cases hdirect : Session.run 20 ⟨"p", text⟩ { m with depth := 0 } with
  | ok w m₁ =>
      rw [hdirect] at hends
      obtain ⟨hok, -⟩ := included_as_on_its_own rfl rfl hload hbelow
      rcases hok w m₁ hdirect with ⟨m₂, hcalled, -, hhost⟩
      exact ⟨m₂, hcalled, by rw [hhost]; exact Option.some.inj hends⟩
  | error e m₁ =>
      rw [hdirect] at hends
      cases hends

end BasicScript
