import BasicScript.Proofs.Evaluation.Depth
import BasicScript.Proofs.Evaluation.Upholding

/-! # What a call upholds

A call does what its body does, one level deeper, or what a built-in function does; at the deepest
level it does nothing. What a call itself refuses points to the call. -/

namespace BasicScript

variable {H α : Type} {C : Closure → Prop} {J : H → Prop} {E : Halt → Prop} {d : Nat}
  {P : Node → Prop} {m : Machine H}

/-- A failure, or something else of which `E` holds. -/
def Halt.FailsOr (E : Halt → Prop) : Halt → Prop
  | .failure _ => True
  | h => E h

theorem Halt.FailsOr.of {h : Halt} (hE : E h) : h.FailsOr E := by
  cases h with
  | failure d => trivial
  | _ => exact hE

/-! ## Built-in functions -/

namespace Host.Upholds

variable [Host H] (hhost : Host.Upholds H J E P)

include hhost

theorem readNumberFrom {h : H} (hh : J h) (n : Nat) :
    J (Host.readNumberFrom n h).2 ∧
      ∀ q, (Host.readNumberFrom n h).1 = .pending q → E (.awaits q) := by
  induction n generalizing h with
  | zero => exact ⟨hh, nofun⟩
  | succ n ih =>
      obtain ⟨hleft, hpending⟩ := hhost.readLine hh
      unfold Host.readNumberFrom
      split <;> rename_i hread <;> rw [hread] at hleft hpending
      · split
        · exact ⟨hleft, nofun⟩
        · exact ih (hhost.writeLine _ hleft)
      · exact ⟨hleft, nofun⟩
      · refine ⟨hleft, fun q hq => ?_⟩
        cases hq
        exact hpending _ rfl

end Host.Upholds

namespace Run

theorem inspect_upholds (hm : m.Upholds C J d) {Q : α → Prop} {f : Store → α}
    (h : ∀ s, s.Closures C → Q (f s)) : Upholds C J E d Q ((inspect f : Run H α) m) :=
  ⟨hm, h m.store hm.store⟩

theorem modifyList_upholds (hm : m.Upholds C J d) (l : ListRef) {f : Array Value → Array Value}
    (hf : ∀ xs, (∀ v ∈ xs, v.Closures C) → ∀ v ∈ f xs, v.Closures C) :
    Upholds C J E d (fun _ => True) ((change (·.modifyList l f) : Run H Unit) m) :=
  ⟨⟨hm.store.modifyList l (hf _ (hm.store.elements l)), hm.host, hm.depth⟩, trivial⟩

theorem tell_upholds (hm : m.Upholds C J d) {f : H → H} (hf : ∀ h, J h → J (f h)) :
    Upholds C J E d (fun _ => True) (tell f m) :=
  ⟨⟨hm.store, hf m.host hm.host, hm.depth⟩, trivial⟩

/-- An answer of the host. -/
theorem ask_upholds (hm : m.Upholds C J d) {Q : α → Prop} {onFault : Host.Fault → Diagnostic}
    (hfail : ∀ f, E (.failure (onFault f))) {f : H → Host.Reply α × H}
    (hf : J (f m.host).2 ∧ (∀ q, (f m.host).1 = .pending q → E (.awaits q)) ∧
      ∀ a, (f m.host).1 = .answer a → Q a) :
    Upholds C J E d Q (ask onFault f m) := by
  obtain ⟨hleft, hpending, hanswer⟩ := hf
  unfold ask
  split <;> rename_i hreply <;> rw [hreply] at hleft hpending hanswer
  · exact ⟨⟨hm.store, hleft, hm.depth⟩, hanswer _ rfl⟩
  · exact ⟨⟨hm.store, hleft, hm.depth⟩, hfail _⟩
  · exact ⟨⟨hm.store, hleft, hm.depth⟩, hpending _ rfl⟩

/-- Whatever a failure was, it is told in other words. -/
theorem mapFailure_upholds {f : Diagnostic → Diagnostic} (hfail : ∀ e, E (.failure (f e)))
    {Q : α → Prop} {r : Run H α} (h : Upholds C J (Halt.FailsOr E) d Q (r m)) :
    Upholds C J E d Q (r.mapFailure f m) := by
  unfold mapFailure
  cases heq : r m with
  | ok a m₁ =>
      rw [heq] at h
      exact h
  | error e m₁ =>
      rw [heq] at h
      cases e with
      | failure e => exact ⟨h.1, hfail e⟩
      | _ => exact h

theorem noteEnd_upholds {Q : α → Prop} {r : Run H α} (h : Upholds C J E d Q (r m))
    (e : Bool → Event) : Upholds C J E d Q (r.noteEnd e m) := by
  unfold noteEnd
  cases heq : r m with
  | ok a m₁ =>
      rw [heq] at h
      exact ⟨⟨h.1.store, h.1.host, h.1.depth⟩, h.2⟩
  | error e m₁ =>
      rw [heq] at h
      cases e with
      | failure f => exact ⟨⟨h.1.store, h.1.host, h.1.depth⟩, h.2⟩
      | _ => exact h

end Run

namespace Builtin

variable {site : CallSite} (hfail : ∀ f : Diagnostic, f.span = site.span → E (.failure f))

include hfail

theorem listArg_upholds (hm : m.Upholds C J d) (which : String) (v : Value) :
    Run.Upholds C J E d (fun _ => True) ((listArg site which v : Run H ListRef) m) := by
  unfold listArg
  cases v.list? with
  | some l => exact ⟨hm, trivial⟩
  | none => exact ⟨hm, hfail _ rfl⟩

theorem popAt_upholds (hm : m.Upholds C J d) (l : ListRef) (n : Number) :
    Run.Upholds C J E d (·.Closures C) ((popAt site l n : Run H Value) m) := by
  refine .bind (Q := fun xs => ∀ v ∈ xs, v.Closures C)
    (Run.inspect_upholds hm fun s hs => hs.elements l) fun xs m₁ _ hm₁ hxs => ?_
  cases n.toInt?.bind (resolveIndex xs.size) with
  | none => exact ⟨hm₁, hfail _ rfl⟩
  | some p =>
      exact .bind (Run.modifyList_upholds hm₁ l fun xs hxs => Value.Closures.eraseIdx hxs p)
        fun _ m₂ _ hm₂ _ => ⟨hm₂, .getD hxs p⟩

variable [Host H] (hhost : Host.Upholds H J E P)

include hhost

theorem runFile_upholds (hm : m.Upholds C J d) {runSource : Source → Run H Value} {path : String}
    (hrun : ∀ text, Host.load m.host path = .answer text →
      Run.Upholds C J (Halt.FailsOr E) d (·.Closures C)
        (runSource ⟨path, text⟩ { m with log := .including path :: m.log })) :
    Run.Upholds C J E d (·.Closures C) (runFile runSource site path m) := by
  refine .bind (Q := fun text => Host.load m.host path = .answer text)
    (Run.ask_upholds hm (fun _ => hfail _ rfl) ⟨hm.host, (hhost.load hm.host path).1, fun _ h => h⟩)
    ?_
  intro text m₁ hask _ htext
  obtain rfl : m = m₁ := by
    rw [Run.ask, htext] at hask
    cases hask
    rfl
  refine .bind (r := Run.mapFailure _ _)
    (Run.mapFailure_upholds (fun _ => hfail _ rfl) (hrun text htext)) ?_
  exact fun _ m₁ _ hm₁ _ => ⟨hm₁, .of_not_function rfl⟩

theorem execute_upholds (hm : m.Upholds C J d) {runSource : Source → Run H Value} {b : Builtin}
    {args : List Value} (hargs : ∀ v ∈ args, v.Closures C)
    (hrun : ∀ v path text, b = .run → args = [v] → v.text? = some path →
      Host.load m.host path = .answer text →
        Run.Upholds C J (Halt.FailsOr E) d (·.Closures C)
          (runSource ⟨path, text⟩ { m with log := .including path :: m.log })) :
    Run.Upholds C J E d (·.Closures C) (b.execute runSource site args m) := by
  have inspect {α : Type} (f : Store → α) :
      Run.Upholds C J E d (fun _ => True) ((Run.inspect f : Run H α) m) :=
    Run.inspect_upholds hm fun _ _ => trivial
  have listArg {m : Machine H} (hm : m.Upholds C J d) (which : String) (v : Value) :=
    listArg_upholds hfail hm which v
  unfold execute
  split
  · exact .bind (inspect _) fun line m₁ _ hm₁ _ =>
      .bind (Run.tell_upholds hm₁ fun h hh => hhost.writeLine line hh) fun _ m₂ _ hm₂ _ =>
        ⟨hm₂, .of_not_function rfl⟩
  · exact .bind (inspect _) fun _ m₁ _ hm₁ _ => ⟨hm₁, .of_not_function rfl⟩
  · refine .bind (Q := fun _ => True) (Run.ask_upholds hm (fun _ => hfail _ rfl) ?_)
      fun _ m₁ _ hm₁ _ => ⟨hm₁, .of_not_function rfl⟩
    obtain ⟨hleft, hpending⟩ := hhost.readLine hm.host
    exact ⟨hleft, hpending, fun _ _ => trivial⟩
  · refine .bind (Q := fun _ => True) (Run.ask_upholds hm (fun _ => hfail _ rfl) ?_)
      fun _ m₁ _ hm₁ _ => ⟨hm₁, .of_not_function rfl⟩
    obtain ⟨hleft, hpending⟩ := hhost.readNumberFrom hm.host (Host.linesLeft m.host + 1)
    exact ⟨hleft, hpending, fun _ _ => trivial⟩
  · exact .bind (Run.tell_upholds hm fun h hh => hhost.clear hh) fun _ m₁ _ hm₁ _ =>
      ⟨hm₁, .of_not_function rfl⟩
  · exact ⟨hm, .of_not_function rfl⟩
  · exact ⟨hm, .of_not_function rfl⟩
  · exact ⟨hm, .of_not_function rfl⟩
  · exact ⟨hm, .of_not_function rfl⟩
  · rename_i v
    have hv : v.Closures C := hargs v (by simp)
    exact .bind (listArg hm _ _) fun l m₁ _ hm₁ _ =>
      .bind (Run.modifyList_upholds hm₁ l fun xs hxs => Value.Closures.push hxs hv)
        fun _ m₂ _ hm₂ _ => ⟨hm₂, .of_not_function rfl⟩
  · rename_i index
    refine .bind (listArg hm _ _) fun l m₁ _ hm₁ _ => ?_
    cases index.number? with
    | none => exact ⟨hm₁, hfail _ rfl⟩
    | some n => exact popAt_upholds hfail hm₁ l n
  · exact .bind (listArg hm _ _) fun a m₁ _ hm₁ _ => .bind (listArg hm₁ _ _) fun b m₂ _ hm₂ _ =>
      .bind (Q := fun xs => ∀ v ∈ xs, v.Closures C)
        (Run.inspect_upholds hm₂ fun s hs => hs.elements b) fun added m₃ _ hm₃ hadded =>
      .bind (Run.modifyList_upholds hm₃ a fun xs hxs => Value.Closures.append hxs hadded)
        fun _ m₄ _ hm₄ _ => ⟨hm₄, .of_not_function rfl⟩
  · exact .bind (listArg hm _ _) fun l m₁ _ hm₁ _ =>
      .bind (Q := fun _ => True) (Run.inspect_upholds hm₁ fun _ _ => trivial)
        fun _ m₂ _ hm₂ _ => ⟨hm₂, .of_not_function rfl⟩
  · rename_i v
    cases hpath : v.text? with
    | none => exact ⟨hm, hfail _ rfl⟩
    | some path =>
        exact runFile_upholds hfail hhost hm fun text htext => hrun v path text rfl rfl hpath htext
  · exact ⟨hm, hfail _ rfl⟩

end Builtin

/-! ## Calls -/

namespace Visit

variable {self : Visit H}

/-- A program upholds what its evaluation does, unless it cannot be read. -/
theorem runSource_upholds (hm : m.Upholds C J d) {source : Source}
    (hfail : ∀ f, Node.ofSource source = .error f → E (.failure f))
    (hprogram : ∀ x, Node.ofSource source = .ok x →
      Machine.Upholds C J d { m with log := .started source.name :: m.log } →
      Run.Upholds C J E d (·.Closures C) ((self x programEnv).toRun programEnv.trace id
        { m with log := .started source.name :: m.log })) :
    Run.Upholds C J E d (·.Closures C) (runSource self source m) := by
  have hstarted : Machine.Upholds C J d { m with log := .started source.name :: m.log } :=
    ⟨hm.store, hm.host, hm.depth⟩
  cases h : Node.ofSource source with
  | error f =>
      rw [runSource_of_error h]
      exact ⟨hstarted, hfail f h⟩
  | ok x =>
      rw [runSource_of_ok h]
      exact Run.noteEnd_upholds (hprogram x h hstarted) _

variable {callee : Value} {args : List Value}
  (hfail : ∀ f : Diagnostic, f.span = callee.span → E (.failure f))

include hfail

/-- What is called with the wrong number of arguments is not entered. -/
theorem checkCount_upholds (hm : m.Upholds C J d) {expected got : Nat} {r : Unit → Run H Value}
    (hr : expected = got → Run.Upholds C J E d (·.Closures C) (r () m)) :
    Run.Upholds C J E d (·.Closures C) ((checkCount callee expected got >>= r) m) := by
  by_cases hcount : expected = got
  · rw [bind_of_ok (checkCount_of_eq hcount)]
    exact hr hcount
  · unfold checkCount
    rw [if_neg hcount]
    exact ⟨hm, hfail _ rfl⟩

variable [Host H] (hhost : Host.Upholds H J E P)

include hhost

/-- A call that is counted upholds what the body or the script does that it comes to. -/
theorem enter_upholds (hm : m.Upholds C J d) (hargs : ∀ v ∈ args, v.Closures C)
    (hbody : ∀ f, callee.datum = .function f → f.params.length = args.length →
      Machine.Upholds C J d (bodyMachine f args m) →
      Run.Upholds C J E d (·.Closures C) ((self f.body (bodyEnv callee f m)).toRun
        (entered callee f.name) (fun v => if f.arrow then v else .null) (bodyMachine f args m)))
    (hscript : ∀ v path text, callee.datum = .builtin .run → args = [v] → v.text? = some path →
      Host.load m.host path = .answer text → Machine.Upholds C J d (Moment.included path m) →
      Run.Upholds C J (Halt.FailsOr E) d (·.Closures C)
        (runSource self ⟨path, text⟩ (Moment.included path m))) :
    Run.Upholds C J E d (·.Closures C) (enter self callee args m) := by
  cases hcallee : callee.datum with
  | function f =>
      rw [enter_of_function hcallee]
      refine checkCount_upholds hfail hm fun hcount => ?_
      exact hbody f hcallee hcount
        ⟨(hm.store.child f.scope).bindAll _ f.params hargs, hm.host, hm.depth⟩
  | builtin b =>
      rw [enter_of_builtin hcallee]
      have hnoted {log : List Event} : Machine.Upholds C J d { m with log } :=
        ⟨hm.store, hm.host, hm.depth⟩
      refine checkCount_upholds hfail hm fun _ =>
        Builtin.execute_upholds (m := { m with log := .calling b args.length :: m.log }) hfail
          hhost hnoted hargs ?_
      rintro v path text rfl rfl hpath htext
      exact hscript v path text hcallee rfl hpath htext hnoted
  | _ =>
      unfold enter
      rw [hcallee]
      exact ⟨hm, hfail _ rfl⟩

omit hhost in
/-- A call upholds what happens inside it one level deeper, if there is a deeper level. -/
theorem apply_upholds (hm : m.Upholds C J d)
    (henter : m.depth < maxDepth →
      Machine.Upholds C J (d + 1) { m with depth := m.depth + 1 } →
      Run.Upholds C J E (d + 1) (·.Closures C)
        (enter self callee args { m with depth := m.depth + 1 })) :
    Run.Upholds C J E d (·.Closures C) (apply self callee args m) := by
  unfold apply
  by_cases hdepth : maxDepth ≤ m.depth
  · rw [if_pos hdepth]
    exact ⟨hm, hfail _ rfl⟩
  rw [if_neg hdepth]
  have hleft {m' : Machine H} (h : m'.Upholds C J (d + 1)) :
      Machine.Upholds C J d { m' with depth := m'.depth - 1 } :=
    ⟨h.store, h.host, by rw [h.depth]; rfl⟩
  have hr := henter (Nat.lt_of_not_le hdepth) ⟨hm.store, hm.host, by rw [hm.depth]⟩
  cases heq : enter self callee args { m with depth := m.depth + 1 } with
  | ok v m' =>
      rw [heq] at hr
      exact ⟨hleft hr.1, hr.2⟩
  | error e m' =>
      rw [heq] at hr
      exact ⟨hleft hr.1, hr.2⟩

end Visit

end BasicScript
