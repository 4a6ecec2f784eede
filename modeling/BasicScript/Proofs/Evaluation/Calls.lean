import BasicScript.Evaluation.Visit
import BasicScript.Proofs.Sequencing

/-! # What a call comes down to

A call with the right number of arguments is the evaluation of a body in a scope of its own, or a
built-in function carried out, on a machine that counts one call more. A program that is run is
evaluated if it can be read. -/

namespace BasicScript

variable {H α : Type}

/-! ## Files -/

/-- A host that is asked for a file stays as it is. -/
theorem Run.load_of_ask [Host H] {m m' : Machine H}
    {onFault : Host.Fault → Diagnostic} {path text : String}
    (h : Run.ask onFault (fun h => (Host.load h path, h)) m = .ok text m') :
    Host.load m.host path = .answer text ∧ m' = m := by
  unfold Run.ask at h
  split at h
  · rename_i hload
    cases h
    rcases Prod.mk.inj hload with ⟨hanswer, rfl⟩
    exact ⟨hanswer, rfl⟩
  · cases h
  · cases h

theorem Run.ask_of_load [Host H] {m : Machine H} {path text : String}
    (h : Host.load m.host path = .answer text) (onFault : Host.Fault → Diagnostic) :
    Run.ask onFault (fun h => (Host.load h path, h)) m = .ok text m := by
  rw [Run.ask, h]

theorem Builtin.runFile_of_load [Host H] {runSource : Source → Run H Value} {site : CallSite}
    {path text : String} {m : Machine H} (hload : Host.load m.host path = .answer text) :
    runFile runSource site path m =
      ((runSource ⟨path, text⟩).mapFailure (scriptFailure site path) >>= fun _ => return .null)
        { m with log := .including path :: m.log } := by
  rw [runFile, bind_of_ok (Run.ask_of_load hload _)]
  rfl

/-! ## Values inside a node -/

namespace Eval

variable {m m' : Machine H} {a : α}

theorem ok_of_operation {o : Operation α} (h : operation o m = .ok a m') :
    ∃ s, o m.store = .ok a s ∧ m' = { m with store := s } := by
  unfold operation at h
  split at h
  · cases h
    exact ⟨_, ‹_›, rfl⟩
  · cases h

theorem ok_of_ofRun {r : Run H α} (h : ofRun r m = .ok a m') : r m = .ok a m' := by
  unfold ofRun at h
  split at h
  · cases h
    assumption
  · cases h

end Eval

namespace Visit

variable {self : Visit H} {callee : Value} {args : List Value} {m m' : Machine H} {v : Value}

theorem ok_of_binary {env : Env} {op : BinaryOp} {l r : Node} {span : Span}
    (h : binary self env op l r span m = .ok v m') :
    ∃ a m₁ b m₂ w s, self l env m = .ok a m₁ ∧ self r env m₁ = .ok b m₂ ∧
      Operation.binary op a b m₂.store = .ok w s ∧ v = w.withSpan span ∧
      m' = { m₂ with store := s } := by
  obtain ⟨a, m₁, ha, h⟩ := ok_of_bind h
  obtain ⟨b, m₂, hb, h⟩ := ok_of_bind h
  obtain ⟨w, m₃, hw, h⟩ := ok_of_bind h
  cases h
  obtain ⟨s, hs, rfl⟩ := Eval.ok_of_operation hw
  exact ⟨a, m₁, b, m₂, w, s, ha, hb, hs, rfl, rfl⟩

/-! ## Calls -/

theorem checkCount_of_eq {expected got : Nat} (h : expected = got) :
    checkCount callee expected got m = .ok () m := by
  rw [checkCount, if_pos h]
  rfl

theorem eq_of_checkCount {expected got : Nat} (h : checkCount callee expected got m = .ok () m') :
    expected = got := by
  unfold checkCount at h
  split at h
  · assumption
  · cases h

/-- The machine on which the body of a function starts, when the call is counted. -/
def bodyMachine (f : Closure) (args : List Value) (m : Machine H) : Machine H :=
  { m with
    store := (m.store.child f.scope).2.bindAll (m.store.child f.scope).1 f.params args
    log := .entering f.name args.length :: m.log }

/-- Where the body of a function is evaluated, when the call is made on `m`. -/
def bodyEnv (callee : Value) (f : Closure) (m : Machine H) : Env :=
  ⟨(m.store.child f.scope).1, entered callee f.name⟩

theorem callClosure_of_eq {f : Closure} (h : f.params.length = args.length) :
    callClosure self callee f args m =
      (self f.body (bodyEnv callee f m)).toRun (entered callee f.name)
        (fun v => if f.arrow then v else .null) (bodyMachine f args m) := by
  rw [callClosure, bind_of_ok (checkCount_of_eq h)]
  rfl

theorem runSource_of_ok {source : Source} {x : Node} (h : Node.ofSource source = .ok x) :
    runSource self source m =
      runProgram self source.name x { m with log := .started source.name :: m.log } := by
  rw [runSource, h]
  rfl

/-- A program that cannot be read is only noted. -/
theorem runSource_of_error {source : Source} {d : Diagnostic}
    (h : Node.ofSource source = .error d) :
    runSource self source m =
      .error (.failure d) { m with log := .started source.name :: m.log } := by
  rw [runSource, h]
  rfl

variable [Host H]

theorem callBuiltin_of_eq {b : Builtin} (h : b.params.length = args.length) :
    callBuiltin self callee b args m =
      b.execute (runSource self) ⟨callee.span, entered callee b.name⟩ args
        { m with log := .calling b args.length :: m.log } := by
  rw [callBuiltin, bind_of_ok (checkCount_of_eq h)]
  rfl

theorem enter_of_function {f : Closure} (h : callee.datum = .function f) :
    enter self callee args = callClosure self callee f args := by
  rw [enter, h]

theorem enter_of_builtin {b : Builtin} (h : callee.datum = .builtin b) :
    enter self callee args = callBuiltin self callee b args := by
  rw [enter, h]

/-- A call that yields a value is made inside, one level deeper. -/
theorem enter_of_apply (h : apply self callee args m = .ok v m') :
    ∃ m₁, enter self callee args { m with depth := m.depth + 1 } = .ok v m₁ ∧
      m' = { m₁ with depth := m₁.depth - 1 } := by
  unfold apply at h
  split at h
  · cases h
  · split at h
    · cases h
      exact ⟨_, ‹_›, rfl⟩
    · cases h

/-- A function that yields a value yields that of its body, or of a `RETURN` in it. -/
theorem body_of_apply {f : Closure} (hcallee : callee.datum = .function f)
    (h : apply self callee args m = .ok v m') :
    ∃ m₁, m' = { m₁ with depth := m₁.depth - 1 } ∧
      (self f.body (bodyEnv callee f m) (bodyMachine f args { m with depth := m.depth + 1 }) =
        .error (.returned v) m₁ ∨
      ∃ w, self f.body (bodyEnv callee f m)
        (bodyMachine f args { m with depth := m.depth + 1 }) = .ok w m₁ ∧
        v = if f.arrow then w else .null) := by
  obtain ⟨m₁, henter, hm'⟩ := enter_of_apply h
  refine ⟨m₁, hm', ?_⟩
  rw [enter_of_function hcallee] at henter
  have hcount : f.params.length = args.length := by
    obtain ⟨⟨⟩, m₂, hcheck, -⟩ := ok_of_bind henter
    exact eq_of_checkCount hcheck
  rw [callClosure_of_eq hcount] at henter
  unfold Eval.toRun at henter
  split at henter
  · rename_i hbody
    cases henter
    exact .inr ⟨_, hbody, rfl⟩
  · rename_i hbody
    cases henter
    exact .inl hbody
  all_goals cases henter

theorem execute_of_apply {b : Builtin} (hcallee : callee.datum = .builtin b)
    (h : apply self callee args m = .ok v m') :
    ∃ m₁, m' = { m₁ with depth := m₁.depth - 1 } ∧
      b.execute (runSource self) ⟨callee.span, entered callee b.name⟩ args
        { m with depth := m.depth + 1, log := .calling b args.length :: m.log } = .ok v m₁ := by
  obtain ⟨m₁, henter, hm'⟩ := enter_of_apply h
  refine ⟨m₁, hm', ?_⟩
  rw [enter_of_builtin hcallee] at henter
  have hcount : b.params.length = args.length := by
    obtain ⟨⟨⟩, m₂, hcheck, -⟩ := ok_of_bind henter
    exact eq_of_checkCount hcheck
  rwa [callBuiltin_of_eq hcount] at henter

end Visit

end BasicScript
