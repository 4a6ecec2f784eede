import BasicScript.Proofs.Evaluation.Footprint

/-! # Scopes do not leak

A node binds names in its own scope only, and a call in none of those that were there before. The
globals are the scope of the scripts that `RUN` includes as well. -/

namespace BasicScript

variable {H : Type}

/-- Every table that was there keeps its bindings, those in `own` apart, and the globals apart if
`RUN` is called. -/
def Machine.Keeps (own : Nat → Prop) (m m' : Machine H) : Prop :=
  m.store.tables.size ≤ m'.store.tables.size ∧
  ∃ events, m'.log = events ++ m.log ∧
    ∀ t < m.store.tables.size, ¬own t → (t = 0 → ∀ n, Event.calling .run n ∉ events) →
      m'.store.table t = m.store.table t

/-! ## Tables -/

namespace Store

variable (s : Store)

theorem table_of_tables_eq {s s' : Store} (h : s'.tables = s.tables) (t : Nat) :
    s'.table t = s.table t := by
  rw [table, h, table]

theorem table_bind_of_ne (scope : Scope) (x : String) (v : Value) {t : Nat} (h : t ≠ scope.table) :
    (s.bind scope x v).table t = s.table t := by
  simp only [table, bind, Array.getElem?_modify, if_neg (Ne.symm h)]

theorem size_tables_bind (scope : Scope) (x : String) (v : Value) :
    (s.bind scope x v).tables.size = s.tables.size := by
  simp [bind]

theorem table_bindAll_of_ne (scope : Scope) (xs : List String) (vs : List Value) {t : Nat}
    (h : t ≠ scope.table) : (s.bindAll scope xs vs).table t = s.table t := by
  induction xs generalizing s vs with
  | nil => rfl
  | cons x xs ih =>
      cases vs with
      | nil => rfl
      | cons v vs => rw [bindAll, ih, table_bind_of_ne s scope x v h]

theorem size_tables_bindAll (scope : Scope) (xs : List String) (vs : List Value) :
    (s.bindAll scope xs vs).tables.size = s.tables.size := by
  induction xs generalizing s vs with
  | nil => rfl
  | cons x xs ih =>
      cases vs with
      | nil => rfl
      | cons v vs => rw [bindAll, ih, size_tables_bind]

theorem table_child_of_lt (scope : Scope) {t : Nat} (h : t < s.tables.size) :
    (s.child scope).2.table t = s.table t := by
  simp only [table, child, Array.getElem?_push_lt h, Array.getElem?_eq_getElem h]

end Store

/-! ## What keeps the tables -/

namespace Machine.Keeps

variable {own : Nat → Prop} {m m' m'' : Machine H}

/-- Nothing happens to the tables, nor does the log tell of any call. -/
theorem of_tables_eq (ht : m'.store.tables = m.store.tables) (hl : m'.log = m.log) :
    Keeps own m m' :=
  ⟨Nat.le_of_eq (by rw [ht]), [], hl, fun t _ _ _ => Store.table_of_tables_eq ht t⟩

theorem refl (m : Machine H) : Keeps own m m :=
  of_tables_eq rfl rfl

theorem trans (h : Keeps own m m') (h' : Keeps own m' m'') : Keeps own m m'' := by
  obtain ⟨hsize, events, hlog, hkeep⟩ := h
  obtain ⟨hsize', events', hlog', hkeep'⟩ := h'
  refine ⟨Nat.le_trans hsize hsize', events' ++ events, ?_, fun t ht hown hrun => ?_⟩
  · rw [hlog', hlog, List.append_assoc]
  · simp only [List.mem_append, not_or] at hrun
    rw [hkeep' t (Nat.lt_of_lt_of_le ht hsize) hown fun h0 n => (hrun h0 n).1,
      hkeep t ht hown fun h0 n => (hrun h0 n).2]

theorem motion : Motion (Keeps (H := H) own) where
  refl := refl
  trans := trans

theorem mono {own' : Nat → Prop} (h : Keeps own m m') (hown : ∀ t, own t → own' t) :
    Keeps own' m m' := by
  obtain ⟨hsize, events, hlog, hkeep⟩ := h
  exact ⟨hsize, events, hlog, fun t ht hown' => hkeep t ht fun h => hown' (hown t h)⟩

theorem note (e : Event) (m : Machine H) : Keeps own m { m with log := e :: m.log } :=
  ⟨Nat.le_refl _, [e], rfl, fun _ _ _ _ => rfl⟩

theorem builtinMotion : BuiltinMotion (Keeps (H := H) own) where
  toMotion := motion
  host _ _ := of_tables_eq rfl rfl
  note m e := note e m
  modifyList _ _ _ := of_tables_eq rfl rfl

/-- A node in `env` binds names in the scope of `env` only. -/
theorem nodeMotion (env : Env) : NodeMotion (Keeps (H := H) (· = env.scope.table)) env where
  toMotion := motion
  newList m xs := of_tables_eq rfl rfl
  bind m x v := by
    have hsize := m.store.size_tables_bind env.scope x v
    refine ⟨Nat.le_of_eq hsize.symm, [], rfl, fun t _ hown _ => ?_⟩
    exact m.store.table_bind_of_ne env.scope x v hown

end Machine.Keeps

open Machine (Keeps)

/-! ## Calls -/

section

variable [Host H] {self : Visit H}
  (hself : ∀ node env, Moves (Keeps (· = env.scope.table)) (self node env))

include hself

omit [Host H] in
/-- A program binds names in the globals. -/
theorem runSource_keeps (source : Source) : Moves (Keeps (· = 0)) (Visit.runSource self source) :=
  Keeps.builtinMotion.runSource_moves (fun program => hself program Visit.programEnv) source

omit [Host H] in
/-- The scope of a call is new. -/
theorem callClosure_keeps (callee : Value) (f : Closure) (args : List Value) :
    Moves (Keeps fun _ => False) (Visit.callClosure self callee f args) := by
  refine .bind Keeps.motion (.checkCount Keeps.motion _ _ _) fun _ =>
    .bind Keeps.motion (Keeps.builtinMotion.note_moves _) fun _ => ?_
  intro m
  -- the body starts with the scope made and the parameters bound
  let scope := (m.store.child f.scope).1
  let store := (m.store.child f.scope).2.bindAll scope f.params args
  have hsize : store.tables.size = m.store.tables.size + 1 := by
    simp only [store, Store.size_tables_bindAll]
    exact Array.size_push _
  obtain ⟨hgrow, events, hlog, hkeep⟩ := (hself f.body ⟨scope, Visit.entered callee f.name⟩).toRun
    (Visit.entered callee f.name) (fun v => if f.arrow then v else .null) { m with store }
  have hle : m.store.tables.size ≤ store.tables.size := by omega
  refine ⟨Nat.le_trans hle hgrow, events, hlog, fun t ht _ hrun => ?_⟩
  have hne : t ≠ scope.table := Nat.ne_of_lt ht
  calc
    Store.table _ t = store.table t := hkeep t (Nat.lt_of_lt_of_le ht hle) hne hrun
    _ = (m.store.child f.scope).2.table t := Store.table_bindAll_of_ne _ scope _ _ hne
    _ = m.store.table t := Store.table_child_of_lt _ _ ht

/-- A built-in function binds no names, but a script that `RUN` includes binds globals. -/
theorem callBuiltin_keeps (callee : Value) (b : Builtin) (args : List Value) :
    Moves (Keeps fun _ => False) (Visit.callBuiltin self callee b args) := by
  refine .bind Keeps.motion (.checkCount Keeps.motion _ _ _) fun _ => ?_
  by_cases hb : b = .run
  · subst hb
    intro m
    let called : Event := .calling .run args.length
    obtain ⟨hgrow, events, hlog, hkeep⟩ :=
      Keeps.builtinMotion.execute_moves (fun _ => Keeps.builtinMotion.modifyList)
        (fun _ => runSource_keeps hself)
        ⟨callee.span, Visit.entered callee Builtin.run.name⟩ args
        { m with log := called :: m.log }
    refine ⟨hgrow, events ++ [called], by rw [List.append_assoc]; exact hlog, fun t ht _ hrun => ?_⟩
    -- the log tells of the call, so the globals are not asked for
    have hne : t ≠ 0 := fun h0 => hrun h0 args.length (by simp [called])
    exact hkeep t ht hne fun h0 => absurd h0 hne
  · exact .bind Keeps.motion (Keeps.builtinMotion.note_moves _) fun _ =>
      Keeps.builtinMotion.execute_moves (fun _ => Keeps.builtinMotion.modifyList)
        (fun h => absurd h hb) _ _

theorem apply_keeps (callee : Value) (args : List Value) :
    Moves (Keeps fun _ => False) (Visit.apply self callee args) := by
  have henter : Moves (Keeps fun _ => False) (Visit.enter self callee args) := by
    unfold Visit.enter
    split
    · exact callClosure_keeps hself callee _ args
    · exact callBuiltin_keeps hself callee _ args
    · exact .run_fail Keeps.motion _
  intro m
  unfold Visit.apply
  split
  · exact Keeps.refl m
  · -- the depth is no part of what is kept
    have hm := henter { m with depth := m.depth + 1 }
    split <;> rename_i hr <;> rw [hr] at hm <;> exact hm

end

theorem visit_keeps [Host H] (n : Nat) (node : Node) (env : Env) :
    Moves (Keeps (H := H) (· = env.scope.table)) (visit n node env) := by
  induction n generalizing node env with
  | zero => exact .throw Keeps.motion _
  | succ n ih =>
      have hcall (callee : Value) (args : List Value) :
          Moves (Keeps (H := H) (· = env.scope.table)) (Visit.apply (visit n) callee args) :=
        (apply_keeps ih callee args).mono fun h => h.mono fun _ => False.elim
      exact (Keeps.nodeMotion env).step_moves (fun node => ih node env) hcall n node

/-- The evaluation of a node, however it ends, binds names in no scope that was there before but its
own, and a call in none at all; only `RUN` binds globals. -/
theorem scopes_do_not_leak [Host H] (n : Nat) :
    (∀ node env (m : Machine H),
      m.Keeps (· = env.scope.table) (Machine.ofResult (visit n node env m))) ∧
    ∀ callee args (m : Machine H),
      m.Keeps (fun _ => False) (Machine.ofResult (Visit.apply (visit n) callee args m)) :=
  ⟨visit_keeps n, apply_keeps (visit_keeps n)⟩

/-! ## Names that are bound stay bound -/

/-- A name that is bound in a table stays bound there, whatever to. -/
def Machine.KeepsNames (m m' : Machine H) : Prop :=
  ∀ (t : Nat) (x : String), (m.store.table t)[x]?.isSome → (m'.store.table t)[x]?.isSome

namespace Machine.KeepsNames

variable {m m' : Machine H}

theorem of_tables_eq (h : m'.store.tables = m.store.tables) : m.KeepsNames m' := by
  intro t x hx
  rwa [Store.table_of_tables_eq h]

theorem bind (m : Machine H) (scope : Scope) (x : String) (v : Value) :
    m.KeepsNames { m with store := m.store.bind scope x v } := by
  intro t y hy
  by_cases ht : t = scope.table
  · subst ht
    have hinsert : (m.store.bind scope x v).table scope.table =
        (m.store.table scope.table).insert x v := by
      rcases Nat.lt_or_ge scope.table m.store.tables.size with hlt | hge
      · simp only [Store.table, Store.bind, Array.getElem?_modify, if_true,
          Array.getElem?_eq_getElem hlt]
        rfl
      · simp [Store.table, hge] at hy
    rw [hinsert, Std.TreeMap.getElem?_insert]
    split
    · rfl
    · exact hy
  · rwa [Store.table_bind_of_ne _ _ _ _ ht]

theorem child (m : Machine H) (scope : Scope) :
    m.KeepsNames { m with store := (m.store.child scope).2 } := by
  intro t x hx
  rcases Nat.lt_or_ge t m.store.tables.size with ht | ht
  · rwa [Store.table_child_of_lt _ _ ht]
  · simp [Store.table, ht] at hx

theorem callMotion : CallMotion (KeepsNames (H := H)) where
  refl _ := fun _ _ => id
  trans h h' := fun t x hx => h' t x (h t x hx)
  note _ _ _ := of_tables_eq rfl
  newList _ _ := of_tables_eq rfl
  modifyList _ _ _ := of_tables_eq rfl
  bind := bind
  child := child
  depth _ _ := of_tables_eq rfl

theorem builtinMotion : BuiltinMotion (KeepsNames (H := H)) where
  toMotion := callMotion.toMotion
  host _ _ := of_tables_eq rfl
  note _ _ := of_tables_eq rfl
  modifyList := callMotion.modifyList

theorem hostCalls [Host H] : HostCalls (KeepsNames (H := H)) := by
  intro b hb m runSource site args _
  have hrun : b ≠ .run := by
    rintro rfl
    cases hb
  exact builtinMotion.trans (builtinMotion.note m _) (builtinMotion.execute_moves
    (fun _ => builtinMotion.modifyList) (fun h => absurd h hrun) site args _)

end Machine.KeepsNames

end BasicScript
