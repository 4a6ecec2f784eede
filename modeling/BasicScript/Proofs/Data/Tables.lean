import BasicScript.Proofs.Data.Alike

/-! # Tables as chains of bindings

The tables of a session form a forest that only grows at its leaves. A name means the binding of the
nearest table on the way out, whatever operations led there and through whichever handle. -/

namespace BasicScript

/-! ## Operations -/

/-- What can be done with tables, given handles to them. -/
inductive TableOp where
  | create
  | child (t : Scope)
  | clone (t : Scope)
  | parent (t : Scope)
  | set (t : Scope) (x : String) (v : Value)
  | remove (t : Scope) (x : String)

namespace TableOp

/-- The handle that an operation needs. -/
def handle? : TableOp → Option Scope
  | create => none
  | child t | clone t | parent t | set t _ _ | remove t _ => some t

/-- The value most recently set for a name in a table, unless it was removed since. The latest
operation comes first. -/
def lastSet (x : String) (k : Nat) : List TableOp → Option Value
  | [] => none
  | set t y v :: ops => if t.table = k ∧ y = x then some v else lastSet x k ops
  | remove t y :: ops => if t.table = k ∧ y = x then none else lastSet x k ops
  | create :: ops | child _ :: ops | clone _ :: ops | parent _ :: ops => lastSet x k ops

end TableOp

/-- A store, and the handles to its tables that were given out. -/
structure Tables where
  store : Store
  handles : List Scope

namespace Tables

/-- No tables yet. -/
def empty : Tables :=
  ⟨⟨#[], #[]⟩, []⟩

/-- The tables after an operation. A clone is the handle again. -/
def perform (w : Tables) : TableOp → Tables
  | .create => ⟨w.store.newScope.2, w.store.newScope.1 :: w.handles⟩
  | .child t => ⟨(w.store.child t).2, (w.store.child t).1 :: w.handles⟩
  | .clone t => ⟨w.store, t :: w.handles⟩
  | .parent t => ⟨w.store, t.parent?.toList ++ w.handles⟩
  | .set t x v => ⟨w.store.bind t x v, w.handles⟩
  | .remove t x => ⟨(w.store.remove t x).2, w.handles⟩

/-- A run of operations, the latest first, each on a handle that was given out before. -/
inductive Run (w : Tables) : List TableOp → Tables → Prop
  | done : Run w [] w
  | step {ops : List TableOp} {w' : Tables} {op : TableOp} (h : Run w ops w')
      (hop : ∀ t ∈ op.handle?, t ∈ w'.handles) : Run w (op :: ops) (w'.perform op)

theorem Run.append {w w' w'' : Tables} {ops ops' : List TableOp} (h : Run w ops w')
    (h' : Run w' ops' w'') : Run w (ops' ++ ops) w'' := by
  induction h' with
  | done => exact h
  | step _ hop ih => exact .step ih hop

end Tables

/-! ## Bindings -/

namespace Store

variable (s : Store)

theorem table_newScope (k : Nat) : s.newScope.2.table k = s.table k :=
  s.table_child .globals k

theorem names_sorted (scope : Scope) : (s.names scope).Pairwise (· < ·) := by
  have h : (s.names scope).Pairwise (compare · · = .lt) := Std.TreeMap.ordered_keys
  exact h.imp compareOfLessAndEq_eq_lt.mp

theorem mem_names (scope : Scope) (x : String) :
    x ∈ s.names scope ↔ (s.localValue scope x).isSome := by
  rw [names, Std.TreeMap.mem_keys, Std.TreeMap.mem_iff_isSome_getElem?, localValue]

theorem lookupIn_eq_findSome? (x : String) (ks : List Nat) :
    s.lookupIn x ks = ks.findSome? fun k => (s.table k)[x]? := by
  induction ks with
  | nil => rfl
  | cons k ks ih =>
      rw [lookupIn, List.findSome?_cons, ih]
      cases (s.table k)[x]? <;> rfl

theorem lookupIn_append (x : String) (ks ks' : List Nat) :
    s.lookupIn x (ks ++ ks') = (s.lookupIn x ks).or (s.lookupIn x ks') := by
  simp only [lookupIn_eq_findSome?, List.findSome?_append]

theorem lookupIn_congr {s s' : Store} {x : String} {ks : List Nat}
    (h : ∀ k ∈ ks, (s'.table k)[x]? = (s.table k)[x]?) : s'.lookupIn x ks = s.lookupIn x ks := by
  simp only [lookupIn_eq_findSome?]
  induction ks with
  | nil => rfl
  | cons k ks ih =>
      rw [List.findSome?_cons, List.findSome?_cons, h k List.mem_cons_self,
        ih fun j hj => h j (List.mem_cons_of_mem k hj)]

theorem lookupIn_eq_none {x : String} {ks : List Nat} (h : ∀ k ∈ ks, (s.table k)[x]? = none) :
    s.lookupIn x ks = none := by
  rw [lookupIn_eq_findSome?, List.findSome?_eq_none_iff]
  exact h

/-- A table is on the way out of a scope, and none nearer binds the name. -/
def Exposes (k : Nat) (x : String) (u : Scope) : Prop :=
  ∃ nearer further, u.chain = nearer ++ k :: further ∧ ∀ j ∈ nearer, (s.table j)[x]? = none

/-- A table that is not exposed in a scope is hidden by a nearer binding, if it is on the way out at
all. -/
theorem lookupIn_of_not_exposes {s s' : Store} {k : Nat} {x : String} {ks : List Nat}
    (hk : ∀ j, j ≠ k → (s'.table j)[x]? = (s.table j)[x]?)
    (h : ¬ ∃ nearer further, ks = nearer ++ k :: further ∧ ∀ j ∈ nearer, (s.table j)[x]? = none) :
    s'.lookupIn x ks = s.lookupIn x ks := by
  induction ks with
  | nil => rfl
  | cons j ks ih =>
      have hj : j ≠ k := by
        rintro rfl
        exact h ⟨[], ks, rfl, by simp⟩
      rw [lookupIn, lookupIn, hk j hj]
      cases hv : (s.table j)[x]? with
      | some v => rfl
      | none =>
          refine ih ?_
          rintro ⟨nearer, further, hks, hnone⟩
          refine h ⟨j :: nearer, further, ?_, ?_⟩
          · rw [hks, List.cons_append]
          · exact List.forall_mem_cons.mpr ⟨hv, hnone⟩

section

variable {s} {t u : Scope} {x y : String} {v : Value}

/-- A new binding is found wherever its table is exposed. -/
theorem lookup_bind_of_exposes (ht : t.table < s.tables.size) (h : s.Exposes t.table x u) :
    (s.bind t x v).lookup u x = some v := by
  obtain ⟨nearer, further, hchain, hnone⟩ := h
  rw [lookup, hchain]
  clear hchain
  induction nearer with
  | nil => rw [List.nil_append, lookupIn, table_bind_getElem?, if_pos ⟨rfl, ht, rfl⟩]
  | cons k nearer ih =>
      obtain ⟨hk, hnearer⟩ := List.forall_mem_cons.mp hnone
      rw [List.cons_append, lookupIn, table_bind_getElem?, hk, ih hnearer]
      by_cases hkt : t.table = k ∧ k < s.tables.size ∧ x = x
      · rw [if_pos hkt]
      · rw [if_neg hkt]

/-- No other lookup notices a new binding. -/
theorem lookup_bind_of_not (h : x = y → ¬ s.Exposes t.table x u) :
    (s.bind t x v).lookup u y = s.lookup u y := by
  by_cases hxy : x = y
  · subst hxy
    refine lookupIn_of_not_exposes (fun j hj => ?_) (h rfl)
    rw [table_bind_getElem?, if_neg fun hjt => hj hjt.1.symm]
  · refine lookupIn_congr fun k _ => ?_
    rw [table_bind_getElem?, if_neg fun hk => hxy hk.2.2]

/-- No other lookup notices that a binding is dropped. -/
theorem lookup_unbind_of_not (h : x = y → ¬ s.Exposes t.table x u) :
    (s.unbind t x).lookup u y = s.lookup u y := by
  by_cases hxy : x = y
  · subst hxy
    refine lookupIn_of_not_exposes (fun j hj => ?_) (h rfl)
    rw [table_unbind_getElem?, if_neg fun hjt => hj hjt.1.symm]
  · refine lookupIn_congr fun k _ => ?_
    rw [table_unbind_getElem?, if_neg fun hk => hxy hk.2]

end

end Store

/-! ## The forest -/

namespace Tables

open Store TableOp

/-- The handles belong to a forest: `outer` tells the tables around each table, all of which are
older. -/
structure Forest (outer : Nat → List Nat) (w : Tables) : Prop where
  older : ∀ k < w.store.tables.size, outer k = [] ∨ ∃ j < k, outer k = j :: outer j
  present : ∀ t ∈ w.handles, t.table < w.store.tables.size
  outer_eq : ∀ t ∈ w.handles, t.outer = outer t.table

namespace Forest

variable {outer : Nat → List Nat} {w w' : Tables} {op : TableOp} {t u : Scope}

theorem empty : Forest (fun _ => []) Tables.empty :=
  ⟨fun _ _ => .inl rfl, List.forall_mem_nil _, List.forall_mem_nil _⟩

theorem chain_eq (h : Forest outer w) (ht : t ∈ w.handles) :
    t.chain = t.table :: outer t.table := by
  rw [Scope.chain, h.outer_eq t ht]

theorem scope_eq (h : Forest outer w) (ht : t ∈ w.handles) : t = ⟨t.table, outer t.table⟩ := by
  rw [← h.outer_eq t ht]

/-- The tables around a table get older and older. -/
theorem descends (h : Forest outer w) {k : Nat} (hk : k < w.store.tables.size) :
    (k :: outer k).Pairwise (· > ·) := by
  induction k using Nat.strongRecOn with
  | ind k ih =>
      obtain hroot | ⟨j, hj, hchild⟩ := h.older k hk
      · rw [hroot]
        exact List.pairwise_singleton ..
      · have hjs := ih j hj (Nat.lt_trans hj hk)
        rw [hchild]
        refine List.pairwise_cons.mpr ⟨fun i hi => ?_, hjs⟩
        obtain rfl | hi := List.mem_cons.mp hi
        · exact hj
        · exact Nat.lt_trans ((List.pairwise_cons.mp hjs).1 i hi) hj

/-- What lies around a table is the same for all tables within it. -/
theorem further_eq (h : Forest outer w) {k j : Nat} {nearer further : List Nat}
    (hk : k < w.store.tables.size) (heq : k :: outer k = nearer ++ j :: further) :
    further = outer j := by
  induction nearer generalizing k with
  | nil =>
      obtain ⟨rfl, rfl⟩ := List.cons.inj heq
      rfl
  | cons i nearer ih =>
      obtain ⟨rfl, houter⟩ := List.cons.inj heq
      obtain hroot | ⟨i, hi, hchild⟩ := h.older k hk
      · rw [hroot] at houter
        simp at houter
      · rw [hchild] at houter
        exact ih (Nat.lt_trans hi hk) houter

/-- A new table, with nothing or with a table of the forest around it. -/
theorem push (h : Forest outer w) {ks : List Nat} {s : Store}
    (hsize : s.tables.size = w.store.tables.size + 1)
    (hks : ks = [] ∨ ∃ j < w.store.tables.size, ks = j :: outer j) :
    Forest (fun k => if k = w.store.tables.size then ks else outer k)
      ⟨s, ⟨w.store.tables.size, ks⟩ :: w.handles⟩ := by
  have hold : ∀ k < w.store.tables.size,
      (if k = w.store.tables.size then ks else outer k) = outer k :=
    fun k hk => if_neg (Nat.ne_of_lt hk)
  constructor
  case older =>
    intro k hk
    obtain hlt | rfl := Nat.lt_or_eq_of_le (Nat.le_of_lt_succ (hsize ▸ hk))
    · rw [hold k hlt]
      obtain hroot | ⟨j, hj, hchild⟩ := h.older k hlt
      · exact .inl hroot
      · exact .inr ⟨j, hj, by rw [hold j (Nat.lt_trans hj hlt), hchild]⟩
    · rw [if_pos rfl]
      obtain rfl | ⟨j, hj, rfl⟩ := hks
      · exact .inl rfl
      · exact .inr ⟨j, hj, by rw [hold j hj]⟩
  case present =>
    refine List.forall_mem_cons.mpr ⟨hsize ▸ Nat.lt_succ_self _, fun t ht => ?_⟩
    exact hsize ▸ Nat.lt_succ_of_lt (h.present t ht)
  case outer_eq =>
    refine List.forall_mem_cons.mpr ⟨(if_pos rfl).symm, fun t ht => ?_⟩
    rw [hold _ (h.present t ht), h.outer_eq t ht]

/-- What a forest says of a table, it says with the same tables around. -/
theorem of_size_eq (h : Forest outer w) {s : Store} {ts : List Scope}
    (hsize : s.tables.size = w.store.tables.size)
    (hts : ∀ t ∈ ts, t ∈ w.handles ∨ t.table < w.store.tables.size ∧ t.outer = outer t.table) :
    Forest outer ⟨s, ts⟩ := by
  have hts' : ∀ t ∈ ts, t.table < w.store.tables.size ∧ t.outer = outer t.table := fun t ht =>
    (hts t ht).elim (fun hw => ⟨h.present t hw, h.outer_eq t hw⟩) id
  exact ⟨fun k hk => h.older k (hsize ▸ hk), fun t ht => hsize ▸ (hts' t ht).1,
    fun t ht => (hts' t ht).2⟩

/-- The table next to a table on the way out. -/
theorem parent (h : Forest outer w) (ht : t ∈ w.handles) (hu : t.parent? = some u) :
    u.table < w.store.tables.size ∧ u.outer = outer u.table := by
  rw [Scope.parent?, h.outer_eq t ht] at hu
  obtain hroot | ⟨j, hj, hchild⟩ := h.older t.table (h.present t ht)
  · rw [hroot] at hu
    contradiction
  · rw [hchild] at hu
    obtain rfl := Option.some.inj hu
    exact ⟨Nat.lt_trans hj (h.present t ht), rfl⟩

/-- One operation lets a forest grow at most. -/
theorem perform (h : Forest outer w) (hop : ∀ t ∈ op.handle?, t ∈ w.handles) :
    ∃ outer', Forest outer' (w.perform op) := by
  cases op with
  | create => exact ⟨_, h.push (Array.size_push _) (.inl rfl)⟩
  | child t =>
      have ht := hop t rfl
      exact ⟨_, h.push (Array.size_push _) (.inr ⟨_, h.present t ht, h.chain_eq ht⟩)⟩
  | clone t =>
      refine ⟨outer, h.of_size_eq rfl fun u hu => .inl ?_⟩
      obtain rfl | hu := List.mem_cons.mp hu
      · exact hop u rfl
      · exact hu
  | parent t =>
      refine ⟨outer, h.of_size_eq rfl fun u hu => ?_⟩
      obtain hu | hu := List.mem_append.mp hu
      · exact .inr (h.parent (hop t rfl) (Option.mem_toList.mp hu))
      · exact .inl hu
  | set t x v => exact ⟨outer, h.of_size_eq Array.size_modify fun u => .inl⟩
  | remove t x => exact ⟨outer, h.of_size_eq Array.size_modify fun u => .inl⟩

end Forest

variable {ops : List TableOp} {w w' : Tables} {op : TableOp} {t u : Scope} {x : String}

theorem Run.forest (h : Run empty ops w) : ∃ outer, Forest outer w := by
  induction h with
  | done => exact ⟨_, Forest.empty⟩
  | step _ hop ih =>
      obtain ⟨outer, hforest⟩ := ih
      exact hforest.perform hop

/-- Handles stay good. -/
theorem Run.mem_handles (h : Run w ops w') (ht : t ∈ w.handles) : t ∈ w'.handles := by
  induction h with
  | done => exact ht
  | @step _ _ op _ _ ih =>
      cases op with
      | create | child | clone => exact List.mem_cons_of_mem _ ih
      | parent => exact List.mem_append_right _ ih
      | set | remove => exact ih

/-- The tables bind what was set and not removed. -/
theorem Run.recorded (h : Run empty ops w) (k : Nat) (x : String) :
    (w.store.table k)[x]? = lastSet x k ops := by
  induction h with
  | done =>
      rw [Store.table]
      exact Std.TreeMap.getElem?_emptyc
  | @step ops w op h hop ih =>
      cases op with
      | create => rw [Tables.perform, table_newScope, ih, lastSet]
      | child t => rw [Tables.perform, table_child, ih, lastSet]
      | clone | parent => exact ih
      | set t y v =>
          obtain ⟨outer, hforest⟩ := h.forest
          have hlt := hforest.present t (hop t rfl)
          rw [Tables.perform, table_bind_getElem?, ih, lastSet]
          by_cases hk : t.table = k
          · simp [← hk, hlt]
          · simp [hk]
      | remove t y =>
          rw [Tables.perform, Store.remove, table_unbind_getElem?, ih, lastSet]

/-! ## Nearest bindings -/

/-- What the tables answer after a run of operations, told by that run. -/
structure NearestBindings (ops : List TableOp) (w : Tables) : Prop where
  /-- The way out of a table goes through older and older tables, so it ends and has no cycles. -/
  descends : ∀ t ∈ w.handles, t.chain.Pairwise (· > ·)
  /-- A new table has nothing around it. -/
  created : w.store.newScope.1.chain = [w.store.tables.size]
  /-- A child has its parent's chain around it. -/
  born : ∀ t ∈ w.handles, (w.store.child t).1.chain = w.store.tables.size :: t.chain ∧
    (w.store.child t).1.parent? = some t
  /-- The chain of a table is settled, whatever happens later. -/
  lasting : ∀ ops' w', Run w ops' w' → ∀ t ∈ w.handles,
    t ∈ w'.handles ∧ ∀ u ∈ w'.handles, u.table = t.table → u.chain = t.chain
  /-- The handles of a table do not differ, so they all act on it. -/
  shared : ∀ t ∈ w.handles, ∀ u ∈ w.handles, u.table = t.table → u = t
  /-- The nearest binding is found, if there is one. -/
  lookup_eq : ∀ t ∈ w.handles, ∀ x,
    w.store.lookup t x = t.chain.findSome? fun k => lastSet x k ops
  /-- A new binding is found wherever its table is exposed. -/
  set_shown : ∀ t ∈ w.handles, ∀ u ∈ w.handles, ∀ x v, w.store.Exposes t.table x u →
    (w.perform (.set t x v)).store.lookup u x = some v
  /-- And from nowhere else. -/
  set_other : ∀ t ∈ w.handles, ∀ u ∈ w.handles, ∀ x v y,
    (x = y → ¬ w.store.Exposes t.table x u) →
    (w.perform (.set t x v)).store.lookup u y = w.store.lookup u y
  /-- A removal answers the table's own binding. -/
  remove_answer : ∀ t ∈ w.handles, ∀ x, (w.store.remove t x).1 = lastSet x t.table ops
  /-- It drops that binding and no other. -/
  remove_own : ∀ t ∈ w.handles, ∀ u ∈ w.handles, ∀ x y,
    (w.perform (.remove t x)).store.localValue u y =
      if t.table = u.table ∧ x = y then none else w.store.localValue u y
  /-- The next binding on the way out is found in its place. -/
  remove_shown : ∀ t ∈ w.handles, ∀ u ∈ w.handles, ∀ x, w.store.Exposes t.table x u →
    (w.perform (.remove t x)).store.lookup u x = t.parent?.bind (w.store.lookup · x)
  /-- No other lookup changes. -/
  remove_other : ∀ t ∈ w.handles, ∀ u ∈ w.handles, ∀ x y,
    (x = y → ¬ w.store.Exposes t.table x u) →
    (w.perform (.remove t x)).store.lookup u y = w.store.lookup u y
  /-- The names of a table are those it binds, in order and once each. -/
  names_sorted : ∀ t ∈ w.handles, (w.store.names t).Pairwise (· < ·)
  mem_names : ∀ t ∈ w.handles, ∀ x, x ∈ w.store.names t ↔ (lastSet x t.table ops).isSome

theorem lookup_parent (s : Store) (t : Scope) (x : String) :
    t.parent?.bind (s.lookup · x) = s.lookupIn x t.outer := by
  rw [Scope.parent?]
  cases t.outer <;> rfl

/-- Where a table is exposed, the binding around it is found once its own is dropped. -/
theorem Forest.lookup_remove {outer : Nat → List Nat} (h : Forest outer w) (ht : t ∈ w.handles)
    (hu : u ∈ w.handles) (hexposes : w.store.Exposes t.table x u) :
    (w.store.unbind t x).lookup u x = t.parent?.bind (w.store.lookup · x) := by
  obtain ⟨nearer, further, hchain, hnone⟩ := hexposes
  have hfurther : further = t.outer :=
    (h.further_eq (h.present u hu) (h.chain_eq hu ▸ hchain)).trans (h.outer_eq t ht).symm
  have hdescends := h.descends (h.present t ht)
  rw [← h.chain_eq ht, Scope.chain, List.pairwise_cons] at hdescends
  have hnearer : ∀ k ∈ nearer ++ [t.table], ((w.store.unbind t x).table k)[x]? = none := by
    intro k hk
    rw [table_unbind_getElem?]
    split
    · rfl
    · obtain hk | hk := List.mem_append.mp hk
      · exact hnone k hk
      · simp_all
  have houter : ∀ k ∈ t.outer, ((w.store.unbind t x).table k)[x]? = (w.store.table k)[x]? := by
    intro k hk
    rw [table_unbind_getElem?, if_neg fun hkt => Nat.ne_of_gt (hdescends.1 k hk) hkt.1]
  calc (w.store.unbind t x).lookup u x
      = (w.store.unbind t x).lookupIn x ((nearer ++ [t.table]) ++ t.outer) := by
        rw [lookup, hchain, hfurther, List.append_assoc, List.singleton_append]
    _ = (w.store.unbind t x).lookupIn x t.outer := by
        rw [lookupIn_append, lookupIn_eq_none _ hnearer, Option.none_or]
    _ = t.parent?.bind (w.store.lookup · x) := by
        rw [lookupIn_congr houter, lookup_parent]

theorem Run.nearestBindings (h : Run empty ops w) : NearestBindings ops w := by
  obtain ⟨outer, hforest⟩ := h.forest
  constructor
  case descends =>
    intro t ht
    rw [hforest.chain_eq ht]
    exact hforest.descends (hforest.present t ht)
  case created => rfl
  case born => exact fun t _ => ⟨rfl, rfl⟩
  case lasting =>
    intro ops' w' h' t ht
    obtain ⟨outer', hforest'⟩ := (h.append h').forest
    have ht' := h'.mem_handles ht
    refine ⟨ht', fun u hu htable => ?_⟩
    rw [hforest'.chain_eq hu, hforest'.chain_eq ht', htable]
  case shared =>
    intro t ht u hu htable
    rw [hforest.scope_eq hu, hforest.scope_eq ht, htable]
  case lookup_eq =>
    intro t _ x
    simp only [lookup, lookupIn_eq_findSome?, h.recorded]
  case set_shown =>
    exact fun t ht u _ x v hexposes => lookup_bind_of_exposes (hforest.present t ht) hexposes
  case set_other => exact fun t _ u _ x v y hnot => lookup_bind_of_not hnot
  case remove_answer => exact fun t _ x => h.recorded t.table x
  case remove_own => exact fun t _ u _ x y => table_unbind_getElem? _ t x u.table y
  case remove_shown => exact fun t ht u hu x hexposes => hforest.lookup_remove ht hu hexposes
  case remove_other => exact fun t _ u _ x y hnot => lookup_unbind_of_not hnot
  case names_sorted => exact fun t _ => w.store.names_sorted t
  case mem_names =>
    intro t _ x
    rw [w.store.mem_names, localValue, h.recorded]

/-- A name bound to zero, hidden in a child for a while, means zero again there. -/
theorem nearestBindings_hidden_zero :
    let outer : Scope := ⟨0, []⟩
    let inner : Scope := ⟨1, [0]⟩
    let ops : List TableOp := [.parent inner, .remove inner "x", .set inner "x" (.ofInt 1),
      .clone inner, .child outer, .set outer "x" .null, .create]
    ∃ w, Run empty ops w ∧ NearestBindings ops w ∧ w.store.lookup inner "x" = some .null := by
  intro outer inner ops
  have hrun : Run empty ops (ops.foldr (fun op w => w.perform op) empty) := by
    refine .step (.step (.step (.step (.step (.step (.step .done ?_) ?_) ?_) ?_) ?_) ?_) ?_ <;>
      rintro t ⟨⟩ <;> decide
  have hbindings := hrun.nearestBindings
  refine ⟨_, hrun, hbindings, ?_⟩
  rw [hbindings.lookup_eq inner (by decide)]
  rfl

end Tables

end BasicScript
