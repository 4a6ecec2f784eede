import BasicScript.Proofs.Data.Alike

/-! # The functions that a store holds

What holds of every function that a name is bound to or a list holds goes on to hold while values
are only passed on and combined. -/

namespace BasicScript

variable {C C' : Closure → Prop}

def Datum.isFunction : Datum → Bool
  | .function _ => true
  | _ => false

/-- If the value is a function, `C` holds of it. -/
def Value.Closures (C : Closure → Prop) (v : Value) : Prop :=
  ∀ f, v.datum = .function f → C f

/-- `C` holds of the functions that names are bound to and of those that lists hold. -/
structure Store.Closures (C : Closure → Prop) (s : Store) : Prop where
  bindings : ∀ (t : Nat) (x : String), ∀ v ∈ (s.table t)[x]?, v.Closures C
  elements : ∀ l, ∀ v ∈ s.elements l, v.Closures C

namespace Store

variable (s : Store)

theorem elements_modifyList {l : ListRef} (hl : l.index < s.lists.size)
    (f : Array Value → Array Value) (k : ListRef) :
    (s.modifyList l f).elements k = if k = l then f (s.elements l) else s.elements k := by
  by_cases hk : k = l
  · subst hk
    simp [elements, modifyList, Array.getElem?_modify, Array.getElem?_eq_getElem hl]
  · have hindex : l.index ≠ k.index := by
      intro heq
      cases l
      cases k
      exact hk (congrArg ListRef.mk heq.symm)
    simp [elements, modifyList, Array.getElem?_modify, hindex, hk]

/-- A list that is not there cannot be changed. -/
theorem modifyList_of_size_le {l : ListRef} (hl : s.lists.size ≤ l.index)
    (f : Array Value → Array Value) : s.modifyList l f = s := by
  have hlists : s.lists.modify l.index f = s.lists := by
    apply Array.ext_getElem?
    intro i
    rw [Array.getElem?_modify]
    split
    · subst_vars
      rw [Array.getElem?_eq_none hl]
      rfl
    · rfl
  rw [modifyList, hlists]

end Store

namespace Value.Closures

variable {v : Value}

theorem of_datum_eq {w : Value} (h : v.Closures C) (hd : w.datum = v.datum) : w.Closures C :=
  fun f hf => h f (hd.symm.trans hf)

theorem of_not_function (h : v.datum.isFunction = false) : v.Closures C := by
  intro f hf
  rw [hf] at h
  cases h

theorem mono (h : v.Closures C) (hC : ∀ f, C f → C' f) : v.Closures C' :=
  fun f hf => hC f (h f hf)

theorem getD {xs : Array Value} (h : ∀ v ∈ xs, v.Closures C) (p : Nat) :
    (xs[p]?.getD default).Closures C := by
  cases hp : xs[p]? with
  | none => exact of_not_function rfl
  | some v => exact h v (Array.mem_of_getElem? hp)

theorem eraseIdx {xs : Array Value} (h : ∀ v ∈ xs, v.Closures C) (p : Nat) :
    ∀ v ∈ xs.eraseIdxIfInBounds p, v.Closures C := by
  intro v hv
  rw [← Array.mem_toList_iff, Array.toList_eraseIdxIfInBounds] at hv
  exact h v (Array.mem_toList_iff.mp (List.mem_of_mem_eraseIdx hv))

theorem append {xs ys : Array Value} (h : ∀ v ∈ xs, v.Closures C) (h' : ∀ v ∈ ys, v.Closures C) :
    ∀ v ∈ xs ++ ys, v.Closures C :=
  fun v hv => (Array.mem_append.mp hv).elim (h v) (h' v)

theorem push {xs : Array Value} (h : ∀ v ∈ xs, v.Closures C) (hv : v.Closures C) :
    ∀ w ∈ xs.push v, w.Closures C := by
  intro w hw
  rcases Array.mem_push.mp hw with hw | rfl
  · exact h w hw
  · exact hv

end Value.Closures

namespace Store.Closures

variable {s : Store}

theorem mono (h : s.Closures C) (hC : ∀ f, C f → C' f) : s.Closures C' where
  bindings t x v hv := (h.bindings t x v hv).mono hC
  elements l v hv := (h.elements l v hv).mono hC

theorem and (h : s.Closures C) (h' : s.Closures C') : s.Closures fun f => C f ∧ C' f where
  bindings t x v hv f hf := ⟨h.bindings t x v hv f hf, h'.bindings t x v hv f hf⟩
  elements l v hv f hf := ⟨h.elements l v hv f hf, h'.elements l v hv f hf⟩

theorem lookup (h : s.Closures C) (scope : Scope) (x : String) :
    ∀ v ∈ s.lookup scope x, v.Closures C := by
  unfold Store.lookup
  induction scope.chain with
  | nil => exact fun v hv => nomatch hv
  | cons t r ih =>
      intro v hv
      rw [lookupIn] at hv
      cases ht : (s.table t)[x]? with
      | none =>
          rw [ht] at hv
          exact ih v hv
      | some w =>
          rw [ht] at hv
          cases hv
          exact h.bindings t x v ht

theorem bind (h : s.Closures C) (scope : Scope) (x : String) {v : Value} (hv : v.Closures C) :
    (s.bind scope x v).Closures C where
  bindings t y w hw := by
    rw [table_bind_getElem?] at hw
    split at hw
    · cases hw
      exact hv
    · exact h.bindings t y w hw
  elements := h.elements

theorem bindAll (h : s.Closures C) (scope : Scope) (xs : List String) {vs : List Value}
    (hvs : ∀ v ∈ vs, v.Closures C) : (s.bindAll scope xs vs).Closures C := by
  induction xs generalizing s vs with
  | nil => exact h
  | cons x xs ih =>
      cases vs with
      | nil => exact h
      | cons v vs =>
          obtain ⟨hv, hvs⟩ := List.forall_mem_cons.mp hvs
          exact ih (h.bind scope x hv) hvs

theorem unbind (h : s.Closures C) (scope : Scope) (x : String) : (s.unbind scope x).Closures C where
  bindings t y v hv := by
    rw [table_unbind_getElem?] at hv
    split at hv
    · cases hv
    · exact h.bindings t y v hv
  elements := h.elements

theorem child (h : s.Closures C) (scope : Scope) : (s.child scope).2.Closures C where
  bindings t x v hv := by
    rw [table_child] at hv
    exact h.bindings t x v hv
  elements := h.elements

theorem newList (h : s.Closures C) {xs : Array Value} (hxs : ∀ v ∈ xs, v.Closures C) :
    (s.newList xs).2.Closures C where
  bindings := h.bindings
  elements l v hv := by
    by_cases hl : l.index = s.lists.size
    · have hnew : l = (s.newList xs).1 := by
        cases l
        exact congrArg ListRef.mk hl
      rw [hnew, elements_newList] at hv
      exact hxs v hv
    · rw [Store.elements, newList_getElem? s xs hl] at hv
      exact h.elements l v hv

theorem modifyList (h : s.Closures C) (l : ListRef) {f : Array Value → Array Value}
    (hf : ∀ v ∈ f (s.elements l), v.Closures C) : (s.modifyList l f).Closures C where
  bindings := h.bindings
  elements k v hv := by
    by_cases hl : l.index < s.lists.size
    · rw [elements_modifyList s hl] at hv
      split at hv
      · exact hf v hv
      · exact h.elements k v hv
    · rw [modifyList_of_size_le s (Nat.le_of_not_lt hl)] at hv
      exact h.elements k v hv

end Store.Closures

/-! ## Bounds -/

theorem exists_forall_le {α : Type} (g : α → Nat) (xs : List α) :
    ∃ bound, ∀ x ∈ xs, g x ≤ bound := by
  induction xs with
  | nil => exact ⟨0, nofun⟩
  | cons x xs ih =>
      obtain ⟨bound, hxs⟩ := ih
      refine ⟨max (g x) bound, List.forall_mem_cons.mpr ⟨Nat.le_max_left _ _, fun y hy => ?_⟩⟩
      exact Nat.le_trans (hxs y hy) (Nat.le_max_right _ _)

theorem Value.exists_closures_le (g : Closure → Nat) (vs : List Value) :
    ∃ bound, ∀ v ∈ vs, v.Closures fun f => g f ≤ bound := by
  let ofValue (v : Value) : Nat :=
    match v.datum with
    | .function f => g f
    | _ => 0
  obtain ⟨bound, hbound⟩ := exists_forall_le ofValue vs
  refine ⟨bound, fun v hv f hf => ?_⟩
  have hle := hbound v hv
  simpa only [ofValue, hf] using hle

/-- A store holds finitely many functions. -/
theorem Store.exists_closures_le (g : Closure → Nat) (s : Store) :
    ∃ bound, s.Closures fun f => g f ≤ bound := by
  obtain ⟨b, hb⟩ := Value.exists_closures_le g
    (s.tables.toList.flatMap fun t => t.toList.map (·.2))
  obtain ⟨b', hb'⟩ := Value.exists_closures_le g (s.lists.toList.flatMap (·.toList))
  refine ⟨max b b', fun t x v hv => ?_, fun l v hv => ?_⟩
  · refine (hb v ?_).mono fun f hf => Nat.le_trans hf (Nat.le_max_left _ _)
    rw [table] at hv
    cases ht : s.tables[t]? with
    | none =>
        rw [ht] at hv
        simp at hv
    | some table =>
        rw [ht] at hv
        refine List.mem_flatMap.mpr ⟨table, ?_, List.mem_map.mpr ⟨(x, v), ?_, rfl⟩⟩
        · exact Array.mem_toList_iff.mpr (Array.mem_of_getElem? ht)
        · exact Std.TreeMap.mem_toList_iff_getElem?_eq_some.mpr hv
  · refine (hb' v ?_).mono fun f hf => Nat.le_trans hf (Nat.le_max_right _ _)
    rw [elements] at hv
    cases hl : s.lists[l.index]? with
    | none =>
        rw [hl] at hv
        simp at hv
    | some xs =>
        rw [hl] at hv
        refine List.mem_flatMap.mpr ⟨xs, ?_, Array.mem_toList_iff.mpr hv⟩
        exact Array.mem_toList_iff.mpr (Array.mem_of_getElem? hl)

end BasicScript
