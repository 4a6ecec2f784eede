import BasicScript.Data.Store
import BasicScript.Proofs.Program.Alike

/-! # Values and stores up to places

Two values are alike when they differ in nothing but the places and frames they carry. The lists of
two stores need not be numbered alike, so a relation `ρ` tells which list stands for which. -/

theorem Option.Rel.mono {α β : Type} {R R' : α → β → Prop} {x : Option α} {y : Option β}
    (h : Option.Rel R x y) (hR : ∀ {a b}, R a b → R' a b) : Option.Rel R' x y := by
  cases h with
  | none => exact .none
  | some h => exact .some (hR h)

namespace BasicScript

variable {ρ ρ' : ListRef → ListRef → Prop}

/-- The same number, text or built-in function, lists that stand for one another, or functions of
one scope with bodies that are alike. -/
inductive Datum.Alike (ρ : ListRef → ListRef → Prop) : Datum → Datum → Prop
  | number (n : Number) : Alike ρ (.number n) (.number n)
  | text (s : String) : Alike ρ (.text s) (.text s)
  | list {l l' : ListRef} (h : ρ l l') : Alike ρ (.list l) (.list l')
  | function {name : String} {params : List String} {body body' : Node} {arrow : Bool}
      {scope : Scope} (h : body.Alike body') :
      Alike ρ (.function ⟨name, params, body, arrow, scope⟩)
        (.function ⟨name, params, body', arrow, scope⟩)
  | builtin (b : Builtin) : Alike ρ (.builtin b) (.builtin b)

/-- Values of data that are alike, wherever they come from. -/
def Value.Alike (ρ : ListRef → ListRef → Prop) (v v' : Value) : Prop :=
  v.datum.Alike ρ v'.datum

/-- Values that are alike one by one. -/
abbrev Value.AllAlike (ρ : ListRef → ListRef → Prop) : List Value → List Value → Prop :=
  List.Forall₂ (Value.Alike ρ)

/-- Stores that bind the same names to values that are alike, and lists that stand for one another
have elements that are alike. -/
structure Store.Alike (ρ : ListRef → ListRef → Prop) (s s' : Store) : Prop where
  tables : s.tables.size = s'.tables.size
  bindings : ∀ (t : Nat) (x : String),
    Option.Rel (Value.Alike ρ) (s.table t)[x]? (s'.table t)[x]?
  lists : ∀ {l l'}, ρ l l' → Option.Rel (fun xs xs' => Value.AllAlike ρ xs.toList xs'.toList)
    s.lists[l.index]? s'.lists[l'.index]?

namespace Datum.Alike

variable {d d' : Datum}

theorem mono (h : d.Alike ρ d') (hρ : ∀ {l l'}, ρ l l' → ρ' l l') : d.Alike ρ' d' := by
  cases h with
  | number n => exact .number n
  | text s => exact .text s
  | list h => exact .list (hρ h)
  | function h => exact .function h
  | builtin b => exact .builtin b

theorem refl (hρ : ∀ l, ρ l l) (d : Datum) : d.Alike ρ d := by
  cases d with
  | number n => exact .number n
  | text s => exact .text s
  | list l => exact .list (hρ l)
  | function f => exact .function (.refl f.body)
  | builtin b => exact .builtin b

theorem conforms (h : d.Alike ρ d') (tag : Tag) : d.conforms tag = d'.conforms tag := by
  cases h <;> cases tag <;> rfl

theorem typeName (h : d.Alike ρ d') : d.typeName = d'.typeName := by
  cases h <;> rfl

theorem isCallable (h : d.Alike ρ d') : d.isCallable = d'.isCallable := by
  cases h <;> rfl

end Datum.Alike

namespace Value.Alike

variable {v v' : Value}

theorem mono (h : v.Alike ρ v') (hρ : ∀ {l l'}, ρ l l' → ρ' l l') : v.Alike ρ' v' :=
  Datum.Alike.mono h hρ

theorem refl (hρ : ∀ l, ρ l l) (v : Value) : v.Alike ρ v :=
  Datum.Alike.refl hρ v.datum

theorem ofNumber (n : Number) : (Value.ofNumber n).Alike ρ (Value.ofNumber n) :=
  .number n

theorem ofText (s : String) : (Value.ofText s).Alike ρ (Value.ofText s) :=
  .text s

theorem null : Value.null.Alike ρ Value.null :=
  .number _

theorem number?_eq (h : v.Alike ρ v') : v.number? = v'.number? := by
  obtain ⟨d, span, trace⟩ := v
  obtain ⟨d', span', trace'⟩ := v'
  cases (h : d.Alike ρ d') <;> rfl

theorem text?_eq (h : v.Alike ρ v') : v.text? = v'.text? := by
  obtain ⟨d, span, trace⟩ := v
  obtain ⟨d', span', trace'⟩ := v'
  cases (h : d.Alike ρ d') <;> rfl

theorem list?_rel (h : v.Alike ρ v') : Option.Rel ρ v.list? v'.list? := by
  obtain ⟨d, span, trace⟩ := v
  obtain ⟨d', span', trace'⟩ := v'
  cases (h : d.Alike ρ d') with
  | list h => exact .some h
  | _ => exact .none

theorem isSome_list?_eq (h : v.Alike ρ v') : v.list?.isSome = v'.list?.isSome := by
  have hl := h.list?_rel
  generalize v.list? = l at hl ⊢
  generalize v'.list? = l' at hl ⊢
  cases hl <;> rfl

end Value.Alike

namespace Value.AllAlike

theorem mono {vs vs' : List Value} (h : AllAlike ρ vs vs') (hρ : ∀ {l l'}, ρ l l' → ρ' l l') :
    AllAlike ρ' vs vs' :=
  h.imp fun _ _ hv => hv.mono hρ

variable {xs xs' : Array Value} (h : AllAlike ρ xs.toList xs'.toList)

include h

theorem size_eq : xs.size = xs'.size := by
  simpa using h.length_eq

theorem push {v v' : Value} (hv : v.Alike ρ v') :
    AllAlike ρ (xs.push v).toList (xs'.push v').toList := by
  rw [Array.toList_push, Array.toList_push]
  exact List.rel_append h (.cons hv .nil)

theorem append {ys ys' : Array Value} (h' : AllAlike ρ ys.toList ys'.toList) :
    AllAlike ρ (xs ++ ys).toList (xs' ++ ys').toList := by
  rw [Array.toList_append, Array.toList_append]
  exact List.rel_append h h'

theorem eraseIdx (p : Nat) :
    AllAlike ρ (xs.eraseIdxIfInBounds p).toList (xs'.eraseIdxIfInBounds p).toList := by
  rw [Array.toList_eraseIdxIfInBounds, Array.toList_eraseIdxIfInBounds,
    List.eraseIdx_eq_take_drop_succ, List.eraseIdx_eq_take_drop_succ]
  exact List.rel_append (List.forall₂_take p h) (List.forall₂_drop (p + 1) h)

theorem getD (p : Nat) : (xs[p]?.getD default).Alike ρ (xs'[p]?.getD default) := by
  have hsize := h.size_eq
  by_cases hp : p < xs.size
  · have hp' : p < xs'.size := hsize ▸ hp
    rw [Array.getElem?_eq_getElem hp, Array.getElem?_eq_getElem hp']
    exact h.get (by simpa using hp) (by simpa using hp')
  · have hp' : ¬p < xs'.size := hsize ▸ hp
    rw [Array.getElem?_eq_none (Nat.le_of_not_lt hp), Array.getElem?_eq_none (Nat.le_of_not_lt hp')]
    exact .number _

end Value.AllAlike

/-! ## Stores -/

namespace Store

variable (s : Store)

/-- The binding of a name after another, or the same, is bound. -/
theorem table_bind_getElem? (scope : Scope) (x : String) (v : Value) (t : Nat) (y : String) :
    ((s.bind scope x v).table t)[y]? =
      if scope.table = t ∧ t < s.tables.size ∧ x = y then some v else (s.table t)[y]? := by
  simp only [table, bind, Array.getElem?_modify]
  by_cases ht : scope.table = t
  · subst ht
    by_cases hlt : scope.table < s.tables.size
    · simp [hlt, Std.TreeMap.getElem?_insert]
    · simp [hlt]
  · simp [ht]

/-- The binding of a name after another, or the same, is dropped. -/
theorem table_unbind_getElem? (scope : Scope) (x : String) (t : Nat) (y : String) :
    ((s.unbind scope x).table t)[y]? =
      if scope.table = t ∧ x = y then none else (s.table t)[y]? := by
  simp only [table, unbind, Array.getElem?_modify]
  by_cases ht : scope.table = t
  · subst ht
    cases hs : s.tables[scope.table]? with
    | none => simp
    | some table => simp [Std.TreeMap.getElem?_erase]
  · simp [ht]

/-- A new scope binds nothing yet. -/
theorem table_child (scope : Scope) (t : Nat) : (s.child scope).2.table t = s.table t := by
  simp only [table, child, Array.getElem?_push]
  split
  · subst_vars
    simp
  · rfl

theorem lists_bindAll (scope : Scope) (xs : List String) (vs : List Value) :
    (s.bindAll scope xs vs).lists = s.lists := by
  induction xs generalizing s vs with
  | nil => rfl
  | cons x xs ih =>
      cases vs with
      | nil => rfl
      | cons v vs => exact ih (s.bind scope x v) vs

/-- A list that is not there has no elements. -/
theorem elements_of_size_le {l : ListRef} (h : s.lists.size ≤ l.index) : s.elements l = #[] := by
  rw [elements, Array.getElem?_eq_none h]
  rfl

theorem size_newList (xs : Array Value) : (s.newList xs).2.lists.size = s.lists.size + 1 :=
  Array.size_push _

theorem elements_newList (xs : Array Value) : (s.newList xs).2.elements (s.newList xs).1 = xs := by
  simp [newList, elements]

/-- The lists that were there stay as they are. -/
theorem newList_getElem? (xs : Array Value) {l : ListRef} (h : l.index ≠ s.lists.size) :
    (s.newList xs).2.lists[l.index]? = s.lists[l.index]? := by
  simp only [newList, Array.getElem?_push]
  rw [if_neg h]

namespace Alike

variable {s} {s' : Store} (h : s.Alike ρ s')

include h

theorem lookup (scope : Scope) (x : String) :
    Option.Rel (Value.Alike ρ) (s.lookup scope x) (s'.lookup scope x) := by
  unfold Store.lookup
  induction scope.chain with
  | nil => exact .none
  | cons t r ih =>
      have ht := h.bindings t x
      simp only [lookupIn]
      cases hx : (s.table t)[x]? with
      | none =>
          rw [hx] at ht
          cases hx' : (s'.table t)[x]? with
          | none => exact ih
          | some v' => rw [hx'] at ht; cases ht
      | some v =>
          rw [hx] at ht
          cases hx' : (s'.table t)[x]? with
          | none => rw [hx'] at ht; cases ht
          | some v' => rw [hx'] at ht; exact ht

theorem elements {l l' : ListRef} (hl : ρ l l') :
    Value.AllAlike ρ (s.elements l).toList (s'.elements l').toList := by
  have hxs := h.lists hl
  unfold Store.elements
  generalize s.lists[l.index]? = xs at hxs ⊢
  generalize s'.lists[l'.index]? = xs' at hxs ⊢
  cases hxs with
  | none => exact .nil
  | some hxs => exact hxs

theorem holds {v v' : Value} (hv : v.Alike ρ v') : s.holds v = s'.holds v' := by
  obtain ⟨d, span, trace⟩ := v
  obtain ⟨d', span', trace'⟩ := v'
  cases (hv : d.Alike ρ d') with
  | list hl =>
      have hlength := (h.elements hl).length_eq
      simp only [Array.length_toList] at hlength
      simp [Store.holds, Array.isEmpty, hlength]
  | _ => rfl

theorem bind (scope : Scope) (x : String) {v v' : Value} (hv : v.Alike ρ v') :
    (s.bind scope x v).Alike ρ (s'.bind scope x v') where
  tables := by simp [Store.bind, h.tables]
  bindings t y := by
    rw [table_bind_getElem?, table_bind_getElem?, h.tables]
    split
    · exact .some hv
    · exact h.bindings t y
  lists := h.lists

theorem bindAll (scope : Scope) (xs : List String) {vs vs' : List Value}
    (hvs : Value.AllAlike ρ vs vs') :
    (s.bindAll scope xs vs).Alike ρ (s'.bindAll scope xs vs') := by
  induction xs generalizing s s' vs vs' with
  | nil => exact h
  | cons x xs ih =>
      cases hvs with
      | nil => exact h
      | cons hv hvs => exact ih (h.bind scope x hv) hvs

theorem child (scope : Scope) : (s.child scope).2.Alike ρ (s'.child scope).2 where
  tables := by simp [Store.child, h.tables]
  bindings t x := by
    rw [table_child, table_child]
    exact h.bindings t x
  lists := h.lists

/-- A new list to which no list of the other store corresponds makes no difference. -/
theorem newList_left (hρ : ∀ {l l'}, ρ l l' → l.index ≠ s.lists.size) (xs : Array Value) :
    (s.newList xs).2.Alike ρ s' where
  tables := h.tables
  bindings := h.bindings
  lists hl := by
    rw [newList_getElem? s xs (hρ hl)]
    exact h.lists hl

theorem newList_right (hρ : ∀ {l l'}, ρ l l' → l'.index ≠ s'.lists.size) (xs : Array Value) :
    s.Alike ρ (s'.newList xs).2 where
  tables := h.tables
  bindings := h.bindings
  lists hl := by
    rw [newList_getElem? s' xs (hρ hl)]
    exact h.lists hl

end Alike

end Store

end BasicScript
