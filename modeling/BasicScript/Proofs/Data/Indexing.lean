import BasicScript.Proofs.Data.Closures
import BasicScript.Proofs.Number.Values
import BasicScript.Proofs.Sequencing
import BasicScript.Session

/-! # Indices of lists

The two operators that take an index, which retrieve and remove an element, and the function `pop`
that does both agree on the indices that a list has and on the element that each of them means. -/

namespace BasicScript

namespace Store

/-- From `s` to `s'` the list `l` comes to hold `xs`, and nothing else changes. -/
structure Sets (s : Store) (l : ListRef) (xs : List Value) (s' : Store) : Prop where
  elements : (s'.elements l).toList = xs
  others : ∀ k ≠ l, s'.elements k = s.elements k
  tables : s'.tables = s.tables

variable (s : Store)

theorem newList_sets (xs : Array Value) :
    s.Sets (s.newList xs).1 xs.toList (s.newList xs).2 where
  elements := by rw [elements_newList]
  others k hk := by
    have hindex : k.index ≠ s.lists.size := fun h => hk (congrArg ListRef.mk h)
    rw [Store.elements, newList_getElem? s xs hindex, Store.elements]
  tables := rfl

theorem modifyList_sets {l : ListRef} (hl : l.index < s.lists.size)
    (f : Array Value → Array Value) :
    s.Sets l (f (s.elements l)).toList (s.modifyList l f) where
  elements := by rw [elements_modifyList s hl, if_pos rfl]
  others k hk := by rw [elements_modifyList s hl, if_neg hk]
  tables := rfl

/-- A list that has elements is there. -/
theorem present_of_lt {l : ListRef} {p : Nat} (h : p < (s.elements l).size) :
    l.index < s.lists.size := by
  by_contra hl
  rw [s.elements_of_size_le (Nat.le_of_not_lt hl)] at h
  exact Nat.not_lt_zero p h

end Store

theorem eraseIdxIfInBounds_toList {α : Type} (xs : Array α) (p : Nat) :
    (xs.eraseIdxIfInBounds p).toList = xs.toList.eraseIdx p := by
  rw [Array.eraseIdxIfInBounds]
  split
  · rw [Array.toList_eraseIdx]
  · rw [List.eraseIdx_of_length_le (by rw [Array.length_toList]; omega)]

/-! ## The index as it is resolved -/

section

variable {a b : Value} {n : Nat} {y : Number} {verb : String} {s : Store}

theorem Operation.position_of_some {p : Nat} (h : y.toInt?.bind (resolveIndex n) = some p) :
    position a b n y verb s = .ok p s := by
  obtain ⟨i, hi, hp⟩ := Option.bind_eq_some_iff.mp h
  simp only [position, hi, positionOf, hp]
  rfl

theorem Operation.position_of_none (h : y.toInt?.bind (resolveIndex n) = none) :
    ∃ d, position a b n y verb s = .error d s := by
  unfold position
  cases hi : y.toInt? with
  | none => exact ⟨_, rfl⟩
  | some i =>
      rw [hi, Option.bind_some] at h
      simp only [positionOf, h]
      exact ⟨_, rfl⟩

end

/-! ## What takes an index -/

section

variable {a b : Value} {l : ListRef} {y : Number} {s : Store} (ha : a.datum = .list l)
  (hb : b.datum = .number y)

include ha hb

theorem Operation.divide_list :
    divide a b s = (position a b (s.elements l).size y "retrieved" >>= fun p =>
      pure ((s.elements l)[p]?.getD default)) s := by
  rw [divide, ha, hb]
  rfl

theorem Operation.subtract_list :
    subtract a b s = (position a b (s.elements l).size y "removed" >>= fun p =>
      derivedList a b ((s.elements l).eraseIdxIfInBounds p)) s := by
  rw [subtract, ha, hb]
  rfl

theorem Operation.divide_of_some {p : Nat} {x : Value}
    (hp : y.toInt?.bind (resolveIndex (s.elements l).size) = some p)
    (hx : (s.elements l)[p]? = some x) : divide a b s = .ok x s := by
  rw [divide_list ha hb, bind_of_ok (position_of_some hp), hx]
  rfl

theorem Operation.divide_of_none (h : y.toInt?.bind (resolveIndex (s.elements l).size) = none) :
    ∃ d, divide a b s = .error d s := by
  obtain ⟨d, hd⟩ := position_of_none h
  exact ⟨d, (divide_list ha hb).trans (bind_of_error hd)⟩

theorem Operation.subtract_of_some {p : Nat}
    (hp : y.toInt?.bind (resolveIndex (s.elements l).size) = some p) :
    subtract a b s = derivedList a b ((s.elements l).eraseIdxIfInBounds p) s := by
  rw [subtract_list ha hb, bind_of_ok (position_of_some hp)]

theorem Operation.subtract_of_none
    (h : y.toInt?.bind (resolveIndex (s.elements l).size) = none) :
    ∃ d, subtract a b s = .error d s := by
  obtain ⟨d, hd⟩ := position_of_none h
  exact ⟨d, (subtract_list ha hb).trans (bind_of_error hd)⟩

end

section

variable {H : Type} {m : Machine H} {a b : Value} {l : ListRef} {y : Number}
  {runSource : Source → Run H Value} {site : CallSite}

theorem Builtin.pop_of_number [Host H] (ha : a.datum = .list l) (hb : b.datum = .number y) :
    pop.execute runSource site [a, b] m = popAt site l y m := by
  have hlist : a.list? = some l := by rw [Value.list?, ha]
  have hnumber : b.number? = some y := by rw [Value.number?, hb]
  simp only [execute, listArg, hlist, hnumber]
  rfl

theorem Builtin.popAt_of_some {p : Nat} {x : Value}
    (hp : y.toInt?.bind (resolveIndex (m.store.elements l).size) = some p)
    (hx : (m.store.elements l)[p]? = some x) :
    popAt site l y m =
      .ok x { m with store := m.store.modifyList l (·.eraseIdxIfInBounds p) } := by
  have hread : (Run.inspect (·.elements l) : Run H _) m = .ok (m.store.elements l) m := rfl
  refine (bind_of_ok hread).trans ?_
  simp only [hp, hx]
  rfl

theorem Builtin.popAt_of_none
    (h : y.toInt?.bind (resolveIndex (m.store.elements l).size) = none) :
    ∃ d, popAt site l y m = .error (.failure d) m := by
  have hread : (Run.inspect (·.elements l) : Run H _) m = .ok (m.store.elements l) m := rfl
  refine ⟨site.failure (Operation.outOfBounds "removed"), (bind_of_ok hread).trans ?_⟩
  simp only [h]
  rfl

end

theorem insertIdx_eraseIdx {α : Type} {xs : List α} {p : Nat} {x : α} (h : xs[p]? = some x) :
    (xs.eraseIdx p).insertIdx p x = xs := by
  induction xs generalizing p with
  | nil => cases h
  | cons y ys ih =>
      cases p with
      | zero =>
          cases h
          rfl
      | succ p =>
          rw [List.eraseIdx_cons_succ, List.insertIdx_succ_cons, ih h]

/-- A number is an index of a list for `/`, `-` and `pop` alike, and means the same element to them:
`/` and `pop` yield it, `-` yields a new list without it, and `pop` leaves the list like that. Put
back at its position, it makes up the list as it was. With any other number all three fail, and
nothing changes. -/
theorem indices_agree {H : Type} [Host H] (runSource : Source → Run H Value) (site : CallSite)
    (m : Machine H) {a b : Value} {l : ListRef} {y : Number} {xs : Array Value}
    (ha : a.datum = .list l) (hb : b.datum = .number y) (hxs : m.store.elements l = xs) :
    (∀ p, y.Indexes xs.size p → ∃ x, xs[p]? = some x ∧
      Operation.divide a b m.store = .ok x m.store ∧
      (∃ v k s', Operation.subtract a b m.store = .ok v s' ∧ v.datum = .list k ∧
        k.index = m.store.lists.size ∧ k ≠ l ∧ m.store.Sets k (xs.toList.eraseIdx p) s') ∧
      (∃ s', Builtin.pop.execute runSource site [a, b] m = .ok x { m with store := s' } ∧
        m.store.Sets l (xs.toList.eraseIdx p) s') ∧
      (xs.toList.eraseIdx p).insertIdx p x = xs.toList) ∧
    ((∀ p, ¬ y.Indexes xs.size p) →
      (∃ d, Operation.divide a b m.store = .error d m.store) ∧
      (∃ d, Operation.subtract a b m.store = .error d m.store) ∧
      ∃ d, Builtin.pop.execute runSource site [a, b] m = .error (.failure d) m) := by
  subst hxs
  have hpop : Builtin.pop.execute runSource site [a, b] m = Builtin.popAt site l y m :=
    Builtin.pop_of_number ha hb
  constructor
  · intro p hindex
    have hp := (y.bind_resolveIndex_eq_some_iff _ p).mpr hindex
    have hpresent := m.store.present_of_lt hindex.lt
    obtain ⟨x, hx⟩ : ∃ x, (m.store.elements l)[p]? = some x :=
      ⟨_, Array.getElem?_eq_getElem hindex.lt⟩
    refine ⟨x, hx, Operation.divide_of_some ha hb hp hx, ?_, ?_, ?_⟩
    · have hsets := m.store.newList_sets ((m.store.elements l).eraseIdxIfInBounds p)
      rw [eraseIdxIfInBounds_toList] at hsets
      refine ⟨_, _, _, Operation.subtract_of_some ha hb hp, rfl, rfl, ?_, hsets⟩
      rintro rfl
      exact Nat.lt_irrefl _ hpresent
    · have hsets := m.store.modifyList_sets hpresent (·.eraseIdxIfInBounds p)
      rw [eraseIdxIfInBounds_toList] at hsets
      exact ⟨_, hpop.trans (Builtin.popAt_of_some hp hx), hsets⟩
    · exact insertIdx_eraseIdx (by rw [Array.getElem?_toList, hx])
  · intro hnone
    have hp : y.toInt?.bind (resolveIndex (m.store.elements l).size) = none := by
      rw [Option.eq_none_iff_forall_ne_some]
      exact fun p hp => hnone p ((y.bind_resolveIndex_eq_some_iff _ p).mp hp)
    rw [hpop]
    exact ⟨Operation.divide_of_none ha hb hp, Operation.subtract_of_none ha hb hp,
      Builtin.popAt_of_none hp⟩

/-- The last element of a list may be the list itself. -/
theorem indices_agree_itself :
    let l : ListRef := ⟨0⟩
    let a : Value := .plain (.list l)
    let b : Value := .ofInt (-1)
    let m : Machine MemoryHost := ⟨⟨#[{}], #[#[.null, a]]⟩, .ofInput [] [], 0, []⟩
    (a.datum = .list l ∧ b.datum = .number (.int (-1)) ∧ m.store.elements l = #[.null, a] ∧
      (Number.int (-1)).Indexes 2 1) ∧
    Operation.divide a b m.store = .ok a m.store ∧
    ∃ s', Builtin.pop.execute (Session.run 0) default [a, b] m = .ok a { m with store := s' } ∧
      m.store.Sets l [.null] s' := by
  intro l a b m
  have hvalue : (Number.int (-1)).value? = some ((-1 : Int) : ℚ) := rfl
  have hindex : (Number.int (-1)).Indexes 2 1 := ⟨by norm_num, -1, hvalue, by decide⟩
  obtain ⟨x, hx, hdivide, -, hpop, -⟩ :=
    (indices_agree (Session.run 0) default m (a := a) (b := b) rfl rfl rfl).1 1 hindex
  cases hx
  exact ⟨⟨rfl, rfl, rfl, hindex⟩, hdivide, hpop⟩

end BasicScript
