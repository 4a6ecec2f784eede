import BasicScript.Data.Operation
import BasicScript.Proofs.Evaluation.Linking

/-! # Operators on values that are alike

An operator does the same in two runs, whatever places its operands come from. -/

namespace BasicScript

/-- The same kind, message and help, wherever it is reported. -/
structure Diagnostic.Same (d d' : Diagnostic) : Prop where
  kind : d.kind = d'.kind
  message : d.message = d'.message
  help : d.help = d'.help

theorem Value.failure_same (v v' : Value) (span span' : Span) (message : String) :
    (v.failure span message).Same (v'.failure span' message) :=
  ⟨rfl, rfl, rfl⟩

namespace Linking

/-- Stores whose sizes a linking allows and whose lists it links. -/
def stores (L : Linking) : Pairing Store where
  size s := s.lists.size
  Paired s s' := L.sizes s.lists.size s'.lists.size ∧ s.Alike (L.links s.lists.size) s'

variable {L : Linking} {s s' : Store}

theorem newList (h : L.stores.Paired s s') {xs xs' : Array Value}
    (hxs : Value.AllAlike (L.links s.lists.size) xs.toList xs'.toList) :
    L.stores.Paired (s.newList xs).2 (s'.newList xs').2 := by
  obtain ⟨hsizes, halike⟩ := h
  have hmono {l l' : ListRef} (hl : L.links s.lists.size l l') :
      L.links (s.lists.size + 1) l l' :=
    L.mono (Nat.le_succ _) hl
  refine ⟨?_, ?_⟩
  · show L.sizes (s.newList xs).2.lists.size (s'.newList xs').2.lists.size
    rw [Store.size_newList, Store.size_newList]
    exact L.grow hsizes
  · show (s.newList xs).2.Alike (L.links (s.newList xs).2.lists.size) (s'.newList xs').2
    rw [Store.size_newList]
    refine ⟨halike.tables, fun t x => (halike.bindings t x).mono fun hv => hv.mono hmono, ?_⟩
    intro l l' hl
    -- the new lists stand for one another, and for none of the others
    have hnew := L.injective hl (L.fresh hsizes)
    simp only [Store.newList, Array.getElem?_push]
    by_cases h : l = ⟨s.lists.size⟩
    · have h' := hnew.mp h
      rw [if_pos (by rw [h]), if_pos (by rw [h'])]
      exact .some (hxs.mono hmono)
    · have hold := (L.old hsizes hl).resolve_left h
      have h' : l' ≠ ⟨s'.lists.size⟩ := fun h' => h (hnew.mpr h')
      rw [if_neg fun hi => h (by rw [← hi]), if_neg fun hi => h' (by rw [← hi])]
      exact (halike.lists hold).mono fun hxs => hxs.mono hmono

theorem modifyList (h : L.stores.Paired s s') {l l' : ListRef} (hl : L.links s.lists.size l l')
    {f f' : Array Value → Array Value}
    (hf : ∀ xs xs', Value.AllAlike (L.links s.lists.size) xs.toList xs'.toList →
      Value.AllAlike (L.links s.lists.size) (f xs).toList (f' xs').toList) :
    L.stores.Paired (s.modifyList l f) (s'.modifyList l' f') := by
  obtain ⟨hsizes, halike⟩ := h
  have hsize (s : Store) (l : ListRef) (f : Array Value → Array Value) :
      (s.modifyList l f).lists.size = s.lists.size :=
    Array.size_modify
  refine ⟨?_, ?_⟩
  · show L.sizes (s.modifyList l f).lists.size (s'.modifyList l' f').lists.size
    rw [hsize, hsize]
    exact hsizes
  · show (s.modifyList l f).Alike (L.links (s.modifyList l f).lists.size) (s'.modifyList l' f')
    rw [hsize]
    refine ⟨halike.tables, halike.bindings, ?_⟩
    intro k k' hk
    have hlists := halike.lists hk
    have heq : l.index = k.index ↔ l'.index = k'.index := by
      have hinj := L.injective hl hk
      obtain ⟨l⟩ := l
      obtain ⟨l'⟩ := l'
      obtain ⟨k⟩ := k
      obtain ⟨k'⟩ := k'
      simpa using hinj
    simp only [Store.modifyList, Array.getElem?_modify]
    by_cases h : l.index = k.index
    · rw [if_pos h, if_pos (heq.mp h)]
      generalize s.lists[k.index]? = xs at hlists ⊢
      generalize s'.lists[k'.index]? = xs' at hlists ⊢
      cases hlists with
      | none => exact .none
      | some hxs => exact .some (hf _ _ hxs)
    · rw [if_neg h, if_neg (heq.not.mp h)]
      exact hlists

end Linking

/-! ## Operators -/

namespace Operation

variable {α β : Type} {L : Linking} {n : Nat}

/-- Two operations that do the same. -/
abbrev Matches (L : Linking) (V : (ListRef → ListRef → Prop) → α → β → Prop) (n : Nat)
    (o : Operation α) (o' : Operation β) : Prop :=
  BasicScript.Matches L L.stores (fun _ => Diagnostic.Same) V n o o'

variable {V : (ListRef → ListRef → Prop) → α → β → Prop}

theorem Matches.fail {d d' : Diagnostic} (h : d.Same d') :
    Matches L V n (throw d : Operation α) (throw d' : Operation β) :=
  .throw fun _ _ => h

theorem illegal_same (a b a' b' : Value) : (illegal a b).Same (illegal a' b') :=
  ⟨rfl, rfl, rfl⟩

theorem Matches.illegal (a b a' b' : Value) :
    Matches L V n (throw (illegal a b) : Operation α) (throw (Operation.illegal a' b')) :=
  fail (illegal_same a b a' b')

theorem Matches.number (a b a' b' : Value) (x : Number) :
    Matches L Value.Alike n (Pure.pure (derived a b (.number x)))
      (Pure.pure (derived a' b' (.number x))) :=
  .pure fun _ _ => .number x

theorem Matches.text (a b a' b' : Value) (x : String) :
    Matches L Value.Alike n (Pure.pure (derived a b (.text x)))
      (Pure.pure (derived a' b' (.text x))) :=
  .pure fun _ _ => .text x

theorem elements_matches {l l' : ListRef} (hl : L.links n l l') :
    Matches L (fun ρ xs xs' => Value.AllAlike ρ xs.toList xs'.toList) n (elements l)
      (elements l') :=
  fun _ _ hn hs => .ok ⟨Nat.le_refl _, hs.2.elements (L.mono hn hl)⟩ hs

theorem derivedList_matches (a b a' b' : Value) {xs xs' : Array Value}
    (hxs : Value.AllAlike (L.links n) xs.toList xs'.toList) :
    Matches L Value.Alike n (derivedList a b xs) (derivedList a' b' xs') := by
  intro s s' hn hs
  have hsize := s.size_newList xs
  refine .ok ⟨?_, .list ?_⟩ (Linking.newList hs (hxs.mono (L.mono hn)))
  · show s.lists.size ≤ (s.newList xs).2.lists.size
    omega
  · show L.links (s.newList xs).2.lists.size _ _
    rw [hsize]
    exact L.fresh hs.1

theorem position_matches (a b a' b' : Value) (length : Nat) (x : Number) (verb : String) :
    Matches L (fun _ => Eq) n (position a b length x verb) (position a' b' length x verb) := by
  unfold position
  cases x.toInt? with
  | none => exact .illegal a b a' b'
  | some i =>
      simp only [positionOf]
      cases resolveIndex length i with
      | none => exact .fail (Value.failure_same a a' b.span b'.span _)
      | some p => exact .pure fun _ _ => rfl

/-- An operator on a list and an index does the same if it does so with the elements and the
position. -/
theorem Matches.indexing {a b a' b' : Value} {l l' : ListRef} (hl : L.links n l l') (x : Number)
    (verb : String) {f : Array Value → Nat → Operation α} {f' : Array Value → Nat → Operation β}
    (hf : ∀ k xs xs' p, Value.AllAlike (L.links k) xs.toList xs'.toList →
      Matches L V k (f xs p) (f' xs' p)) :
    Matches L V n (do
        let xs ← elements l
        let p ← position a b xs.size x verb
        f xs p)
      (do
        let xs ← elements l'
        let p ← position a' b' xs.size x verb
        f' xs p) := by
  refine .bind (elements_matches hl) fun k xs xs' hk hxs => ?_
  rw [← hxs.size_eq]
  refine .bind (position_matches _ _ _ _ _ _ _) fun k' p p' hk' hp => ?_
  subst hp
  exact hf k' xs xs' p (hxs.mono (L.mono hk'))

variable {a b a' b' : Value} (ha : a.Alike (L.links n) a') (hb : b.Alike (L.links n) b')

include ha hb

theorem add_matches : Matches L Value.Alike n (add a b) (add a' b') := by
  obtain ⟨da, sa, ta⟩ := a
  obtain ⟨da', sa', ta'⟩ := a'
  obtain ⟨db, sb, tb⟩ := b
  obtain ⟨db', sb', tb'⟩ := b'
  cases (ha : da.Alike (L.links n) da') with
  | number x =>
      cases (hb : db.Alike (L.links n) db') with
      | number y => exact .number _ _ _ _ _
      | _ => exact .illegal _ _ _ _
  | text x =>
      cases (hb : db.Alike (L.links n) db') with
      | text y => exact .text _ _ _ _ _
      | _ => exact .illegal _ _ _ _
  | list hl =>
      refine .bind (elements_matches hl) fun k xs xs' hk hxs => ?_
      exact derivedList_matches _ _ _ _ (hxs.push (hb.mono (L.mono hk)))
  | _ => exact .illegal _ _ _ _

theorem subtract_matches : Matches L Value.Alike n (subtract a b) (subtract a' b') := by
  obtain ⟨da, sa, ta⟩ := a
  obtain ⟨da', sa', ta'⟩ := a'
  obtain ⟨db, sb, tb⟩ := b
  obtain ⟨db', sb', tb'⟩ := b'
  cases (ha : da.Alike (L.links n) da') with
  | number x =>
      cases (hb : db.Alike (L.links n) db') with
      | number y => exact .number _ _ _ _ _
      | _ => exact .illegal _ _ _ _
  | list hl =>
      cases (hb : db.Alike (L.links n) db') with
      | number y =>
          exact .indexing hl y "removed" fun k xs xs' p hxs =>
            derivedList_matches _ _ _ _ (hxs.eraseIdx p)
      | _ => exact .illegal _ _ _ _
  | _ => cases (hb : db.Alike (L.links n) db') <;> exact .illegal _ _ _ _

theorem multiply_matches : Matches L Value.Alike n (multiply a b) (multiply a' b') := by
  obtain ⟨da, sa, ta⟩ := a
  obtain ⟨da', sa', ta'⟩ := a'
  obtain ⟨db, sb, tb⟩ := b
  obtain ⟨db', sb', tb'⟩ := b'
  cases (ha : da.Alike (L.links n) da') with
  | number x =>
      cases (hb : db.Alike (L.links n) db') with
      | number y => exact .number _ _ _ _ _
      | _ => exact .illegal _ _ _ _
  | text x =>
      cases (hb : db.Alike (L.links n) db') with
      | number y =>
          simp only [multiply]
          cases y.toInt? with
          | none => exact .illegal _ _ _ _
          | some count =>
              exact .ite (Matches.fail (Value.failure_same _ _ _ _ _))
                (.ite (Matches.text _ _ _ _ _) (Matches.text _ _ _ _ _))
      | _ => exact .illegal _ _ _ _
  | list hl =>
      cases (hb : db.Alike (L.links n) db') with
      | list hr =>
          refine .bind (elements_matches hl) fun k xs xs' hk hxs => ?_
          refine .bind (elements_matches (L.mono hk hr)) fun k ys ys' hk hys => ?_
          exact derivedList_matches _ _ _ _ ((hxs.mono (L.mono hk)).append hys)
      | _ => exact .illegal _ _ _ _
  | _ => cases (hb : db.Alike (L.links n) db') <;> exact .illegal _ _ _ _

theorem divide_matches : Matches L Value.Alike n (divide a b) (divide a' b') := by
  obtain ⟨da, sa, ta⟩ := a
  obtain ⟨da', sa', ta'⟩ := a'
  obtain ⟨db, sb, tb⟩ := b
  obtain ⟨db', sb', tb'⟩ := b'
  cases (ha : da.Alike (L.links n) da') with
  | number x =>
      cases (hb : db.Alike (L.links n) db') with
      | number y =>
          exact .ite (Matches.fail (Value.failure_same _ _ _ _ _)) (Matches.number _ _ _ _ _)
      | _ => exact .illegal _ _ _ _
  | list hl =>
      cases (hb : db.Alike (L.links n) db') with
      | number y =>
          exact .indexing hl y "retrieved" fun k xs xs' p hxs =>
            .pure fun k' hk' => (hxs.mono (L.mono hk')).getD p
      | _ => exact .illegal _ _ _ _
  | _ => cases (hb : db.Alike (L.links n) db') <;> exact .illegal _ _ _ _

theorem onNumbers_matches (f : Number → Number → Number) :
    Matches L Value.Alike n (onNumbers f a b) (onNumbers f a' b') := by
  obtain ⟨da, sa, ta⟩ := a
  obtain ⟨da', sa', ta'⟩ := a'
  obtain ⟨db, sb, tb⟩ := b
  obtain ⟨db', sb', tb'⟩ := b'
  cases (ha : da.Alike (L.links n) da') with
  | number x =>
      cases (hb : db.Alike (L.links n) db') with
      | number y => exact .number _ _ _ _ _
      | _ => exact .illegal _ _ _ _
  | _ => cases (hb : db.Alike (L.links n) db') <;> exact .illegal _ _ _ _

theorem binary_matches (op : BinaryOp) :
    Matches L Value.Alike n (binary op a b) (binary op a' b') := by
  cases op with
  | add => exact add_matches ha hb
  | subtract => exact subtract_matches ha hb
  | multiply => exact multiply_matches ha hb
  | divide => exact divide_matches ha hb
  | _ => exact onNumbers_matches ha hb _

omit hb

theorem not_matches : Matches L Value.Alike n (not a) (not a') := by
  obtain ⟨da, sa, ta⟩ := a
  obtain ⟨da', sa', ta'⟩ := a'
  cases (ha : da.Alike (L.links n) da') with
  | number x => exact .number _ _ _ _ _
  | _ => exact .illegal _ _ _ _

end Operation

end BasicScript
