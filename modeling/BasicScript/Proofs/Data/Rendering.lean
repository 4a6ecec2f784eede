import BasicScript.Data.Rendering
import BasicScript.Proofs.Data.Alike
import Mathlib.Data.List.Nodup
import Mathlib.Data.List.Perm.Subperm

/-! # The text of values that are alike

The text of a value tells which of its lists are one, and nothing else of where they stand. -/

namespace BasicScript

namespace Store

/-- Lists that enclose one another are distinct, and they are all there. -/
structure Nested (s : Store) (enclosing : List ListRef) : Prop where
  nodup : enclosing.Nodup
  present : ∀ l ∈ enclosing, l.index < s.lists.size

namespace Nested

variable {s : Store} {enclosing : List ListRef}

theorem nil (s : Store) : s.Nested [] :=
  ⟨.nil, fun _ h => absurd h List.not_mem_nil⟩

theorem cons {l : ListRef} (h : s.Nested enclosing) (hl : l ∉ enclosing)
    (hpresent : l.index < s.lists.size) : s.Nested (l :: enclosing) :=
  ⟨List.nodup_cons.mpr ⟨hl, h.nodup⟩, List.forall_mem_cons.mpr ⟨hpresent, h.present⟩⟩

theorem length_le (h : s.Nested enclosing) : enclosing.length ≤ s.lists.size := by
  have hnodup : (enclosing.map ListRef.index).Nodup :=
    List.Nodup.map (fun l l' heq => by cases l; cases l'; exact congrArg ListRef.mk heq) h.nodup
  have hsubset : enclosing.map ListRef.index ⊆ List.range s.lists.size := by
    intro i hi
    obtain ⟨l, hl, rfl⟩ := List.mem_map.mp hi
    exact List.mem_range.mpr (h.present l hl)
  simpa using (hnodup.subperm hsubset).length_le

end Nested

namespace Alike

variable {ρ : ListRef → ListRef → Prop} {s s' : Store} (h : s.Alike ρ s')
  (hρ : ∀ {k k' l l'}, ρ k k' → ρ l l' → (k = l ↔ k' = l'))

include h

theorem present_iff {l l' : ListRef} (hl : ρ l l') :
    l.index < s.lists.size ↔ l'.index < s'.lists.size := by
  have hlists := h.lists hl
  rw [← Nat.not_le, ← Nat.not_le, ← Array.getElem?_eq_none_iff, ← Array.getElem?_eq_none_iff]
  generalize s.lists[l.index]? = xs at hlists ⊢
  generalize s'.lists[l'.index]? = xs' at hlists ⊢
  cases hlists <;> simp

include hρ

/-- The fuel is enough, so it makes no difference how much there is. -/
theorem write_eq (style : Style) {n n' : Nat} {enclosing enclosing' : List ListRef}
    (hlists : List.Forall₂ ρ enclosing enclosing') (hs : s.Nested enclosing)
    (hs' : s'.Nested enclosing') (hn : s.lists.size < n + enclosing.length)
    (hn' : s'.lists.size < n' + enclosing'.length) {v v' : Value} (hv : v.Alike ρ v') :
    s.write style n enclosing v = s'.write style n' enclosing' v' := by
  induction n generalizing n' enclosing enclosing' v v' with
  | zero =>
      have hle := hs.length_le
      omega
  | succ n ih =>
      obtain - | n' := n'
      · have hle := hs'.length_le
        omega
      obtain ⟨d, span, trace⟩ := v
      obtain ⟨d', span', trace'⟩ := v'
      cases (hv : d.Alike ρ d') with
      | list hl =>
          rename_i l l'
          have hunique : Relator.BiUnique ρ :=
            ⟨fun _ _ _ h h' => (hρ h h').mpr rfl, fun _ _ _ h h' => (hρ h h').mp rfl⟩
          have hmem : l ∈ enclosing ↔ l' ∈ enclosing' := List.rel_mem hunique hl hlists
          have hitems := h.elements hl
          simp only [write, List.contains_iff_mem]
          by_cases hin : l ∈ enclosing
          · rw [if_pos hin, if_pos (hmem.mp hin)]
          · rw [if_neg hin, if_neg (hmem.not.mp hin)]
            congr 1
            by_cases hpresent : l.index < s.lists.size
            · have hcons := hs.cons hin hpresent
              have hcons' := hs'.cons (hmem.not.mp hin) ((h.present_iff hl).mp hpresent)
              rw [← List.forall₂_eq_eq_eq, List.forall₂_map_left_iff, List.forall₂_map_right_iff]
              refine hitems.imp fun v v' hv => ?_
              exact ih (.cons hl hlists) hcons hcons' (by rw [List.length_cons]; omega)
                (by rw [List.length_cons]; omega) hv
            · have hempty := s.elements_of_size_le (Nat.le_of_not_lt hpresent)
              rw [hempty] at hitems ⊢
              rw [List.forall₂_nil_left_iff.mp hitems]
              rfl
      | _ => rfl

/-- Values that are alike have one text. -/
theorem display_eq {v v' : Value} (hv : v.Alike ρ v') : s.display v = s'.display v' :=
  h.write_eq hρ .plain .nil (.nil s) (.nil s') (Nat.lt_succ_self _) (Nat.lt_succ_self _) hv

end Alike

end Store

end BasicScript
