import BasicScript.Proofs.Evaluation.Footprint
import BasicScript.Proofs.Evaluation.TwoRuns
import BasicScript.Session

/-! # Sound stores

Every list that a session refers to is there. A store of which this holds is alike to itself where
its lists stand for themselves, so it goes on to hold because evaluations match themselves. -/

namespace BasicScript

variable {H : Type}

/-- The list that a value refers to, if it refers to one, is there. -/
def Value.Present (s : Store) (v : Value) : Prop :=
  ∀ l, v.datum = .list l → l.index < s.lists.size

/-- The lists that names are bound to are there, and so are those that lists hold. -/
structure Store.Sound (s : Store) : Prop where
  bindings : ∀ (t : Nat) (x : String), ∀ v ∈ (s.table t)[x]?, v.Present s
  elements : ∀ l, ∀ v ∈ (s.elements l).toList, v.Present s

theorem Value.present_iff {s : Store} {v : Value} :
    v.Present s ↔ v.Alike (Linking.present.links s.lists.size) v := by
  obtain ⟨d, span, trace⟩ := v
  constructor
  · intro h
    cases d with
    | number n => exact .number n
    | text t => exact .text t
    | list l => exact .list ⟨rfl, h l rfl⟩
    | function f => exact .function (.refl f.body)
    | builtin b => exact .builtin b
  · rintro h l rfl
    obtain - | - | h := (h : (Datum.list l).Alike _ (.list l))
    exact h.2

theorem Store.sound_iff {s : Store} :
    s.Sound ↔ s.Alike (Linking.present.links s.lists.size) s := by
  constructor
  · intro h
    refine ⟨rfl, fun t x => ?_, fun {l l'} hl => ?_⟩
    · have hv := h.bindings t x
      generalize (s.table t)[x]? = v at hv ⊢
      cases v with
      | none => exact .none
      | some v => exact .some (Value.present_iff.mp (hv v rfl))
    · obtain ⟨rfl, hlt⟩ := hl
      have hxs := h.elements l
      rw [Array.getElem?_eq_getElem hlt]
      rw [Store.elements, Array.getElem?_eq_getElem hlt] at hxs
      exact .some (List.forall₂_same.mpr fun v hv => Value.present_iff.mp (hxs v hv))
  · intro h
    refine ⟨fun t x v hv => ?_, fun l v hv => ?_⟩
    · have hrel := h.bindings t x
      rw [Option.mem_def.mp hv] at hrel
      obtain ⟨hv⟩ := hrel
      exact Value.present_iff.mpr hv
    · by_cases hlt : l.index < s.lists.size
      · have hlink : Linking.present.links s.lists.size l l := ⟨rfl, hlt⟩
        have hrel := h.elements hlink
        exact Value.present_iff.mpr (List.forall₂_same.mp hrel v hv)
      · rw [Store.elements, Array.getElem?_eq_none (Nat.le_of_not_lt hlt)] at hv
        exact absurd hv List.not_mem_nil

theorem Machine.paired_self {m : Machine H} :
    m.Paired .present m ↔ m.store.Sound :=
  ⟨fun h => Store.sound_iff.mpr h.store.2, fun h => ⟨⟨rfl, Store.sound_iff.mp h⟩, rfl, rfl, rfl⟩⟩

namespace Session

theorem start_sound : Store.start.Sound where
  bindings t x v hv := by
    have hnone : (Store.start.table t)[x]? = none := by
      obtain - | t := t <;> rfl
    rw [hnone] at hv
    cases hv
  elements l v hv := absurd hv List.not_mem_nil

/-- The names of the prelude are bound to numbers and to built-in functions. -/
theorem datum_prelude {p : String × Value} (hp : p ∈ prelude) :
    (∃ n, p.2.datum = .number n) ∨ ∃ b, p.2.datum = .builtin b := by
  rcases List.mem_append.mp hp with hp | hp
  · simp only [List.mem_cons, List.not_mem_nil, or_false] at hp
    rcases hp with rfl | rfl | rfl | rfl | rfl | rfl <;> exact .inl ⟨_, rfl⟩
  · obtain ⟨b, -, rfl⟩ := List.mem_map.mp hp
    exact .inr ⟨b, rfl⟩

/-- What holds of the empty store, and goes on to hold when names of the prelude are bound, holds of
the store of a new session. -/
theorem startStore_induction {P : Store → Prop} (hstart : P .start)
    (hbind : ∀ s x v, (x, v) ∈ prelude → P s → P (s.bind .globals x v)) : P startStore :=
  List.foldlRecOn prelude _ hstart fun s hs p hp => hbind s p.1 p.2 hp hs

theorem startStore_sound : startStore.Sound := by
  refine startStore_induction start_sound fun s x v hp hs => ?_
  have hpresent : v.Present s := by
    intro l hl
    obtain ⟨n, hn⟩ | ⟨b, hb⟩ := datum_prelude hp
    · cases hl.symm.trans hn
    · cases hl.symm.trans hb
  have hpresent' := Value.present_iff.mp hpresent
  exact Store.sound_iff.mpr ((Store.sound_iff.mp hs).bind .globals x hpresent')

/-- A run leaves a sound store sound, however it ends. -/
theorem run_sound [Host H] (fuel : Nat) (source : Source) {m : Machine H} (hm : m.store.Sound) :
    (Machine.ofResult (run fuel source m)).store.Sound := by
  have hself {x x' : Node} {env env' : Env} (h : x.Alike x') (hscope : env.scope = env'.scope) :
      Eval.Matches .present Value.Alike 0 (visit fuel x env : Eval H Value) (visit fuel x' env') :=
    visit_matches .present fuel h hscope
  have hrun := Visit.runSource_matches hself source m m (Nat.zero_le _) (Machine.paired_self.mpr hm)
  show (Machine.ofResult (Visit.runSource (visit fuel) source m)).store.Sound
  generalize Visit.runSource (visit fuel) source m = r at hrun ⊢
  cases hrun with
  | ok _ hm => exact Machine.paired_self.mp hm
  | error _ hm => exact Machine.paired_self.mp hm

end Session

end BasicScript
