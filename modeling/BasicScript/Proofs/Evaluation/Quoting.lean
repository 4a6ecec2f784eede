import BasicScript.Proofs.Data.Indexing
import BasicScript.Proofs.Grammar.Literals
import BasicScript.Proofs.Number.Integers
import BasicScript.Session

/-! # Data that are quoted and run

Run as a program, the quoted form of plain data makes these data anew. Their lists are added to the
store one by one, each behind those that it holds, and nothing else changes. -/

namespace BasicScript

namespace Store

/-- Lists are added, and nothing else changes. -/
structure Grows (s s' : Store) : Prop where
  tables : s'.tables = s.tables
  size : s.lists.size ≤ s'.lists.size
  elements : ∀ l : ListRef, l.index < s.lists.size → s'.elements l = s.elements l

namespace Grows

variable {s s' s'' : Store}

theorem refl (s : Store) : s.Grows s :=
  ⟨rfl, Nat.le_refl _, fun _ _ => rfl⟩

theorem trans (h : s.Grows s') (h' : s'.Grows s'') : s.Grows s'' where
  tables := h'.tables.trans h.tables
  size := Nat.le_trans h.size h'.size
  elements l hl := (h'.elements l (Nat.lt_of_lt_of_le hl h.size)).trans (h.elements l hl)

theorem newList (s : Store) (xs : Array Value) : s.Grows (s.newList xs).2 where
  tables := rfl
  size := by
    rw [size_newList]
    exact Nat.le_succ _
  elements l hl := (s.newList_sets xs).others l fun h => Nat.ne_of_lt hl (congrArg ListRef.index h)

end Grows

/-- The value unfolds, each of its lists is below `bound`, and the lists in it are below the list
itself, as they were made before. -/
inductive Stacks (s : Store) : Nat → Value → Unfolding → Prop
  | number {bound v n} (h : v.datum = .number n) : Stacks s bound v (.number n)
  | text {bound v t} (h : v.datum = .text t) : Stacks s bound v (.text t)
  | list {bound v l us} (h : v.datum = .list l) (hl : l.index < bound)
      (hlength : us.length = (s.elements l).size)
      (hitems : ∀ (i : Nat) x u, (s.elements l)[i]? = some x → us[i]? = some u →
        Stacks s l.index x u) : Stacks s bound v (.list us)

namespace Stacks

variable {s s' : Store} {bound bound' : Nat} {v : Value} {u : Unfolding}

theorem mono (h : s.Stacks bound v u) (hb : bound ≤ bound') : s.Stacks bound' v u := by
  cases h with
  | number h => exact .number h
  | text h => exact .text h
  | list h hl hlength hitems => exact .list h (Nat.lt_of_lt_of_le hl hb) hlength hitems

theorem of_grows (h : s.Stacks bound v u) (hs : s.Grows s') (hb : bound ≤ s.lists.size) :
    s'.Stacks bound v u := by
  induction h with
  | number h => exact .number h
  | text h => exact .text h
  | list h hl hlength hitems ih =>
      have hpresent := Nat.lt_of_lt_of_le hl hb
      rw [← hs.elements _ hpresent] at hlength hitems ih
      exact .list h hl hlength fun i x u hx hu => ih i x u hx hu (Nat.le_of_lt hpresent)

/-- A list is not met inside itself, as those inside it are below it. -/
theorem unfolds (h : s.Stacks bound v u) {enclosing : List ListRef}
    (hb : ∀ k ∈ enclosing, bound ≤ k.index) : s.Unfolds enclosing v u := by
  induction h generalizing enclosing with
  | number h => exact .number h
  | text h => exact .text h
  | list h hl hlength hitems ih =>
      refine .list h (fun hmem => Nat.not_lt.mpr (hb _ hmem) hl) hlength fun i x u hx hu => ?_
      refine ih i x u hx hu (List.forall_mem_cons.mpr ⟨Nat.le_refl _, fun k hk => ?_⟩)
      exact Nat.le_of_lt (Nat.lt_of_lt_of_le hl (hb k hk))

end Stacks

end Store

/-- A negative integer is made by its digits and the minus in front of them. -/
theorem Number.mul_neg_one {n : Int64} (hn : n ≠ Int64.minValue) (hneg : n.toInt < 0) :
    mul (.int (.ofInt n.toInt.natAbs)) (.int (-1)) = .int n := by
  have hfactor : (Int64.ofInt n.toInt.natAbs).toInt = n.toInt.natAbs :=
    toInt_ofInt_of_fits (fits_of_lt (natAbs_lt hn))
  have hminus : (-1 : Int64).toInt = -1 := by decide
  have hproduct : (Int64.ofInt n.toInt.natAbs).toInt * (-1 : Int64).toInt = n.toInt := by
    rw [hfactor, hminus]
    omega
  have hexact : (mul (.int (.ofInt n.toInt.natAbs)) (.int (-1))).IsExactly n.toInt :=
    combine_isExactly (.inl (congrArg some hproduct))
  obtain ⟨k, hk, hkn⟩ := hexact.exact n.le_toInt n.toInt_lt
  rw [hk, Int64.toInt_inj.mp hkn]

/-! ## Literals are evaluated -/

/-- With enough fuel each node that is alike to `x` yields new data that unfold to `u`. -/
def Node.Makes (H : Type) [Host H] (x : Node) (u : Unfolding) : Prop :=
  ∃ N, ∀ n, N ≤ n → ∀ y : Node, x.Alike y → ∀ env (m : Machine H), ∃ v s,
    visit n y env m = .ok v { m with store := s } ∧ m.store.Grows s ∧ s.Stacks s.lists.size v u

section

variable {H : Type} [Host H]

/-- It is enough to look at one step, with some fuel for the nodes below. -/
theorem Node.Makes.of_step {x : Node} {u : Unfolding} (N : Nat)
    (h : ∀ n, N ≤ n → ∀ y : Node, x.Alike y → ∀ env (m : Machine H), ∃ v s,
      Visit.step (visit n) n y env m = .ok v { m with store := s } ∧ m.store.Grows s ∧
        s.Stacks s.lists.size v u) : x.Makes H u := by
  refine ⟨N + 1, fun n hn => ?_⟩
  obtain ⟨n, rfl⟩ : ∃ k, n = k + 1 := ⟨n - 1, by omega⟩
  exact h n (by omega)

theorem Node.makes_text (t : String) : (Node.text t default).Makes H (.text t) := by
  refine .of_step 0 fun n _ y hy env m => ?_
  obtain ⟨span, rfl⟩ := hy.of_text
  exact ⟨_, m.store, rfl, .refl _, .text rfl⟩

theorem Node.makes_number (x : Number) : (Node.number x default).Makes H (.number x) := by
  refine .of_step 0 fun n _ y hy env m => ?_
  obtain ⟨span, rfl⟩ := hy.of_number
  exact ⟨_, m.store, rfl, .refl _, .number rfl⟩

/-- A sign in front of a number multiplies it by minus one. -/
theorem Node.makes_negate {x : Node} {a : Number} (h : x.Makes H (.number a)) :
    (Node.unary .negate x default).Makes H (.number (a.mul (.int (-1)))) := by
  obtain ⟨N, hN⟩ := h
  refine .of_step N fun n hn y hy env m => ?_
  obtain ⟨x', span, rfl, hx⟩ := hy.of_unary
  obtain ⟨v, s, hv, hgrows, hstacks⟩ := hN n hn x' hx env m
  cases hstacks with
  | number hdatum =>
      refine ⟨(Operation.derived v ((Value.ofInt (-1)).withSpan span)
        (.number (a.mul (.int (-1))))).withSpan span, s, ?_, hgrows, .number rfl⟩
      have hnegate : Eval.operation (H := H) (Operation.negate v span) { m with store := s } =
          .ok (Operation.derived v ((Value.ofInt (-1)).withSpan span)
            (.number (a.mul (.int (-1))))) { m with store := s } := by
        simp only [Eval.operation, Operation.negate, Operation.multiply, hdatum]
        rfl
      exact (bind_of_ok hv).trans (bind_of_ok hnegate)

theorem Unfolding.makes_signed {n : Int64} (hn : n ≠ Int64.minValue) :
    (Unfolding.signed n).Makes H (.number (.int n)) := by
  rcases Int.lt_or_le n.toInt 0 with hneg | hpos
  · rw [signed_of_neg hneg, ← Number.mul_neg_one hn hneg]
    exact Node.makes_negate (Node.makes_number _)
  · have habs : (n.toInt.natAbs : Int) = n.toInt := Int.natAbs_of_nonneg hpos
    rw [signed_of_nonneg hpos, habs, Int64.ofInt_toInt]
    exact Node.makes_number _

/-- Literals are evaluated one by one, and each leaves the lists of those before it as they are. -/
theorem Visit.all_makes {us : List Unfolding}
    (h : ∀ u ∈ us, u.literal.Makes H u) : ∃ N, ∀ n, N ≤ n → ∀ ys : List Node,
      List.Forall₂ Node.Alike (us.map Unfolding.literal) ys → ∀ env done (m : Machine H), ∃ vs s,
        all (visit n) env done ys m = .ok (done.reverse ++ vs) { m with store := s } ∧
          m.store.Grows s ∧ List.Forall₂ (s.Stacks s.lists.size) vs us := by
  induction us with
  | nil =>
      refine ⟨0, fun n _ ys hys env done m => ⟨[], m.store, ?_, .refl _, .nil⟩⟩
      cases hys
      rw [List.append_nil]
      rfl
  | cons u us ih =>
      obtain ⟨hu, hus⟩ := List.forall_mem_cons.mp h
      obtain ⟨N, hN⟩ := hu
      obtain ⟨M, hM⟩ := ih hus
      refine ⟨max N M, fun n hn ys hys env done m => ?_⟩
      obtain ⟨y, ys, hy, hrest, rfl⟩ := List.forall₂_cons_left_iff.mp hys
      obtain ⟨v, s, hv, hgrows, hstacks⟩ := hN n (by omega) y hy env m
      obtain ⟨vs, s', hvs, hgrows', hstacks'⟩ :=
        hM n (by omega) ys hrest env (v :: done) { m with store := s }
      refine ⟨v :: vs, s', ?_, hgrows.trans hgrows', .cons ?_ hstacks'⟩
      · rw [List.reverse_cons, List.append_assoc] at hvs
        exact (bind_of_ok hv).trans hvs
      · exact (hstacks.of_grows hgrows' (Nat.le_refl _)).mono hgrows'.size

theorem Unfolding.makes_list {us : List Unfolding} (h : ∀ u ∈ us, u.literal.Makes H u) :
    (Unfolding.list us).literal.Makes H (.list us) := by
  obtain ⟨N, hN⟩ := Visit.all_makes h
  refine .of_step N fun n hn y hy env m => ?_
  rw [literal_list] at hy
  obtain ⟨ys, span, rfl, hys⟩ := hy.of_list
  obtain ⟨vs, s, hvs, hgrows, hstacks⟩ := hN n hn ys hys env [] m
  have hnew := Store.Grows.newList s vs.toArray
  have helements := s.elements_newList vs.toArray
  refine ⟨env.made (.list (s.newList vs.toArray).1) span, (s.newList vs.toArray).2,
    (bind_of_ok hvs).trans rfl, hgrows.trans hnew, .list rfl ?_ ?_ fun i x u hx hu => ?_⟩
  · rw [Store.size_newList]
    exact Nat.lt_succ_self _
  · rw [helements, List.size_toArray, hstacks.length_eq]
  · rw [helements, List.getElem?_toArray] at hx
    obtain ⟨hi, rfl⟩ := List.getElem?_eq_some_iff.mp hx
    obtain ⟨hi', rfl⟩ := List.getElem?_eq_some_iff.mp hu
    exact (hstacks.get hi hi').of_grows hnew (Nat.le_refl _)

/-- The literal of plain data makes these data. -/
theorem Unfolding.Plain.makes {u : Unfolding} (h : u.Plain) : u.literal.Makes H u := by
  induction h with
  | number hn => exact makes_signed hn
  | text ht => exact Node.makes_text _
  | list hus ih => exact makes_list ih

/-- The quoted form of plain data is a program for these data. In whatever state it is run, it
succeeds and yields a list with one element, whose numbers, texts and lists are those of the data.
New lists and the log apart, all stays as it is: the names that are bound, the elements of all
lists that were there and the host. -/
theorem quoted_data_make_themselves {s : Store} {v : Value} {u : Unfolding}
    (hv : s.Unfolds [] v u) (hu : u.Plain) :
    ∃ N, ∀ n, N ≤ n → ∀ (name : String) (m : Machine H), ∃ r l w s',
      Session.run n ⟨name, s.quote v⟩ m = .ok r { m with
        store := s', log := .finished name true :: .started name :: m.log } ∧
      r.datum = .list l ∧ s'.elements l = #[w] ∧ s'.Unfolds [] w u ∧ m.store.Grows s' := by
  have hquote : s.quote v = u.written .quoted := by
    obtain ⟨u', hu', hwritten⟩ := s.exists_unfolds (.nil s) (Nat.lt_succ_self _) v
    rw [hv.unique hu']
    exact hwritten .quoted
  have hprogram : (Unfolding.list [u]).Plain := .list (List.forall_mem_singleton.mpr hu)
  obtain ⟨N, hN⟩ := hprogram.makes (H := H)
  refine ⟨N, fun n hn name m => ?_⟩
  obtain ⟨y, hy, halike⟩ := hu.ofSource_written name
  rw [← hquote] at hy
  rw [Unfolding.literal_list] at hN
  obtain ⟨r, s', hr, hgrows, hstacks⟩ :=
    hN n hn y halike.symm Visit.programEnv { m with log := .started name :: m.log }
  have hrun : Session.run n ⟨name, s.quote v⟩ m = .ok r { m with
      store := s', log := .finished name true :: .started name :: m.log } := by
    have hnote : (Run.note (.started name) : Run H Unit) m =
        .ok () { m with log := .started name :: m.log } := rfl
    refine (bind_of_ok hnote).trans ?_
    simp only [hy, Visit.runProgram, Run.noteEnd, Eval.toRun, hr]
    rfl
  cases hstacks with
  | @list _ _ l _ hr' hl hlength hitems =>
      obtain ⟨w, hw⟩ := Array.size_eq_one_iff.mp hlength.symm
      have hmade := (hitems 0 w u (by rw [hw]; rfl) rfl).unfolds (List.forall_mem_nil _)
      exact ⟨r, l, w, s', hrun, hr', hw, hmade, hgrows⟩

end

/-- A list that holds another one twice, in which the least integer that can be quoted stands, and
a text of two lines with a `#`. -/
theorem quoted_data_make_themselves_twice :
    let s : Store := ⟨#[{}], #[#[.ofInt (-9223372036854775807), .ofText "a\n#b;"],
      #[.plain (.list ⟨0⟩), .plain (.list ⟨0⟩)]]⟩
    let v : Value := .plain (.list ⟨1⟩)
    let inner : Unfolding := .list [.number (.int (-9223372036854775807)), .text "a\n#b;"]
    let u : Unfolding := .list [inner, inner]
    let m : Machine MemoryHost := Session.start (.ofInput [] [])
    (s.Unfolds [] v u ∧ u.Plain) ∧
    ∃ N, ∀ n, N ≤ n → ∃ r l w s', Session.run n ⟨"data", s.quote v⟩ m = .ok r { m with
        store := s', log := .finished "data" true :: .started "data" :: m.log } ∧
      r.datum = .list l ∧ s'.elements l = #[w] ∧ s'.Unfolds [] w u ∧ m.store.Grows s' := by
  intro s v inner u m
  have hinner : s.Unfolds [⟨1⟩] (.plain (.list ⟨0⟩)) inner := by
    refine .list rfl (by decide) rfl ?_
    rintro (_ | _ | i) x y hx hy <;> cases hx <;> cases hy
    · exact .number rfl
    · exact .text rfl
  have hv : s.Unfolds [] v u := by
    refine .list rfl (by decide) rfl ?_
    rintro (_ | _ | i) x y hx hy <;> cases hx <;> cases hy <;> exact hinner
  have hplain : inner.Plain := by
    refine .list (List.forall_mem_cons.mpr ⟨.number (by decide), ?_⟩)
    exact List.forall_mem_singleton.mpr (.text (by simp))
  have hu : u.Plain := .list (by simpa [u] using hplain)
  obtain ⟨N, hN⟩ := quoted_data_make_themselves (H := MemoryHost) hv hu
  exact ⟨⟨hv, hu⟩, N, fun n hn => hN n hn "data" m⟩

end BasicScript
