import BasicScript.Proofs.Evaluation.Fuel
import BasicScript.Proofs.Evaluation.Soundness

/-! # Statements one behind another

What comes behind the statements of a program is evaluated on the machine they leave, and not at all
if they are interrupted. A run of its own differs from that in one list more, which holds the values
of the statements before. -/

namespace BasicScript

variable {H : Type}

namespace Visit

variable (self : Visit H) (env : Env)

/-- The values that are there already stand in front of those that are added. -/
theorem all_behind (done base : List Value) (xs : List Node) :
    all self env (done ++ base) xs =
      all self env done xs >>= fun vs => pure (base.reverse ++ vs) := by
  induction xs generalizing done with
  | nil =>
      simp only [all, pure_bind, List.reverse_append]
  | cons x xs ih =>
      simp only [all, bind_assoc]
      exact congrArg (self x env >>= ·) (funext fun v => ih (v :: done))

theorem all_append (done : List Value) (xs ys : List Node) :
    all self env done (xs ++ ys) =
      all self env done xs >>= fun vs => all self env [] ys >>= fun ws => pure (vs ++ ws) := by
  induction xs generalizing done with
  | nil =>
      rw [List.nil_append, all, pure_bind]
      simpa using all_behind self env [] done ys
  | cons x xs ih =>
      simp only [List.cons_append, all, bind_assoc]
      exact congrArg (self x env >>= ·) (funext fun v => ih (v :: done))

theorem all_append_of_ok {xs ys : List Node} {vs : List Value} {m m' : Machine H}
    (h : all self env [] xs m = .ok vs m') :
    all self env [] (xs ++ ys) m =
      (all self env [] ys >>= fun ws => pure (vs ++ ws)) m' := by
  rw [all_append]
  simp only [bind, EStateM.bind, h]

theorem all_append_of_error {xs ys : List Node} {i : Interrupt} {m m' : Machine H}
    (h : all self env [] xs m = .error i m') : all self env [] (xs ++ ys) m = .error i m' := by
  rw [all_append]
  simp only [bind, EStateM.bind, h]

end Visit

namespace Machine.Paired

variable {m m' : Machine H}

/-- Where all lists stand for themselves, the machines have the same lists. -/
theorem alike_eq (h : m.Paired .present m') : m.Alike Eq m' where
  store := by
    obtain ⟨hsize, hs⟩ := h.store
    have hsize : m.store.lists.size = m'.store.lists.size := hsize
    refine ⟨hs.tables, fun t x => (hs.bindings t x).mono (·.mono And.left), fun {l l'} hl => ?_⟩
    subst hl
    by_cases hlt : l.index < m.store.lists.size
    · have hlink : Linking.present.links m.store.lists.size l l := ⟨rfl, hlt⟩
      exact (hs.lists hlink).mono (·.mono And.left)
    · rw [Array.getElem?_eq_none (by omega), Array.getElem?_eq_none (by omega)]
      exact .none
  host := h.host
  depth := h.depth

/-- The first machine makes a list that no other refers to, whatever it notes. -/
theorem without_newList (h : m.Paired .present m') (xs : Array Value) (log : List Event) :
    Machine.Paired (.without m.store.lists.size)
      { m with store := (m.store.newList xs).2, log := log } m' where
  store := by
    obtain ⟨hsize, hs⟩ := h.store
    have hsize : m.store.lists.size = m'.store.lists.size := hsize
    have hold {l l' : ListRef} (hl : (Linking.without m.store.lists.size).links
        (m.store.lists.size + 1) l l') : Linking.present.links m.store.lists.size l l' := by
      obtain ⟨hlt, ⟨hlt', heq⟩ | ⟨hlt', -⟩⟩ := hl
      · exact ⟨heq.symm, hlt'⟩
      · omega
    have hnew {l l' : ListRef} (hl : Linking.present.links m.store.lists.size l l') :
        (Linking.without m.store.lists.size).links (m.store.lists.size + 1) l l' :=
      Linking.without_of_present (Nat.le_succ _) hl
    have hleft := hs.newList_left (fun hl => Nat.ne_of_lt hl.2) xs
    show Linking.sizes _ (m.store.newList xs).2.lists.size _ ∧
      (m.store.newList xs).2.Alike (Linking.links _ (m.store.newList xs).2.lists.size) _
    rw [Store.size_newList]
    exact ⟨⟨Nat.lt_succ_self _, congrArg (· + 1) hsize⟩,
      hleft.tables, fun t x => (hleft.bindings t x).mono (·.mono hnew),
      fun hl => (hleft.lists (hold hl)).mono (·.mono hnew)⟩
  host := h.host
  depth := h.depth
  log := trivial

end Machine.Paired

namespace Visit

/-! ## A list of nodes -/

section

variable [Host H] {n : Nat} {env : Env} {xs : List Node} {m m' : Machine H}

theorem visit_list_of_ok {vs : List Value} (h : all (visit n) env [] xs m = .ok vs m')
    (span : Span) :
    visit (n + 1) (.list xs span) env m =
      .ok (env.made (.list ⟨m'.store.lists.size⟩) span)
        { m' with store := (m'.store.newList vs.toArray).2 } := by
  simp only [visit, step, bind, EStateM.bind, h]
  rfl

theorem visit_list_of_error {i : Interrupt} (h : all (visit n) env [] xs m = .error i m')
    (span : Span) : visit (n + 1) (.list xs span) env m = .error i m' := by
  simp only [visit, step, bind, EStateM.bind, h]

theorem all_of_visit_list {v : Value} {span : Span}
    (h : visit n (.list xs span) env m = .ok v m') :
    ∃ k vs m₀, n = k + 1 ∧ all (visit k) env [] xs m = .ok vs m₀ := by
  cases n with
  | zero => cases h
  | succ k =>
      cases hall : all (visit k) env [] xs m with
      | ok vs m₀ => exact ⟨k, vs, m₀, rfl, hall⟩
      | error i m₀ =>
          rw [visit_list_of_error hall] at h
          cases h

theorem all_of_le {k : Nat} {vs : List Value} (h : all (visit n) env [] xs m = .ok vs m')
    (hk : n ≤ k) : all (visit k) env [] xs m = .ok vs m' := by
  obtain heq | ⟨m'', hspent⟩ := all_extends (visit_extends hk) env [] xs m
  · rw [← heq, h]
  · rw [h] at hspent
    cases hspent

end

/-! ## Statements behind others -/

section

variable [Host H] {n : Nat} {env : Env} {xs xs' ys ys' : List Node} {m m' : Machine H}
  (hxs : List.Forall₂ Node.Alike xs xs') (hm : m.store.Sound)

include hxs hm

/-- The same nodes in other places, from the same machine on. -/
theorem all_present (n : Nat) (env : Env) :
    EndsAlike (fun t => Value.AllAlike (Linking.present.links t.store.lists.size))
      (fun t => Interrupt.Alike (Linking.present.links t.store.lists.size))
      (Machine.Paired .present) (all (visit n) env [] xs m) (all (visit n) env [] xs' m) := by
  have hall := all_matches (H := H) (n := 0)
    (fun h hscope => visit_matches .present n h hscope) (rfl : env.scope = env.scope) hxs .nil
  exact (hall m m (Nat.zero_le _) (Machine.paired_self.mpr hm)).imp (fun _ h => h.2)
    (fun _ h => h.2) id

/-- What interrupts statements interrupts those behind them. -/
theorem all_stops (zs : List Node) {i : Interrupt}
    (h : all (visit n) env [] xs m = .error i m') :
    ∃ i' m'', all (visit n) env [] (xs' ++ zs) m = .error i' m'' ∧ i.Alike Eq i' ∧
      m'.Paired .present m'' := by
  have hall := all_present hxs hm n env
  rw [h] at hall
  cases hall' : all (visit n) env [] xs' m with
  | ok vs m'' =>
      rw [hall'] at hall
      cases hall
  | error i' m'' =>
      rw [hall'] at hall
      obtain - | ⟨hi, hm⟩ := hall
      exact ⟨i', m'', all_append_of_error _ _ hall', hi.mono And.left, hm⟩

/-- Statements behind others end as they do by themselves, where there is one list more. -/
theorem all_goes_on (hys : List.Forall₂ Node.Alike ys ys') {vs : List Value}
    (h : all (visit n) env [] xs m = .ok vs m') (log : List Event) :
    let k := m'.store.lists.size
    EndsAlike (fun t ws us => Value.AllAlike ((Linking.without k).links t.store.lists.size)
        (vs ++ ws) us)
      (fun t => Interrupt.Alike ((Linking.without k).links t.store.lists.size))
      (Machine.Paired (.without k))
      (all (visit n) env [] ys { m' with store := (m'.store.newList vs.toArray).2, log := log })
      (all (visit n) env [] (xs' ++ ys') m) := by
  intro k
  have hall := all_present hxs hm n env
  rw [h] at hall
  cases hall' : all (visit n) env [] xs' m with
  | error i' m'' =>
      rw [hall'] at hall
      cases hall
  | ok vs' m'' =>
      rw [hall'] at hall
      obtain ⟨hvs, hm⟩ := hall
      have hvs {n : Nat} (hn : k ≤ n) : Value.AllAlike ((Linking.without k).links n) vs vs' :=
        hvs.mono (Linking.without_of_present hn)
      have hsize : k ≤ (m'.store.newList vs.toArray).2.lists.size := by
        rw [Store.size_newList]
        exact Nat.le_succ k
      have hbehind := all_matches (H := H) (n := 0)
        (fun h hscope => visit_matches (.without k) n h hscope) (rfl : env.scope = env.scope) hys
        .nil _ m'' (Nat.zero_le _) (hm.without_newList vs.toArray log)
      rw [all_append_of_ok _ _ hall']
      simp only [bind, EStateM.bind]
      generalize all (visit (H := H) n) env [] ys _ = r at hbehind ⊢
      generalize all (visit (H := H) n) env [] ys' m'' = r' at hbehind ⊢
      cases hbehind with
      | ok hws hm =>
          exact .ok (List.rel_append (hvs (Nat.le_trans hsize hws.1)) hws.2) hm
      | error hi hm => exact .error hi.2 hm

end

end Visit

end BasicScript
