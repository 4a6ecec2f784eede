import BasicScript.Proofs.Evaluation.Calls
import BasicScript.Proofs.Evaluation.Places
import BasicScript.Proofs.Evaluation.Sequence
import BasicScript.Proofs.Grammar.Joining

/-! # Sessions and joined programs

Two programs run one after the other do what the program does that consists of both: what one run
leaves to the next is in the store and with the host. Only the list of the values of the first
program is not made when the two are run as one. -/

namespace BasicScript

variable {H : Type}

/-- The value is the list `l`, and the list holds `vs`. -/
structure Value.Holds (s : Store) (v : Value) (l : ListRef) (vs : List Value) : Prop where
  datum : v.datum = .list l
  elements : (s.elements l).toList = vs

def Machine.noted (m : Machine H) (e : Event) : Machine H :=
  { m with log := e :: m.log }

/-- The machine has made a list of the values. -/
def Machine.withValues (m : Machine H) (vs : List Value) : Machine H :=
  { m with store := (m.store.newList vs.toArray).2 }

theorem Machine.holds_withValues (m : Machine H) (vs : List Value) (env : Env) (span : Span) :
    (env.made (.list ⟨m.store.lists.size⟩) span).Holds (m.withValues vs).store
      ⟨m.store.lists.size⟩ vs where
  datum := rfl
  elements := congrArg Array.toList (m.store.elements_newList vs.toArray)

/-- Whatever lists the two make last, the others stand for one another as they did. -/
theorem Machine.Paired.withValues {k : Nat} {m m' : Machine H} (h : m.Paired (.without k) m')
    (vs vs' : List Value) :
    (m.withValues vs).Alike ((Linking.without k).links m.store.lists.size) (m'.withValues vs') where
  store := by
    obtain ⟨⟨hk, hsize⟩, hs⟩ := h.store
    have hsize : m.store.lists.size = m'.store.lists.size + 1 := hsize
    refine (hs.newList_left (fun hl => Nat.ne_of_lt hl.1) _).newList_right (fun hl => ?_) _
    obtain ⟨hlt, ⟨hlt', rfl⟩ | ⟨-, heq⟩⟩ := hl
    · omega
    · omega
  host := h.host
  depth := h.depth

namespace Session

variable [Host H]

/-- From `m` on, the run of a program ends in `r`. -/
def Runs (source : Source) (m : Machine H) (r : EStateM.Result Halt (Machine H) Value) : Prop :=
  Ends .outOfFuel (fun n => run n source) m r

/-- From `m` on, the statements of a program are evaluated to the last: none of them fails, and no
`RETURN` is met outside of functions. -/
def Finishes (source : Source) (m : Machine H) : Prop :=
  ∃ n program v m', Node.ofSource source = .ok program ∧
    visit n program Visit.programEnv (m.noted (.started source.name)) = .ok v m'

theorem run_extends (source : Source) {n n' : Nat} (hn : n ≤ n') :
    Extends .outOfFuel (run (H := H) n source) (run n' source) :=
  Visit.runSource_extends (visit_extends hn) source

theorem run_eq {source : Source} {program : Node} (h : Node.ofSource source = .ok program)
    (n : Nat) (m : Machine H) :
    run n source m =
      Run.noteEnd (.finished source.name)
        ((visit n program Visit.programEnv).toRun Visit.programEnv.trace id)
        (m.noted (.started source.name)) :=
  Visit.runSource_of_ok h

theorem run_of_ok {source : Source} {program : Node} (h : Node.ofSource source = .ok program)
    {n : Nat} {m m' : Machine H} {v : Value}
    (hvisit : visit n program Visit.programEnv (m.noted (.started source.name)) = .ok v m') :
    run n source m = .ok v (m'.noted (.finished source.name true)) := by
  simp only [run_eq h, Run.noteEnd, Eval.toRun, hvisit]
  rfl

/-- Programs that are interrupted alike end alike. -/
theorem run_of_error {name t t' : String} {x x' : Node} (h : Node.ofSource ⟨name, t⟩ = .ok x)
    (h' : Node.ofSource ⟨name, t'⟩ = .ok x') {n : Nat} {m m' p p' : Machine H} {i i' : Interrupt}
    (hvisit : visit n x Visit.programEnv (m.noted (.started name)) = .error i p)
    (hvisit' : visit n x' Visit.programEnv (m'.noted (.started name)) = .error i' p')
    {R : Nat → ListRef → ListRef → Prop} (hi : i.Alike (R p.store.lists.size) i')
    {S : Machine H → Machine H → Prop} (hp : S p p') (hS : ∀ e, S (p.noted e) (p'.noted e)) :
    EndsAlike (fun t => Value.Alike (R t.store.lists.size)) (fun _ => Halt.Alike) S
      (run n ⟨name, t⟩ m) (run n ⟨name, t'⟩ m') := by
  rw [run_eq h, run_eq h']
  simp only [Run.noteEnd, Eval.toRun, hvisit, hvisit']
  cases hi with
  | halt hi =>
      cases hi with
      | failure h => exact .error (.failure h) (hS _)
      | awaits q => exact .error (.awaits q) hp
      | outOfFuel => exact .error .outOfFuel hp
  | returned h => exact .ok h (hS _)
  | continued span span' => exact .error (.failure (.same ⟨rfl, rfl, rfl⟩)) (hS _)
  | broken span span' => exact .error (.failure (.same ⟨rfl, rfl, rfl⟩)) (hS _)

section

variable {name t₁ t₂ : String} {xs ys xs' ys' : List Node} {s t u : Span}
  (hfirst : Node.ofSource ⟨name, t₁⟩ = .ok (.list xs s))
  (hjoined : Node.ofSource ⟨name, t₁ ++ "\n" ++ t₂⟩ = .ok (.list (xs' ++ ys') u))
  (hxs : List.Forall₂ Node.Alike xs xs') {m : Machine H} (hm : m.store.Sound)

include hfirst hjoined hxs hm

/-- Of a program that is joined to one whose statements are not evaluated to the last, nothing is
evaluated. -/
theorem run_joined_of_not_finishes (h : ¬Finishes ⟨name, t₁⟩ m) :
    EndTogether .outOfFuel
      (EndsAlike (fun _ => Value.Alike Eq) (fun _ => Halt.Alike) fun p p' =>
        p.Alike Eq p' ∧ p.log = p'.log)
      (fun n => run n ⟨name, t₁⟩) (fun n => run n ⟨name, t₁ ++ "\n" ++ t₂⟩) m m := by
  refine .of_forall_ge (run_extends _) (run_extends _) (·.error_iff Halt.Alike.eq_outOfFuel_iff) 1
    fun n hn => ?_
  obtain ⟨n, rfl⟩ := Nat.exists_eq_add_of_le' hn
  cases hall : Visit.all (visit n) Visit.programEnv [] xs (m.noted (.started name)) with
  | ok vs m' => exact absurd ⟨n + 1, _, _, _, hfirst, Visit.visit_list_of_ok hall s⟩ h
  | error i p =>
      obtain ⟨i', p', hall', hi, hp⟩ := Visit.all_stops (m := m.noted _) hxs hm ys' hall
      refine run_of_error (R := fun _ => Eq) hfirst hjoined (Visit.visit_list_of_error hall s)
        (Visit.visit_list_of_error hall' u) hi ⟨hp.alike_eq, hp.log⟩ fun e => ?_
      have halike := hp.alike_eq
      exact ⟨⟨halike.store, halike.host, halike.depth⟩, congrArg (e :: ·) hp.log⟩

variable (hsecond : Node.ofSource ⟨name, t₂⟩ = .ok (.list ys t))
  (hys : List.Forall₂ Node.Alike ys ys') {n : Nat} {vs : List Value} {m₀ : Machine H}
  (hall : Visit.all (visit n) Visit.programEnv [] xs (m.noted (.started name)) = .ok vs m₀)

include hsecond hys hall

omit hfirst hjoined hsecond in
theorem all_joined {k : Nat} (hk : n ≤ k) :
    EndsAlike
      (fun t ws us => Value.AllAlike
        ((Linking.without m₀.store.lists.size).links t.store.lists.size) (vs ++ ws) us)
      (fun t => Interrupt.Alike ((Linking.without m₀.store.lists.size).links t.store.lists.size))
      (Machine.Paired (.without m₀.store.lists.size))
      (Visit.all (visit k) Visit.programEnv [] ys
        (((m₀.withValues vs).noted (.finished name true)).noted (.started name)))
      (Visit.all (visit k) Visit.programEnv [] (xs' ++ ys') (m.noted (.started name))) :=
  Visit.all_goes_on (m := m.noted _) hxs hm hys (Visit.all_of_le hall hk) _

omit hfirst in
/-- A program that ends early ends so behind another. -/
theorem run_behind_of_not_finishes
    (h : ¬Finishes ⟨name, t₂⟩ ((m₀.withValues vs).noted (.finished name true))) :
    EndTogether .outOfFuel (Run.EndAlike (Linking.without m₀.store.lists.size).links)
      (fun n => run n ⟨name, t₂⟩) (fun n => run n ⟨name, t₁ ++ "\n" ++ t₂⟩)
      ((m₀.withValues vs).noted (.finished name true)) m := by
  refine .of_forall_ge (run_extends _) (run_extends _) (·.error_iff Halt.Alike.eq_outOfFuel_iff)
    (n + 1) fun k hk => ?_
  obtain ⟨k, rfl⟩ := Nat.exists_eq_add_of_le' (Nat.le_trans (Nat.succ_pos n) hk)
  have hends := all_joined hxs hm hys hall (Nat.le_of_succ_le_succ hk)
  cases hright : Visit.all (visit k) Visit.programEnv [] ys
      (((m₀.withValues vs).noted (.finished name true)).noted (.started name)) with
  | ok ws p => exact absurd ⟨k + 1, _, _, _, hsecond, Visit.visit_list_of_ok hright t⟩ h
  | error i p =>
      rw [hright] at hends
      cases hboth : Visit.all (visit k) Visit.programEnv [] (xs' ++ ys')
          (m.noted (.started name)) with
      | ok us p' =>
          rw [hboth] at hends
          cases hends
      | error i' p' =>
          rw [hboth] at hends
          obtain - | ⟨hi, hp⟩ := hends
          have halike := hp.alike
          exact run_of_error hsecond hjoined (Visit.visit_list_of_error hright t)
            (Visit.visit_list_of_error hboth u) hi halike fun e =>
              ⟨halike.store, halike.host, halike.depth⟩

omit hfirst in
/-- A program whose statements are evaluated to the last yields their values behind those of the
statements before. -/
theorem run_behind_of_finishes
    (h : Finishes ⟨name, t₂⟩ ((m₀.withValues vs).noted (.finished name true))) :
    ∃ l₂ ws v₂ m₂ l' us v m',
      Runs ⟨name, t₂⟩ ((m₀.withValues vs).noted (.finished name true)) (.ok v₂ m₂) ∧
      v₂.Holds m₂.store l₂ ws ∧
      Runs ⟨name, t₁ ++ "\n" ++ t₂⟩ m (.ok v m') ∧
      v.Holds m'.store l' us ∧
      Value.AllAlike ((Linking.without m₀.store.lists.size).links l₂.index) (vs ++ ws) us ∧
      m₂.Alike ((Linking.without m₀.store.lists.size).links l₂.index) m' := by
  obtain ⟨k, program, v, p, hprogram, hvisit⟩ := h
  obtain rfl : Node.list ys t = program := Except.ok.inj (hsecond.symm.trans hprogram)
  obtain ⟨k, ws, p, rfl, hright⟩ := Visit.all_of_visit_list hvisit
  have hends := all_joined hxs hm hys hall (Nat.le_max_left n k)
  have hright := Visit.all_of_le hright (Nat.le_max_right n k)
  rw [hright] at hends
  cases hboth : Visit.all (visit (max n k)) Visit.programEnv [] (xs' ++ ys')
      (m.noted (.started name)) with
  | error i' p' =>
      rw [hboth] at hends
      cases hends
  | ok us p' =>
      rw [hboth] at hends
      obtain ⟨hus, hp⟩ := hends
      have halike := hp.withValues ws us
      exact ⟨_, ws, _, _, _, us, _, _,
        ⟨_, run_of_ok hsecond (Visit.visit_list_of_ok hright t), nofun⟩,
        p.holds_withValues ws _ t,
        ⟨_, run_of_ok hjoined (Visit.visit_list_of_ok hboth u), nofun⟩,
        p'.holds_withValues us _ u, hus, halike.store, halike.host, halike.depth⟩

end

/-- Texts that are each read by themselves are read when a line break joins them. If the statements
of the first are evaluated to the last, the second has on what they leave the effects of the joined
program, whose values are those of both, or which ends as the second does. If they are not, the
joined program ends as the first does, and has done and noted the same. The list of the values of
the first is the only one that the joined program does not make. -/
theorem run_joins {name t₁ t₂ : String} {x y : Node} (h₁ : Node.ofSource ⟨name, t₁⟩ = .ok x)
    (h₂ : Node.ofSource ⟨name, t₂⟩ = .ok y) {m : Machine H} (hm : m.store.Sound) :
    let first : Source := ⟨name, t₁⟩
    let second : Source := ⟨name, t₂⟩
    let joined : Source := ⟨name, t₁ ++ "\n" ++ t₂⟩
    (∃ z, Node.ofSource joined = .ok z) ∧
    (Finishes first m → ∃ l vs v₁ m₁, Runs first m (.ok v₁ m₁) ∧ v₁.Holds m₁.store l vs ∧
      (Finishes second m₁ → ∃ l₂ ws v₂ m₂ l' us v m',
        Runs second m₁ (.ok v₂ m₂) ∧ v₂.Holds m₂.store l₂ ws ∧
        Runs joined m (.ok v m') ∧ v.Holds m'.store l' us ∧
        Value.AllAlike ((Linking.without l.index).links l₂.index) (vs ++ ws) us ∧
        m₂.Alike ((Linking.without l.index).links l₂.index) m') ∧
      (¬Finishes second m₁ →
        EndTogether .outOfFuel (Run.EndAlike (Linking.without l.index).links)
          (fun n => run n second) (fun n => run n joined) m₁ m)) ∧
    (¬Finishes first m →
      EndTogether .outOfFuel
        (EndsAlike (fun _ => Value.Alike Eq) (fun _ => Halt.Alike) fun p p' =>
          p.Alike Eq p' ∧ p.log = p'.log)
        (fun n => run n first) (fun n => run n joined) m m) := by
  intro first second joined
  obtain ⟨xs, ys, xs', ys', s, t, u, rfl, rfl, hjoined, hxs, hys⟩ := Node.ofSource_joins h₁ h₂
  refine ⟨⟨_, hjoined⟩, fun h => ?_, run_joined_of_not_finishes h₁ hjoined hxs hm⟩
  obtain ⟨n, program, v₁, p, hprogram, hvisit⟩ := h
  obtain rfl : Node.list xs s = program := Except.ok.inj (h₁.symm.trans hprogram)
  obtain ⟨n, vs, m₀, rfl, hall⟩ := Visit.all_of_visit_list hvisit
  refine ⟨_, vs, _, _, ⟨_, run_of_ok h₁ (Visit.visit_list_of_ok hall s), nofun⟩,
    m₀.holds_withValues vs _ s, ?_, ?_⟩
  · exact run_behind_of_finishes hjoined hxs hm h₂ hys hall
  · exact run_behind_of_not_finishes hjoined hxs hm h₂ hys hall

/-- The first program makes a list, and the second returns. -/
theorem run_joins_return :
    let m := start (MemoryHost.ofInput [] [])
    ∃ l vs v₁ m₁, Runs ⟨"s", "[]"⟩ m (.ok v₁ m₁) ∧ v₁.Holds m₁.store l vs ∧
      EndTogether .outOfFuel (Run.EndAlike (Linking.without l.index).links)
        (fun n => run n ⟨"s", "RETURN"⟩) (fun n => run n ⟨"s", "[]" ++ "\n" ++ "RETURN"⟩) m₁ m := by
  intro m
  obtain ⟨s₁, t₁, h₁⟩ : ∃ s t, Node.ofSource ⟨"s", "[]"⟩ = .ok (.list [.list [] s] t) :=
    ⟨_, _, by with_unfolding_all rfl⟩
  obtain ⟨s₂, t₂, h₂⟩ : ∃ s t, Node.ofSource ⟨"s", "RETURN"⟩ =
      .ok (.list [.returnWith none s] t) := by
    obtain ⟨s, finish, htokens⟩ : ∃ s finish, Source.tokens ⟨"s", "RETURN"⟩ =
        .ok [⟨.returnWord, some (.text "RETURN"), s⟩, ⟨.endOfInput, none, finish⟩] :=
      ⟨_, _, by with_unfolding_all rfl⟩
    exact ⟨s, _, by rw [Node.ofSource, htokens]; rfl⟩
  have hsecond (m₁ : Machine MemoryHost) : ¬Finishes ⟨"s", "RETURN"⟩ m₁ := by
    rintro ⟨n, program, v, p, hprogram, hvisit⟩
    obtain rfl := Except.ok.inj (h₂.symm.trans hprogram)
    obtain ⟨_ | n, vs, m₀, -, hall⟩ := Visit.all_of_visit_list hvisit
    · cases hall
    · cases hall
  obtain ⟨-, hgoes, -⟩ := run_joins h₁ h₂ (m := m) startStore_sound
  obtain ⟨l, vs, v₁, m₁, hrun, hv₁, -, hends⟩ := hgoes ⟨3, _, _, _, h₁, rfl⟩
  exact ⟨l, vs, v₁, m₁, hrun, hv₁, hends (hsecond m₁)⟩

end Session

end BasicScript
