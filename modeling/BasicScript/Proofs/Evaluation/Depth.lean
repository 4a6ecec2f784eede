import BasicScript.Proofs.Evaluation.Moments
import BasicScript.Session

/-! # How deep the calls are

The depth of a machine counts the calls that have been entered and not been left. It is the same
before and after whatever is carried out, and no call is entered when as many are active as may
be. -/

namespace BasicScript

variable {H : Type} [Host H]

/-! ## What happens before a part is evaluated -/

section

variable {R : Machine H → Machine H → Prop}

omit [Host H]

theorem Moves.of_ok {α ε : Type} {r : EStateM ε (Machine H) α} {a : α} {m m' : Machine H}
    (h : Moves R r) (hr : r m = .ok a m') : R m m' := by
  have hm := h m
  rwa [hr] at hm

namespace Motion

variable {self : Visit H} {env : Env} (hR : Motion R)
  (hself : ∀ x, Moves R (self x env))

include hR

theorem elements_moved {α : Type} {f : Node → Eval H α} (hf : ∀ x, Moves R (f x)) {xs : List Node}
    {m m' : Machine H} {y : Node} (h : Visit.Elements f xs m y m') : R m m' := by
  induction h with
  | here => exact hR.refl _
  | later hx _ ih => exact hR.trans ((hf _).of_ok hx) ih

include hself

theorem conditions_moved {arms : List (Arm Node)} {m m' : Machine H} {y : Node}
    (h : Visit.Conditions self env arms m y m') : R m m' := by
  induction h with
  | here => exact hR.refl _
  | later hc _ _ ih => exact hR.trans ((hself _).of_ok hc) ih

theorem chooses_moved {otherwise : Option (Branch Node)} {arms : List (Arm Node)}
    {m m' : Machine H} {b : Option (Branch Node)}
    (h : Visit.Chooses self env otherwise arms m b m') : R m m' := by
  induction h with
  | otherwise => exact hR.refl _
  | here hc _ => exact (hself _).of_ok hc
  | later hc _ _ ih => exact hR.trans ((hself _).of_ok hc) ih

theorem whileTurns_moved {condition body : Node} {n : Nat} {m m' : Machine H} {y : Node}
    (h : Visit.WhileTurns self env condition body n m y m') : R m m' := by
  induction h with
  | condition => exact hR.refl _
  | body hc _ => exact (hself _).of_ok hc
  | later hc _ ht _ _ ih =>
      exact hR.trans (hR.trans ((hself _).of_ok hc) ((hself body).turn.of_ok ht)) ih

variable (hturn : ∀ r i m, R m (Visit.turnMachine env r i m))

include hturn

theorem forTurns_moved {r : Visit.Range} {body : Node} {n : Nat} {i : Number}
    {m m' : Machine H} (h : Visit.ForTurns self env r body n i m m') : R m m' := by
  induction h with
  | here _ => exact hturn _ _ _
  | later _ ht _ _ ih =>
      exact hR.trans (hR.trans (hturn _ _ _) ((hself body).turn.of_ok ht)) ih

/-- Before a part is evaluated, parts before it are, and the counters of loops are bound. -/
theorem makes_moved {limit : Nat} {x y : Node} {m m' : Machine H}
    (h : Visit.Makes self env limit x m y m') : R m m' := by
  have hbound (y : Node) : Moves R (Visit.bound self env y) := .bound hR (hself y)
  cases h with
  | subject _ => exact hR.refl _
  | element h => exact hR.elements_moved hself h
  | declared => exact hR.refl _
  | right hl => exact (hself _).of_ok hl
  | condition h => exact hR.conditions_moved hself h
  | branch h => exact hR.chooses_moved hself h
  | bound h => exact hR.elements_moved hbound h
  | @forTurn _ _ _ step _ _ _ _ _ _ _ _ _ _ hfirst hlast hstep h =>
      have hbounds : Moves R (Visit.stepBound self env step) := by
        cases step with
        | none => exact .pure hR _
        | some step => exact hbound step
      exact hR.trans (hR.trans ((hbound _).of_ok hfirst) ((hbound _).of_ok hlast))
        (hR.trans (hbounds.of_ok hstep) (hR.forTurns_moved hself hturn h))
  | whileTurn h => exact hR.whileTurns_moved hself h
  | argument hg h => exact hR.trans ((hself _).of_ok hg) (hR.elements_moved hself h)
  | returned => exact hR.refl _

end Motion

end

/-! ## The depth before and after -/

/-- As many calls are active as before. -/
def Machine.SameDepth (m m' : Machine H) : Prop :=
  m'.depth = m.depth

namespace Machine.SameDepth

omit [Host H]

theorem motion : Motion (SameDepth (H := H)) where
  refl _ := rfl
  trans h h' := h'.trans h

theorem nodeMotion (env : Env) : NodeMotion (SameDepth (H := H)) env where
  toMotion := motion
  newList _ _ := rfl
  bind _ _ _ := rfl

theorem builtinMotion : BuiltinMotion (SameDepth (H := H)) where
  toMotion := motion
  host _ _ := rfl
  note _ _ := rfl
  modifyList _ _ _ := rfl

end Machine.SameDepth

open Machine (SameDepth)

section

variable {self : Visit H} (hself : ∀ x env, Moves SameDepth (self x env))

include hself

omit [Host H] in
theorem runSource_sameDepth (source : Source) : Moves SameDepth (Visit.runSource self source) :=
  SameDepth.builtinMotion.runSource_moves (fun x => hself x Visit.programEnv) source

theorem enter_sameDepth (callee : Value) (args : List Value) :
    Moves SameDepth (Visit.enter self callee args) := by
  have hM := SameDepth.motion (H := H)
  have hB := SameDepth.builtinMotion (H := H)
  unfold Visit.enter
  split
  · exact .bind hM (.checkCount hM _ _ _) fun _ => .bind hM (hB.note_moves _) fun _ =>
      .bind hM (fun _ => rfl) fun _ => (hself _ _).toRun _ _
  · exact .bind hM (.checkCount hM _ _ _) fun _ => .bind hM (hB.note_moves _) fun _ =>
      hB.execute_moves (fun _ => hB.modifyList) (fun _ => runSource_sameDepth hself) _ _
  · exact .run_fail hM _

/-- A call is made inside, where it counts, and it counts no more when it is over. -/
theorem apply_of_lt {callee : Value} {args : List Value} {m : Machine H}
    (hdepth : m.depth < maxDepth) :
    Visit.apply self callee args m = Machine.withDepth m.depth
      (Visit.enter self callee args { m with depth := m.depth + 1 }) := by
  have hm := enter_sameDepth hself callee args { m with depth := m.depth + 1 }
  rw [Visit.apply, if_neg (Nat.not_le.mpr hdepth)]
  generalize Visit.enter self callee args { m with depth := m.depth + 1 } = r at hm ⊢
  cases r <;> simp [Machine.withDepth, SameDepth, Machine.ofResult] at hm ⊢ <;> omega

theorem apply_sameDepth (callee : Value) (args : List Value) :
    Moves SameDepth (Visit.apply self callee args) := by
  intro m
  by_cases hdepth : m.depth < maxDepth
  · rw [apply_of_lt hself hdepth]
    exact Machine.depth_withDepth _ _
  · rw [Visit.apply, if_pos (Nat.le_of_not_lt hdepth)]
    exact SameDepth.motion.refl m

end

/-- The evaluation of a node leaves as many calls active as before, however it ends. -/
theorem visit_sameDepth (n : Nat) (x : Node) (env : Env) :
    Moves SameDepth (visit (H := H) n x env) := by
  induction n generalizing x env with
  | zero => exact .throw SameDepth.motion _
  | succ n ih =>
      exact (SameDepth.nodeMotion env).step_moves (fun x => ih x env) (apply_sameDepth ih) n x

/-! ## The depth at every moment -/

namespace Moment

theorem depth_left (p : Moment H) : p.left.depth = p.machine.depth := by
  obtain ⟨n, task, m, calls⟩ := p
  cases task with
  | node x env => exact visit_sameDepth n x env m
  | call g args => exact apply_sameDepth (visit_sameDepth n) g args m
  | inside g args => exact enter_sameDepth (visit_sameDepth n) g args m
  | program source => exact runSource_sameDepth (visit_sameDepth n) source m

/-- Whatever a task comes to is taken up by it. -/
theorem Next.takesUp {p q : Moment H} (h : p.Next q) : p.TakesUp q := by
  cases h with
  | part h => exact ⟨rfl, fun d => h.fails⟩
  | @call n callee args span env g values m m₁ m₂ calls hg hargs =>
      exact ⟨span, (bind_of_ok hg).trans (bind_of_ok hargs)⟩
  | enter hdepth => exact ⟨rfl, rfl, rfl, apply_of_lt (visit_sameDepth _) hdepth⟩
  | @body n g f values m calls hf hcount =>
      refine ⟨f, hf, rfl, ?_⟩
      rw [Visit.enter_of_function hf, Visit.callClosure_of_eq hcount]
      rfl
  | script hg hpath hload => exact ⟨_, Visit.enter_run hg hpath hload⟩
  | program hx => exact Visit.runSource_of_ok hx

/-- Between two moments, calls are entered and each of them is counted. -/
structure Counts (p q : Moment H) (entered : List Value) : Prop where
  calls : q.calls = entered ++ p.calls
  depth : q.machine.depth = p.machine.depth + entered.length

theorem Next.counts {p q : Moment H} (h : Next p q) :
    Counts p q [] ∨ p.machine.depth < maxDepth ∧ ∃ g, Counts p q [g] := by
  cases h with
  | @part n x y env m m' calls h =>
      have hdepth : m'.depth = m.depth :=
        SameDepth.motion.makes_moved (fun y => visit_sameDepth n y env) (fun _ _ _ => rfl) h
      exact .inl ⟨rfl, hdepth⟩
  | @call n callee args span env g values m m₁ m₂ calls hg hargs =>
      have hcallee : m₁.depth = m.depth := (visit_sameDepth n callee env).of_ok hg
      have hvalues : m₂.depth = m₁.depth := ((SameDepth.nodeMotion env).all_moves
        (fun y => visit_sameDepth n y env) [] args).of_ok hargs
      exact .inl ⟨rfl, hvalues.trans hcallee⟩
  | enter hdepth => exact .inr ⟨hdepth, _, rfl, rfl⟩
  | body _ _ => exact .inl ⟨rfl, rfl⟩
  | script _ _ _ => exact .inl ⟨rfl, rfl⟩
  | program _ => exact .inl ⟨rfl, rfl⟩

/-- From a depth that is allowed on, each call entered and not left is counted, and no depth is
reached that is not allowed. -/
theorem Reaches.counts {p q : Moment H} (h : p.Reaches q) (hp : p.machine.depth ≤ maxDepth) :
    q.machine.depth ≤ maxDepth ∧ ∃ entered, Counts p q entered := by
  induction h with
  | refl => exact ⟨hp, [], rfl, rfl⟩
  | tail _ hnext ih =>
      obtain ⟨hle, entered, hcalls, hdepth⟩ := ih
      obtain ⟨hcalls', hdepth'⟩ | ⟨hlt, g, hcalls', hdepth'⟩ := hnext.counts
      · rw [List.length_nil, Nat.add_zero] at hdepth'
        exact ⟨hdepth' ▸ hle, entered, by rw [hcalls', hcalls, List.nil_append],
          hdepth'.trans hdepth⟩
      · rw [List.length_singleton] at hdepth'
        refine ⟨by omega, g :: entered, by rw [hcalls', hcalls]; rfl, ?_⟩
        rw [List.length_cons]
        omega

end Moment

/-- A call where no more may be active fails at once, and nothing is changed. -/
theorem apply_of_maxDepth (self : Visit H) (callee : Value) (args : List Value) {m : Machine H}
    (h : m.depth = maxDepth) :
    Visit.apply self callee args m =
      .error (.failure (callee.failure callee.span "Maximum recursion depth exceeded")) m := by
  rw [Visit.apply, if_pos (Nat.le_of_eq h.symm)]

/-- From a depth that is allowed on, the depth at every moment is what it was and one for each call
entered and not left, it is never more than allowed, and it is the same when a task is over, however
it ends. The moments are those of the evaluator: it takes up what a moment leads to, and nothing
else makes a difference. A call at the greatest depth fails with nothing entered and nothing
changed, and any other is entered at one depth more. -/
theorem depth_counts_active_calls (p : Moment H) (hp : p.machine.depth ≤ maxDepth) :
    (∀ q, p.Reaches q →
      (∃ entered, q.calls = entered ++ p.calls ∧
        q.machine.depth = p.machine.depth + entered.length) ∧
      q.machine.depth ≤ maxDepth ∧ q.left.depth = q.machine.depth ∧
      (∀ r, q.Next r → q.TakesUp r) ∧
      ∀ self, (∀ r, q.Next r → r.DoneBy self) → q.DoneBy (q.above self)) ∧
    ∀ n callee args calls (m : Machine H),
      (m.depth = maxDepth →
        Visit.apply (visit n) callee args m =
          .error (.failure (callee.failure callee.span "Maximum recursion depth exceeded")) m ∧
        ∀ q, ¬ Moment.Next ⟨n, .call callee args, m, calls⟩ q) ∧
      (m.depth < maxDepth → ∀ q, Moment.Next ⟨n, .call callee args, m, calls⟩ q ↔
        q = ⟨n, .inside callee args, { m with depth := m.depth + 1 }, callee :: calls⟩) := by
  refine ⟨fun q hq => ?_, fun n callee args calls m => ⟨fun hm => ?_, fun hm q => ?_⟩⟩
  · obtain ⟨hle, entered, hcalls, hdepth⟩ := hq.counts hp
    exact ⟨⟨entered, hcalls, hdepth⟩, hle, q.depth_left, fun r => Moment.Next.takesUp,
      fun self => Moment.doneBy_above⟩
  · refine ⟨apply_of_maxDepth _ callee args hm, fun q hq => ?_⟩
    cases hq with
    | enter hdepth => exact absurd hdepth (by omega)
  · constructor
    · intro hq
      cases hq
      rfl
    · rintro rfl
      exact .enter hm

/-- With one call less active than may be, a call is entered, and then as many are. -/
theorem depth_counts_active_calls_last :
    let m : Machine MemoryHost := { Session.start (.ofInput [] []) with depth := 999 }
    let g : Value := .plain (.builtin .clear)
    let p : Moment MemoryHost := ⟨0, .call g [], m, []⟩
    let q : Moment MemoryHost := ⟨0, .inside g [], { m with depth := 1000 }, [g]⟩
    p.machine.depth ≤ maxDepth ∧ p.Next q ∧
    (∃ entered, q.calls = entered ++ p.calls ∧
      q.machine.depth = p.machine.depth + entered.length) ∧
    q.machine.depth ≤ maxDepth ∧ q.left.depth = q.machine.depth ∧
    Visit.apply (visit 0) g [] m =
      Machine.withDepth 999 (Visit.enter (visit 0) g [] { m with depth := 1000 }) := by
  intro m g p q
  have hp : p.machine.depth ≤ maxDepth := by decide
  have hq : p.Next q := .enter (by decide)
  obtain ⟨hmoments, -⟩ := depth_counts_active_calls p hp
  obtain ⟨hcounts, hle, hleft, -, -⟩ := hmoments q (.single hq)
  obtain ⟨-, -, -, htakes, -⟩ := hmoments p .refl
  obtain ⟨-, -, -, happly⟩ := htakes q hq
  exact ⟨hp, hq, hcounts, hle, hleft, happly⟩

end BasicScript
