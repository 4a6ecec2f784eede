import BasicScript.Console.Memory
import BasicScript.Proofs.Data.Alike
import BasicScript.Proofs.Evaluation.Failing
import BasicScript.Proofs.Evaluation.Fuel
import BasicScript.Proofs.Number.Doubles
import BasicScript.Proofs.Number.Integers
import BasicScript.Session
import Mathlib.Data.Rat.Floor
import Mathlib.Tactic.FieldSimp

/-! # The turns of a `FOR`

A `FOR` over integers makes one turn for each member of an arithmetic progression, also at the edge
of 64 bits: a last step that leaves them yields a double that is not before the end. -/

namespace BasicScript

/-! ## Arithmetic progressions -/

/-- In steps of `s`, the integer `i` comes before the end `b`. -/
def Before (i b s : ℤ) : Prop :=
  0 < s ∧ i < b ∨ s < 0 ∧ b < i

/-- The integers from `a` on in steps of `s` that come before `b`. -/
def progression (a b s : ℤ) : List ℤ :=
  (List.range ⌈((b - a : ℤ) : ℚ) / s⌉.toNat).map fun k : ℕ => a + k * s

section

variable {a b s : ℤ}

theorem div_pos_iff_before : 0 < ((b - a : ℤ) : ℚ) / s ↔ Before a b s := by
  rw [div_pos_iff, Int.cast_pos, Int.cast_pos, Int.cast_lt_zero, Int.cast_lt_zero, Before]
  omega

theorem progression_eq_nil (h : ¬ Before a b s) : progression a b s = [] := by
  have hceil : ⌈((b - a : ℤ) : ℚ) / s⌉ ≤ 0 := by
    rw [← div_pos_iff_before, not_lt] at h
    exact_mod_cast Int.ceil_le.mpr (by exact_mod_cast h)
  rw [progression, Int.toNat_of_nonpos hceil]
  rfl

theorem progression_eq_cons (h : Before a b s) :
    progression a b s = a :: progression (a + s) b s := by
  have hs : (s : ℚ) ≠ 0 := by
    unfold Before at h
    exact_mod_cast (show s ≠ 0 by omega)
  have hnext : ((b - (a + s) : ℤ) : ℚ) / s = ((b - a : ℤ) : ℚ) / s - 1 := by
    push_cast
    field_simp
    ring
  have hceil : 0 < ⌈((b - a : ℤ) : ℚ) / s⌉ := Int.ceil_pos.mpr (div_pos_iff_before.mpr h)
  have hcount : ⌈((b - a : ℤ) : ℚ) / s⌉.toNat = ⌈((b - (a + s) : ℤ) : ℚ) / s⌉.toNat + 1 := by
    rw [hnext, Int.ceil_sub_one]
    omega
  rw [progression, hcount, List.range_succ_eq_map, List.map_cons, List.map_map, progression]
  congr 1
  · simp
  · refine List.map_congr_left fun k _ => ?_
    simp only [Function.comp_apply]
    push_cast
    ring

end

/-! ## Indices -/

namespace Number

variable {i s b : Int64}

theorem add_of_fits (h : fits (i.toInt + s.toInt) = true) :
    (Number.int i).add (.int s) = .int (Int64.ofInt (i.toInt + s.toInt)) := by
  rw [add, combine, Option.bind_some, ofInt?, if_pos h]
  rfl

theorem add_of_not_fits (h : ¬ fits (i.toInt + s.toInt) = true) :
    (Number.int i).add (.int s) = .float (Float.ofInt i.toInt + Float.ofInt s.toInt) := by
  rw [add, combine, Option.bind_some, ofInt?, if_neg h]
  rfl

theorem natAbs_toInt_le (b : Int64) : b.toInt.natAbs ≤ 2 ^ 63 := by
  have := b.le_toInt
  have := b.toInt_lt
  omega

theorem zero_le_toFloat_iff : 0.0 ≤ (Number.int s).toFloat ↔ 0 ≤ s.toInt :=
  Rounding.zero_le_ofInt_iff (natAbs_toInt_le s)

end Number

namespace Visit

variable {name : String} {span : Span} {i s b : Int64}

theorem goesOn_int_iff (hs : s ≠ 0) :
    Range.goesOn ⟨name, .int b, .int s, span⟩ (.int i) = true ↔
      Before i.toInt b.toInt s.toInt := by
  have hs0 : s.toInt ≠ 0 := fun h => hs (Int64.toInt_inj.mp h)
  simp only [Range.goesOn, Number.zero_le_toFloat_iff, Number.lessThan, Before]
  split
  · rw [decide_eq_true_iff, Int64.lt_iff_toInt_lt]
    omega
  · rw [decide_eq_true_iff, Int64.lt_iff_toInt_lt]
    omega

/-- A step that leaves 64 bits leads past the end. -/
theorem not_goesOn_of_not_fits (hi : Before i.toInt b.toInt s.toInt)
    (h : ¬ Number.fits (i.toInt + s.toInt) = true) :
    Range.goesOn ⟨name, .int b, .int s, span⟩ ((Number.int i).add (.int s)) = false := by
  have hi_low := i.le_toInt
  have hi_high := i.toInt_lt
  have hs_low := s.le_toInt
  have hs_high := s.toInt_lt
  rw [Number.fits_iff] at h
  rw [Number.add_of_not_fits (by rwa [Number.fits_iff])]
  simp only [Range.goesOn, Number.zero_le_toFloat_iff, Number.lessThan]
  obtain ⟨hs, -⟩ | ⟨hs, -⟩ := hi
  · rw [if_pos (by omega), decide_eq_false_iff_not]
    exact Rounding.not_add_lt hi_high hs_high (Number.natAbs_toInt_le b) (by omega)
  · rw [if_neg (by omega), decide_eq_false_iff_not]
    exact Rounding.not_lt_add hi_low hs_low (Number.natAbs_toInt_le b) (by omega)

end Visit

/-! ## Turns -/

variable {H : Type}

/-- The value of a body that ends by one. -/
def Eval.Turn.values : Eval.Turn → List Value
  | .value v => [v]
  | .continued | .broken => []

theorem Eval.Turn.values_reverse (t : Eval.Turn) : t.values.reverse = t.values := by
  cases t <;> rfl

namespace Visit

variable [Host H] {env : Env} {r : Range} {body : Node} {i : Number} {done vs : List Value}
  {m m₁ m' : Machine H} {t : Eval.Turn}

/-- The body of a loop is evaluated on `m`, and its turn ends in `t` and leaves `m'`. -/
def TurnEnds (env : Env) (body : Node) (m : Machine H) (t : Eval.Turn) (m' : Machine H) : Prop :=
  Ends Interrupt.spent (fun n => Eval.turn (visit n body env)) m (.ok t m')

theorem TurnEnds.exists_forall_ge (h : TurnEnds env body m t m') :
    ∃ n, ∀ k, n ≤ k → Eval.turn (visit k body env) m = .ok t m' :=
  Ends.exists_forall_ge (fun hn => (visit_extends hn body env).turn) h

/-- With more fuel the loop comes to all the turns to which it comes with less. -/
theorem ForTurns.mono {n n' l l' : Nat} (hn : n ≤ n') (hl : l ≤ l')
    (h : ForTurns (visit n) env r body l i m m') : ForTurns (visit n') env r body l' i m m' := by
  induction h generalizing l' with
  | here hi =>
      obtain ⟨k, rfl⟩ : ∃ k, l' = k + 1 := ⟨l' - 1, by omega⟩
      exact .here hi
  | later hi ht hgoes _ ih =>
      obtain ⟨k, rfl⟩ : ∃ k, l' = k + 1 := ⟨l' - 1, by omega⟩
      refine .later hi ?_ hgoes (ih (by omega))
      obtain heq | ⟨m₂, herror⟩ := (visit_extends (H := H) hn body env).turn (turnMachine env r _ _)
      · exact heq ▸ ht
      · cases herror.symm.trans ht

/-- A turn behind the first is a turn of the loop. -/
theorem ForTurns.behind (hi : r.goesOn i = true)
    (ht : TurnEnds env body (turnMachine env r i m) t m₁) (hgoes : t ≠ .broken) {n : Nat}
    (h : ForTurns (visit n) env r body n (i.add r.step) m₁ m') :
    ∃ k, ForTurns (visit k) env r body k i m m' := by
  obtain ⟨k, hk⟩ := ht.exists_forall_ge
  refine ⟨max k n + 1, .later hi (hk _ (by omega)) hgoes (h.mono ?_ ?_)⟩ <;> omega

theorem ends_forTurns_of_not_goesOn (hi : r.goesOn i = false) :
    Ends Interrupt.spent (fun n => forTurns (visit n) env r body n i done) m (.ok done m) := by
  refine ⟨1, ?_, nofun⟩
  simp only [forTurns, hi]
  rfl

/-- A loop that makes a turn goes on as it does behind that turn. -/
theorem ends_forTurns_of_goesOn {res : EStateM.Result Interrupt (Machine H) (List Value)}
    (hi : r.goesOn i = true) (ht : TurnEnds env body (turnMachine env r i m) t m₁)
    (hgoes : t ≠ .broken)
    (h : Ends Interrupt.spent
      (fun n => forTurns (visit n) env r body n (i.add r.step) (t.values ++ done)) m₁ res) :
    Ends Interrupt.spent (fun n => forTurns (visit n) env r body n i done) m res := by
  obtain ⟨k, hk⟩ := ht.exists_forall_ge
  obtain ⟨n, hn, hne⟩ := h
  have hvisit : n ≤ max k n + 1 := by omega
  have hrest : forTurns (visit (max k n + 1)) env r body (max k n) (i.add r.step)
      (t.values ++ done) m₁ = res := by
    obtain heq | ⟨m₂, herror⟩ := forTurns_extends (visit_extends (H := H) hvisit) env r body
      (Nat.le_max_right k n) (i.add r.step) (t.values ++ done) m₁
    · exact heq.symm.trans hn
    · exact absurd (hn.symm.trans herror) (hne m₂)
  have hbind : (bindName env r.name ((Value.ofNumber i).withSpan r.span)) m =
      .ok () (turnMachine env r i m) := rfl
  refine ⟨max k n + 1, ?_, hne⟩
  change forTurns (visit (max k n + 1)) env r body (max k n + 1) i done m = res
  rw [forTurns, if_pos hi, bind_of_ok hbind, bind_of_ok (hk _ (by omega)), ← hrest]
  cases t with
  | value v => rfl
  | continued => rfl
  | broken => exact absurd rfl hgoes

/-- The turns of a `FOR` at the integers `is` in order lead from `m` to `m'` and yield the values
`vs`. -/
inductive Turns (env : Env) (r : Range) (body : Node) :
    List Int64 → Machine H → List Value → Machine H → Prop
  | stop {m : Machine H} : Turns env r body [] m [] m
  | turn {i : Int64} {is : List Int64} {t : Eval.Turn} {m m₁ m' : Machine H} {vs : List Value}
      (ht : TurnEnds env body (turnMachine env r (.int i) m) t m₁) (hgoes : t ≠ .broken)
      (h : Turns env r body is m₁ vs m') : Turns env r body (i :: is) m (t.values ++ vs) m'

/-- What the last turn leaves is left. -/
theorem Turns.last {is : List Int64} {k : Int64} (h : Turns env r body (is ++ [k]) m vs m') :
    ∃ m₁ t, t ≠ .broken ∧ TurnEnds env body (turnMachine env r (.int k) m₁) t m' := by
  induction is generalizing m vs with
  | nil =>
      cases h with
      | turn ht hgoes h =>
          cases h
          exact ⟨_, _, hgoes, ht⟩
  | cons i is ih =>
      cases h with
      | turn _ _ h => exact ih h

section

variable {name : String} {span : Span} {b s : Int64}

/-- A `FOR` over integers makes its turns at the exact progression, if each of them goes on. -/
theorem exists_turns (hs : s ≠ 0) (done : List Value) {i : Int64}
    (hbody : ∀ n m', ForTurns (visit n) env ⟨name, .int b, .int s, span⟩ body n (.int i) m m' →
      ∃ t m₁, t ≠ .broken ∧ TurnEnds env body m' t m₁) :
    ∃ is vs m', is.map Int64.toInt = progression i.toInt b.toInt s.toInt ∧
      Turns env ⟨name, .int b, .int s, span⟩ body is m vs m' ∧
      Ends Interrupt.spent
        (fun n => forTurns (visit n) env ⟨name, .int b, .int s, span⟩ body n (.int i) done) m
        (.ok (vs.reverse ++ done) m') := by
  generalize hcount : (progression i.toInt b.toInt s.toInt).length = count
  induction count generalizing i m done with
  | zero =>
      have hnil := List.eq_nil_of_length_eq_zero hcount
      have hi : ¬ Before i.toInt b.toInt s.toInt := fun hi => by
        rw [progression_eq_cons hi] at hnil
        cases hnil
      rw [← goesOn_int_iff hs, Bool.not_eq_true] at hi
      exact ⟨[], [], m, hnil.symm, .stop, ends_forTurns_of_not_goesOn hi⟩
  | succ count ih =>
      have hi : Before i.toInt b.toInt s.toInt := by
        by_contra hi
        rw [progression_eq_nil hi] at hcount
        cases hcount
      have hgoesOn : Range.goesOn ⟨name, .int b, .int s, span⟩ (.int i) = true :=
        (goesOn_int_iff hs).mpr hi
      rw [progression_eq_cons hi, List.length_cons, Nat.add_right_cancel_iff] at hcount
      obtain ⟨t, m₁, hgoes, ht⟩ := hbody 1 _ (.here hgoesOn)
      by_cases hfits : Number.fits (i.toInt + s.toInt) = true
      · have hadd := Number.add_of_fits hfits
        have hnext := Number.toInt_ofInt_of_fits hfits
        rw [← hnext] at hcount
        obtain ⟨is, vs, m', his, hturns, hends⟩ := ih (t.values ++ done)
          (fun n m' h => by
            obtain ⟨k, hk⟩ := ForTurns.behind hgoesOn ht hgoes (hadd ▸ h)
            exact hbody k m' hk) hcount
        refine ⟨i :: is, t.values ++ vs, m', ?_, .turn ht hgoes hturns, ?_⟩
        · rw [List.map_cons, his, progression_eq_cons hi, hnext]
        · refine ends_forTurns_of_goesOn hgoesOn ht hgoes ?_
          rw [List.reverse_append, t.values_reverse, List.append_assoc]
          simpa only [hadd] using hends
      · have hstops : progression (i.toInt + s.toInt) b.toInt s.toInt = [] := by
          refine progression_eq_nil fun hnext => hfits ?_
          have := i.le_toInt
          have := i.toInt_lt
          have := b.le_toInt
          have := b.toInt_lt
          unfold Before at hi hnext
          exact Number.fits_iff.mpr (by omega)
        refine ⟨[i], t.values, m₁, ?_, ?_, ?_⟩
        · rw [progression_eq_cons hi, hstops]
          rfl
        · have hturns := Turns.turn ht hgoes .stop
          rwa [List.append_nil] at hturns
        · rw [t.values_reverse]
          exact ends_forTurns_of_goesOn hgoesOn ht hgoes
            (ends_forTurns_of_not_goesOn (not_goesOn_of_not_fits hi hfits))

end

/-! ## The loop -/

variable {name : String} {first last : Node} {step : Option Node} {b : Branch Node} {span : Span}
  {m₂ m₃ m₄ : Machine H}

theorem stepBound_extends {n n' : Nat} (hn : n ≤ n') (step : Option Node) :
    Extends Interrupt.spent (stepBound (visit (H := H) n) env step)
      (stepBound (visit n') env step) := by
  cases step with
  | none => exact .refl _ _
  | some x => exact bound_extends (visit_extends hn) env x

/-- A `FOR` ends when its bounds and its turns do. -/
theorem ends_forLoop {j k : Number} {res : EStateM.Result Interrupt (Machine H) Value}
    (hfirst : Ends Interrupt.spent (fun n => bound (visit n) env first) m (.ok i m₁))
    (hlast : Ends Interrupt.spent (fun n => bound (visit n) env last) m₁ (.ok j m₂))
    (hstep : Ends Interrupt.spent (fun n => stepBound (visit n) env step) m₂ (.ok k m₃))
    (hturns : Ends Interrupt.spent
      (fun n => forTurns (visit n) env ⟨name, j, k, span⟩ b.body n i []) m₃ (.ok done m₄))
    (hres : collected env b span done m₄ = res) (hne : ∀ m', res ≠ .error Interrupt.spent m') :
    Ends Interrupt.spent (fun n => visit n (.forLoop name first last step b span) env) m res := by
  obtain ⟨n₁, h₁⟩ := hfirst.exists_forall_ge fun hn => bound_extends (visit_extends hn) env first
  obtain ⟨n₂, h₂⟩ := hlast.exists_forall_ge fun hn => bound_extends (visit_extends hn) env last
  obtain ⟨n₃, h₃⟩ := hstep.exists_forall_ge fun hn => stepBound_extends hn step
  obtain ⟨n₄, h₄⟩ := hturns.exists_forall_ge fun hn =>
    forTurns_extends (visit_extends hn) env _ b.body hn i []
  refine ⟨n₁ + n₂ + n₃ + n₄ + 1, ?_, hne⟩
  change forLoop (visit (n₁ + n₂ + n₃ + n₄)) (n₁ + n₂ + n₃ + n₄) env name first last step b span m =
    res
  rw [forLoop_eq, bind_of_ok (h₁ _ (by omega)), bind_of_ok (h₂ _ (by omega)),
    bind_of_ok (h₃ _ (by omega)), bind_of_ok (h₄ _ (by omega)), hres]

/-- A `FOR` from `a` to `e` in steps of `s`, all of them integers, makes one turn for each member of
the exact progression, if no turn of it breaks it off: each turn binds the variable to the member
before it evaluates the body, whatever the turns before it bound. The bindings that the last body
leaves are left, and those that the bounds left if there is no turn. A block yields null, and else
the loop yields a new list of the values of its bodies. -/
theorem for_makes_progression {a e s : Int64}
    (hfirst : Ends Interrupt.spent (fun n => bound (visit n) env first) m (.ok (.int a) m₁))
    (hlast : Ends Interrupt.spent (fun n => bound (visit n) env last) m₁ (.ok (.int e) m₂))
    (hstep : Ends Interrupt.spent (fun n => stepBound (visit n) env step) m₂ (.ok (.int s) m₃))
    (hs : s ≠ 0)
    (hbody : ∀ n m', ForTurns (visit n) env ⟨name, .int e, .int s, span⟩ b.body n (.int a) m₃ m' →
      ∃ t m'', t ≠ .broken ∧ TurnEnds env b.body m' t m'') :
    ∃ is vs m₄, is.map Int64.toInt = progression a.toInt e.toInt s.toInt ∧
      Turns env ⟨name, .int e, .int s, span⟩ b.body is m₃ vs m₄ ∧
      (is = [] → m₄ = m₃) ∧
      (∀ before k, is = before ++ [k] → ∃ m' t, TurnEnds env b.body
        (turnMachine env ⟨name, .int e, .int s, span⟩ (.int k) m') t m₄) ∧
      (b.block = true → Ends Interrupt.spent
        (fun n => visit n (.forLoop name first last step b span) env) m (.ok .null m₄)) ∧
      (b.block = false → ∃ l store, store.elements l = vs.toArray ∧
        store.tables = m₄.store.tables ∧
        Ends Interrupt.spent (fun n => visit n (.forLoop name first last step b span) env) m
          (.ok (env.made (.list l) span) { m₄ with store })) := by
  obtain ⟨is, vs, m₄, his, hturns, hends⟩ := exists_turns hs [] hbody
  have hloop {res : EStateM.Result Interrupt (Machine H) Value}
      (hres : collected env b span (vs.reverse ++ []) m₄ = res) :=
    ends_forLoop hfirst hlast hstep hends hres
  refine ⟨is, vs, m₄, his, hturns, ?_, ?_, fun hblock => ?_, fun hblock => ?_⟩
  · rintro rfl
    cases hturns
    rfl
  · rintro before k rfl
    obtain ⟨m', t, -, ht⟩ := hturns.last
    exact ⟨m', t, ht⟩
  · refine hloop ?_ nofun
    rw [collected, if_pos hblock]
    rfl
  · refine ⟨_, _, m₄.store.elements_newList vs.toArray, rfl, hloop ?_ nofun⟩
    rw [collected, hblock, List.append_nil, List.reverse_reverse]
    rfl

/-- The last step leaves 64 bits, and the body assigns to the variable. -/
theorem for_makes_progression_at_the_edge :
    let first : Node := .number (.int 9223372036854775800) default
    let last : Node := .number (.int 9223372036854775807) default
    let step : Node := .number (.int 5) default
    let body : Node := .declaration .num "i" (.number (.int 7) default) default
    let r : Range := ⟨"i", .int 9223372036854775807, .int 5, default⟩
    let m : Machine MemoryHost := Session.start (.ofInput [] [])
    ∃ is vs m₄, is.map Int64.toInt = [9223372036854775800, 9223372036854775805] ∧
      Turns programEnv r body is m vs m₄ ∧
      Ends Interrupt.spent (fun n => visit n
        (.forLoop "i" first last (some step) ⟨body, true⟩ default) programEnv) m
        (.ok .null m₄) := by
  intro first last step body r m
  have hfirst : Ends Interrupt.spent (fun n => bound (visit n) programEnv first) m
      (.ok (.int 9223372036854775800) m) := ⟨1, rfl, nofun⟩
  have hlast : Ends Interrupt.spent (fun n => bound (visit n) programEnv last) m
      (.ok (.int 9223372036854775807) m) := ⟨1, rfl, nofun⟩
  have hstep : Ends Interrupt.spent (fun n => stepBound (visit n) programEnv (some step)) m
      (.ok (.int 5) m) := ⟨1, rfl, nofun⟩
  have hbody (n : Nat) (m' : Machine MemoryHost)
      (_ : ForTurns (visit n) programEnv r body n (.int 9223372036854775800) m m') :
      ∃ t m'', t ≠ .broken ∧ TurnEnds programEnv body m' t m'' :=
    ⟨.value _, _, nofun, 2, rfl, nofun⟩
  obtain ⟨is, vs, m₄, his, hturns, -, -, hblock, -⟩ :=
    for_makes_progression (b := ⟨body, true⟩) hfirst hlast hstep (by decide) hbody
  refine ⟨is, vs, m₄, his.trans ?_, hturns, hblock rfl⟩
  change progression 9223372036854775800 9223372036854775807 5 = _
  rw [progression_eq_cons (by norm_num [Before]), progression_eq_cons (by norm_num [Before]),
    progression_eq_nil (by norm_num [Before])]
  norm_num

end Visit

end BasicScript
