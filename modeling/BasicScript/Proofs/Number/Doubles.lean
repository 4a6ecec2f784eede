import BasicScript.Proofs.Number.Rounding

/-! # Doubles

The doubles of Lean round to the nearest: an integer is converted to the double nearest to it, and
a sum is the double nearest to the exact one. Two doubles compare as the integers that they are. -/

namespace BasicScript.Rounding

open Float.Model Float.Model.UnpackedFloat

/-! ## The digits that are dropped -/

/-- The mantissa `em` has the digits of `n` above `unit`, and its two bits tell how what is left
compares with half of a unit. -/
structure Keeps (em : ExtendedMantissa) (n unit : ℕ) : Prop where
  mantissa : em.mantissa = n / unit
  roundBit : em.roundBit = true ↔ unit ≤ 2 * (n % unit)
  stickyBit : em.stickyBit = true ↔ 2 * (n % unit) % unit ≠ 0

section

variable {em : ExtendedMantissa} {n unit : ℕ}

theorem Keeps.shiftRightOne (h : Keeps em n unit) (hunit : 0 < unit) :
    Keeps em.shiftRightOne n (unit * 2) := by
  have hrest : n % unit < unit := Nat.mod_lt n hunit
  have hmod : n % (unit * 2) = n % unit + unit * (n / unit % 2) := Nat.mod_mul
  have hbit : n / unit % 2 = 0 ∨ n / unit % 2 = 1 := Nat.mod_two_eq_zero_or_one _
  refine ⟨?_, ?_, ?_⟩
  · rw [ExtendedMantissa.shiftRightOne, h.mantissa, Nat.div_div_eq_div_mul]
  · rw [ExtendedMantissa.shiftRightOne, h.mantissa, bne_iff_ne, hmod]
    rcases hbit with hbit | hbit <;> rw [hbit] <;> omega
  · have hsticky : 2 * (n % (unit * 2)) % (unit * 2) = 2 * (n % unit) := by
      rw [hmod, Nat.mul_comm unit 2, Nat.mul_mod_mul_left, Nat.add_mul_mod_self_left,
        Nat.mod_eq_of_lt hrest]
    rw [ExtendedMantissa.shiftRightOne, Bool.or_eq_true, h.roundBit, h.stickyBit, hsticky]
    rcases Nat.lt_or_ge (2 * (n % unit)) unit with hlt | hge
    · rw [Nat.mod_eq_of_lt hlt]
      omega
    · omega

theorem Keeps.shiftRight (n k : ℕ) :
    Keeps (ExtendedMantissa.mk n false false >>> k) n (2 ^ k) := by
  induction k with
  | zero => exact ⟨(Nat.div_one n).symm, by simp [HShiftRight.hShiftRight, Nat.repeat, Nat.mod_one],
      by simp [HShiftRight.hShiftRight, Nat.repeat, Nat.mod_one]⟩
  | succ k ih => exact ih.shiftRightOne (Nat.two_pow_pos k)

theorem Keeps.roundedMantissa (h : Keeps em n unit) (hunit : 0 < unit) :
    em.roundedMantissa = nearest n unit := by
  have hrest : n % unit < unit := Nat.mod_lt n hunit
  obtain ⟨m, roundBit, stickyBit⟩ := em
  obtain ⟨rfl, hround, hsticky⟩ := h
  have hmod : unit ≤ 2 * (n % unit) → 2 * (n % unit) % unit = 2 * (n % unit) - unit := fun hge => by
    rw [Nat.mod_eq_sub_mod hge, Nat.mod_eq_of_lt (by omega)]
  have hsmall : 2 * (n % unit) < unit → 2 * (n % unit) % unit = 2 * (n % unit) := Nat.mod_eq_of_lt
  cases roundBit <;> cases stickyBit <;>
    simp only [Bool.false_eq_true, false_iff, true_iff, not_le, not_not] at hround hsticky <;>
    simp only [ExtendedMantissa.roundedMantissa, ExtendedMantissa.accuracy,
      Accuracy.roundToNearestEven, nearest]
  · rw [if_pos (.inl hround)]
  · rw [if_pos (.inl hround)]
  · have := hmod hround
    split <;> omega
  · have := hmod hround
    rw [if_neg (by omega)]

end

/-! ## Numbers in canonical form -/

/-- The double `u` is the integer `v`. A double is a multiple of `2 ^ (-1074)`; other than zero, it
has all its 53 digits here. -/
inductive Denotes : UnpackedFloat → ℤ → Prop
  | zero {s} : Denotes (.zero s) 0
  | finite {s : Sign} {m k n : ℕ} {hm : 0 < m} (hlow : 2 ^ 52 ≤ m) (hhigh : m < 2 ^ 53)
      (hvalue : m * 2 ^ k = n * 2 ^ 1074) : Denotes (.finite s m (k - 1074) hm) (s.apply n)

theorem mantissaBits_binary64 : Format.binary64.mantissaBits = 53 :=
  rfl

section

variable {s : Sign} {m k n : ℕ}

theorem shiftToTargetExponent_eq :
    shiftToTargetExponent Format.binary64 m (k - 1074) .exact =
      (ExtendedMantissa.mk m false false >>> (m.log2 - 52),
        ((k + (m.log2 - 52) : ℕ) : ℤ) - 1074) := by
  have hshift : (Format.binary64.targetExponent (totalExponent m (k - 1074)) - (k - 1074)).toNat =
      m.log2 - 52 := by
    simp only [Format.targetExponent, totalExponent, mantissaBits_binary64, Format.minExponent]
    norm_num
    omega
  rw [shiftToTargetExponent, shiftToExponent, hshift]
  refine Prod.ext rfl ?_
  push_cast
  ring

/-- Where rounding up makes a digit too many, the last is dropped again. -/
theorem shift_carry {q : ℕ} (hlow : 2 ^ 52 ≤ q) (hhigh : q ≤ 2 ^ 53) :
    ∃ m' j, shiftToTargetExponent Format.binary64 q (k - 1074) .exact =
        (ExtendedMantissa.mk m' false false, ((k + j : ℕ) : ℤ) - 1074) ∧
      2 ^ 52 ≤ m' ∧ m' < 2 ^ 53 ∧ m' * 2 ^ j = q := by
  rw [shiftToTargetExponent_eq]
  rcases Nat.lt_or_eq_of_le hhigh with hlt | rfl
  · have hlog : q.log2 = 52 := (Nat.log2_eq_iff (by omega)).mpr ⟨hlow, hlt⟩
    rw [hlog]
    exact ⟨q, 0, rfl, hlow, hlt, Nat.mul_one q⟩
  · have hlog : (2 ^ 53).log2 = 53 := Nat.log2_two_pow
    rw [hlog]
    exact ⟨2 ^ 52, 1, rfl, le_rfl, by norm_num, rfl⟩

theorem ne_zero_iff_of_value (h : m * 2 ^ k = n * 2 ^ 1074) : m ≠ 0 ↔ n ≠ 0 := by
  have hm : m * 2 ^ k ≠ 0 ↔ m ≠ 0 := by
    simp only [ne_eq, mul_eq_zero, pow_ne_zero k two_ne_zero, or_false]
  have hn : n * 2 ^ 1074 ≠ 0 ↔ n ≠ 0 := by
    simp only [ne_eq, mul_eq_zero, pow_ne_zero 1074 two_ne_zero, or_false]
  rw [← hm, ← hn, h]

theorem log2_add_of_value (h : m * 2 ^ k = n * 2 ^ 1074) (hm : m ≠ 0) :
    m.log2 + k = n.log2 + 1074 := by
  rw [← log2_mul_two_pow hm, h, log2_mul_two_pow ((ne_zero_iff_of_value h).mp hm)]

/-- A mantissa of 53 digits or more is rounded to 53 of them. -/
theorem denotes_roundWithAccuracy (hlog : 52 ≤ m.log2) (h : m * 2 ^ k = n * 2 ^ 1074) :
    Denotes (roundWithAccuracy Format.binary64 s m (k - 1074) .exact) (s.apply (rounded n)) := by
  have hrounded : (ExtendedMantissa.mk m false false >>> (m.log2 - 52)).roundedMantissa =
      nearest m (place m) := (Keeps.shiftRight m _).roundedMantissa (Nat.two_pow_pos _)
  obtain ⟨hlow, hhigh⟩ := nearest_place_bounds hlog
  obtain ⟨m', j, hcarry, hlow, hhigh, hm'⟩ := shift_carry (k := k + (m.log2 - 52)) hlow hhigh
  have hm : m ≠ 0 := by
    rintro rfl
    norm_num at hlog
  have hn : n ≠ 0 := (ne_zero_iff_of_value h).mp hm
  have hvalue : m' * 2 ^ (k + (m.log2 - 52) + j) = rounded n * 2 ^ 1074 := by
    calc m' * 2 ^ (k + (m.log2 - 52) + j)
        = m' * 2 ^ j * 2 ^ (m.log2 - 52) * 2 ^ k := by rw [pow_add, pow_add]; ring
      _ = rounded m * 2 ^ k := by rw [hm']; rfl
      _ = rounded n * 2 ^ 1074 := by
          rw [← rounded_mul_two_pow hm, h, rounded_mul_two_pow hn]
  have hround : roundWithAccuracy Format.binary64 s m (k - 1074) .exact =
      .finite s m' (((k + (m.log2 - 52) + j : ℕ) : ℤ) - 1074) (by omega) := by
    rw [roundWithAccuracy, shiftToTargetExponent_eq]
    dsimp only
    rw [hrounded, hcarry]
    exact dif_neg (show m' ≠ 0 by omega)
  rw [hround]
  exact .finite hlow hhigh hvalue

/-- Zeros are appended to a mantissa of fewer digits first. -/
theorem denotes_round (hn : n ≠ 0) (h : m * 2 ^ k = n * 2 ^ 1074) :
    Denotes (UnpackedFloat.round Format.binary64 s m (k - 1074)) (s.apply (rounded n)) := by
  have hm : m ≠ 0 := (ne_zero_iff_of_value h).mpr hn
  have hlog : m.log2 + k = n.log2 + 1074 := log2_add_of_value h hm
  have hshift : ((k : ℤ) - 1074 -
      Format.binary64.targetExponent (totalExponent m (k - 1074))).toNat = 52 - m.log2 := by
    simp only [Format.targetExponent, totalExponent, mantissaBits_binary64, Format.minExponent]
    norm_num
    omega
  have hexponent : (k : ℤ) - 1074 - ((52 - m.log2 : ℕ) : ℤ) =
      ((k - (52 - m.log2) : ℕ) : ℤ) - 1074 := by omega
  rw [UnpackedFloat.round]
  simp only [decreaseExponent, hshift, hexponent, Nat.shiftLeft_eq]
  refine denotes_roundWithAccuracy ?_ ?_
  · rw [log2_mul_two_pow hm]
    omega
  · rw [Nat.mul_assoc, ← pow_add, ← h]
    congr 2
    omega

theorem log2_of_value (hlow : 2 ^ 52 ≤ m) (hhigh : m < 2 ^ 53) (h : m * 2 ^ k = n * 2 ^ 1074) :
    n ≠ 0 ∧ k = n.log2 + 1022 := by
  have hm : m ≠ 0 := by omega
  have hlog : m.log2 = 52 := (Nat.log2_eq_iff hm).mpr ⟨hlow, hhigh⟩
  have hsum : m.log2 + k = n.log2 + 1074 := log2_add_of_value h hm
  exact ⟨(ne_zero_iff_of_value h).mp hm, by omega⟩

end

/-! ## Comparing -/

theorem compare_congr {α β : Type} [LinearOrder α] [LinearOrder β] {a b : α} {c d : β}
    (hlt : a < b ↔ c < d) (hgt : b < a ↔ d < c) : compare a b = compare c d := by
  rcases lt_trichotomy a b with h | rfl | h
  · rw [compare_lt_iff_lt.mpr h, compare_lt_iff_lt.mpr (hlt.mp h)]
  · have hcd : c = d := le_antisymm (not_lt.mp (mt hgt.mpr (lt_irrefl _)))
      (not_lt.mp (mt hlt.mpr (lt_irrefl _)))
    rw [compare_eq_iff_eq.mpr rfl, compare_eq_iff_eq.mpr hcd]
  · rw [compare_gt_iff_gt.mpr h, compare_gt_iff_gt.mpr (hgt.mp h)]

theorem compare_magnitude {m k n m' k' n' : ℕ} (hlow : 2 ^ 52 ≤ m) (hhigh : m < 2 ^ 53)
    (h : m * 2 ^ k = n * 2 ^ 1074) (hlow' : 2 ^ 52 ≤ m') (hhigh' : m' < 2 ^ 53)
    (h' : m' * 2 ^ k' = n' * 2 ^ 1074) :
    (compare ((k : ℤ) - 1074) (k' - 1074)).then (compare m m') = compare n n' := by
  obtain ⟨hn, rfl⟩ := log2_of_value hlow hhigh h
  obtain ⟨hn', rfl⟩ := log2_of_value hlow' hhigh' h'
  have of_log {a b : ℕ} (hb : b ≠ 0) (hlog : a.log2 < b.log2) : a < b :=
    Nat.lt_log2_self.trans_le ((Nat.pow_le_pow_right two_pos hlog).trans (Nat.log2_self_le hb))
  -- where the exponents differ they decide, since all mantissas have the same number of digits
  rcases Nat.lt_trichotomy n.log2 n'.log2 with hlog | hlog | hlog
  · rw [compare_lt_iff_lt.mpr (by omega), compare_lt_iff_lt.mpr (of_log hn' hlog)]
    rfl
  · rw [hlog] at h
    rw [compare_eq_iff_eq.mpr (by omega)]
    refine compare_congr ?_ ?_
    · rw [← Nat.mul_lt_mul_right (Nat.two_pow_pos (n'.log2 + 1022)), h, h',
        Nat.mul_lt_mul_right (pow_pos two_pos _)]
    · rw [← Nat.mul_lt_mul_right (Nat.two_pow_pos (n'.log2 + 1022)), h, h',
        Nat.mul_lt_mul_right (pow_pos two_pos _)]
  · rw [compare_gt_iff_gt.mpr (by omega), compare_gt_iff_gt.mpr (of_log hn hlog)]
    rfl

theorem Denotes.compare {u u' : UnpackedFloat} {v v' : ℤ} (h : Denotes u v) (h' : Denotes u' v') :
    u.compare u' = some (compare v v') := by
  have apply_neg {n : ℕ} (hn : n ≠ 0) : Sign.negative.apply n < 0 := by
    simp only [Sign.apply]
    omega
  have apply_pos {n : ℕ} (hn : n ≠ 0) : 0 < Sign.positive.apply n := by
    simp only [Sign.apply]
    omega
  cases h with
  | zero =>
      cases h' with
      | zero => rfl
      | @finite s' m' k' n' hm' hlow' hhigh' hvalue' =>
          have hn' := (log2_of_value hlow' hhigh' hvalue').1
          cases s' with
          | negative => rw [compare_gt_iff_gt.mpr (apply_neg hn')]; rfl
          | positive => rw [compare_lt_iff_lt.mpr (apply_pos hn')]; rfl
  | @finite s m k n hm hlow hhigh hvalue =>
      have hn := (log2_of_value hlow hhigh hvalue).1
      cases h' with
      | zero =>
          cases s with
          | negative => rw [compare_lt_iff_lt.mpr (apply_neg hn)]; rfl
          | positive => rw [compare_gt_iff_gt.mpr (apply_pos hn)]; rfl
      | @finite s' m' k' n' hm' hlow' hhigh' hvalue' =>
          have hn' := (log2_of_value hlow' hhigh' hvalue').1
          have hmagnitude := compare_magnitude hlow hhigh hvalue hlow' hhigh' hvalue'
          cases s <;> cases s'
          · change some
              ((Ord.compare ((k : ℤ) - 1074) (k' - 1074)).then (Ord.compare m m')).swap = _
            rw [hmagnitude, ← Std.OrientedOrd.eq_swap]
            exact congrArg some (compare_congr (by simp [Sign.apply]) (by simp [Sign.apply]))
          · rw [compare_lt_iff_lt.mpr ((apply_neg hn).trans (apply_pos hn'))]; rfl
          · rw [compare_gt_iff_gt.mpr ((apply_neg hn').trans (apply_pos hn))]; rfl
          · change some ((Ord.compare ((k : ℤ) - 1074) (k' - 1074)).then (Ord.compare m m')) = _
            rw [hmagnitude]
            exact congrArg some (compare_congr (by simp [Sign.apply]) (by simp [Sign.apply]))

/-! ## Packing -/

theorem toNat_append_implicit {m : ℕ} (hlow : 2 ^ 52 ≤ m) (hhigh : m < 2 ^ 53) :
    (1#1 ++ BitVec.ofNat 52 m).toNat = m := by
  rw [BitVec.toNat_append, ← Nat.shiftLeft_add_eq_or_of_lt (BitVec.isLt _), Nat.shiftLeft_eq,
    BitVec.toNat_ofNat, BitVec.toNat_ofNat]
  omega

/-- The sign is the bit above the exponent and the mantissa. -/
theorem sign_packComponents (s : Sign) (e : BitVec 11) (m : BitVec 52) :
    Sign.ofBitVec (unpackSign (packComponents Format.binary64 s e m)) = s := by
  have hsign : (s.toBitVec ++ e ++ m).extractLsb 63 63 = s.toBitVec := by
    apply BitVec.eq_of_getLsbD_eq
    intro i hi
    obtain rfl : i = 0 := by omega
    rw [BitVec.getLsbD_extractLsb, BitVec.getLsbD_append, BitVec.getLsbD_append]
    rfl
  refine (congrArg Sign.ofBitVec hsign).trans ?_
  cases s <;> rfl

section

variable {s : Sign} {m l : ℕ} {hm : 0 < m}

theorem pack_finite (hlow : 2 ^ 52 ≤ m) (hhigh : m < 2 ^ 53) (hl : l < 100) :
    UnpackedFloat.pack Format.binary64 (.finite s m ((l + 1022 : ℕ) - 1074) hm) =
      packComponents Format.binary64 s (BitVec.ofNat 11 (l + 1023)) (BitVec.ofNat 52 m) := by
  have hlog : m.log2 = 52 := (Nat.log2_eq_iff hm.ne').mpr ⟨hlow, hhigh⟩
  have hbias : (((l + 1022 : ℕ) : ℤ) - 1074 + (Format.binary64.exponentBias : ℤ) +
      Format.binary64.mantissaBitsWithoutImplicit).toNat = l + 1023 := by
    simp only [Format.exponentBias]
    omega
  unfold UnpackedFloat.pack
  rw [hbias, if_neg (by norm_num; omega), if_pos (by rw [hlog]; rfl)]

theorem unpack_packComponents (hlow : 2 ^ 52 ≤ m) (hhigh : m < 2 ^ 53) (hl : l < 100) :
    UnpackedFloat.unpack Format.binary64
        (packComponents Format.binary64 s (BitVec.ofNat 11 (l + 1023)) (BitVec.ofNat 52 m)) =
      .finite s m ((l + 1022 : ℕ) - 1074) hm := by
  have hexponent : (BitVec.ofNat 11 (l + 1023)).toNat = l + 1023 := by
    rw [BitVec.toNat_ofNat, Nat.mod_eq_of_lt (by omega)]
  have hfinite : BitVec.ofNat 11 (l + 1023) ≠ -1#11 := fun heq => by
    have := congrArg BitVec.toNat heq
    rw [hexponent] at this
    simp at this
    omega
  have hnormal : BitVec.ofNat 11 (l + 1023) ≠ 0#11 := fun heq => by
    have := congrArg BitVec.toNat heq
    rw [hexponent] at this
    simp at this
  have hunbias : ((BitVec.ofNat 11 (l + 1023)).toNat : ℤ) -
      ((Format.binary64.exponentBias : ℤ) + Format.binary64.mantissaBitsWithoutImplicit) =
      ((l + 1022 : ℕ) : ℤ) - 1074 := by
    rw [hexponent]
    simp only [Format.exponentBias]
    omega
  unfold UnpackedFloat.unpack
  rw [unpackExponent_packComponents, if_neg hfinite, if_neg hnormal, finite.injEq,
    unpackMantissa_packComponents]
  exact ⟨sign_packComponents _ _ _, toNat_append_implicit hlow hhigh, hunbias⟩

end

/-- A double that is not too large is unpacked as it was packed. -/
theorem Denotes.unpack_pack {u : UnpackedFloat} {v : ℤ} (h : Denotes u v)
    (hv : v.natAbs < 2 ^ 100) :
    UnpackedFloat.unpack Format.binary64 (UnpackedFloat.pack Format.binary64 u) = u := by
  cases h with
  | @zero s => cases s <;> rfl
  | @finite s m k n hm hlow hhigh hvalue =>
      obtain ⟨hn, rfl⟩ := log2_of_value hlow hhigh hvalue
      have hlog : n.log2 < 100 := by
        refine (Nat.log2_lt hn).mpr ?_
        cases s <;> simpa [Sign.apply] using hv
      rw [pack_finite hlow hhigh hlog, unpack_packComponents hlow hhigh hlog]

/-! ## The operations -/

section

variable {s : Sign} {u u' : UnpackedFloat} {a b n : ℕ}

theorem Denotes.exists_finite (h : Denotes u (s.apply n)) (hn : n ≠ 0) :
    ∃ m k hm, u = .finite s m ((k : ℕ) - 1074) hm ∧ 2 ^ 52 ≤ m ∧ m < 2 ^ 53 ∧
      m * 2 ^ k = n * 2 ^ 1074 := by
  generalize hv : s.apply n = v at h
  cases h with
  | zero => cases s <;> simp [Sign.apply, hn] at hv
  | @finite s' m k n' hm hlow hhigh hvalue =>
      have hn' := (log2_of_value hlow hhigh hvalue).1
      obtain ⟨rfl, rfl⟩ : s = s' ∧ n = n' := by
        cases s <;> cases s' <;> simp [Sign.apply] at hv ⊢ <;> omega
      exact ⟨m, k, hm, rfl, hlow, hhigh, hvalue⟩

theorem Denotes.neg {v : ℤ} (h : Denotes u v) : Denotes u.neg (-v) := by
  cases h with
  | zero => exact .zero
  | @finite s m k n hm hlow hhigh hvalue =>
      have hsign : -(s.apply n) = (-s).apply n := by
        cases s with
        | negative => exact neg_neg _
        | positive => rfl
      rw [hsign]
      exact .finite hlow hhigh hvalue

theorem normalize_apply {e : ℤ} {z : Sign} {m : ℕ} (hm : m ≠ 0) :
    UnpackedFloat.normalize Format.binary64 (s.apply m) e z =
      UnpackedFloat.round Format.binary64 s m e := by
  cases s with
  | negative =>
      have hneg : -(m : ℤ) < 0 := by omega
      simp only [UnpackedFloat.normalize, compare_lt_iff_lt.mpr hneg, Sign.apply, neg_neg,
        Int.toNat_natCast]
  | positive =>
      have hpos : (m : ℤ) > 0 := by omega
      simp only [UnpackedFloat.normalize, compare_gt_iff_gt.mpr hpos, Sign.apply, Int.toNat_natCast]

theorem finite_add {s' : Sign} {m m' : ℕ} {e e' : ℤ} {hm : 0 < m} {hm' : 0 < m'} :
    (UnpackedFloat.finite s m e hm).add Format.binary64 (.finite s' m' e' hm') =
      .normalize Format.binary64
        (s.apply (m <<< (e - min e e').toNat : ℕ) + s'.apply (m' <<< (e' - min e e').toNat : ℕ))
        (min e e') .positive :=
  rfl

theorem finite_mul {s' : Sign} {m m' : ℕ} {e e' : ℤ} {hm : 0 < m} {hm' : 0 < m'} :
    (UnpackedFloat.finite s m e hm).mul Format.binary64 (.finite s' m' e' hm') =
      roundWithAccuracy Format.binary64 (s * s') (m * m') (e + e') .exact :=
  rfl

/-- The sum of two doubles of one sign is the double nearest to the exact sum. -/
theorem Denotes.add (h : Denotes u (s.apply a)) (h' : Denotes u' (s.apply b)) (ha : a ≠ 0)
    (hb : b ≠ 0) : Denotes (u.add Format.binary64 u') (s.apply (rounded (a + b))) := by
  obtain ⟨m, k, hm, rfl, -, -, hvalue⟩ := h.exists_finite ha
  obtain ⟨m', k', hm', rfl, -, -, hvalue'⟩ := h'.exists_finite hb
  have hmin : min ((k : ℤ) - 1074) (k' - 1074) = ((min k k' : ℕ) : ℤ) - 1074 := by omega
  have hshift : ((k : ℤ) - 1074 - (((min k k' : ℕ) : ℤ) - 1074)).toNat = k - min k k' := by omega
  have hshift' : ((k' : ℤ) - 1074 - (((min k k' : ℕ) : ℤ) - 1074)).toNat = k' - min k k' := by omega
  have happly (c d : ℕ) : s.apply c + s.apply d = s.apply (c + d : ℕ) := by
    cases s <;> simp only [Sign.apply] <;> omega
  have hne : m * 2 ^ (k - min k k') + m' * 2 ^ (k' - min k k') ≠ 0 :=
    (Nat.add_pos_left (Nat.mul_pos hm (Nat.two_pow_pos _)) _).ne'
  rw [finite_add, hmin, hshift, hshift', Nat.shiftLeft_eq, Nat.shiftLeft_eq, happly,
    normalize_apply hne]
  refine denotes_round (by omega) ?_
  rw [Nat.add_mul, Nat.add_mul, Nat.mul_assoc, Nat.mul_assoc, ← pow_add, ← pow_add,
    Nat.sub_add_cancel (Nat.min_le_left k k'), Nat.sub_add_cancel (Nat.min_le_right k k'), hvalue,
    hvalue']

/-- One, as a double. -/
def one : UnpackedFloat :=
  .finite .positive (2 ^ 52) (-52) (Nat.two_pow_pos 52)

theorem unpack_one :
    (getElem Float.exactlyRepresentablePowersOfTen 0 (by decide)).toModel.unpack = one :=
  rfl

theorem Denotes.mul_one (h : Denotes u (s.apply n)) (hn : n ≠ 0) :
    Denotes (u.mul Format.binary64 one) (s.apply (rounded n)) := by
  obtain ⟨m, k, hm, rfl, hlow, hhigh, hvalue⟩ := h.exists_finite hn
  have hk : 52 ≤ k := by
    have := (log2_of_value hlow hhigh hvalue).2
    omega
  have hsign : s * .positive = s := by cases s <;> rfl
  have hexponent : (k : ℤ) - 1074 + -52 = ((k - 52 : ℕ) : ℤ) - 1074 := by omega
  rw [one, finite_mul, hsign, hexponent]
  refine denotes_roundWithAccuracy ?_ ?_
  · rw [log2_mul_two_pow hm.ne']
    exact Nat.le_add_left _ _
  · rw [Nat.mul_assoc, ← pow_add, Nat.add_sub_cancel' hk, hvalue]

end

/-- The double `x` is the integer `v`. -/
def Is (x : Float) (v : ℤ) : Prop :=
  Denotes x.toModel.unpack v

section

variable {s : Sign} {x y : Float} {v w : ℤ} {a b n : ℕ}

theorem is_pack {u : UnpackedFloat} (h : Denotes u v) (hv : v.natAbs < 2 ^ 100) :
    Is (.ofModel (Float.Model.pack u)) v := by
  change Denotes (UnpackedFloat.unpack _ (UnpackedFloat.pack _ u)) v
  rw [h.unpack_pack hv]
  exact h

theorem Is.lt_iff (hx : Is x v) (hy : Is y w) : x < y ↔ v < w := by
  have hlt : x < y ↔ x.toModel.unpack.lt y.toModel.unpack = true := decide_eq_true_iff
  rw [hlt, UnpackedFloat.lt, hx.compare hy, beq_iff_eq, Option.some_inj, compare_lt_iff_lt]

theorem Is.le_iff (hx : Is x v) (hy : Is y w) : x ≤ y ↔ v ≤ w := by
  have hle : x ≤ y ↔ x.toModel.unpack.le y.toModel.unpack = true := decide_eq_true_iff
  rw [hle, UnpackedFloat.le, hx.compare hy, Option.any_some, Std.isLE_compare]

theorem natAbs_apply : (s.apply n).natAbs = n := by
  cases s <;> simp [Sign.apply]

theorem Is.add (hx : Is x (s.apply a)) (hy : Is y (s.apply b)) (ha : a ≠ 0) (hb : b ≠ 0)
    (hbound : rounded (a + b) < 2 ^ 100) : Is (x + y) (s.apply (rounded (a + b))) :=
  is_pack (Denotes.add hx hy ha hb) (by rwa [natAbs_apply])

theorem Is.neg (hx : Is x v) (hv : v.natAbs < 2 ^ 100) : Is (-x) (-v) :=
  is_pack (Denotes.neg hx) (by rwa [Int.natAbs_neg])

theorem Is.mul_one (hx : Is x (s.apply n)) (hy : y.toModel.unpack = one) (hn : n ≠ 0)
    (hbound : rounded n < 2 ^ 100) : Is (x * y) (s.apply (rounded n)) := by
  have hdenotes : Denotes (x.toModel.unpack.mul Format.binary64 y.toModel.unpack)
      (s.apply (rounded n)) := hy ▸ Denotes.mul_one hx hn
  exact is_pack hdenotes (by rwa [natAbs_apply])

theorem denotes_ofNat (hn : n ≠ 0) :
    Denotes (UnpackedFloat.ofNat Format.binary64 n) (Sign.positive.apply (rounded n)) := by
  have hzero : (0 : ℤ) = ((1074 : ℕ) : ℤ) - 1074 := rfl
  change Denotes (UnpackedFloat.normalize Format.binary64 (Sign.positive.apply n) 0 .positive) _
  rw [normalize_apply hn, hzero]
  exact denotes_round hn rfl

theorem denotes_ofScientific (hn : n ≠ 0) :
    Denotes (UnpackedFloat.ofScientific Format.binary64 n 0) (rounded n) := by
  have hlog : n.log2 + 53 = (n * 2 ^ 53).log2 := (log2_mul_two_pow hn 53).symm
  have hsign : Sign.positive * Sign.positive = Sign.positive := rfl
  have hexponent : -((53 : ℕ) : ℤ) + 0 = ((1021 : ℕ) : ℤ) - 1074 := rfl
  rw [UnpackedFloat.ofScientific, dif_neg hn, if_neg (by norm_num), if_neg (by norm_num),
    if_pos le_rfl, finite_mul, hsign]
  simp only [mantissaBits_binary64, hexponent, Int.toNat_zero, pow_zero, Nat.mul_one,
    Nat.shiftLeft_eq]
  refine denotes_roundWithAccuracy (s := .positive) (by omega) ?_
  rw [Nat.mul_assoc, ← pow_add]

theorem is_ofNat (hn : n ≠ 0) (hbound : n ≤ 2 ^ 63) : Is (Float.ofNat n) (rounded n) := by
  have hround : rounded n ≤ 2 ^ 63 := rounded_le_of_le_two_pow hbound
  change Is (Float.ofScientific n false 0) _
  unfold Float.ofScientific
  split
  · rename_i hsmall
    have htoNat : n.toUInt64.toNat = n := by
      rw [Nat.toUInt64, UInt64.toNat_ofNat', Nat.mod_eq_of_lt (by omega)]
    have hexact : rounded n = n := by
      refine rounded_of_log2_le ?_
      have := (Nat.log2_lt hn).mpr hsmall.1
      omega
    have hfloat : Is n.toUInt64.toFloat n := by
      have hdenotes := denotes_ofNat hn
      rw [hexact] at hdenotes
      refine is_pack ?_ (by omega)
      rwa [UnpackedFloat.ofUInt64, htoNat]
    exact Is.mul_one (s := .positive) hfloat unpack_one hn (by omega)
  · exact is_pack (denotes_ofScientific hn) (by omega)

/-- An integer of 64 bits is converted to the double nearest to it. -/
theorem is_ofInt (ha : a ≠ 0) (hbound : a ≤ 2 ^ 63) :
    Is (Float.ofInt (s.apply a)) (s.apply (rounded a)) := by
  have hround : rounded a ≤ 2 ^ 63 := rounded_le_of_le_two_pow hbound
  cases s with
  | negative =>
      obtain ⟨n, rfl⟩ := Nat.exists_eq_succ_of_ne_zero ha
      exact (is_ofNat ha hbound).neg (by omega)
  | positive => exact is_ofNat ha hbound

theorem exists_apply (hv : v ≠ 0) : ∃ s a, a ≠ 0 ∧ v = Sign.apply s (a : ℕ) := by
  obtain ⟨a, rfl | rfl⟩ := Int.eq_nat_or_neg v
  · exact ⟨.positive, a, by omega, rfl⟩
  · exact ⟨.negative, a, by omega, rfl⟩

theorem sign_apply (hn : n ≠ 0) : (s.apply n).sign = s.apply 1 := by
  have hpos : (n : ℤ).sign = 1 := Int.sign_eq_one_of_pos (by omega)
  cases s with
  | negative => rw [Sign.apply, Int.sign_neg, hpos, Sign.apply]
  | positive => exact hpos

/-- The double of an integer of 64 bits has its sign and stays within `2 ^ 63`. -/
theorem exists_is_ofInt (hv : v.natAbs ≤ 2 ^ 63) :
    ∃ w : ℤ, Is (Float.ofInt v) w ∧ w.natAbs ≤ 2 ^ 63 ∧ w.sign = v.sign := by
  rcases eq_or_ne v 0 with rfl | hv0
  · exact ⟨0, .zero, hv, rfl⟩
  · obtain ⟨s, a, ha, rfl⟩ := exists_apply hv0
    rw [natAbs_apply] at hv
    have hround : rounded a ≤ 2 ^ 63 := rounded_le_of_le_two_pow hv
    have hround0 : 2 ^ 0 ≤ rounded a := le_rounded_of_two_pow_le (Nat.pos_of_ne_zero ha)
    refine ⟨_, is_ofInt ha hv, by rwa [natAbs_apply], ?_⟩
    rw [sign_apply ha, sign_apply (by omega)]

theorem zero_le_ofInt_iff (hv : v.natAbs ≤ 2 ^ 63) : 0.0 ≤ Float.ofInt v ↔ 0 ≤ v := by
  obtain ⟨w, hw, -, hsign⟩ := exists_is_ofInt hv
  have hzero : Is 0.0 0 := .zero
  rw [hzero.le_iff hw, ← Int.sign_nonneg_iff, hsign, Int.sign_nonneg_iff]

/-! ## Sums that leave 64 bits -/

/-- Where the exact sum of two integers of one sign leaves 64 bits, so does that of their doubles.
-/
theorem exists_is_add (ha : a ≤ 2 ^ 63) (hb : b ≤ 2 ^ 63) (ha0 : a ≠ 0) (hb0 : b ≠ 0)
    (h : 2 ^ 63 ≤ a + b) :
    ∃ n : ℕ, 2 ^ 63 ≤ n ∧ Is (Float.ofInt (s.apply a) + Float.ofInt (s.apply b)) (s.apply n) := by
  have hra : rounded a ≤ 2 ^ 63 := rounded_le_of_le_two_pow ha
  have hrb : rounded b ≤ 2 ^ 63 := rounded_le_of_le_two_pow hb
  have hra0 : 2 ^ 0 ≤ rounded a := le_rounded_of_two_pow_le (Nat.pos_of_ne_zero ha0)
  have hrb0 : 2 ^ 0 ≤ rounded b := le_rounded_of_two_pow_le (Nat.pos_of_ne_zero hb0)
  have hsum : rounded (rounded a + rounded b) ≤ 2 ^ 64 := rounded_le_of_le_two_pow (by omega)
  exact ⟨_, le_rounded_add h,
    (is_ofInt ha0 ha).add (is_ofInt hb0 hb) (by omega) (by omega) (by omega)⟩

theorem not_add_lt {b : ℤ} (hv : v < 2 ^ 63) (hw : w < 2 ^ 63) (hb : b.natAbs ≤ 2 ^ 63)
    (h : 2 ^ 63 ≤ v + w) : ¬ Float.ofInt v + Float.ofInt w < Float.ofInt b := by
  obtain ⟨c, hc, hbound, -⟩ := exists_is_ofInt hb
  obtain ⟨n, hn, hsum⟩ := exists_is_add (s := .positive) (a := v.toNat) (b := w.toNat)
    (by omega) (by omega) (by omega) (by omega) (by omega)
  simp only [Sign.apply, Int.toNat_of_nonneg (show 0 ≤ v by omega),
    Int.toNat_of_nonneg (show 0 ≤ w by omega)] at hsum
  rw [hsum.lt_iff hc]
  omega

theorem not_lt_add {b : ℤ} (hv : -2 ^ 63 ≤ v) (hw : -2 ^ 63 ≤ w) (hb : b.natAbs ≤ 2 ^ 63)
    (h : v + w < -2 ^ 63) : ¬ Float.ofInt b < Float.ofInt v + Float.ofInt w := by
  obtain ⟨c, hc, hbound, -⟩ := exists_is_ofInt hb
  obtain ⟨n, hn, hsum⟩ := exists_is_add (s := .negative) (a := (-v).toNat) (b := (-w).toNat)
    (by omega) (by omega) (by omega) (by omega) (by omega)
  simp only [Sign.apply, Int.toNat_of_nonneg (show 0 ≤ -v by omega),
    Int.toNat_of_nonneg (show 0 ≤ -w by omega), neg_neg] at hsum
  rw [hc.lt_iff hsum]
  omega

end

end BasicScript.Rounding
