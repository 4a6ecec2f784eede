import BasicScript.Number.Arithmetic
import Mathlib.Algebra.Order.Ring.Int
import Mathlib.Tactic.NormNum

/-! # Integers stay integers

The sum, the difference and the product of two integers are the exact integers as long as these fit
in 64 bits, and so are powers. Powers with exponents of `2 ^ 32` and more are doubles, also of the
bases 0, 1 and -1, whose powers never leave the range. -/

namespace BasicScript.Number

/-- The number is the integer `v` if that fits in 64 bits, and a double if not. -/
structure IsExactly (n : Number) (v : Int) : Prop where
  exact : -2 ^ 63 ≤ v → v < 2 ^ 63 → ∃ k : Int64, n = .int k ∧ k.toInt = v
  overflow : v < -2 ^ 63 ∨ 2 ^ 63 ≤ v → ∃ x, n = .float x

theorem fits_iff {v : Int} : fits v = true ↔ -2 ^ 63 ≤ v ∧ v < 2 ^ 63 := by
  simp only [fits, Bool.and_eq_true, decide_eq_true_eq]
  norm_num

theorem fits_of_lt {n : Nat} (hn : n < 0x8000000000000000) : fits n := by
  rw [fits_iff]
  omega

theorem toInt_ofInt_of_fits {v : Int} (h : fits v = true) : (Int64.ofInt v).toInt = v := by
  rw [fits_iff] at h
  exact Int64.toInt_ofInt_of_le h.1 h.2

theorem fits_toInt (a : Int64) : fits a.toInt = true :=
  fits_iff.mpr ⟨a.le_toInt, a.toInt_lt⟩

/-- What is computed exactly is kept if it fits, and else computed again on doubles. -/
theorem combine_isExactly {exact : Int → Int → Option Int} {rounded : Float → Float → Float}
    {a b : Int64} {v : Int} (h : exact a.toInt b.toInt = some v ∨
      exact a.toInt b.toInt = none ∧ fits v = false) :
    (combine exact rounded (.int a) (.int b)).IsExactly v := by
  have hfits : ((exact a.toInt b.toInt).bind ofInt?) = ofInt? v := by
    rcases h with h | ⟨h, hv⟩
    · rw [h]
      rfl
    · rw [h, ofInt?, hv]
      rfl
  constructor
  · intro hlow hhigh
    have hv : fits v = true := fits_iff.mpr ⟨hlow, hhigh⟩
    refine ⟨Int64.ofInt v, ?_, toInt_ofInt_of_fits hv⟩
    rw [combine, hfits, ofInt?, if_pos hv]
    rfl
  · intro hout
    have hv : ¬ fits v = true := by
      rw [fits_iff]
      omega
    refine ⟨rounded (Number.int a).toFloat (Number.int b).toFloat, ?_⟩
    rw [combine, hfits, ofInt?, if_neg hv]
    rfl

/-! ## Powers -/

/-- A base of two or more in size leaves 64 bits before the exponent 64. -/
theorem not_fits_pow {base : Int} (hbase : 1 < base.natAbs) {n : Nat} (hn : 64 ≤ n) :
    fits (base ^ n) = false := by
  have hlarge : 2 ^ 64 ≤ (base ^ n).natAbs := by
    calc 2 ^ 64 ≤ 2 ^ n := Nat.pow_le_pow_right (by norm_num) hn
      _ ≤ base.natAbs ^ n := Nat.pow_le_pow_left hbase n
      _ = (base ^ n).natAbs := (Int.natAbs_pow base n).symm
  rw [Bool.eq_false_iff, ne_eq, fits_iff]
  omega

/-- The powers of 0, 1 and -1 alternate at most. -/
theorem pow_of_natAbs_le_one {base : Int} (hbase : base.natAbs ≤ 1) (n : Nat) :
    base ^ n = if n = 0 then 1 else if n % 2 = 0 then base * base else base := by
  obtain rfl | rfl | rfl : base = 0 ∨ base = 1 ∨ base = -1 := by omega
  · cases n <;> simp
  · simp
  · obtain ⟨k, rfl | rfl⟩ := n.even_or_odd'
    · cases k <;> simp
    · simp [pow_succ]

/-- Below the bound on exponents an integer power is computed whenever it can fit. -/
theorem power?_cases {base exponent : Int} (hlow : 0 ≤ exponent)
    (hhigh : exponent < exponentBound ∨ 1 < base.natAbs) :
    power? base exponent = some (base ^ exponent.toNat) ∨
      power? base exponent = none ∧ fits (base ^ exponent.toNat) = false := by
  unfold power?
  by_cases hbound : exponent < 0 ∨ exponentBound ≤ exponent
  · rw [if_pos hbound]
    have hbase : 1 < base.natAbs := by omega
    have hexponent : 64 ≤ exponent.toNat := by
      unfold exponentBound at hbound
      omega
    exact .inr ⟨rfl, not_fits_pow hbase hexponent⟩
  · rw [if_neg hbound]
    by_cases hbase : base.natAbs ≤ 1
    · rw [if_pos hbase, pow_of_natAbs_le_one hbase]
      have hzero : exponent = 0 ↔ exponent.toNat = 0 := by omega
      have heven : exponent % 2 = 0 ↔ exponent.toNat % 2 = 0 := by omega
      left
      simp only [hzero, heven]
      split_ifs <;> rfl
    · rw [if_neg hbase]
      by_cases hexponent : exponent < 64
      · rw [if_pos hexponent]
        exact .inl rfl
      · rw [if_neg hexponent]
        exact .inr ⟨rfl, not_fits_pow (by omega) (by omega)⟩

theorem power?_of_exponentBound_le {base exponent : Int} (h : exponentBound ≤ exponent) :
    power? base exponent = none :=
  if_pos (.inr h)

/-- Sums, differences, products and powers of integers are exact as long as the result fits in 64
bits, and doubles otherwise. Powers with exponents of `2 ^ 32` and more are doubles as well; they
do not fit, unless the base is 0, 1 or -1. -/
theorem arithmetic_stays_integral (a b : Int64) :
    (add (.int a) (.int b)).IsExactly (a.toInt + b.toInt) ∧
    (sub (.int a) (.int b)).IsExactly (a.toInt - b.toInt) ∧
    (mul (.int a) (.int b)).IsExactly (a.toInt * b.toInt) ∧
    (0 ≤ b.toInt → b.toInt < 2 ^ 32 ∨ 1 < a.toInt.natAbs →
      (pow (.int a) (.int b)).IsExactly (a.toInt ^ b.toInt.toNat)) ∧
    (2 ^ 32 ≤ b.toInt → ∃ x, pow (.int a) (.int b) = .float x) := by
  have hbound : exponentBound = 2 ^ 32 := by norm_num [exponentBound]
  refine ⟨combine_isExactly (.inl rfl), combine_isExactly (.inl rfl),
    combine_isExactly (.inl rfl), fun hlow hhigh => ?_, fun hlarge => ?_⟩
  · rw [← hbound] at hhigh
    exact combine_isExactly (power?_cases hlow hhigh)
  · rw [← hbound] at hlarge
    refine ⟨Float.pow (Number.int a).toFloat (Number.int b).toFloat, ?_⟩
    rw [pow, combine, power?_of_exponentBound_le hlarge]
    rfl

/-- The power of -1 with the largest exponent that is computed with is -1. -/
theorem arithmetic_stays_integral_alternating :
    0 ≤ (0xFFFFFFFF : Int64).toInt ∧ (0xFFFFFFFF : Int64).toInt < 2 ^ 32 ∧
      ∃ k : Int64, pow (.int (-1)) (.int 0xFFFFFFFF) = .int k ∧ k.toInt = -1 := by
  have hlow : 0 ≤ (0xFFFFFFFF : Int64).toInt := by decide
  have hhigh : (0xFFFFFFFF : Int64).toInt < 2 ^ 32 := by decide
  have hpow := (arithmetic_stays_integral (-1) 0xFFFFFFFF).2.2.2.1 hlow (.inl hhigh)
  have hbase : (-1 : Int64).toInt = -1 := by decide
  have hexponent : (0xFFFFFFFF : Int64).toInt.toNat % 2 = 1 := by decide
  rw [hbase, pow_of_natAbs_le_one (by decide), if_neg (by omega), if_neg (by omega)] at hpow
  exact ⟨hlow, hhigh, hpow.exact (by decide) (by decide)⟩

/-- One to the power `2 ^ 32` is one, which fits, and yet a double. -/
theorem pow_leaves_integers :
    0 ≤ (0x100000000 : Int64).toInt ∧
      ¬ (pow (.int 1) (.int 0x100000000)).IsExactly
        ((1 : Int64).toInt ^ (0x100000000 : Int64).toInt.toNat) := by
  refine ⟨by decide, fun h => ?_⟩
  have hone : (1 : Int64).toInt = 1 := by decide
  rw [hone, one_pow] at h
  obtain ⟨k, hk, -⟩ := h.exact (by norm_num) (by norm_num)
  have hnone : power? (1 : Int64).toInt (0x100000000 : Int64).toInt = none := by decide
  rw [pow, combine, hnone] at hk
  cases hk

end BasicScript.Number
