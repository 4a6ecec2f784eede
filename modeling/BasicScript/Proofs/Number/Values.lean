import BasicScript.Proofs.Number.Integers
import Mathlib.Algebra.Order.Field.Rat
import Mathlib.Tactic.FieldSimp
import Mathlib.Tactic.Positivity
import Mathlib.Tactic.Ring

/-! # The exact values of numbers

Every number but the infinities and those that are no number has an exact value, a fraction. A
number serves as the integer that is its value, and an index that is an integer counts from the
end of a list if it is negative. -/

namespace BasicScript

namespace Decimal.Dyadic

/-- The mantissa with its sign. -/
def signed (d : Dyadic) : Int :=
  if d.negative then -d.mantissa else d.mantissa

/-- The fraction that a finite double stands for. -/
def value (d : Dyadic) : ℚ :=
  d.signed * 2 ^ d.exponent

theorem signed_eq_mul_iff (d : Dyadic) {i : Int} {unit : Nat} (hunit : 0 < unit) :
    d.signed = i * unit ↔
      ∃ q : Nat, d.mantissa = q * unit ∧ (if d.negative then -(q : Int) else q) = i := by
  unfold signed
  constructor
  · intro h
    have hsize : d.mantissa = i.natAbs * unit := by
      have := congrArg Int.natAbs h
      rw [Int.natAbs_mul, Int.natAbs_natCast] at this
      rw [← this]
      split <;> simp
    refine ⟨i.natAbs, hsize, ?_⟩
    rw [hsize, Nat.cast_mul] at h
    apply Int.eq_of_mul_eq_mul_right (Int.natCast_ne_zero.mpr hunit.ne')
    rw [← h]
    split <;> ring
  · rintro ⟨q, hq, rfl⟩
    rw [hq, Nat.cast_mul]
    split <;> ring

/-- A double is whole if its value is an integer, and then it is that integer. -/
theorem toInt?_eq_some_iff (d : Dyadic) (i : Int) : d.toInt? = some i ↔ d.value = i := by
  unfold value
  rcases hexponent : d.exponent with e | e
  · have hint : d.toInt? = some (d.signed * 2 ^ e) := by
      simp only [toInt?, hexponent, signed]
      split <;> simp
    rw [hint, Option.some.injEq, ← Int.cast_inj (α := ℚ)]
    simp
  · have hpos : ((2 ^ (e + 1) : Nat) : ℚ) ≠ 0 := by positivity
    have hpower : (2 : ℚ) ^ Int.negSucc e = ((2 ^ (e + 1) : Nat) : ℚ)⁻¹ := by
      rw [zpow_negSucc]
      norm_cast
    have hvalue : (d.signed : ℚ) * 2 ^ Int.negSucc e = i ↔
        d.signed = i * (2 ^ (e + 1) : Nat) := by
      rw [hpower, ← div_eq_mul_inv, div_eq_iff hpos]
      exact_mod_cast Iff.rfl
    have hunit : 0 < 2 ^ (e + 1) := by positivity
    rw [hvalue, signed_eq_mul_iff d hunit]
    simp only [toInt?, hexponent, Nat.pow_eq, Option.map_eq_some_iff, Option.bind_eq_bind,
      Option.pure_def, Option.bind_eq_some_iff, Option.ite_none_right_eq_some, Option.some.injEq]
    constructor
    · rintro ⟨_, ⟨q, ⟨hwhole, rfl⟩, rfl⟩, hi⟩
      exact ⟨_, (Nat.div_mul_cancel (Nat.dvd_of_mod_eq_zero hwhole)).symm, hi⟩
    · rintro ⟨q, hq, hi⟩
      have hwhole : d.mantissa % 2 ^ (e + 1) = 0 := by rw [hq, Nat.mul_mod_left]
      have hquotient : d.mantissa / 2 ^ (e + 1) = q := by rw [hq, Nat.mul_div_cancel q hunit]
      exact ⟨q, ⟨q, ⟨hwhole, hquotient⟩, rfl⟩, hi⟩

end Decimal.Dyadic

namespace Number

/-- The exact value of a number, if it has one. -/
def value? : Number → Option ℚ
  | .int n => some n.toInt
  | .float x =>
    match Decimal.Reading.ofFloat x with
    | .finite d => some d.value
    | _ => none

/-- A number serves as the integer that is its value, if that fits in 64 bits. -/
theorem toInt?_eq_some_iff (y : Number) (i : Int) :
    y.toInt? = some i ↔ y.value? = some (i : ℚ) ∧ fits i = true := by
  cases y with
  | int n =>
      simp only [toInt?, value?, Option.some.injEq, Int.cast_inj]
      exact ⟨fun h => ⟨h, h ▸ fits_toInt n⟩, And.left⟩
  | float x =>
      simp only [toInt?, value?]
      cases Decimal.Reading.ofFloat x with
      | finite d =>
          simp only [Option.filter_eq_some_iff, d.toInt?_eq_some_iff, Option.some.injEq]
      | _ => simp

/-! ## Indices -/

/-- In a list of length `n` the number is the index of the element at the position `p`: it is an
integer that counts from the end if it is negative. Indices are 64-bit integers, so a list that is
too long for these has none. -/
def Indexes (y : Number) (n p : Nat) : Prop :=
  n < 2 ^ 63 ∧ ∃ i : Int, y.value? = some (i : ℚ) ∧ -n ≤ i ∧ i < n ∧
    (p : Int) = if 0 ≤ i then i else n + i

theorem Indexes.lt {y : Number} {n p : Nat} (h : y.Indexes n p) : p < n := by
  obtain ⟨-, i, -, hlow, hhigh, hp⟩ := h
  split at hp <;> omega

end Number

theorem resolveIndex_eq_some_iff {n p : Nat} {i : Int} :
    resolveIndex n i = some p ↔
      n < 2 ^ 63 ∧ -n ≤ i ∧ i < n ∧ (p : Int) = if 0 ≤ i then i else n + i := by
  simp only [resolveIndex, Option.ite_none_right_eq_some, Option.some.injEq, Number.fits_iff]
  split_ifs <;> omega

/-- The position that a number means as an index is the one it is the index of. -/
theorem Number.bind_resolveIndex_eq_some_iff (y : Number) (n p : Nat) :
    y.toInt?.bind (resolveIndex n) = some p ↔ y.Indexes n p := by
  simp only [Option.bind_eq_some_iff, y.toInt?_eq_some_iff, resolveIndex_eq_some_iff, Indexes]
  constructor
  · rintro ⟨i, ⟨hvalue, -⟩, hn, hi⟩
    exact ⟨hn, i, hvalue, hi⟩
  · rintro ⟨hn, i, hvalue, hlow, hhigh, hp⟩
    have hfits : fits i = true := fits_iff.mpr (by omega)
    exact ⟨i, ⟨hvalue, hfits⟩, hn, hlow, hhigh, hp⟩

end BasicScript
