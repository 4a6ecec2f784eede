import Mathlib.Algebra.Order.Ring.Nat
import Mathlib.Data.Nat.Log
import Mathlib.Tactic.NormNum
import Mathlib.Tactic.Ring

/-! # Rounding to doubles

A double has 53 binary digits. A larger number is rounded to the nearest that has, and to the even
one of two that are equally near. -/

namespace BasicScript.Rounding

/-- The unit of the last digit of a double of the size of `n`. -/
def place (n : ℕ) : ℕ :=
  2 ^ (n.log2 - 52)

/-- The integer nearest to a quotient, and the even one of two. -/
def nearest (n unit : ℕ) : ℕ :=
  if 2 * (n % unit) < unit ∨ 2 * (n % unit) = unit ∧ n / unit % 2 = 0 then n / unit
  else n / unit + 1

/-- The double nearest to `n`. -/
def rounded (n : ℕ) : ℕ :=
  nearest n (place n) * place n

section

variable {n unit : ℕ}

theorem nearest_of_dvd (h : unit ∣ n) (hunit : 0 < unit) : nearest n unit = n / unit := by
  rw [nearest, Nat.mod_eq_zero_of_dvd h]
  exact if_pos (.inl hunit)

theorem nearest_mul {c : ℕ} (hc : 0 < c) : nearest (n * c) (unit * c) = nearest n unit := by
  have hdouble (a : ℕ) : 2 * (a * c) = 2 * a * c := (Nat.mul_assoc 2 a c).symm
  simp only [nearest, Nat.mul_mod_mul_right, Nat.mul_div_mul_right n unit hc, hdouble,
    Nat.mul_lt_mul_right hc, Nat.mul_left_inj hc.ne']

theorem div_le_nearest : n / unit ≤ nearest n unit := by
  unfold nearest
  split <;> omega

theorem nearest_le : nearest n unit ≤ n / unit + 1 := by
  unfold nearest
  split <;> omega

/-- What rounding adds or takes away is half a unit at most. -/
theorem two_mul_le_nearest (n : ℕ) (hunit : 0 < unit) :
    2 * n ≤ 2 * (nearest n unit * unit) + unit := by
  have hn := Nat.div_add_mod' n unit
  have hmod := Nat.mod_lt n hunit
  unfold nearest
  split
  · omega
  · rw [Nat.add_mul]
    omega

end

section

variable {n : ℕ}

theorem place_pos (n : ℕ) : 0 < place n :=
  Nat.two_pow_pos _

theorem rounded_of_log2_le (h : n.log2 ≤ 52) : rounded n = n := by
  have hplace : place n = 1 := by rw [place, Nat.sub_eq_zero_of_le h, pow_zero]
  rw [rounded, hplace, nearest_of_dvd (one_dvd n) one_pos, Nat.div_one, Nat.mul_one]

theorem log2_mul_two_pow (hn : n ≠ 0) (c : ℕ) : (n * 2 ^ c).log2 = n.log2 + c := by
  have hne : n * 2 ^ c ≠ 0 := Nat.mul_ne_zero hn (Nat.two_pow_pos c).ne'
  rw [Nat.log2_eq_iff hne, Nat.add_right_comm, pow_add, pow_add _ _ c]
  exact ⟨Nat.mul_le_mul_right _ (Nat.log2_self_le hn),
    Nat.mul_lt_mul_of_pos_right Nat.lt_log2_self (Nat.two_pow_pos c)⟩

/-- The number of zeros at the end makes no difference. -/
theorem rounded_mul_two_pow (hn : n ≠ 0) (c : ℕ) : rounded (n * 2 ^ c) = rounded n * 2 ^ c := by
  have hlog := log2_mul_two_pow hn c
  rcases Nat.lt_or_ge n.log2 52 with hsmall | hlarge
  · rw [rounded_of_log2_le (Nat.le_of_lt hsmall)]
    have hdvd : place (n * 2 ^ c) ∣ n * 2 ^ c := by
      rw [place, hlog]
      exact Dvd.dvd.mul_left (pow_dvd_pow 2 (by omega)) n
    rw [rounded, nearest_of_dvd hdvd (place_pos _), Nat.div_mul_cancel hdvd]
  · have hplace : place (n * 2 ^ c) = place n * 2 ^ c := by
      rw [place, place, hlog, ← pow_add]
      congr 1
      omega
    rw [rounded, hplace, nearest_mul (Nat.two_pow_pos c), ← Nat.mul_assoc]
    rfl

theorem two_pow_mul_place (hlog : 52 ≤ n.log2) : 2 ^ 52 * place n = 2 ^ n.log2 := by
  rw [place, ← pow_add, Nat.add_sub_cancel' hlog]

theorem two_pow_succ_mul_place (hlog : 52 ≤ n.log2) : 2 ^ 53 * place n = 2 ^ (n.log2 + 1) := by
  rw [pow_succ 2 n.log2, ← two_pow_mul_place hlog]
  ring

/-- The digits that are kept begin with a one. -/
theorem div_place_bounds (hlog : 52 ≤ n.log2) :
    2 ^ 52 ≤ n / place n ∧ n / place n < 2 ^ 53 := by
  have hn : n ≠ 0 := by
    rintro rfl
    norm_num at hlog
  constructor
  · rw [Nat.le_div_iff_mul_le (place_pos n), two_pow_mul_place hlog]
    exact Nat.log2_self_le hn
  · rw [Nat.div_lt_iff_lt_mul (place_pos n), two_pow_succ_mul_place hlog]
    exact Nat.lt_log2_self

theorem nearest_place_bounds (hlog : 52 ≤ n.log2) :
    2 ^ 52 ≤ nearest n (place n) ∧ nearest n (place n) ≤ 2 ^ 53 := by
  have hbounds := div_place_bounds hlog
  have hlow : n / place n ≤ nearest n (place n) := div_le_nearest
  have hhigh : nearest n (place n) ≤ n / place n + 1 := nearest_le
  omega

/-- Rounding does not pass a power of two. -/
theorem rounded_bounds (hn : n ≠ 0) :
    2 ^ n.log2 ≤ rounded n ∧ rounded n ≤ 2 ^ (n.log2 + 1) := by
  rcases Nat.lt_or_ge n.log2 52 with hsmall | hlarge
  · rw [rounded_of_log2_le (Nat.le_of_lt hsmall)]
    exact ⟨Nat.log2_self_le hn, Nat.le_of_lt Nat.lt_log2_self⟩
  · obtain ⟨hlow, hhigh⟩ := nearest_place_bounds hlarge
    rw [← two_pow_mul_place hlarge, ← two_pow_succ_mul_place hlarge]
    exact ⟨Nat.mul_le_mul_right _ hlow, Nat.mul_le_mul_right _ hhigh⟩

theorem le_rounded_of_two_pow_le {a : ℕ} (h : 2 ^ a ≤ n) : 2 ^ a ≤ rounded n := by
  have hn : n ≠ 0 := (Nat.lt_of_lt_of_le (Nat.two_pow_pos a) h).ne'
  have ha : a ≤ n.log2 := (Nat.le_log2 hn).mpr h
  exact (Nat.pow_le_pow_right two_pos ha).trans (rounded_bounds hn).1

theorem rounded_le_of_le_two_pow {a : ℕ} (h : n ≤ 2 ^ a) : rounded n ≤ 2 ^ a := by
  rcases Nat.eq_zero_or_pos n with rfl | hpos
  · rw [rounded_of_log2_le (by simp)]
    exact Nat.zero_le _
  · rcases Nat.lt_or_eq_of_le h with hlt | rfl
    · have ha : n.log2 < a := (Nat.log2_lt hpos.ne').mpr hlt
      exact (rounded_bounds hpos.ne').2.trans (Nat.pow_le_pow_right two_pos ha)
    · have hone : rounded 1 = 1 := rounded_of_log2_le (by decide)
      have hpow := rounded_mul_two_pow one_ne_zero a
      rw [hone, Nat.one_mul] at hpow
      exact hpow.le

/-! ## Sums beyond 64 bits -/

/-- From half a unit below on, the double is `2 ^ 63` or more. -/
theorem le_rounded_of_near (h : 2 ^ 63 - 512 ≤ n) : 2 ^ 63 ≤ rounded n := by
  rcases Nat.lt_or_ge n (2 ^ 63) with hlt | hge
  · have hlog : n.log2 = 62 := (Nat.log2_eq_iff (by omega)).mpr (by omega)
    have hplace : place n = 1024 := by rw [place, hlog]; rfl
    rw [rounded, hplace, nearest]
    split <;> omega
  · exact le_rounded_of_two_pow_le hge

/-- Below `2 ^ 62` a double is a multiple of its unit, which divides 512, and rounding takes away
half of that unit at most. -/
theorem exists_unit (h : n < 2 ^ 62) :
    ∃ unit, unit ∣ 512 ∧ unit ∣ rounded n ∧ 2 * n ≤ 2 * rounded n + unit := by
  refine ⟨place n, ?_, Dvd.intro_left _ rfl, two_mul_le_nearest n (place_pos n)⟩
  have hlog : n.log2 ≤ 61 := by
    rcases Nat.eq_zero_or_pos n with rfl | hpos
    · simp
    · have := (Nat.log2_lt hpos.ne').mpr h
      omega
  exact pow_dvd_pow 2 (show n.log2 - 52 ≤ 9 by omega)

/-- The sum of two doubles does not fall below `2 ^ 63` where the exact sum does not. -/
theorem le_rounded_add {a b : ℕ} (h : 2 ^ 63 ≤ a + b) :
    2 ^ 63 ≤ rounded (rounded a + rounded b) := by
  wlog hab : b ≤ a generalizing a b
  · rw [Nat.add_comm (rounded a)]
    exact this (by omega) (by omega)
  have ha : 2 ^ 62 ≤ a := by omega
  rcases Nat.lt_or_ge a (2 ^ 63) with hlt | hge
  · have hra := le_rounded_of_two_pow_le ha
    rcases Nat.lt_or_ge b (2 ^ 62) with hb | hb
    · -- the units of both divide 512, so the sum falls short of a multiple of it by less than one
      obtain ⟨unit, hunit, hrb, hdiff⟩ := exists_unit hb
      have hlog : a.log2 = 62 := (Nat.log2_eq_iff (by omega)).mpr (by omega)
      have hplace : place a = 1024 := by rw [place, hlog]; rfl
      have hdvda : 1024 ∣ rounded a := hplace ▸ Dvd.intro_left _ rfl
      have hdiffa : 2 * a ≤ 2 * rounded a + 1024 := hplace ▸ two_mul_le_nearest a (place_pos a)
      have hunit' : unit ∣ 1024 := hunit.trans (by decide)
      obtain ⟨k, hk⟩ : unit ∣ rounded a + rounded b := Nat.dvd_add (hunit'.trans hdvda) hrb
      obtain ⟨t, ht⟩ : unit ∣ 2 ^ 63 - 512 := hunit.trans (by decide)
      have hkt : t ≤ k := by
        by_contra hlt
        have hmul : unit * (k + 1) ≤ unit * t := Nat.mul_le_mul_left unit (by omega)
        rw [Nat.mul_succ] at hmul
        have hpos := Nat.pos_of_dvd_of_pos hunit (by decide)
        omega
      have hmul : unit * t ≤ unit * k := Nat.mul_le_mul_left unit hkt
      exact le_rounded_of_near (by omega)
    · have hrb := le_rounded_of_two_pow_le hb
      exact le_rounded_of_near (by omega)
  · have hra := le_rounded_of_two_pow_le hge
    exact le_rounded_of_near (by omega)

end

end BasicScript.Rounding
