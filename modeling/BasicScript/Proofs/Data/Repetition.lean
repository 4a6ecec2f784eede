import BasicScript.Data.Operation
import Mathlib.Algebra.Order.Ring.Int

/-! # Repeated texts

A text times an integer is so many copies of it, one behind the other, and none if the integer is
negative. It is refused if they take more than `2 ^ 28` bytes, and only then. Words of 64 bits are
enough to tell: a product that they cannot hold is too long, and none is taken for a shorter one. -/

namespace BasicScript

namespace Operation

/-! ## Copies -/

/-- Doubling comes to so many copies. -/
theorem repeated_eq_join (s : String) (n : Nat) :
    repeated s n = String.join (List.replicate n s) := by
  induction n using Nat.strongRecOn with
  | ind n ih =>
      unfold repeated
      by_cases hzero : n = 0
      · simp [hzero]
      · have hhalf : repeated s (n / 2) = String.join (List.replicate (n / 2) s) :=
          ih _ (by omega)
        rw [if_neg hzero, hhalf]
        dsimp only
        split
        · have hcopies : List.replicate n s = .replicate (n / 2) s ++ .replicate (n / 2) s := by
            rw [List.replicate_append_replicate]
            congr 1
            omega
          rw [hcopies, String.join_append]
        · have hcopies : List.replicate n s =
              .replicate (n / 2) s ++ .replicate (n / 2) s ++ [s] := by
            rw [List.replicate_append_replicate, ← List.replicate_succ']
            congr 1
            omega
          rw [hcopies, String.join_append, String.join_append, String.join_cons, String.join_nil,
            String.append_empty]

theorem utf8ByteSize_join_replicate (s : String) (n : Nat) :
    (String.join (List.replicate n s)).utf8ByteSize = s.utf8ByteSize * n := by
  induction n with
  | zero => simp
  | succ n ih =>
      rw [List.replicate_succ, String.join_cons, String.utf8ByteSize_append, ih, Nat.mul_succ,
        Nat.add_comm]

theorem join_replicate_empty (n : Nat) : String.join (List.replicate n "") = "" := by
  rw [← String.utf8ByteSize_eq_zero_iff, utf8ByteSize_join_replicate, String.utf8ByteSize_empty,
    Nat.zero_mul]

variable (span span' : Span) (trace trace' : Trace) (s : Store)

/-- A text times a number that is an integer. -/
theorem multiply_text (x : String) {y : Number} {k : Int} (hk : y.toInt? = some k) :
    multiply ⟨.text x, span, trace⟩ ⟨.number y, span', trace'⟩ s =
      if x.utf8ByteSize * k.toNat ≤ 2 ^ 28 then
        .ok ⟨.text (String.join (List.replicate k.toNat x)), span.through span', trace⟩ s
      else .error ⟨.runtime, "String is too long", none, span.through span', trace⟩ s := by
  unfold multiply
  simp only [hk]
  by_cases hfits : x.utf8ByteSize * k.toNat ≤ 2 ^ 28
  · have hlong : ¬longestText < x.utf8ByteSize * k.toNat := Nat.not_lt.mpr hfits
    rw [if_neg hlong, if_pos hfits]
    split
    · rename_i hempty
      rw [String.isEmpty_iff.mp hempty, join_replicate_empty]
      rfl
    · rw [repeated_eq_join]
      rfl
  · have hlong : longestText < x.utf8ByteSize * k.toNat := Nat.not_le.mp hfits
    rw [if_pos hlong, if_neg hfits]
    rfl

end Operation

/-! ## Words -/

namespace Word

theorem toNat_copies (n : Int64) : (copies n).toNat = n.toInt.toNat := by
  unfold copies
  split
  · rename_i hneg
    have hneg := Int64.lt_iff_toInt_lt.mp hneg
    rw [Int64.toInt_zero] at hneg
    rw [Int.toNat_of_nonpos (Int.le_of_lt hneg)]
    rfl
  · rename_i hnonneg
    rw [Int64.toNat_toUInt64_of_le (Int64.not_lt.mp hnonneg), Int64.toNat_toInt]

theorem product?_eq_none_iff {a b : UInt64} :
    product? a b = none ↔ 2 ^ 64 ≤ a.toNat * b.toNat := by
  simp [product?, BitVec.umulOverflow]

/-- A product that is there is exact. -/
theorem toNat_product {a b p : UInt64} (h : product? a b = some p) :
    p.toNat = a.toNat * b.toNat := by
  have hfits : a.toNat * b.toNat < 2 ^ 64 := by
    rw [← Nat.not_le, ← product?_eq_none_iff, h]
    simp
  rw [product?] at h
  split at h
  · cases h
  · cases h
    rw [UInt64.toNat_mul, Nat.mod_eq_of_lt hfits]

/-- Words tell which products are too long, however long these are. -/
theorem tooLong_iff (size : UInt64) (n : Int64) :
    tooLong size n = true ↔ Operation.longestText < size.toNat * n.toInt.toNat := by
  unfold tooLong
  rw [← toNat_copies]
  split
  · rename_i hnone
    have hlarge := product?_eq_none_iff.mp hnone
    refine iff_of_true rfl (Nat.lt_of_lt_of_le ?_ hlarge)
    decide
  · rename_i bytes hsome
    rw [decide_eq_true_iff, UInt64.lt_iff_toNat_lt, toNat_product hsome]
    rfl

end Word

/-- A text times an integer is exactly so many copies of it if these have at most `2 ^ 28` bytes,
and else it is refused, with nothing changed. No integer is too large for the empty text. Computed
with words of 64 bits, the size of the copies is exact or does not fit, and it is told in each case
whether they are too long. -/
theorem Operation.multiply_repeats (x : String) (n : Int64) (span span' : Span)
    (trace trace' : Trace) (s : Store) :
    let copies := n.toInt.toNat
    let joined := String.join (List.replicate copies x)
    binary .multiply ⟨.text x, span, trace⟩ ⟨.number (.int n), span', trace'⟩ s =
        (if x.utf8ByteSize * copies ≤ 2 ^ 28 then .ok ⟨.text joined, span.through span', trace⟩ s
        else .error ⟨.runtime, "String is too long", none, span.through span', trace⟩ s) ∧
      joined.utf8ByteSize = x.utf8ByteSize * copies ∧
      (n ≤ 0 ∨ x = "" → joined = "" ∧ x.utf8ByteSize * copies = 0) ∧
      ∀ size : UInt64, size.toNat = x.utf8ByteSize →
        (∀ bytes, Word.product? size (Word.copies n) = some bytes →
          bytes.toNat = x.utf8ByteSize * copies) ∧
        (Word.tooLong size n = true ↔ ¬x.utf8ByteSize * copies ≤ 2 ^ 28) := by
  intro copies joined
  have hsize : joined.utf8ByteSize = x.utf8ByteSize * copies := utf8ByteSize_join_replicate x copies
  refine ⟨multiply_text span span' trace trace' s x (y := .int n) rfl, hsize, fun hnone => ?_,
    fun size hx => ⟨fun bytes h => ?_, ?_⟩⟩
  · have hzero : x.utf8ByteSize * copies = 0 := by
      rcases hnone with hn | rfl
      · have hcopies : copies = 0 := Int.toNat_of_nonpos (Int64.le_iff_toInt_le.mp hn)
        rw [hcopies, Nat.mul_zero]
      · rw [String.utf8ByteSize_empty, Nat.zero_mul]
    exact ⟨String.utf8ByteSize_eq_zero_iff.mp (hsize.trans hzero), hzero⟩
  · rw [Word.toNat_product h, Word.toNat_copies, hx]
  · rw [Word.tooLong_iff, hx, Nat.not_le]
    rfl

/-- The product of four bytes and `2 ^ 62` copies is zero in words that wrap around, and it is told
to be too long. -/
theorem Operation.multiply_repeats_wrapping :
    let n : Int64 := 0x4000000000000000
    let s : Store := default
    4 * n.toUInt64 = 0 ∧ Word.product? 4 (Word.copies n) = none ∧ Word.tooLong 4 n = true ∧
      binary .multiply ⟨.text "abcd", default, []⟩ ⟨.number (.int n), default, []⟩ s =
        .error ⟨.runtime, "String is too long", none, default, []⟩ s := by
  intro n s
  obtain ⟨hproduct, -, -, hwords⟩ := multiply_repeats "abcd" n default default [] [] s
  have hlong : ¬"abcd".utf8ByteSize * n.toInt.toNat ≤ 2 ^ 28 := by decide
  rw [if_neg hlong] at hproduct
  exact ⟨by decide, by decide, (hwords 4 (by decide)).2.mpr hlong, hproduct⟩

end BasicScript
