import Mathlib

/-!
# The product of two 128-bit numbers

`multiply_high` adds shifted copies of the multiplicand, in two words each.
-/

namespace Waste.Libc

open BitVec

/-- The variables of the loop of `multiply_high`. -/
structure Multiplying where
  (lo hi mlo mhi bits : BitVec 64)

namespace Multiplying

/-- The body of the loop. -/
def next (s : Multiplying) : Multiplying :=
  let added := if s.bits &&& 1 ≠ 0 then
      let lo := s.lo + s.mlo
      { s with lo, hi := s.hi + (s.mhi + if lo < s.lo then 1 else 0) }
    else s
  { added with
    bits := s.bits >>> 1
    mhi := s.mhi <<< 1 ||| s.mlo >>> 63
    mlo := s.mlo <<< 1 }

def sum (s : Multiplying) : BitVec 128 := s.hi ++ s.lo

def multiplicand (s : Multiplying) : BitVec 128 := s.mhi ++ s.mlo

end Multiplying

open Multiplying

/-- `multiply_high`. -/
def multiplyHigh (a b : BitVec 64) : BitVec 64 := (next^[64] ⟨0, 0, a, 0, b⟩).hi

/-- `__multi3`: the words `out[0]` and `out[1]`. -/
def multi3 (a0 a1 b0 b1 : BitVec 64) : BitVec 64 × BitVec 64 :=
  (a0 * b0, multiplyHigh a0 b0 + a0 * b1 + a1 * b0)

theorem toNat_words (hi lo : BitVec 64) : (hi ++ lo).toNat = hi.toNat * 2 ^ 64 + lo.toNat := by
  rw [toNat_append, ← Nat.shiftLeft_add_eq_or_of_lt lo.isLt, Nat.shiftLeft_eq]

/-- The carry is that of the sum of the low words. -/
theorem add_words (hi lo mhi mlo : BitVec 64) :
    (hi + (mhi + if lo + mlo < lo then 1 else 0)) ++ (lo + mlo) = (hi ++ lo) + (mhi ++ mlo) := by
  apply eq_of_toNat_eq
  simp only [toNat_words, toNat_add, lt_def]
  split <;> simp <;> omega

theorem double_words (hi lo : BitVec 64) :
    (hi <<< 1 ||| lo >>> 63) ++ (lo <<< 1) = (hi ++ lo) + (hi ++ lo) := by
  apply eq_of_toNat_eq
  have hor : (hi <<< 1 ||| lo >>> 63).toNat = hi.toNat * 2 % 2 ^ 64 + lo.toNat / 2 ^ 63 := by
    have hlo : lo.toNat / 2 ^ 63 < 2 ^ 1 := by omega
    have hhi : hi.toNat * 2 % 2 ^ 64 = (hi.toNat % 2 ^ 63) <<< 1 := by
      rw [Nat.shiftLeft_eq]
      omega
    rw [toNat_or, toNat_shiftLeft, toNat_ushiftRight, Nat.shiftLeft_eq, Nat.shiftRight_eq_div_pow,
      Nat.pow_one, hhi, Nat.shiftLeft_add_eq_or_of_lt hlo]
  rw [toNat_words, hor, toNat_add, toNat_words, toNat_shiftLeft, Nat.shiftLeft_eq]
  omega

theorem setWidth_halve (b : BitVec 64) : b.setWidth 128 =
    (b >>> 1).setWidth 128 + (b >>> 1).setWidth 128 + if b &&& 1 ≠ 0 then 1 else 0 := by
  have hbit : b &&& 1 ≠ 0 ↔ b.toNat % 2 = 1 := by
    rw [ne_eq, ← toNat_inj, toNat_and, ← Nat.and_one_is_mod]
    simp
  apply eq_of_toNat_eq
  simp only [hbit]
  split <;> simp [Nat.shiftRight_eq_div_pow] <;> omega

theorem next_bits (s : Multiplying) : s.next.bits = s.bits >>> 1 := rfl

/-- The sum, and a copy of the multiplicand for every bit that is left. -/
theorem next_product (s : Multiplying) :
    s.next.sum + s.next.multiplicand * s.next.bits.setWidth 128 =
      s.sum + s.multiplicand * s.bits.setWidth 128 := by
  have hsum : s.next.sum = s.sum + if s.bits &&& 1 ≠ 0 then s.multiplicand else 0 := by
    unfold next sum
    split
    · exact add_words _ _ _ _
    · exact (add_zero _).symm
  have hdouble : s.next.multiplicand = s.multiplicand + s.multiplicand := by
    unfold next multiplicand
    split <;> exact double_words _ _
  rw [hsum, hdouble, next_bits, setWidth_halve s.bits]
  split <;> ring

theorem iterate_next (n : Nat) (s : Multiplying) :
    (next^[n] s).sum + (next^[n] s).multiplicand * (next^[n] s).bits.setWidth 128 =
      s.sum + s.multiplicand * s.bits.setWidth 128 ∧ (next^[n] s).bits = s.bits >>> n := by
  induction n with
  | zero => simp
  | succ n ih =>
    rw [Function.iterate_succ_apply']
    refine ⟨(next_product _).trans ih.1, ?_⟩
    rw [next_bits, ih.2, shiftRight_add]

theorem multiplyHigh_eq (a b : BitVec 64) :
    (multiplyHigh a b).toNat = a.toNat * b.toNat / 2 ^ 64 := by
  obtain ⟨hproduct, hbits⟩ := iterate_next 64 ⟨0, 0, a, 0, b⟩
  unfold multiplyHigh
  generalize next^[64] ⟨0, 0, a, 0, b⟩ = s at hproduct hbits
  -- no bit is left, and the product does not wrap around
  rw [hbits, ushiftRight_eq_zero (le_refl 64)] at hproduct
  have hlt : a.toNat * b.toNat < 2 ^ 64 * 2 ^ 64 := Nat.mul_lt_mul'' a.isLt b.isLt
  have hnat := congrArg BitVec.toNat hproduct
  simp [sum, multiplicand, toNat_words] at hnat
  omega

/-- The high word of a product of two words, and the product modulo 2 ^ 128. -/
theorem multi3_exact (a0 a1 b0 b1 : BitVec 64) :
    (∀ a b : BitVec 64, (multiplyHigh a b).toNat = a.toNat * b.toNat / 2 ^ 64) ∧
      (multi3 a0 a1 b0 b1).2 ++ (multi3 a0 a1 b0 b1).1 = (a1 ++ a0) * (b1 ++ b0) := by
  refine ⟨multiplyHigh_eq, eq_of_toNat_eq ?_⟩
  have hexpand : (a1.toNat * 2 ^ 64 + a0.toNat) * (b1.toNat * 2 ^ 64 + b0.toNat) =
      a1.toNat * b1.toNat * 2 ^ 128 + (a0.toNat * b1.toNat + a1.toNat * b0.toNat) * 2 ^ 64 +
        a0.toNat * b0.toNat := by ring
  rw [toNat_words, toNat_mul, toNat_words, toNat_words, hexpand]
  simp only [multi3, toNat_add, toNat_mul, multiplyHigh_eq]
  omega

end Waste.Libc
