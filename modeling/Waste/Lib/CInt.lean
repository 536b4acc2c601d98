import Mathlib

/-!
# The integers of C

A value has a type and its bits.  An operator answers `none` where the standard leaves
the behaviour undefined: a signed result out of its range, a shift of a negative value to
the left, a shift by a negative count or by the width, a division by zero, and a count of
leading or trailing zeros of zero.  What it leaves to the implementation is done in two's
complement.  The usual arithmetic conversions are written as casts.
-/

namespace Waste.CInt

open BitVec Option

structure IntType where
  signed : Bool
  bits : Nat

abbrev int (bits : Nat) : IntType := ⟨true, bits⟩

abbrev uint (bits : Nat) : IntType := ⟨false, bits⟩

structure Val (t : IntType) where
  bits : BitVec t.bits

/-- A literal with the suffix `u`. -/
def lit (n : Nat) : Val (uint 32) := ⟨.ofNat 32 n⟩

namespace Val

variable {s t : IntType}

def toInt (x : Val t) : Int := if t.signed then x.bits.toInt else x.bits.toNat

/-- A conversion keeps the value modulo a power of two. -/
def cast (x : Val s) (t : IntType) : Val t := ⟨.ofInt t.bits x.toInt⟩

/-- The result of an arithmetic operator. -/
def arith (n : Int) : Option (Val t) :=
  if t.signed ∧ (n < -2 ^ (t.bits - 1) ∨ 2 ^ (t.bits - 1) ≤ n) then none
  else some ⟨.ofInt t.bits n⟩

def add (x y : Val t) : Option (Val t) := arith (x.toInt + y.toInt)

def sub (x y : Val t) : Option (Val t) := arith (x.toInt - y.toInt)

def mul (x y : Val t) : Option (Val t) := arith (x.toInt * y.toInt)

def div (x y : Val t) : Option (Val t) :=
  if y.toInt = 0 then none else arith (x.toInt.tdiv y.toInt)

/-- A remainder is undefined where the quotient is. -/
def rem (x y : Val t) : Option (Val t) :=
  (x.div y).bind fun _ => arith (x.toInt.tmod y.toInt)

def and (x y : Val t) : Val t := ⟨x.bits &&& y.bits⟩

def or (x y : Val t) : Val t := ⟨x.bits ||| y.bits⟩

def xor (x y : Val t) : Val t := ⟨x.bits ^^^ y.bits⟩

def shl (x : Val t) (c : Val s) : Option (Val t) :=
  if c.toInt < 0 ∨ t.bits ≤ c.toInt ∨ t.signed ∧ x.toInt < 0 then none
  else arith (x.toInt * 2 ^ c.toInt.toNat)

def shr (x : Val t) (c : Val s) : Option (Val t) :=
  if c.toInt < 0 ∨ t.bits ≤ c.toInt then none
  else some ⟨.ofInt t.bits (x.toInt / 2 ^ c.toInt.toNat)⟩

/-- The result of a comparison. -/
def truth (p : Bool) : Val (int 32) := ⟨if p then 1 else 0⟩

def eq (x y : Val t) : Val (int 32) := truth (x.toInt = y.toInt)

def ne (x y : Val t) : Val (int 32) := truth (x.toInt ≠ y.toInt)

def lt (x y : Val t) : Val (int 32) := truth (x.toInt < y.toInt)

def le (x y : Val t) : Val (int 32) := truth (x.toInt ≤ y.toInt)

/-- `c ? x : y`. -/
def cond (c : Val s) (x y : Option (Val t)) : Option (Val t) := if c.toInt ≠ 0 then x else y

/-- `__builtin_clz` and `__builtin_clzll`. -/
def clz (x : Val t) : Option (Val (int 32)) :=
  if x.bits = 0 then none else some ⟨x.bits.clz.setWidth 32⟩

def ctz (x : Val t) : Option (Val (int 32)) :=
  if x.bits = 0 then none else some ⟨x.bits.ctz.setWidth 32⟩

def popcount (x : Val t) : Val (int 32) := ⟨x.bits.cpop.setWidth 32⟩

/-! ## Values by their bits -/

variable {n k : Nat} {c : Val s} (a b : BitVec n)

@[simp]
theorem toInt_uint : toInt (⟨b⟩ : Val (uint n)) = b.toNat := rfl

@[simp]
theorem toInt_int : toInt (⟨b⟩ : Val (int n)) = b.toInt := rfl

@[simp]
theorem cast_uint (t : IntType) : cast (⟨b⟩ : Val (uint n)) t = ⟨b.setWidth t.bits⟩ := by
  simp [cast]

@[simp]
theorem cast_int (t : IntType) : cast (⟨b⟩ : Val (int n)) t = ⟨b.signExtend t.bits⟩ := rfl

theorem arith_uint (k : Int) : (arith k : Option (Val (uint n))) = some ⟨.ofInt n k⟩ := rfl

theorem arith_int : (arith b.toInt : Option (Val (int n))) = some ⟨b⟩ := by
  have hlo := b.le_toInt
  have hhi := b.toInt_lt
  rw [arith, if_neg (by simp only [true_and]; omega), ofInt_toInt]

@[simp]
theorem add_uint : add (⟨a⟩ : Val (uint n)) ⟨b⟩ = some ⟨a + b⟩ := by
  simp [add, arith_uint, ofInt_add]

@[simp]
theorem sub_uint : sub (⟨a⟩ : Val (uint n)) ⟨b⟩ = some ⟨a - b⟩ := by
  simp [sub, arith_uint, Int.sub_eq_add_neg, ofInt_add, ofInt_neg, sub_eq_add_neg]

@[simp]
theorem mul_uint : mul (⟨a⟩ : Val (uint n)) ⟨b⟩ = some ⟨a * b⟩ := by
  simp [mul, arith_uint, ofInt_mul]

section Divisor

variable {b} (hb : b ≠ 0)

include hb

theorem div_uint : div (⟨a⟩ : Val (uint n)) ⟨b⟩ = some ⟨a / b⟩ := by
  have hne : ¬(b.toNat : Int) = 0 := by
    intro h
    exact hb (eq_of_toNat_eq (Int.ofNat_eq_zero.1 h))
  rw [div, toInt_uint, toInt_uint, if_neg hne, arith_uint, ← Int.ofNat_tdiv,
    ofInt_natCast, udiv_def]

theorem rem_uint : rem (⟨a⟩ : Val (uint n)) ⟨b⟩ = some ⟨a % b⟩ := by
  rw [rem, div_uint a hb, bind_some, toInt_uint, toInt_uint, arith_uint, ← Int.ofNat_tmod,
    ofInt_natCast, umod_def]

variable {a} (h : ¬(a = BitVec.intMin n ∧ b = BitVec.allOnes n))

include h

theorem div_int : div (⟨a⟩ : Val (int n)) ⟨b⟩ = some ⟨a.sdiv b⟩ := by
  have hquot : (a.sdiv b).toInt = a.toInt.tdiv b.toInt := by
    apply toInt_sdiv_of_ne_or_ne
    rwa [neg_one_eq_allOnes, ne_eq, ne_eq, ← not_and_or]
  have hne : ¬ b.toInt = 0 := fun hzero => hb (eq_of_toInt_eq (by simpa using hzero))
  rw [div, toInt_int, toInt_int, if_neg hne, ← hquot, arith_int]

theorem rem_int : rem (⟨a⟩ : Val (int n)) ⟨b⟩ = some ⟨a.srem b⟩ := by
  rw [rem, div_int hb h, bind_some, toInt_int, toInt_int, ← toInt_srem, arith_int]

end Divisor

section Shift

variable (hc : c.toInt = k) (hk : k < n)

include hc hk

theorem shl_uint : shl (⟨b⟩ : Val (uint n)) c = some ⟨b <<< k⟩ := by
  have hvalue : (b.toNat : Int) * 2 ^ k = ((b.toNat <<< k : Nat) : Int) := by
    rw [Nat.shiftLeft_eq]
    rfl
  rw [shl, hc, if_neg (by simp; omega), toInt_uint, arith_uint, Int.toNat_natCast, hvalue,
    ofInt_natCast]
  rfl

theorem shr_uint : shr (⟨b⟩ : Val (uint n)) c = some ⟨b >>> k⟩ := by
  have hvalue : (b.toNat : Int) / 2 ^ k = (b >>> k).toNat := by
    rw [toNat_ushiftRight, Nat.shiftRight_eq_div_pow]
    rfl
  rw [shr, hc, if_neg (by simp; omega), toInt_uint, Int.toNat_natCast, hvalue,
    ofInt_natCast, ofNat_toNat, setWidth_eq]

theorem shr_int : shr (⟨b⟩ : Val (int n)) c = some ⟨b.sshiftRight k⟩ := by
  have hvalue : b.toInt / 2 ^ k = b.toInt >>> k := by
    rw [Int.shiftRight_eq_div_pow]
    rfl
  rw [shr, hc, if_neg (by simp; omega), toInt_int, Int.toNat_natCast, hvalue]
  rfl

end Shift

end Val

end Waste.CInt
