import Mathlib

/-!
# Integers in LEB128 form

The readers and encoders of `leb.c`.  `bytes` is all the memory that may be read, so an
access elsewhere is `none`, and `stop` is the place of `end` in it.  `Leb` is the grammar
of the binary format: `Leb signed N` relates the sequences for an integer of `N` bits to
their values.
-/

namespace Waste.Wasm

open BitVec List Option Nat

abbrev Bytes := List (BitVec 8)

/-- `wasm_leb_status`. -/
inductive LebStatus
  | ok | truncated | invalid
  deriving DecidableEq

/-- The test on the byte at the length bound, of which `used` bits belong to the value. -/
def lastByteInvalid (signed : Bool) (used : Nat) (byte : BitVec 8) : Bool :=
  let lowMask := ((1#32 <<< used) - 1#32).setWidth 8
  let highMask := 0x7f#8 &&& ~~~lowMask
  let signBit := (1#32 <<< (used - 1)).setWidth 8
  let expected := if signed && byte &&& signBit != 0 then highMask else 0
  byte &&& 0x80 != 0 || byte &&& highMask != expected

/-- The sign extension of `read_signed` from the bits of the sequence. -/
def extend (shift : Nat) (byte : BitVec 8) (value : BitVec 64) : BitVec 64 :=
  if shift + 7 < 64 ∧ byte &&& 0x40 ≠ 0 then value ||| BitVec.allOnes 64 <<< (shift + 7)
  else value

/-- Its sign extension from `bits` bits. -/
def narrow (bits : Nat) (value : BitVec 64) : BitVec 64 :=
  let mask := (1#64 <<< bits) - 1#64
  let low := value &&& mask
  if low &&& 1#64 <<< (bits - 1) ≠ 0 then low ||| ~~~mask else low

/-- What `read_signed` does to the value after the byte without a continuation bit;
`read_unsigned` returns it as it is. -/
def finish (signed : Bool) (bits shift : Nat) (byte : BitVec 8) (value : BitVec 64) : BitVec 64 :=
  if signed then
    if bits < 64 then narrow bits (extend shift byte value) else extend shift byte value
  else value

/-- The loop of `read_unsigned` and `read_signed`, with the number of turns left. -/
def readLoop (signed : Bool) (bits : Nat) (bytes : Bytes) (stop : Nat) :
    (turns i pos : Nat) → BitVec 64 → Option (Except LebStatus (Nat × BitVec 64))
  | 0, _, _, _ => some (.error .invalid)
  | turns + 1, i, pos, value =>
    let shift := i * 7
    if stop ≤ pos then some (.error .truncated) else do
      let byte ← bytes[pos]?
      if i + 1 = (bits + 6) / 7 ∧ lastByteInvalid signed (bits - shift) byte then
        some (.error .invalid)
      else
        let value := value ||| (byte &&& 0x7f).setWidth 64 <<< shift
        if byte &&& 0x80 = 0 then some (.ok (pos + 1, finish signed bits shift byte value))
        else readLoop signed bits bytes stop turns (i + 1) (pos + 1) value

/-- The five codecs, by the name of the type. -/
inductive LebType
  | u32 | u64 | i32 | s33 | i64

namespace LebType

def signed : LebType → Bool
  | u32 | u64 => false
  | i32 | s33 | i64 => true

def bits : LebType → Nat
  | u32 | i32 => 32
  | s33 => 33
  | u64 | i64 => 64

/-- The value stored through `out`. -/
def out : LebType → BitVec 64 → Int
  | u32, value => (value.setWidth 32).toNat
  | u64, value => value.toNat
  | i32, value => (value.setWidth 32).toInt
  | s33, value | i64, value => value.toInt

/-- `wasm_leb_read_u32` and the others: the status, the cursor and the output. -/
def read (t : LebType) (bytes : Bytes) (stop cursor : Nat) (out : Int) :
    Option (LebStatus × Nat × Int) := do
  match ← readLoop t.signed t.bits bytes stop ((t.bits + 6) / 7) 0 cursor 0 with
  | .ok (cursor, value) => some (.ok, cursor, t.out value)
  | .error status => some (status, cursor, out)

end LebType

/-- The loop of `wasm_leb_encode_u32` and `wasm_leb_encode_u64`. -/
def encodeUnsigned (value : Nat) : Bytes :=
  let byte := BitVec.ofNat 8 (value &&& 0x7f)
  if _h : value >>> 7 = 0 then [byte] else (byte ||| 0x80) :: encodeUnsigned (value >>> 7)
termination_by value
decreasing_by
  rw [Nat.shiftRight_eq_div_pow] at *
  omega

def shiftSigned7 (value : Int) : Int :=
  if 0 ≤ value then value.tdiv 128 else -1 - (~~~BitVec.ofInt 64 value >>> 7).toNat

/-- `encode_signed` with the room left in `out`; `none` where it returns 0. -/
def encodeSigned : (capacity : Nat) → Int → Option Bytes
  | 0, _ => none
  | capacity + 1, value =>
    let byte := (BitVec.ofInt 64 value).setWidth 8 &&& 0x7f
    let next := shiftSigned7 value
    if next = 0 ∧ byte &&& 0x40 = 0 ∨ next = -1 ∧ byte &&& 0x40 ≠ 0 then some [byte]
    else (encodeSigned capacity next).map ((byte ||| 0x80) :: ·)

/-- `wasm_leb_encode_u32` and the others. -/
def LebType.encode : LebType → Int → Option Bytes
  | u32, value | u64, value => some (encodeUnsigned value.toNat)
  | i32, value => encodeSigned 5 value
  | i64, value => encodeSigned 10 value
  | s33, value =>
    if value < -4294967296 ∨ 4294967295 < value then none else encodeSigned 5 value

/-! ## The grammar -/

/-- The integers of `N` bits. -/
def InRange (signed : Bool) (N : Nat) (v : Int) : Prop :=
  if signed then -2 ^ (N - 1) ≤ v ∧ v < 2 ^ (N - 1) else 0 ≤ v ∧ v < 2 ^ N

instance (signed : Bool) (N : Nat) (v : Int) : Decidable (InRange signed N v) :=
  inferInstanceAs (Decidable (if signed then _ else _))

/-- The value of a byte that ends a sequence. -/
def payload (signed : Bool) (n : BitVec 8) : Int :=
  if signed ∧ 2 ^ 6 ≤ n.toNat then n.toNat - 2 ^ 7 else n.toNat

inductive Leb (signed : Bool) : Nat → Bytes → Int → Prop
  | last {N : Nat} {n : BitVec 8} (hn : n.toNat < 2 ^ 7)
      (hN : InRange signed N (payload signed n)) : Leb signed N [n] (payload signed n)
  | more {N : Nat} {n : BitVec 8} {bs : Bytes} {m : Int} (hn : 2 ^ 7 ≤ n.toNat)
      (hN : 7 < N) (hbs : Leb signed (N - 7) bs m) :
      Leb signed N (n :: bs) (2 ^ 7 * m + (n.toNat - 2 ^ 7))

variable {signed : Bool} {N bits shift i pos turns : Nat} {bs bs' bytes : Bytes}
  {v v' : Int} {n : BitVec 8} {value : BitVec 64}

/-- No sequence of the grammar starts another. -/
theorem Leb.unique (h : Leb signed N bs v) (h' : Leb signed N bs' v') {r r' : Bytes}
    (hr : bs ++ r = bs' ++ r') : bs = bs' ∧ v = v' := by
  induction h generalizing bs' v' with
  | last hn _ =>
    cases h' with
    | last _ _ => simp_all
    | more hn' _ _ =>
      obtain ⟨rfl, -⟩ := cons.inj hr
      omega
  | more hn _ _ ih =>
    cases h' with
    | last hn' _ =>
      obtain ⟨rfl, -⟩ := cons.inj hr
      omega
    | more _ _ h' =>
      obtain ⟨rfl, htail⟩ := cons.inj hr
      obtain ⟨rfl, rfl⟩ := ih h' htail
      exact ⟨rfl, rfl⟩

theorem InRange.mono {M : Nat} (h : InRange signed N v) (hM : N ≤ M) : InRange signed M v := by
  have hpow : ∀ {a b : Nat}, a ≤ b → (2 : Int) ^ a ≤ 2 ^ b := fun hab =>
    pow_le_pow_right₀ one_le_two hab
  cases signed with
  | false => exact ⟨h.1, h.2.trans_le (hpow hM)⟩
  | true =>
    have := hpow (Nat.sub_le_sub_right hM 1)
    exact ⟨(neg_le_neg this).trans h.1, h.2.trans_le this⟩

/-- Low bits are put below an integer of the other bits. -/
theorem InRange.append {low : Int} (h0 : 0 ≤ low) (hlow : low < 2 ^ shift)
    (hs : shift < N) (hv : InRange signed (N - shift) v) :
    InRange signed N (low + 2 ^ shift * v) := by
  have hpos : (0 : Int) ≤ 2 ^ shift := pow_nonneg zero_le_two shift
  cases signed with
  | false =>
    have hhigh := mul_le_mul_of_nonneg_left (Int.add_one_le_of_lt hv.2) hpos
    have hlow := mul_nonneg hpos hv.1
    rw [pow_mul_pow_sub 2 hs.le] at hhigh
    exact ⟨by linarith, by linarith⟩
  | true =>
    have hhigh := mul_le_mul_of_nonneg_left (Int.add_one_le_of_lt hv.2) hpos
    have hlow := mul_le_mul_of_nonneg_left hv.1 hpos
    rw [Nat.sub_right_comm] at hhigh hlow
    rw [mul_neg] at hlow
    rw [pow_mul_pow_sub 2 (by omega)] at hhigh hlow
    exact ⟨by linarith, by linarith⟩

theorem Leb.inRange (h : Leb signed N bs v) : InRange signed N v := by
  induction h with
  | last _ hN => exact hN
  | @more N n _ m _ hN _ ih =>
    rw [add_comm]
    exact ih.append (by omega) (by omega) hN

/-- The test on the last byte is the range of the grammar. -/
theorem lastByteInvalid_eq (hpos : 0 < N) (hN : N ≤ 7) :
    lastByteInvalid signed N n =
      !decide (n.toNat < 2 ^ 7 ∧ InRange signed N (payload signed n)) := by
  have key : ∀ signed, ∀ N < 8, 0 < N → ∀ n : Fin 256, lastByteInvalid signed N ⟨n⟩ =
      !decide ((⟨n⟩ : BitVec 8).toNat < 2 ^ 7 ∧ InRange signed N (payload signed ⟨n⟩)) := by
    decide +kernel
  exact key signed N (by omega) hpos n.toFin

/-! ## The reader -/

theorem and_continuation (n : BitVec 8) : n &&& 0x80 = 0 ↔ n.toNat < 2 ^ 7 := by
  have key : ∀ n : Fin 256, (⟨n⟩ : BitVec 8) &&& 0x80 = 0 ↔ (n : Nat) < 2 ^ 7 := by decide +kernel
  exact key n.toFin

theorem and_sign (hn : n.toNat < 2 ^ 7) : n &&& 0x40 = 0 ↔ n.toNat < 2 ^ 6 := by
  have key : ∀ n : Fin 256, (n : Nat) < 2 ^ 7 →
      ((⟨n⟩ : BitVec 8) &&& 0x40 = 0 ↔ (n : Nat) < 2 ^ 6) := by decide +kernel
  exact key n.toFin hn

theorem and_low (n : BitVec 8) : (n &&& 0x7f).toNat = n.toNat % 2 ^ 7 :=
  and_two_pow_sub_one_eq_mod n.toNat 7

theorem low_toInt (n : BitVec 8) : ((n &&& 0x7f).setWidth 64).toInt = (n.toNat % 2 ^ 7 : Nat) := by
  rw [toInt_eq_toNat_of_lt, toNat_setWidth, and_low]
  · omega
  · rw [toNat_setWidth, and_low]
    omega

open BitVec in
/-- Bits are put above the ones read before. -/
theorem or_shiftLeft (hv : value.toNat < 2 ^ shift) (w : BitVec 64) :
    value ||| w <<< shift = .ofInt 64 (value.toNat + 2 ^ shift * w.toInt) := by
  have hdisj : value &&& w <<< shift = 0#64 := by
    apply eq_of_getLsbD_eq
    intro j hj
    by_cases hs : j < shift
    · simp [hs]
    · have : value.getLsbD j = false :=
        testBit_lt_two_pow (hv.trans_le (Nat.pow_le_pow_right zero_lt_two (not_lt.1 hs)))
      simp [this]
  have hpow : twoPow 64 shift = .ofInt 64 (2 ^ shift : Nat) := by
    rw [ofInt_natCast]
    exact eq_of_toNat_eq (by simp)
  rw [← add_eq_or_of_and_eq_zero _ _ hdisj, shiftLeft_eq_mul_twoPow, ofInt_add, ofInt_mul,
    ofInt_toInt, BitVec.mul_comm, ofInt_natCast, ofNat_toNat, setWidth_eq, hpow, cast_pow,
    cast_two]

theorem or_low_toNat (hv : value.toNat < 2 ^ shift) (hs : shift + 7 ≤ 64) :
    (value ||| (n &&& 0x7f).setWidth 64 <<< shift).toNat =
        value.toNat + 2 ^ shift * (n.toNat % 2 ^ 7) ∧
      (value ||| (n &&& 0x7f).setWidth 64 <<< shift).toNat < 2 ^ (shift + 7) := by
  have hle : 2 ^ (shift + 7) ≤ 2 ^ 64 := Nat.pow_le_pow_right (by decide) hs
  have hone : 2 ^ shift * (n.toNat % 2 ^ 7 + 1) ≤ 2 ^ shift * 2 ^ 7 :=
    mul_le_mul_left _ (mod_lt _ (by decide))
  rw [← pow_add, Nat.mul_succ] at hone
  rw [or_shiftLeft hv, low_toInt]
  norm_cast
  rw [ofInt_natCast, toNat_ofNat, mod_eq_of_lt (by linarith)]
  exact ⟨rfl, by linarith⟩

open BitVec in
theorem narrow_eq (h0 : 0 < bits) (h : bits < 64) :
    narrow bits value = (value.setWidth bits).signExtend 64 := by
  have hmask : (1#64 <<< bits) - 1#64 = (allOnes bits).setWidth 64 := by
    have : 0 < 2 ^ bits := Nat.two_pow_pos _
    apply eq_of_toNat_eq
    simp [Nat.shiftLeft_eq]
    omega
  have htwo : twoPow 64 (bits - 1) ≠ 0#64 := by
    intro h'
    have := congrArg (·.getLsbD (bits - 1)) h'
    simp at this
    omega
  have hbit : value &&& (allOnes bits).setWidth 64 &&& 1#64 <<< (bits - 1) = 0 ↔
      value.getLsbD (bits - 1) = false := by
    simp [← twoPow_eq, and_twoPow, htwo, show bits - 1 < bits by omega, show bits - 1 < 64 by omega]
  have hmsb : (value.setWidth bits).msb = value.getLsbD (bits - 1) := by simp [msb_setWidth, h0]
  simp only [narrow, hmask, ne_eq, hbit]
  apply eq_of_getLsbD_eq
  intro i hi
  rw [getLsbD_signExtend, hmsb]
  split_ifs <;> simp_all

theorem ofInt_toInt_of_inRange (h : bits ≤ 64) (hv : InRange true bits v) :
    (BitVec.ofInt 64 v).toInt = v :=
  toInt_ofInt_eq_self (by decide) (hv.mono h).1 (hv.mono h).2

theorem setWidth_toInt (h0 : 0 < bits) (h : bits ≤ 64) (hv : InRange true bits v) :
    ((BitVec.ofInt 64 v).setWidth bits).toInt = v := by
  rw [← signExtend_eq_setWidth_of_le _ h, toInt_signExtend,
    ofInt_toInt_of_inRange h hv, min_eq_left h, ← toInt_ofInt,
    toInt_ofInt_eq_self h0 hv.1 hv.2]

theorem extend_eq (hv : value.toNat < 2 ^ shift) (hn : n.toNat < 2 ^ 7) :
    extend shift n (value ||| (n &&& 0x7f).setWidth 64 <<< shift) =
      .ofInt 64 (value.toNat + 2 ^ shift * payload true n) := by
  have hsign := and_sign hn
  have hval := or_shiftLeft hv ((n &&& 0x7f).setWidth 64)
  rw [low_toInt, mod_eq_of_lt hn] at hval
  by_cases hs : n.toNat < 2 ^ 6
  · rw [extend, if_neg (fun h => h.2 (hsign.2 hs)), hval, payload, if_neg (by omega)]
  have hsub : (value.toNat : Int) + 2 ^ shift * (n.toNat - 2 ^ 7) =
      (value.toNat + 2 ^ shift * n.toNat) + 2 ^ (shift + 7) * -1 := by ring
  rw [payload, if_pos ⟨rfl, not_lt.1 hs⟩, hsub, extend]
  by_cases hlt : shift + 7 < 64
  · obtain ⟨hor, hsmall⟩ := @or_low_toNat shift n value hv hlt.le
    rw [if_pos ⟨hlt, mt hsign.1 hs⟩, or_shiftLeft hsmall, hor, mod_eq_of_lt hn,
      toInt_allOnes, if_pos (by decide)]
    rfl
  · -- the shift would leave nothing of the ones
    have hz := @or_shiftLeft (shift + 7) 0 (Nat.two_pow_pos _) (allOnes 64)
    rw [shiftLeft_eq_zero (not_lt.1 hlt), toInt_allOnes, if_pos (by decide)] at hz
    rw [if_neg (fun h => hlt h.1), hval, ofInt_add _ (_ * -1)]
    simpa using hz.symm

/-- The value after the last byte. -/
theorem finish_eq (h0 : 0 < bits) (hs : shift < bits)
    (hv : value.toNat < 2 ^ shift) (hn : n.toNat < 2 ^ 7)
    (hr : InRange signed (bits - shift) (payload signed n)) :
    finish signed bits shift n (value ||| (n &&& 0x7f).setWidth 64 <<< shift) =
      .ofInt 64 (value.toNat + 2 ^ shift * payload signed n) := by
  cases signed with
  | false =>
    rw [finish, if_neg Bool.false_ne_true, or_shiftLeft hv, low_toInt, mod_eq_of_lt hn]
    rfl
  | true =>
    have hrange := hr.append (Int.natCast_nonneg value.toNat) (by exact_mod_cast hv) hs
    rw [finish, if_pos rfl, extend_eq hv hn]
    split_ifs with h64
    · apply eq_of_toInt_eq
      rw [narrow_eq h0 h64, toInt_signExtend_of_le h64.le, setWidth_toInt h0 h64.le hrange,
        ofInt_toInt_of_inRange h64.le hrange]
    · rfl

theorem payload_inRange (hN : 7 ≤ N) (hn : n.toNat < 2 ^ 7) :
    InRange signed N (payload signed n) := by
  have key : ∀ signed, ∀ n : Fin 256, (n : Nat) < 2 ^ 7 →
      InRange signed 7 (payload signed ⟨n⟩) := by decide +kernel
  exact (key signed n.toFin hn).mono hN

/-- Whether a byte may stand where `N` bits are left. -/
def Allowed (signed : Bool) (N : Nat) (n : BitVec 8) : Prop :=
  if n.toNat < 2 ^ 7 then InRange signed N (payload signed n) else 7 < N

theorem Leb.allowed (h : Leb signed N (n :: bs) v) : Allowed signed N n := by
  cases h with
  | last hn hN => rwa [Allowed, if_pos hn]
  | more hn hN _ => rwa [Allowed, if_neg (by omega)]

theorem lastByteInvalid_iff (hi : i * 7 < bits) :
    (i + 1 = (bits + 6) / 7 ∧ lastByteInvalid signed (bits - i * 7) n) ↔
      ¬Allowed signed (bits - i * 7) n := by
  by_cases hN : bits - i * 7 ≤ 7
  · have hlast : i + 1 = (bits + 6) / 7 := by omega
    rw [lastByteInvalid_eq (by omega) hN, Allowed]
    split_ifs <;> simp_all
  have hlast : i + 1 ≠ (bits + 6) / 7 := by omega
  have : Allowed signed (bits - i * 7) n := by
    unfold Allowed
    split_ifs with hn
    · exact payload_inRange (by omega) hn
    · omega
  tauto

/-- What the loop makes of the bytes at `pos` with `bits - i * 7` bits left. -/
theorem readLoop_spec (hbits : bits ≤ 64) (hi : i * 7 < bits) (hturns : i + turns = (bits + 6) / 7)
    (hv : value.toNat < 2 ^ (i * 7)) :
    (∃ bs v x, Leb signed (bits - i * 7) bs v ∧ bs <+: bytes.drop pos ∧
      readLoop signed bits bytes bytes.length turns i pos value = some (.ok (pos + bs.length, x)) ∧
      x = .ofInt 64 (value.toNat + 2 ^ (i * 7) * v)) ∨
    (∀ bs v, Leb signed (bits - i * 7) bs v → ¬bs <+: bytes.drop pos) ∧
      ∃ e ≠ .ok, readLoop signed bits bytes bytes.length turns i pos value = some (.error e) := by
  induction turns generalizing i pos value with
  | zero => omega
  | succ turns ih =>
    by_cases hpos : bytes.length ≤ pos
    · refine .inr ⟨fun bs v h hp => ?_, .truncated, nofun, by rw [readLoop, if_pos hpos]⟩
      rw [drop_eq_nil_of_le hpos, prefix_nil] at hp
      subst hp
      cases h
    obtain ⟨n, hget, hdrop⟩ : ∃ n, bytes[pos]? = some n ∧
        bytes.drop pos = n :: bytes.drop (pos + 1) :=
      ⟨_, getElem?_eq_getElem (not_le.1 hpos), drop_eq_getElem_cons (not_le.1 hpos)⟩
    have hprefix : ∀ bs v, Leb signed (bits - i * 7) bs v → bs <+: bytes.drop pos →
        ∃ tl, bs = n :: tl ∧ tl <+: bytes.drop (pos + 1) := by
      intro bs v h hp
      rw [hdrop] at hp
      cases h with
      | _ =>
        obtain ⟨rfl, htl⟩ := cons_prefix_cons.1 hp
        exact ⟨_, rfl, htl⟩
    rw [readLoop, if_neg hpos, hget]
    simp only [bind_eq_bind, bind_some, and_continuation]
    by_cases hall : Allowed signed (bits - i * 7) n
    · rw [if_neg (mt (lastByteInvalid_iff hi).1 (not_not.2 hall))]
      split_ifs with hn
      · rw [Allowed, if_pos hn] at hall
        exact .inl ⟨[n], _, _, .last hn hall, by simp [hdrop], rfl,
          finish_eq (by omega) hi hv hn hall⟩
      rw [Allowed, if_neg hn] at hall
      have hmod : ((n.toNat % 2 ^ 7 : Nat) : Int) = n.toNat - 2 ^ 7 := by omega
      obtain ⟨hor, hlt⟩ := @or_low_toNat (i * 7) n value hv (by omega)
      rw [← add_one_mul] at hlt
      have hstep : bits - (i + 1) * 7 = bits - i * 7 - 7 := by omega
      have hrec := @ih (i + 1) (pos + 1) _ (by omega) (by omega) hlt
      rw [hstep] at hrec
      rcases hrec with ⟨bs, v, x, h, hp, hx, hval⟩ | ⟨hno, he⟩
      · refine .inl ⟨n :: bs, _, x, .more (not_lt.1 hn) hall h, ?_, ?_, ?_⟩
        · rw [hdrop]
          exact cons_prefix_cons.2 ⟨rfl, hp⟩
        · rw [hx, length_cons, add_right_comm, add_assoc]
        · rw [hval, hor, cast_add, cast_mul, hmod]
          congr 1
          push_cast
          ring
      · refine .inr ⟨fun bs v h hp => ?_, he⟩
        obtain ⟨tl, rfl, htl⟩ := hprefix bs v h hp
        cases h with
        | last hn' _ => exact hn hn'
        | more _ _ h => exact hno _ _ h htl
    · rw [if_pos ((lastByteInvalid_iff hi).2 hall)]
      refine .inr ⟨fun bs v h hp => ?_, .invalid, nofun, rfl⟩
      obtain ⟨tl, rfl, -⟩ := hprefix bs v h hp
      exact hall h.allowed

theorem LebType.read_spec (t : LebType) (cursor : Nat) (out : Int) :
    (∃ bs v, Leb t.signed t.bits bs v ∧ bs <+: bytes.drop cursor ∧
      t.read bytes bytes.length cursor out = some (.ok, cursor + bs.length, v)) ∨
    (∀ bs v, Leb t.signed t.bits bs v → ¬bs <+: bytes.drop cursor) ∧
      ∃ e ≠ .ok, t.read bytes bytes.length cursor out = some (e, cursor, out) := by
  have hloop := @readLoop_spec t.signed t.bits 0 cursor ((t.bits + 6) / 7) bytes 0
    (by cases t <;> decide) (by cases t <;> decide) (zero_add _) (by decide)
  rcases hloop with ⟨bs, v, x, h, hp, hx, hval⟩ | ⟨hno, e, hne, hx⟩
  · refine .inl ⟨bs, v, h, hp, ?_⟩
    have hr := h.inRange
    have hout : t.out x = v := by
      have hval : x = .ofInt 64 v := by simpa using hval
      subst hval
      cases t with
      | u32 | u64 =>
        obtain ⟨a, rfl⟩ := Int.eq_ofNat_of_zero_le hr.1
        have hlt : a < 2 ^ _ := Int.ofNat_lt.1 hr.2
        simp only [LebType.out, bits, ofInt_natCast, toNat_setWidth,
          toNat_ofNat] at hlt ⊢
        omega
      | i32 => exact setWidth_toInt (by decide) (by decide) hr
      | s33 | i64 => exact ofInt_toInt_of_inRange (by decide) hr
    rw [read, hx]
    simp only [bind_eq_bind, bind_some, hout]
  · refine .inr ⟨hno, e, hne, ?_⟩
    rw [read, hx]
    rfl

theorem LebType.read_eq (t : LebType) {cursor : Nat} {out : Int} (h : Leb t.signed t.bits bs v)
    (hp : bs <+: bytes.drop cursor) :
    t.read bytes bytes.length cursor out = some (.ok, cursor + bs.length, v) := by
  rcases t.read_spec cursor out with ⟨bs', v', h', ⟨r', hr'⟩, hres⟩ | ⟨hno, -⟩
  · obtain ⟨r, hr⟩ := hp
    obtain ⟨rfl, rfl⟩ := h.unique h' (hr.trans hr'.symm)
    exact hres
  · exact absurd hp (hno bs v h)

/-! ## The encoders -/

theorem or_continuation (hn : n.toNat < 2 ^ 7) : (n ||| 0x80).toNat = n.toNat + 2 ^ 7 := by
  rw [toNat_or, add_comm, Nat.or_comm]
  exact (two_pow_add_eq_or_of_lt hn 1).symm

theorem InRange.div (h : InRange signed N v) (hN : 7 < N) : InRange signed (N - 7) (v / 2 ^ 7) := by
  cases signed with
  | false =>
    have := pow_mul_pow_sub (2 : Int) hN.le
    exact ⟨by have := h.1; omega, by have := h.2; omega⟩
  | true =>
    have := pow_mul_pow_sub (2 : Int) (show 7 ≤ N - 1 by omega)
    rw [Nat.sub_right_comm] at this
    exact ⟨by have := h.1; omega, by have := h.2; omega⟩

/-- A byte of the low bits with the continuation bit. -/
theorem Leb.cons (hn : (n.toNat : Int) = v % 2 ^ 7) (hN : 7 < N)
    (h : Leb signed (N - 7) bs (v / 2 ^ 7)) : Leb signed N ((n ||| 0x80) :: bs) v := by
  have hor := or_continuation (n := n) (by omega)
  have hmore := Leb.more (n := n ||| 0x80) (by omega) hN h
  rwa [show 2 ^ 7 * (v / 2 ^ 7) + (((n ||| 0x80).toNat : Int) - 2 ^ 7) = v by omega] at hmore

theorem encodeUnsigned_spec {value : Nat} (h0 : 0 < N) (h : InRange false N value) :
    Leb false N (encodeUnsigned value) value ∧ (encodeUnsigned value).length ≤ (N + 6) / 7 := by
  induction value using Nat.strongRecOn generalizing N with
  | ind value ih =>
    have hbyte : (BitVec.ofNat 8 (value &&& 0x7f)).toNat = value % 2 ^ 7 := by
      rw [toNat_ofNat, show value &&& 0x7f = value % 2 ^ 7 from
        and_two_pow_sub_one_eq_mod value 7]
      omega
    rw [encodeUnsigned, shiftRight_eq_div_pow]
    split_ifs with hz
    · have hp : payload false (.ofNat 8 (value &&& 0x7f)) = value := by
        simp only [payload, Bool.false_eq_true, false_and, if_false, hbyte]
        omega
      have hlast := Leb.last (hbyte ▸ mod_lt _ (by decide)) (hp ▸ h)
      rw [hp] at hlast
      exact ⟨hlast, by simp only [length_singleton]; omega⟩
    · have hN : 7 < N := by
        by_contra hle
        have := (h.mono (not_lt.1 hle)).2
        omega
      obtain ⟨hleb, hlen⟩ := ih (value / 2 ^ 7) (by omega) (show 0 < N - 7 by omega) (h.div hN)
      exact ⟨hleb.cons (by rw [hbyte]; rfl) hN, by rw [length_cons]; omega⟩

theorem shiftSigned7_eq (h : InRange true 64 v) : shiftSigned7 v = v / 2 ^ 7 := by
  have h1 := h.1
  unfold shiftSigned7
  split_ifs with h0
  · rw [Int.tdiv_eq_ediv_of_nonneg h0]
    rfl
  · rw [toNat_ushiftRight, toNat_not, toNat_ofInt, shiftRight_eq_div_pow]
    omega

theorem encodeSigned_spec {capacity : Nat} (h0 : 0 < N) (h64 : N ≤ 64) (hN : N ≤ 7 * capacity)
    (hv : InRange true N v) :
    ∃ bs, encodeSigned capacity v = some bs ∧ Leb true N bs v ∧ bs.length ≤ capacity := by
  induction capacity generalizing N v with
  | zero => omega
  | succ capacity ih =>
    rw [encodeSigned, shiftSigned7_eq (hv.mono h64)]
    have hbyte : (((BitVec.ofInt 64 v).setWidth 8 &&& 0x7f).toNat : Int) = v % 2 ^ 7 := by
      rw [and_low, toNat_setWidth, toNat_ofInt]
      omega
    generalize (BitVec.ofInt 64 v).setWidth 8 &&& 0x7f = n at hbyte ⊢
    have hn : n.toNat < 2 ^ 7 := by omega
    have hsign := and_sign hn
    by_cases hlast : -2 ^ 6 ≤ v ∧ v < 2 ^ 6
    · have hp : payload true n = v := by
        simp only [payload, true_and]
        split_ifs <;> omega
      have hleb := Leb.last hn (hp ▸ hv)
      rw [hp] at hleb
      exact ⟨[n], if_pos (by rw [ne_eq, hsign]; omega), hleb, succ_le_succ (zero_le _)⟩
    · have hN7 : 7 < N := by
        by_contra hle
        exact hlast (hv.mono (not_lt.1 hle))
      obtain ⟨bs, hbs, hleb, hlen⟩ := ih (by omega) (by omega) (by omega) (hv.div hN7)
      refine ⟨(n ||| 0x80) :: bs, ?_, hleb.cons hbyte hN7, succ_le_succ hlen⟩
      rw [if_neg (by rw [ne_eq, hsign]; omega), hbs]
      rfl

theorem LebType.encode_spec (t : LebType) (hv : InRange t.signed t.bits v) :
    ∃ bs, t.encode v = some bs ∧ Leb t.signed t.bits bs v ∧ bs.length ≤ (t.bits + 6) / 7 := by
  cases t with
  | u32 | u64 =>
    obtain ⟨value, rfl⟩ := Int.eq_ofNat_of_zero_le hv.1
    exact ⟨_, rfl, encodeUnsigned_spec (by decide) hv⟩
  | i32 | i64 => exact encodeSigned_spec (by decide) (by decide) (by decide) hv
  | s33 =>
    rw [encode, if_neg (by have := hv.1; have := hv.2; simp only [bits] at *; omega)]
    exact encodeSigned_spec (by decide) (by decide) (by decide) hv

/-- Every value is encoded in as many bytes as its bits need at most and read back, whatever
follows; the readers accept the sequences of the grammar and no other bytes, and they never
read outside `bytes`. -/
theorem leb_codec (t : LebType) :
    (∀ v, InRange t.signed t.bits v → ∃ bs, t.encode v = some bs ∧ bs.length ≤ (t.bits + 6) / 7 ∧
      ∀ before suffix out,
        t.read (before ++ bs ++ suffix) (before ++ bs ++ suffix).length before.length out =
          some (.ok, before.length + bs.length, v)) ∧
    ∀ bytes cursor out,
      (∀ bs v, Leb t.signed t.bits bs v → bs <+: bytes.drop cursor →
        t.read bytes bytes.length cursor out = some (.ok, cursor + bs.length, v)) ∧
      ((∀ bs v, Leb t.signed t.bits bs v → ¬bs <+: bytes.drop cursor) →
        ∃ e ≠ .ok, t.read bytes bytes.length cursor out = some (e, cursor, out)) := by
  refine ⟨fun v hv => ?_, fun bytes cursor out => ⟨fun _ _ => t.read_eq, fun hno => ?_⟩⟩
  · obtain ⟨bs, hbs, hleb, hlen⟩ := t.encode_spec hv
    refine ⟨bs, hbs, hlen, fun before suffix out => t.read_eq hleb ?_⟩
    rw [List.append_assoc, drop_left]
    exact prefix_append _ _
  · rcases t.read_spec cursor out with ⟨bs, v, h, hp, -⟩ | ⟨-, he⟩
    · exact absurd hp (hno bs v h)
    · exact he

end Waste.Wasm
