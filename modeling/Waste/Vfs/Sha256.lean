import Mathlib

/-!
# The digest of the VFS loader

`sha256` never stores the padded message: it computes the byte at a position where it needs it.
The standard pads the message first and cuts it into blocks.
-/

namespace Waste.Vfs

/-- `rotate`. -/
def rotate (x : BitVec 32) (n : Nat) : BitVec 32 := x >>> n ||| x <<< (32 - n)

/-- The table `k`. -/
def k : List Nat := [
  0x428a2f98, 0x71374491, 0xb5c0fbcf, 0xe9b5dba5, 0x3956c25b, 0x59f111f1, 0x923f82a4, 0xab1c5ed5,
  0xd807aa98, 0x12835b01, 0x243185be, 0x550c7dc3, 0x72be5d74, 0x80deb1fe, 0x9bdc06a7, 0xc19bf174,
  0xe49b69c1, 0xefbe4786, 0x0fc19dc6, 0x240ca1cc, 0x2de92c6f, 0x4a7484aa, 0x5cb0a9dc, 0x76f988da,
  0x983e5152, 0xa831c66d, 0xb00327c8, 0xbf597fc7, 0xc6e00bf3, 0xd5a79147, 0x06ca6351, 0x14292967,
  0x27b70a85, 0x2e1b2138, 0x4d2c6dfc, 0x53380d13, 0x650a7354, 0x766a0abb, 0x81c2c92e, 0x92722c85,
  0xa2bfe8a1, 0xa81a664b, 0xc24b8b70, 0xc76c51a3, 0xd192e819, 0xd6990624, 0xf40e3585, 0x106aa070,
  0x19a4c116, 0x1e376c08, 0x2748774c, 0x34b0bcb5, 0x391c0cb3, 0x4ed8aa4a, 0x5b9cca4f, 0x682e6ff3,
  0x748f82ee, 0x78a5636f, 0x84c87814, 0x8cc70208, 0x90befffa, 0xa4506ceb, 0xbef9a3f7, 0xc67178f2]

/-- The initial words of `h`. -/
def h : List Nat := [0x6a09e667, 0xbb67ae85, 0x3c6ef372, 0xa54ff53a,
  0x510e527f, 0x9b05688c, 0x1f83d9ab, 0x5be0cd19]

/-- The words `h`, and the variables `a` to `z` of a block. -/
structure Words where
  (a b c d e f g z : BitVec 32)

def Words.ofList (l : List Nat) : Words :=
  let w i := BitVec.ofNat 32 (l.getD i 0)
  ⟨w 0, w 1, w 2, w 3, w 4, w 5, w 6, w 7⟩

def Words.toList (s : Words) : List (BitVec 32) := [s.a, s.b, s.c, s.d, s.e, s.f, s.g, s.z]

/-- `h[0]+=a; …`. -/
def Words.add (s t : Words) : Words :=
  ⟨s.a + t.a, s.b + t.b, s.c + t.c, s.d + t.d, s.e + t.e, s.f + t.f, s.g + t.g, s.z + t.z⟩

/-- The length with padding, where `size_t` has `n` bits.  The mask `~63` clears six of them. -/
def padded (n length : Nat) : Nat := (length + 9 + 63) % 2 ^ n / 64 * 64

/-- The byte `b` at the position `p`. -/
def paddedByte (n : Nat) (bytes : List (BitVec 8)) (p : Nat) : BitVec 8 :=
  let length := bytes.length
  if p < length then bytes.getD p 0
  else if p = length then 0x80
  else if padded n length - 8 ≤ p then
    .ofNat 8 ((length * 8 % 2 ^ 64) >>> ((padded n length - 1 - p) * 8))
  else 0

/-- The loop over `j` that reads a word. -/
def wordAt (byte : Nat → BitVec 8) (p : Nat) : BitVec 32 :=
  (List.range 4).foldl (fun word j => word <<< 8 ||| (byte (p + j)).setWidth 32) 0

variable (w : Nat → BitVec 32)

/-- The body of the loop that fills `w`, with the index less 16. -/
def extend (i : Nat) : Nat → BitVec 32 :=
  let a := w (i + 1)
  let b := w (i + 14)
  Function.update w (i + 16) (w i + (rotate a 7 ^^^ rotate a 18 ^^^ a >>> 3) + w (i + 9) +
    (rotate b 17 ^^^ rotate b 19 ^^^ b >>> 10))

/-- The words `w` of the block at a position. -/
def schedule (byte : Nat → BitVec 8) (p : Nat) : Nat → BitVec 32 :=
  (List.range 48).foldl extend fun i => wordAt byte (p + i * 4)

/-- The body of the loop over the rounds of a block. -/
def round (s : Words) (i : Nat) : Words :=
  let t := s.z + (rotate s.e 6 ^^^ rotate s.e 11 ^^^ rotate s.e 25) +
    ((s.e &&& s.f) ^^^ (~~~s.e &&& s.g)) + .ofNat 32 (k.getD i 0) + w i
  let u := (rotate s.a 2 ^^^ rotate s.a 13 ^^^ rotate s.a 22) +
    ((s.a &&& s.b) ^^^ (s.a &&& s.c) ^^^ (s.b &&& s.c))
  ⟨t + u, s.a, s.b, s.c, s.d + t, s.e, s.f, s.g⟩

/-- The character for four bits of a word. -/
def hexDigit (word : BitVec 32) (i : Nat) : Char :=
  "0123456789abcdef".toList.getD ((word >>> (28 - i * 4)) &&& 15).toNat 'x'

/-- `sha256`: the characters before the `NUL`. -/
def sha256 (n : Nat) (bytes : List (BitVec 8)) : List Char :=
  let h := (List.range (padded n bytes.length / 64)).foldl
    (fun (h : Words) i =>
      h.add ((List.range 64).foldl (round (schedule (paddedByte n bytes) (64 * i))) h)) (.ofList h)
  (List.range 64).map fun i => hexDigit (h.toList.getD (i / 8) 0) (i % 8)

/-! ## FIPS 180-4 -/

namespace Fips

/-- The first 64 primes. -/
def primes : List Nat := (List.range 312).filter Nat.Prime

/-- The first 32 bits of the fractional part of a root. -/
def rootBits (n p : Nat) : Nat := Nat.nthRoot n (p * 2 ^ (32 * n)) % 2 ^ 32

/-- The constants `K`: from cube roots of primes. -/
def constants : List Nat := primes.map (rootBits 3)

/-- The initial hash value: from square roots of the first eight primes. -/
def initial : List Nat := (primes.take 8).map (rootBits 2)

def ch (x y z : BitVec 32) : BitVec 32 := (x &&& y) ^^^ (~~~x &&& z)

def maj (x y z : BitVec 32) : BitVec 32 := (x &&& y) ^^^ (x &&& z) ^^^ (y &&& z)

def bigSigma0 (x : BitVec 32) : BitVec 32 :=
  x.rotateRight 2 ^^^ x.rotateRight 13 ^^^ x.rotateRight 22

def bigSigma1 (x : BitVec 32) : BitVec 32 :=
  x.rotateRight 6 ^^^ x.rotateRight 11 ^^^ x.rotateRight 25

def sigma0 (x : BitVec 32) : BitVec 32 := x.rotateRight 7 ^^^ x.rotateRight 18 ^^^ x >>> 3

def sigma1 (x : BitVec 32) : BitVec 32 := x.rotateRight 17 ^^^ x.rotateRight 19 ^^^ x >>> 10

/-- A number as bytes, the most significant first. -/
def bigEndian (count n : Nat) : List (BitVec 8) :=
  (List.range count).map fun i => .ofNat 8 (n / 256 ^ (count - 1 - i))

/-- The message, a one bit, the least number of zeros, and its length in 64 bits. -/
def pad (message : List (BitVec 8)) : List (BitVec 8) :=
  message ++ 0x80 :: List.replicate ((55 + 63 * message.length) % 64) 0 ++
    bigEndian 8 (message.length * 8)

/-- The word `t` of the block `i`. -/
def blockWord (padded : List (BitVec 8)) (i t : Nat) : BitVec 32 :=
  let byte j := padded.getD (64 * i + 4 * t + j) 0
  byte 0 ++ byte 1 ++ byte 2 ++ byte 3

/-- The message schedule `W`. -/
def messageSchedule (m : Nat → BitVec 32) (t : Nat) : BitVec 32 :=
  if t < 16 then m t
  else sigma1 (messageSchedule m (t - 2)) + messageSchedule m (t - 7) +
    sigma0 (messageSchedule m (t - 15)) + messageSchedule m (t - 16)

/-- One turn of the compression, on the variables `a` to `h`. -/
def step (w : Nat → BitVec 32) (s : List (BitVec 32)) (t : Nat) : List (BitVec 32) :=
  match s with
  | [a, b, c, d, e, f, g, h] =>
    let t1 := h + bigSigma1 e + ch e f g + .ofNat 32 (constants.getD t 0) + w t
    let t2 := bigSigma0 a + maj a b c
    [t1 + t2, a, b, c, d + t1, e, f, g]
  | _ => s

/-- The message digest. -/
def digest (message : List (BitVec 8)) : List (BitVec 8) :=
  let m := pad message
  let h := (List.range (m.length / 64)).foldl
    (fun h i => h.zipWith (· + ·)
      ((List.range 64).foldl (step (messageSchedule (blockWord m i))) h))
    (initial.map (BitVec.ofNat 32))
  h.flatMap fun word => bigEndian 4 word.toNat

/-- A byte in lower-case hexadecimal. -/
def hexByte (b : BitVec 8) : List Char :=
  [Nat.digitChar (b.toNat / 16), Nat.digitChar (b.toNat % 16)]

end Fips

open Fips List Function

theorem k_eq : k = constants := by decide +kernel

theorem h_eq : h = initial := by decide +kernel

theorem rotate_eq (x : BitVec 32) {n : Nat} (hn : n < 32) : rotate x n = x.rotateRight n := by
  rw [BitVec.rotateRight_def, Nat.mod_eq_of_lt hn]
  rfl

theorem round_eq (s : Words) (i : Nat) : (round w s i).toList = step w s.toList i := by
  simp [round, step, Words.toList, rotate_eq, k_eq, bigSigma0, bigSigma1, ch, maj]

/-- The words of the standard after a block. -/
theorem block_eq (s : Words) : (s.add ((range 64).foldl (round w) s)).toList =
      s.toList.zipWith (· + ·) ((range 64).foldl (step w) s.toList) := by
  rw [foldl_hom Words.toList fun s i => (round_eq w s i).symm]
  rfl

section

variable {n : Nat} {m : List (BitVec 8)} (hm : m.length < 2 ^ 61) (hn : m.length + 72 < 2 ^ n)
include hn

theorem padded_eq : padded n m.length = m.length + 1 + (55 + 63 * m.length) % 64 + 8 := by
  rw [padded, Nat.mod_eq_of_lt hn]
  omega

theorem pad_length : (pad m).length = padded n m.length := by
  simp [pad, padded_eq hn, bigEndian]
  omega

include hm

/-- The byte that the code computes is the one that padding puts there. -/
theorem paddedByte_eq {p : Nat} (hp : p < padded n m.length) :
    paddedByte n m p = (pad m).getD p 0 := by
  have hpadded := padded_eq hn
  rw [paddedByte, pad, append_assoc, cons_append, bigEndian]
  by_cases hin : p < m.length
  · rw [if_pos hin, getD_append _ _ _ _ hin]
  obtain ⟨q, rfl⟩ := Nat.exists_eq_add_of_le (Nat.le_of_not_lt hin)
  rw [if_neg hin, getD_append_right _ _ _ _ (by omega), Nat.add_sub_cancel_left]
  cases q with
  | zero => rw [if_pos (by omega), getD_cons_zero]
  | succ q =>
    rw [if_neg (by omega), getD_cons_succ]
    split_ifs with hlast
    · rw [getD_append_right _ _ _ _ (by simp; omega)]
      have hindex : padded n m.length - 1 - (m.length + (q + 1)) =
          7 - (q - (55 + 63 * m.length) % 64) := by omega
      rw [length_replicate, getD_eq_getElem _ _ (by simp; omega), hindex,
        Nat.shiftRight_eq_div_pow, Nat.mod_eq_of_lt (by omega), pow_mul']
      simp
    · rw [getD_append _ _ _ _ (by simp; omega), getD_replicate (h := by omega)]

end

theorem wordAt_eq (byte : Nat → BitVec 8) (p : Nat) :
    wordAt byte p = byte p ++ byte (p + 1) ++ byte (p + 2) ++ byte (p + 3) := by
  simp only [wordAt, range_succ, range_zero, nil_append, foldl_append,
    foldl_cons, foldl_nil]
  ext i hi
  simp
  grind

theorem messageSchedule_add (m : Nat → BitVec 32) (n : Nat) : messageSchedule m (n + 16) =
    sigma1 (messageSchedule m (n + 14)) + messageSchedule m (n + 9) +
      sigma0 (messageSchedule m (n + 1)) + messageSchedule m n := by
  rw [messageSchedule, if_neg (by omega)]
  rfl

/-- After `n` iterations the words before `16 + n` are those of the schedule. -/
theorem extend_eq {w m : Nat → BitVec 32} (hw : ∀ t < 16, w t = m t) (n : Nat) {t : Nat}
    (ht : t < 16 + n) : (range n).foldl extend w t = messageSchedule m t := by
  induction n generalizing t with
  | zero => rw [messageSchedule, if_pos ht, range_zero, foldl_nil, hw t ht]
  | succ n ih =>
    rw [range_succ, foldl_append, foldl_cons, foldl_nil, extend]
    by_cases heq : t = n + 16
    · subst heq
      rw [update_self, ih (by omega), ih (by omega), ih (by omega), ih (by omega),
        messageSchedule_add]
      simp [rotate_eq, sigma0, sigma1]
      ac_rfl
    · rw [update_of_ne heq, ih (by omega)]

theorem hexDigit_eq (word : BitVec 32) (i : Nat) :
    hexDigit word i = Nat.digitChar (word.toNat / 2 ^ (28 - i * 4) % 16) := by
  have hdigit : ∀ n < 16, "0123456789abcdef".toList.getD n 'x' = Nat.digitChar n := by decide
  have hnibble : ((word >>> (28 - i * 4)) &&& 15).toNat = word.toNat / 2 ^ (28 - i * 4) % 16 := by
    rw [BitVec.toNat_and, BitVec.toNat_ushiftRight, Nat.shiftRight_eq_div_pow]
    exact Nat.and_two_pow_sub_one_eq_mod _ 4
  rw [hexDigit, hnibble, hdigit _ (Nat.mod_lt _ (by decide))]

theorem hexByte_bigEndian (word : BitVec 32) :
    (bigEndian 4 word.toNat).flatMap hexByte = (range 8).map (hexDigit word) := by
  simp only [bigEndian, range_succ, range_zero, nil_append, map_cons,
    map_nil, flatMap_cons, flatMap_nil, hexByte, cons_append, append_nil,
    BitVec.toNat_ofNat, cons.injEq, and_true, hexDigit_eq]
  and_intros <;> congr 1 <;> omega

theorem hex_eq (s : Words) :
    ((range 64).map fun i => hexDigit (s.toList.getD (i / 8) 0) (i % 8)) =
      (s.toList.flatMap fun word => bigEndian 4 word.toNat).flatMap hexByte := by
  rw [flatMap_assoc]
  simp only [hexByte_bigEndian]
  rfl

/-- The characters are the digest of the standard in hexadecimal. -/
theorem sha256_eq (n : Nat) (bytes : List (BitVec 8)) (hlength : bytes.length < 2 ^ 61)
    (hsize : bytes.length + 72 < 2 ^ n) : sha256 n bytes = (digest bytes).flatMap hexByte := by
  have hword (i t : Nat) (hi : i < padded n bytes.length / 64) (ht : t < 64) :
      schedule (paddedByte n bytes) (64 * i) t = messageSchedule (blockWord (pad bytes) i) t := by
    apply extend_eq _ 48 ht
    intro j hj
    have hbyte (l : Nat) (hl : l < 4) :=
      paddedByte_eq hlength hsize (p := 64 * i + j * 4 + l) (by omega)
    rw [wordAt_eq, hbyte 1 (by decide), hbyte 2 (by decide), hbyte 3 (by decide),
      ← Nat.add_zero (64 * i + j * 4), hbyte 0 (by decide), mul_comm j, blockWord]
  have hinitial : initial.map (BitVec.ofNat 32) = (Words.ofList h).toList := by
    rw [h_eq]
    rfl
  rw [sha256, digest, hex_eq, pad_length hsize, hinitial,
    foldl_hom Words.toList fun s i => (block_eq (messageSchedule (blockWord (pad bytes) i)) s).symm]
  refine congrArg (fun s : Words => (s.toList.flatMap _).flatMap _)
    (foldl_ext _ _ _ fun s i hi => ?_)
  refine congrArg s.add (foldl_ext _ _ _ fun s t ht => ?_)
  rw [round, round, hword i t (mem_range.1 hi) (mem_range.1 ht)]

theorem sha256_eq_abc :
    sha256 32 [0x61, 0x62, 0x63] = (digest [0x61, 0x62, 0x63]).flatMap hexByte :=
  sha256_eq 32 _ (by decide) (by decide)

end Waste.Vfs
