import Mathlib

/-!
# Byte memories with words of 32 bits

A memory is a function from addresses to bytes.  `load` and `store` access a word of four
bytes, the least significant first.  `SameOn` says that two memories agree on a range, and
every frame lemma is stated with it.
-/

namespace ByteMemory

abbrev Bytes := Nat → UInt8

variable {m m' m'' : Bytes} {a b v lo hi : Nat}

/-- The word at an address. -/
def load (m : Bytes) (a : Nat) : Nat :=
  (m a).toNat + 256 * ((m (a + 1)).toNat + 256 * ((m (a + 2)).toNat + 256 * (m (a + 3)).toNat))

/-- The memory after a word has been stored. -/
def store (a v : Nat) (m : Bytes) : Bytes := fun x =>
  if a ≤ x ∧ x < a + 4 then UInt8.ofNat (v / 256 ^ (x - a)) else m x

/-- The memories agree on the addresses from `lo` up to `hi`. -/
def SameOn (m m' : Bytes) (lo hi : Nat) : Prop := ∀ x, lo ≤ x → x < hi → m' x = m x

theorem SameOn.refl (m : Bytes) (lo hi : Nat) : SameOn m m lo hi := fun _ _ _ => rfl

theorem SameOn.trans (h : SameOn m m' lo hi) (h' : SameOn m' m'' lo hi) : SameOn m m'' lo hi :=
  fun x hlo hhi => (h' x hlo hhi).trans (h x hlo hhi)

theorem SameOn.mono (h : SameOn m m' lo hi) {lo' hi' : Nat} (hlo : lo ≤ lo') (hhi : hi' ≤ hi) :
    SameOn m m' lo' hi' :=
  fun x hx hx' => h x (Nat.le_trans hlo hx) (Nat.lt_of_lt_of_le hx' hhi)

theorem SameOn.load (h : SameOn m m' lo hi) (hlo : lo ≤ a) (hhi : a + 4 ≤ hi) :
    load m' a = load m a := by
  unfold ByteMemory.load
  rw [h a hlo (by omega), h (a + 1) (by omega) (by omega), h (a + 2) (by omega) (by omega),
    h (a + 3) (by omega) (by omega)]

theorem store_sameOn (h : a + 4 ≤ lo ∨ hi ≤ a) : SameOn m (store a v m) lo hi := by
  intro x hlo hhi
  unfold store
  rw [if_neg]
  omega

theorem load_store_self (hv : v < 2 ^ 32) : load (store a v m) a = v := by
  have hbyte : ∀ i, i < 4 → (store a v m (a + i)).toNat = v / 256 ^ i % 256 := by
    intro i hi
    have hindex : a + i - a = i := by omega
    simp only [store, hindex]
    rw [if_pos (by omega)]
    simp
  have h0 := hbyte 0 (by decide)
  have h1 := hbyte 1 (by decide)
  have h2 := hbyte 2 (by decide)
  have h3 := hbyte 3 (by decide)
  simp only [Nat.add_zero, Nat.pow_zero, Nat.div_one, Nat.reducePow] at h0 h1 h2 h3
  unfold load
  omega

theorem load_store_of_apart (h : a + 4 ≤ b ∨ b + 4 ≤ a) : load (store a v m) b = load m b := by
  have hsame : SameOn m (store a v m) b (b + 4) := store_sameOn (by omega)
  exact hsame.load (Nat.le_refl _) (Nat.le_refl _)

/-! ## Ranges of bytes -/

/-- `memset`. -/
def fill (a n : Nat) (v : UInt8) (m : Bytes) : Bytes :=
  fun x => if a ≤ x ∧ x < a + n then v else m x

/-- `memcpy`. -/
def copy (target source n : Nat) (m : Bytes) : Bytes := fun x =>
  if target ≤ x ∧ x < target + n then m (source + (x - target)) else m x

end ByteMemory
