import Mathlib

/-!
# Computations with fuel

A computation with fuel is a function `Nat → Option γ` that is `none` while the fuel
is too small.  It is stable when more fuel keeps its answers; its limit is then the
answer it gives with any fuel that is large enough.  The limit of a sequence of two
computations is the sequence of their limits.
-/

namespace Waste.Fuel

open Option

variable {γ δ : Type*} {f : Nat → Option γ} {a b : γ} {n k : Nat}
variable {g : Nat → γ → Option δ}

/-- One more unit of fuel keeps every answer. -/
def Stable (f : Nat → Option γ) : Prop := ∀ n a, f n = some a → f (n + 1) = some a

section

variable (hf : Stable f)
include hf

theorem Stable.le (h : f n = some a) (hle : n ≤ k) : f k = some a := by
  induction k, hle using Nat.le_induction with
  | base => exact h
  | succ k _ ih => exact hf k a ih

theorem Stable.unique (ha : f n = some a) (hb : f k = some b) : a = b := by
  have ha' : f (max n k) = some a := hf.le ha (le_max_left n k)
  have hb' : f (max n k) = some b := hf.le hb (le_max_right n k)
  exact some.inj (ha'.symm.trans hb')

open Classical in
/-- The answer with enough fuel. -/
noncomputable def limit (f : Nat → Option γ) : Option γ :=
  if h : ∃ n, (f n).isSome then f h.choose else none

theorem limit_eq_some : limit f = some a ↔ ∃ n, f n = some a := by
  unfold limit
  constructor
  · intro h
    split at h
    · exact ⟨_, h⟩
    · simp at h
  · intro ⟨n, hn⟩
    have hsome : ∃ n, (f n).isSome := ⟨n, by simp [hn]⟩
    rw [dif_pos hsome]
    obtain ⟨b, hb⟩ := isSome_iff_exists.1 hsome.choose_spec
    rw [hb, hf.unique hb hn]

theorem limit_eq_of_stable (h : f n = some a) : limit f = some a :=
  (limit_eq_some hf).2 ⟨n, h⟩

/-- A computation that spends a unit and goes on as another one. -/
theorem limit_of_succ {g : Nat → Option γ} (hg : Stable g) (hzero : f 0 = none)
    (h : ∀ n, f (n + 1) = g n) : limit f = limit g := by
  apply ext
  intro a
  rw [limit_eq_some hf, limit_eq_some hg]
  constructor
  · intro ⟨n, hn⟩
    cases n with
    | zero => simp [hzero] at hn
    | succ n => exact ⟨n, (h n).symm.trans hn⟩
  · intro ⟨n, hn⟩
    exact ⟨n + 1, (h n).trans hn⟩

theorem Stable.bind (hg : ∀ a, Stable (g · a)) : Stable fun n => (f n).bind (g n) := by
  intro n b h
  obtain ⟨a, ha, hb⟩ := bind_eq_some_iff.1 h
  exact bind_eq_some_iff.2 ⟨a, hf n a ha, hg a n b hb⟩

/-- The limit of two computations one after the other. -/
theorem limit_bind (hg : ∀ a, Stable (g · a)) :
    limit (fun n => (f n).bind (g n)) = (limit f).bind fun a => limit (g · a) := by
  apply ext
  intro b
  rw [limit_eq_some (hf.bind hg), bind_eq_some_iff]
  constructor
  · intro ⟨n, hn⟩
    obtain ⟨a, ha, hb⟩ := bind_eq_some_iff.1 hn
    exact ⟨a, limit_eq_of_stable hf ha, limit_eq_of_stable (hg a) hb⟩
  intro ⟨a, ha, hb⟩
  obtain ⟨n, hn⟩ := (limit_eq_some hf).1 ha
  obtain ⟨k, hk⟩ := (limit_eq_some (hg a)).1 hb
  have ha' : f (max n k) = some a := hf.le hn (le_max_left n k)
  have hb' : g (max n k) a = some b := (hg a).le hk (le_max_right n k)
  exact ⟨max n k, bind_eq_some_iff.2 ⟨a, ha', hb'⟩⟩

end

end Waste.Fuel
