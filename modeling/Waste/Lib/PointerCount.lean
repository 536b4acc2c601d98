import Mathlib

/-!
# Counting pointers

Places of a type `ι` hold pointers to objects of a type `α`, or nothing.  `count f P` is
the number of places whose pointer is to an object in `P`.  A reference count that is
raised with every new pointer and lowered with every pointer that goes is this number, by
the two lemmas about one place that changes.
-/

namespace PointerCount

open Function

variable {ι α : Type*} {f : ι → Option α} {P Q : α → Prop}

/-- The places whose pointer is to an object in `P`. -/
def pointing (f : ι → Option α) (P : α → Prop) : Set ι := {i | ∃ a, f i = some a ∧ P a}

noncomputable def count (f : ι → Option α) (P : α → Prop) : Nat := (pointing f P).ncard

/-- Only finitely many places hold a pointer. -/
def FinitelyMany (f : ι → Option α) : Prop := {i | f i ≠ none}.Finite

theorem FinitelyMany.pointing (hf : FinitelyMany f) (P : α → Prop) : (pointing f P).Finite := by
  refine hf.subset ?_
  rintro i ⟨a, hi, -⟩
  show f i ≠ none
  rw [hi]
  exact Option.some_ne_none a

theorem count_congr (h : ∀ i a, f i = some a → (P a ↔ Q a)) : count f P = count f Q := by
  unfold count
  congr 1
  ext i
  constructor
  · rintro ⟨a, hi, ha⟩
    exact ⟨a, hi, (h i a hi).mp ha⟩
  · rintro ⟨a, hi, ha⟩
    exact ⟨a, hi, (h i a hi).mpr ha⟩

theorem count_mono (hf : FinitelyMany f) (h : ∀ a, P a → Q a) : count f P ≤ count f Q := by
  refine Set.ncard_le_ncard ?_ (hf.pointing Q)
  rintro i ⟨a, hi, ha⟩
  exact ⟨a, hi, h a ha⟩

theorem count_eq_zero (hf : FinitelyMany f) : count f P = 0 ↔ ∀ i a, f i = some a → ¬P a := by
  unfold count
  rw [Set.ncard_eq_zero (hf.pointing P), Set.eq_empty_iff_forall_notMem]
  constructor
  · intro h i a hi ha
    exact h i ⟨a, hi, ha⟩
  · rintro h i ⟨a, hi, ha⟩
    exact h i a hi ha

variable [DecidableEq ι] {i : ι} {a : α}

/-- The new pointer, or one that was there. -/
theorem eq_or_of_update {j : ι} {b : α} (h : update f i (some b) j = some a) :
    (j = i ∧ a = b) ∨ f j = some a := by
  by_cases hj : j = i
  · rw [hj, update_self] at h
    exact .inl ⟨hj, (Option.some.inj h).symm⟩
  · rw [update_of_ne hj] at h
    exact .inr h

theorem FinitelyMany.update (hf : FinitelyMany f) (i : ι) (x : Option α) :
    FinitelyMany (update f i x) := by
  refine (hf.insert i).subset ?_
  intro j hj
  by_cases hij : j = i
  · exact .inl hij
  · right
    show f j ≠ none
    rw [← update_of_ne hij x f]
    exact hj

theorem count_update_some [DecidablePred P] (hf : FinitelyMany f) (hi : f i = none) :
    count (update f i (some a)) P = count f P + if P a then 1 else 0 := by
  have hnot : i ∉ pointing f P := by
    rintro ⟨b, hb, -⟩
    rw [hi] at hb
    exact absurd hb (by simp)
  split_ifs with ha
  · have hset : pointing (update f i (some a)) P = insert i (pointing f P) := by
      ext j
      by_cases hj : j = i
      · subst hj
        simp [pointing, ha]
      · simp [pointing, hj]
    rw [count, hset, Set.ncard_insert_of_notMem hnot (hf.pointing P)]
    rfl
  · have hset : pointing (update f i (some a)) P = pointing f P := by
      ext j
      by_cases hj : j = i
      · subst hj
        simp [pointing, ha, hi]
      · simp [pointing, update_of_ne hj]
    rw [count, hset]
    rfl

theorem count_update_none [DecidablePred P] (hf : FinitelyMany f) (hi : f i = some a) :
    count (update f i none) P + (if P a then 1 else 0) = count f P := by
  have hback : update (update f i none) i (some a) = f := by
    rw [update_idem, ← hi, update_eq_self]
  conv_rhs => rw [← hback]
  exact (count_update_some (hf.update i none) (update_self i none f)).symm

end PointerCount
