import Mathlib

/-!
# Parameterized coinduction

For a monotone operator `F` on a complete lattice, `upTo F P` is the greatest
`X` with `X ≤ F (X ⊔ P)`: a proof of membership in the greatest fixed point of
`F` that may use the assumptions `P` behind at least one application of `F`.

`upTo_bot` says that without assumptions this is the greatest fixed point, and
`accumulate` that a goal may be added to its own assumptions.  Together they
replace the construction of one large post-fixed point by a proof that follows
the recursion of an algorithm.
-/

namespace Coinduction

variable {L : Type*} [CompleteLattice L] (F : L →o L)

/-- One step of `F` with the assumptions `P` at hand. -/
def withAssumptions (P : L) : L →o L where
  toFun X := F (X ⊔ P)
  monotone' _ _ h := F.monotone (sup_le_sup_right h P)

/-- The greatest fixed point of `F` up to the assumptions `P`. -/
def upTo (P : L) : L := (withAssumptions F P).gfp

theorem upTo_unfold (P : L) : F (upTo F P ⊔ P) = upTo F P :=
  (withAssumptions F P).map_gfp

/-- The coinduction rule. -/
theorem le_upTo {P X : L} (h : X ≤ F (X ⊔ P)) : X ≤ upTo F P :=
  (withAssumptions F P).le_gfp h

theorem upTo_bot : upTo F ⊥ = F.gfp := by
  apply le_antisymm
  · apply F.le_gfp
    conv_lhs => rw [← upTo_unfold]
    rw [sup_bot_eq]
  · apply le_upTo
    rw [sup_bot_eq, F.map_gfp]

theorem upTo_mono {P Q : L} (h : P ≤ Q) : upTo F P ≤ upTo F Q := by
  apply le_upTo
  conv_lhs => rw [← upTo_unfold]
  exact F.monotone (sup_le_sup_left h _)

theorem gfp_le_upTo (P : L) : F.gfp ≤ upTo F P := by
  rw [← upTo_bot]
  exact upTo_mono F bot_le

/-- A goal may be used as an assumption of its own proof. -/
theorem accumulate {P Q : L} (h : Q ≤ upTo F (P ⊔ Q)) : Q ≤ upTo F P := by
  refine h.trans (le_upTo F ?_)
  conv_lhs => rw [← upTo_unfold]
  apply F.monotone
  rw [← sup_assoc]
  exact sup_le le_rfl (h.trans le_sup_left)

end Coinduction
