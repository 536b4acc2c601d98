import Mathlib

/-!
# Changes that keep a graph without cycles

A graph is a relation.  Edges may go (`Acyclic.mono`), edges may come that end in a node
without outgoing edges (`Acyclic.sink`), and a node may get edges to nodes from which it
cannot be reached.  `cycle_adding_iff` says that the last condition is exact.
-/

namespace Graph

open Relation

variable {α : Type*} {R S : α → α → Prop} {o : α} {T : α → Prop}

/-- No node reaches itself. -/
def Acyclic (R : α → α → Prop) : Prop := ∀ a, ¬TransGen R a a

theorem Acyclic.mono (h : Acyclic R) (hsub : ∀ a b, S a b → R a b) : Acyclic S :=
  fun a hcycle => h a (hcycle.lift id hsub)

/-- A path whose end can be left does not go through a node that cannot. -/
theorem path_of_sink (hsub : ∀ a b, S a b → R a b ∨ b = o) (hsink : ∀ b, ¬S o b) {a b c : α}
    (hpath : TransGen S a b) (hleave : S b c) : TransGen R a b := by
  have hold : ∀ {x y z}, S x y → S y z → R x y := by
    intro x y z hxy hyz
    rcases hsub x y hxy with h | rfl
    · exact h
    · exact absurd hyz (hsink z)
  induction hpath generalizing c with
  | single hab => exact .single (hold hab hleave)
  | tail hpath hstep ih => exact .tail (ih hstep) (hold hstep hleave)

theorem Acyclic.sink (h : Acyclic R) (hsub : ∀ a b, S a b → R a b ∨ b = o)
    (hsink : ∀ b, ¬S o b) : Acyclic S := by
  intro a hcycle
  obtain ⟨b, hab, -⟩ := TransGen.head'_iff.mp hcycle
  exact h a (path_of_sink hsub hsink hcycle hab)

/-- The graph with edges from `o` to the nodes in `T`. -/
def Adding (R : α → α → Prop) (o : α) (T : α → Prop) (a b : α) : Prop := R a b ∨ a = o ∧ T b

/-- A path with the new edges is an old one, or it goes along one of them. -/
theorem path_adding {a b : α} (h : TransGen (Adding R o T) a b) :
    TransGen R a b ∨ ReflTransGen R a o ∧ ∃ c, T c ∧ ReflTransGen R c b := by
  induction h with
  | single hab =>
    rcases hab with hab | ⟨rfl, hb⟩
    · exact .inl (.single hab)
    · exact .inr ⟨.refl, _, hb, .refl⟩
  | tail _ hstep ih =>
    rcases hstep with hstep | ⟨rfl, hb⟩
    · rcases ih with hpath | ⟨hto, c, hc, hfrom⟩
      · exact .inl (hpath.tail hstep)
      · exact .inr ⟨hto, c, hc, hfrom.tail hstep⟩
    · rcases ih with hpath | ⟨hto, -⟩
      · exact .inr ⟨hpath.to_reflTransGen, _, hb, .refl⟩
      · exact .inr ⟨hto, _, hb, .refl⟩

/-- The new edges make a cycle just if one of them leads to a node from which `o` can be
reached. -/
theorem cycle_adding_iff (h : Acyclic R) :
    (∃ a, TransGen (Adding R o T) a a) ↔ ∃ c, T c ∧ ReflTransGen R c o := by
  constructor
  · rintro ⟨a, hcycle⟩
    rcases path_adding hcycle with hpath | ⟨hto, c, hc, hfrom⟩
    · exact absurd hpath (h a)
    · exact ⟨c, hc, hfrom.trans hto⟩
  · rintro ⟨c, hc, hpath⟩
    have hback : ReflTransGen (Adding R o T) c o := .mono (fun _ _ h => .inl h) _ _ hpath
    exact ⟨o, .head' (.inr ⟨rfl, hc⟩) hback⟩

end Graph
