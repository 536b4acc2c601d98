import Mathlib

/-!
# Joining the elements of a list that touch

`coalesce` takes the first element of a list, joins it with every other element that it
touches, again and again until it touches none, and goes on with the rest.  `touches` and
`join` are arbitrary.

What holds of all elements and of the join of two of them holds of all elements of the
answer (`coalesce_forall`).  `Laws` collects what `touches` and `join` have to satisfy so
that the answer covers the same points (`coalesce_cover`), has no two elements with a
point in common (`coalesce_apart`) and no two that touch (`coalesce_separate`).
-/

namespace Coalesce

open List

variable {R β : Type*}

section Algorithm

variable (touches : R → R → Bool) (join : R → R → R)

/-- Take the first element out of the list that touches `one`. -/
def extract (one : R) : List R → Option (R × List R)
  | [] => none
  | two :: rest =>
    if touches one two then some (two, rest)
    else (extract one rest).map fun found => (found.1, two :: found.2)

/-- Join `one` with what it touches, one element a turn.  `rest.length` turns are
enough. -/
def absorb : Nat → R → List R → R × List R
  | 0, one, rest => (one, rest)
  | turns + 1, one, rest =>
    match extract touches one rest with
    | none => (one, rest)
    | some (two, rest) => absorb turns (join one two) rest

/-- The whole list, one element a turn. -/
def coalesce : Nat → List R → List R
  | 0, pending => pending
  | _ + 1, [] => []
  | turns + 1, one :: rest =>
    (absorb touches join rest.length one rest).1 ::
      coalesce turns (absorb touches join rest.length one rest).2

end Algorithm

/-- What the elements have and joining keeps. -/
def Closed (touches : R → R → Bool) (join : R → R → R) (P : R → Prop) : Prop :=
  ∀ a b, touches a b = true → P a → P b → P (join a b)

variable {touches : R → R → Bool} {join : R → R → R} {one two : R} {rest rest' l : List R}
  {P : R → Prop}

/-! ## One element -/

theorem extract_none (h : extract touches one rest = none) : ∀ r ∈ rest, touches one r = false := by
  induction rest with
  | nil => simp
  | cons r rest ih =>
    rw [extract] at h
    split at h
    · exact absurd h (by simp)
    next hr =>
    have hrest := ih (Option.map_eq_none_iff.mp h)
    intro s hs
    rcases mem_cons.mp hs with rfl | hs
    · exact Bool.eq_false_iff.mpr hr
    · exact hrest s hs

theorem extract_some (h : extract touches one rest = some (two, rest')) :
    touches one two = true ∧ rest.Perm (two :: rest') := by
  induction rest generalizing rest' with
  | nil => exact absurd h (by simp [extract])
  | cons r rest ih =>
    rw [extract] at h
    split at h
    · next hr =>
      obtain ⟨rfl, rfl⟩ := Prod.mk.inj (Option.some.inj h)
      exact ⟨hr, Perm.refl _⟩
    · obtain ⟨⟨found, left⟩, hfound, heq⟩ := Option.map_eq_some_iff.mp h
      obtain ⟨rfl, rfl⟩ := Prod.mk.inj heq
      obtain ⟨htouch, hperm⟩ := ih hfound
      exact ⟨htouch, (hperm.cons r).trans (Perm.swap found r left)⟩

/-- The list splits into what has been taken in and what is left, and the first element
has what it and the elements taken in had. -/
theorem absorb_split (touches : R → R → Bool) (join : R → R → R) (turns : Nat) (one : R)
    (rest : List R) : ∃ taken, rest.Perm (taken ++ (absorb touches join turns one rest).2) ∧
      ∀ P, Closed touches join P → (∀ r ∈ one :: taken, P r) →
        P (absorb touches join turns one rest).1 := by
  induction turns generalizing one rest with
  | zero => exact ⟨[], Perm.refl _, fun P _ h => h one mem_cons_self⟩
  | succ turns ih =>
    rw [absorb]
    rcases hextract : extract touches one rest with _ | ⟨two, rest'⟩
    · exact ⟨[], Perm.refl _, fun P _ h => h one mem_cons_self⟩
    obtain ⟨htouch, hperm⟩ := extract_some hextract
    obtain ⟨taken, hsplit, hall⟩ := ih (join one two) rest'
    refine ⟨two :: taken, hperm.trans (hsplit.cons two), fun P hP h => hall P hP fun r hr => ?_⟩
    rcases mem_cons.mp hr with rfl | hr
    · exact hP one two htouch (h one (by simp)) (h two (by simp))
    · exact h r (by simp [hr])

theorem absorb_mem {turns : Nat} {r : R} (hr : r ∈ (absorb touches join turns one rest).2) :
    r ∈ rest := by
  obtain ⟨taken, hsplit, -⟩ := absorb_split touches join turns one rest
  exact hsplit.mem_iff.mpr (mem_append_right taken hr)

theorem absorb_length (touches : R → R → Bool) (join : R → R → R) (turns : Nat) (one : R)
    (rest : List R) : (absorb touches join turns one rest).2.length ≤ rest.length := by
  obtain ⟨taken, hsplit, -⟩ := absorb_split touches join turns one rest
  rw [hsplit.length_eq, length_append]
  omega

theorem absorb_forall (hP : Closed touches join P) (turns : Nat) (h : ∀ r ∈ one :: rest, P r) :
    P (absorb touches join turns one rest).1 := by
  obtain ⟨taken, hsplit, hall⟩ := absorb_split touches join turns one rest
  refine hall P hP fun r hr => h r ?_
  rcases mem_cons.mp hr with rfl | hr
  · exact mem_cons_self
  · exact mem_cons_of_mem one (hsplit.mem_iff.mpr (mem_append_left _ hr))

/-- After as many turns as there are elements, none is left that the first one
touches. -/
theorem absorb_done (touches : R → R → Bool) (join : R → R → R) (turns : Nat) (one : R)
    (rest : List R) (hturns : rest.length ≤ turns) : ∀ r ∈ (absorb touches join turns one rest).2,
      touches (absorb touches join turns one rest).1 r = false := by
  induction turns generalizing one rest with
  | zero =>
    obtain rfl := eq_nil_of_length_eq_zero (Nat.le_zero.mp hturns)
    simp [absorb]
  | succ turns ih =>
    rw [absorb]
    rcases hextract : extract touches one rest with _ | ⟨two, rest'⟩
    · exact extract_none hextract
    · obtain ⟨-, hperm⟩ := extract_some hextract
      have hlength : rest.length = rest'.length + 1 := by
        rw [hperm.length_eq, length_cons]
      exact ih _ _ (by omega)

/-! ## The whole list -/

theorem coalesce_forall (hP : Closed touches join P) (turns : Nat) (h : ∀ r ∈ l, P r) :
    ∀ r ∈ coalesce touches join turns l, P r := by
  induction turns generalizing l with
  | zero => exact h
  | succ turns ih =>
    cases l with
    | nil => exact h
    | cons one rest =>
      intro r hr
      rcases mem_cons.mp hr with rfl | hr
      · exact absorb_forall hP rest.length h
      · exact ih (fun s hs => h s (mem_cons_of_mem one (absorb_mem hs))) r hr

/-- What joining must do to the elements in `Good`.  `Cover r x` says that `r` covers the
point `x`, and `Apart r s` that the two have nothing in common. -/
structure Laws (touches : R → R → Bool) (join : R → R → R) (Good : R → Prop)
    (Apart : R → R → Prop) (Cover : R → β → Prop) : Prop where
  good : Closed touches join Good
  cover : ∀ {a b x}, Good a → Good b → touches a b = true →
    (Cover (join a b) x ↔ Cover a x ∨ Cover b x)
  untouched : ∀ {e}, Good e → Closed touches join fun r => Good r ∧ touches e r = false
  apart_symm : ∀ {a b}, Apart a b → Apart b a
  apart : ∀ {e}, Good e → Closed touches join fun r => Good r ∧ Apart e r

variable {Good : R → Prop} {Apart : R → R → Prop} {Cover : R → β → Prop}

theorem absorb_cover (laws : Laws touches join Good Apart Cover) {turns : Nat}
    (h : ∀ r ∈ one :: rest, Good r) (x : β) : (Cover (absorb touches join turns one rest).1 x ∨
        ∃ r ∈ (absorb touches join turns one rest).2, Cover r x) ↔
      Cover one x ∨ ∃ r ∈ rest, Cover r x := by
  induction turns generalizing one rest with
  | zero => exact .rfl
  | succ turns ih =>
    rw [absorb]
    rcases hextract : extract touches one rest with _ | ⟨two, rest'⟩
    · exact .rfl
    obtain ⟨htouch, hperm⟩ := extract_some hextract
    have hone := h one mem_cons_self
    have hall : ∀ r ∈ two :: rest', Good r := fun r hr =>
      h r (mem_cons_of_mem one (hperm.mem_iff.mpr hr))
    have htwo := hall two mem_cons_self
    have hjoin : ∀ r ∈ join one two :: rest', Good r := by
      intro r hr
      rcases mem_cons.mp hr with rfl | hr
      · exact laws.good one two htouch hone htwo
      · exact hall r (mem_cons_of_mem two hr)
    have hrest : (∃ r ∈ rest, Cover r x) ↔ ∃ r ∈ two :: rest', Cover r x := by
      simp only [hperm.mem_iff]
    rw [ih hjoin, laws.cover hone htwo htouch, hrest, exists_mem_cons_iff, or_assoc]

section

variable (laws : Laws touches join Good Apart Cover) (turns : Nat) (h : ∀ r ∈ l, Good r)

include laws h

theorem coalesce_cover (x : β) :
    (∃ r ∈ coalesce touches join turns l, Cover r x) ↔ ∃ r ∈ l, Cover r x := by
  induction turns generalizing l with
  | zero => exact .rfl
  | succ turns ih =>
    cases l with
    | nil => exact .rfl
    | cons one rest =>
      rw [coalesce, exists_mem_cons_iff, exists_mem_cons_iff,
        ih fun r hr => h r (mem_cons_of_mem one (absorb_mem hr)),
        absorb_cover laws h]

theorem coalesce_apart (hl : l.Pairwise Apart) :
    (coalesce touches join turns l).Pairwise Apart := by
  induction turns generalizing l with
  | zero => exact hl
  | succ turns ih =>
    cases l with
    | nil => exact hl
    | cons one rest =>
      rw [coalesce]
      obtain ⟨taken, hsplit, hall⟩ := absorb_split touches join rest.length one rest
      have hleft : ∀ r ∈ (absorb touches join rest.length one rest).2, Good r := fun r hr =>
        h r (mem_cons_of_mem one (absorb_mem hr))
      have hgood := absorb_forall laws.good rest.length h
      generalize absorb touches join rest.length one rest = out at hsplit hall hleft hgood
      have hperm : (one :: rest).Perm ((one :: taken) ++ out.2) := hsplit.cons one
      have hpair := pairwise_append.mp (hperm.pairwise hl laws.apart_symm)
      refine pairwise_cons.mpr ⟨?_, ih hleft hpair.2.1⟩
      have hfirst : ∀ r ∈ out.2, Good r ∧ Apart out.1 r := by
        intro r hr
        refine ⟨hleft r hr, laws.apart_symm (hall _ (laws.apart (hleft r hr)) fun s hs => ?_).2⟩
        exact ⟨h s (hperm.mem_iff.mpr (mem_append_left _ hs)),
          laws.apart_symm (hpair.2.2 s hs r hr)⟩
      intro r hr
      exact (coalesce_forall (laws.apart hgood) turns hfirst r hr).2

theorem coalesce_separate (hturns : l.length ≤ turns) :
    (coalesce touches join turns l).Pairwise fun a b => touches a b = false := by
  induction turns generalizing l with
  | zero =>
    obtain rfl := eq_nil_of_length_eq_zero (Nat.le_zero.mp hturns)
    exact Pairwise.nil
  | succ turns ih =>
    cases l with
    | nil => exact Pairwise.nil
    | cons one rest =>
      have hleft : ∀ r ∈ (absorb touches join rest.length one rest).2, Good r := fun r hr =>
        h r (mem_cons_of_mem one (absorb_mem hr))
      have hlength := absorb_length touches join rest.length one rest
      rw [length_cons] at hturns
      refine pairwise_cons.mpr ⟨fun r hr => ?_, ih hleft (by omega)⟩
      have hdone := absorb_done touches join rest.length one rest (Nat.le_refl _)
      have hfirst := coalesce_forall (laws.untouched (absorb_forall laws.good rest.length h)) turns
        fun s hs => ⟨hleft s hs, hdone s hs⟩
      exact (hfirst r hr).2

end

end Coalesce
