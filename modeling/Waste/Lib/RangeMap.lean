import Mathlib

/-!
# Sorted lists of labelled ranges

A partial function from positions to labels, kept as a list of half-open
ranges.  `Within lo hi rs` is the shape such a list has to keep: the ranges
are sorted, pairwise disjoint, not empty, and inside `[lo, hi)`.  `lookup`
is the partial function that the list stands for.

Two operations rebuild the list.

* `carve g lo hi` cuts every range at the borders of the window `[lo, hi)`
  and relabels the part inside the window with `g`, which may also drop it.
* `insert r` puts one new range in front of the first range that starts
  later.

For each of them there is one lemma about the shape (`carve_within`,
`insert_within`) and one about the partial function (`lookup_carve`,
`lookup_insert`).  Callers use those four and never look inside the lists.
-/

namespace RangeMap

open List Option

universe u

variable {α : Type u}
variable (g : α → Option α)

/-- The positions `first, …, first + count - 1`, with a label. -/
structure Range (α : Type u) where
  first : Nat
  count : Nat
  label : α
deriving DecidableEq, Repr

def Range.stop (r : Range α) : Nat := r.first + r.count

/-- `r.Covers p` says that `p` is a position of the range. -/
def Range.Covers (r : Range α) (p : Nat) : Prop := r.first ≤ p ∧ p < r.stop

instance (r : Range α) (p : Nat) : Decidable (r.Covers p) :=
  inferInstanceAs (Decidable (_ ∧ _))

/-- The label of the first range that covers `p`. -/
def lookup : List (Range α) → Nat → Option α
  | [], _ => none
  | r :: rs, p => if r.Covers p then some r.label else lookup rs p

/-- The ranges are sorted, disjoint, not empty, and inside `[lo, hi)`. -/
structure Within (lo hi : Nat) (rs : List (Range α)) : Prop where
  bounds : ∀ r ∈ rs, lo ≤ r.first ∧ 0 < r.count ∧ r.stop ≤ hi
  disjoint : rs.Pairwise fun a b => a.stop ≤ b.first

@[simp] theorem within_nil (lo hi : Nat) : Within lo hi ([] : List (Range α)) :=
  ⟨by simp, Pairwise.nil⟩

variable {lo hi p a b : Nat} {r : Range α} {rs : List (Range α)}

/-- The shape of a list is the shape of its head and the shape of its tail
behind the head. -/
@[simp] theorem within_cons : Within lo hi (r :: rs) ↔
      lo ≤ r.first ∧ 0 < r.count ∧ r.stop ≤ hi ∧ Within r.stop hi rs := by
  constructor
  · rintro ⟨hbounds, hdisjoint⟩
    rw [pairwise_cons] at hdisjoint
    obtain ⟨hlo, hcount, hhi⟩ := hbounds r (by simp)
    refine ⟨hlo, hcount, hhi, fun x hx => ?_, hdisjoint.2⟩
    exact ⟨hdisjoint.1 x hx, (hbounds x (by simp [hx])).2⟩
  · rintro ⟨hlo, hcount, hhi, hrest⟩
    refine ⟨fun x hx => ?_, pairwise_cons.2 ⟨fun x hx => ?_, hrest.disjoint⟩⟩
    · rcases mem_cons.1 hx with rfl | hx
      · exact ⟨hlo, hcount, hhi⟩
      · have hx' := hrest.bounds x hx
        have : r.stop = r.first + r.count := rfl
        exact ⟨by omega, hx'.2⟩
    · exact (hrest.bounds x hx).1

theorem Within.mono {lo' hi' : Nat} (h : Within lo hi rs) (hlo : lo' ≤ lo) (hhi : hi ≤ hi') :
    Within lo' hi' rs := by
  refine ⟨fun r hr => ?_, h.disjoint⟩
  obtain ⟨h1, h2, h3⟩ := h.bounds r hr
  exact ⟨by omega, h2, by omega⟩

theorem Within.append {mid : Nat} {xs ys : List (Range α)} (hmid : lo ≤ mid) (hhi : mid ≤ hi)
    (hxs : Within lo mid xs) (hys : Within mid hi ys) : Within lo hi (xs ++ ys) := by
  refine ⟨fun r hr => ?_, pairwise_append.2 ⟨hxs.disjoint, hys.disjoint, ?_⟩⟩
  · rcases mem_append.1 hr with hr | hr
    · exact (hxs.mono (Nat.le_refl _) hhi).bounds r hr
    · exact (hys.mono hmid (Nat.le_refl _)).bounds r hr
  · intro a ha b hb
    have := (hxs.bounds a ha).2.2
    have := (hys.bounds b hb).1
    omega

/-! ## The partial function -/

@[simp] theorem lookup_nil (p : Nat) : lookup ([] : List (Range α)) p = none := rfl

theorem lookup_cons (r : Range α) (rs : List (Range α)) (p : Nat) :
    lookup (r :: rs) p = if r.Covers p then some r.label else lookup rs p := rfl

theorem lookup_append (xs ys : List (Range α)) (p : Nat) :
    lookup (xs ++ ys) p = (lookup xs p).or (lookup ys p) := by
  induction xs with
  | nil => simp
  | cons x xs ih =>
    simp only [cons_append, lookup_cons]
    split
    · simp
    · exact ih

theorem Within.lookup_eq_none (h : Within lo hi rs) (hp : p < lo ∨ hi ≤ p) :
    lookup rs p = none := by
  induction rs generalizing lo with
  | nil => rfl
  | cons r rs ih =>
    obtain ⟨hlo, -, hhi, hrest⟩ := within_cons.1 h
    have hstop : r.stop = r.first + r.count := rfl
    rw [lookup_cons, if_neg (by rintro ⟨h1, h2⟩; omega)]
    exact ih hrest (by omega)

/-! ## A scan that stops early

Sorted ranges let a membership test stop at the first range that starts
after the position. -/

/-- Is `p` a position of some range?  The scan gives up at the first range
that starts after `p`. -/
def scan : List (Range α) → Nat → Bool
  | [], _ => false
  | r :: rs, p =>
    if p < r.first then false
    else if p - r.first < r.count then true
    else scan rs p

/-- On a well-shaped list the early exit loses nothing. -/
theorem Within.scan_eq (h : Within lo hi rs) (p : Nat) : scan rs p = (lookup rs p).isSome := by
  induction rs generalizing lo with
  | nil => rfl
  | cons r rs ih =>
    obtain ⟨-, -, -, hrest⟩ := within_cons.1 h
    have hstop : r.stop = r.first + r.count := rfl
    rw [scan, lookup_cons]
    by_cases hbefore : p < r.first
    · rw [if_pos hbefore, if_neg (by rintro ⟨h1, _⟩; omega), hrest.lookup_eq_none (by omega)]
      rfl
    rw [if_neg hbefore]
    by_cases hin : p - r.first < r.count
    · rw [if_pos hin, if_pos ⟨by omega, by omega⟩]
      rfl
    · rw [if_neg hin, if_neg (by rintro ⟨_, h2⟩; omega)]
      exact ih hrest

/-! ## Cutting a window out of a list -/

/-- What becomes of one range when the part inside the window `[lo, hi)` gets
the label `g` gives it.  The answer `none` drops that part. -/
def Range.carve (g : α → Option α) (lo hi : Nat) (r : Range α) : List (Range α) :=
  let overlapStart := max r.first lo
  let overlapEnd := min r.stop hi
  if overlapStart ≥ overlapEnd then [r]
  else
    (if r.first < overlapStart then [⟨r.first, overlapStart - r.first, r.label⟩] else []) ++
      (match g r.label with
        | none => []
        | some l => [⟨overlapStart, overlapEnd - overlapStart, l⟩]) ++
      (if overlapEnd < r.stop then [⟨overlapEnd, r.stop - overlapEnd, r.label⟩] else [])

/-- `carve` on every range of a list. -/
def carve (g : α → Option α) (lo hi : Nat) (rs : List (Range α)) : List (Range α) :=
  rs.flatMap (Range.carve g lo hi)

theorem Range.carve_within (lo hi : Nat) (hr : 0 < r.count) :
    Within r.first r.stop (r.carve g lo hi) := by
  have hstop : r.stop = r.first + r.count := rfl
  rw [carve]
  split
  · simp [hr]
  have hleft : Within r.first (max r.first lo) (if r.first < max r.first lo then
        [(⟨r.first, max r.first lo - r.first, r.label⟩ : Range α)] else []) := by
    split <;> simp [stop]; omega
  have hmiddle : Within (max r.first lo) (min r.stop hi) (match g r.label with
        | none => []
        | some l => [(⟨max r.first lo, min r.stop hi - max r.first lo, l⟩ : Range α)]) := by
    cases g r.label <;> simp [stop]; omega
  have hright : Within (min r.stop hi) r.stop (if min r.stop hi < r.stop then
        [(⟨min r.stop hi, r.stop - min r.stop hi, r.label⟩ : Range α)] else []) := by
    split <;> simp [stop]; omega
  exact ((hleft.append (by omega) (by omega) hmiddle).append (by omega) (by omega) hright)

/-- A piece that is kept only when it is not empty covers what it says. -/
private theorem lookup_piece (a b : Nat) (l : α) (p : Nat) :
    lookup (if a < b then [(⟨a, b - a, l⟩ : Range α)] else []) p =
      if a ≤ p ∧ p < b then some l else none := by
  split
  · have hiff : (⟨a, b - a, l⟩ : Range α).Covers p ↔ a ≤ p ∧ p < b := by
      simp only [Range.Covers, Range.stop]; omega
    simp only [lookup_cons, lookup_nil, hiff]
  · rw [if_neg (by omega), lookup_nil]

private theorem lookup_relabelled (hab : a < b) (o : Option α) (p : Nat) : lookup (match o with
        | none => []
        | some l => [(⟨a, b - a, l⟩ : Range α)]) p =
      if a ≤ p ∧ p < b then o else none := by
  cases o with
  | none => simp
  | some l => simpa only [if_pos hab] using lookup_piece a b l p

/-- The pieces of a range stand for the range outside the window, and for the
relabelled range inside it. -/
theorem Range.lookup_carve (lo hi : Nat) (p : Nat) : lookup (r.carve g lo hi) p =
      if r.Covers p then (if lo ≤ p ∧ p < hi then g r.label else some r.label) else none := by
  rw [carve]
  split
  · rw [lookup_cons, lookup_nil]
    by_cases hp : r.Covers p
    · have hout : ¬(lo ≤ p ∧ p < hi) := fun hwin => by
        obtain ⟨h1, h2⟩ := hp; omega
      rw [if_pos hp, if_pos hp, if_neg hout]
    · rw [if_neg hp, if_neg hp]
  · rw [lookup_append, lookup_append, lookup_piece, lookup_relabelled (by omega), lookup_piece]
    by_cases hp : r.Covers p
    · have ⟨hfirst, hstop⟩ := hp
      rw [if_pos hp]
      -- three positions: before the overlap, inside it, behind it
      rcases Nat.lt_or_ge p (max r.first lo) with hbefore | hbefore
      · rw [if_pos ⟨hfirst, hbefore⟩, if_neg (by omega : ¬(lo ≤ p ∧ p < hi))]
        rfl
      · rw [if_neg (by omega : ¬(r.first ≤ p ∧ p < max r.first lo)), none_or]
        rcases Nat.lt_or_ge p (min r.stop hi) with hinside | hinside
        · rw [if_pos ⟨hbefore, hinside⟩, if_neg (by omega), if_pos (by omega), or_none]
        · rw [if_neg (by omega), none_or, if_pos ⟨hinside, hstop⟩, if_neg (by omega)]
    · have hout : ¬(r.first ≤ p ∧ p < r.stop) := hp
      rw [if_neg hp, if_neg (by omega), if_neg (by omega), if_neg (by omega)]
      rfl

@[simp] theorem carve_nil (lo hi : Nat) : carve g lo hi [] = [] := rfl

theorem carve_within (lo hi : Nat) (h : Within a b rs) : Within a b (carve g lo hi rs) := by
  induction rs generalizing a with
  | nil => simp
  | cons r rs ih =>
    obtain ⟨hlo, hcount, hhi, hrest⟩ := within_cons.1 h
    have hstop : r.stop = r.first + r.count := rfl
    exact (((Range.carve_within g lo hi hcount).mono hlo (Nat.le_refl _)).append
      (by omega) hhi (ih hrest))

theorem lookup_carve (lo hi : Nat) (h : Within a b rs) (p : Nat) : lookup (carve g lo hi rs) p =
      if lo ≤ p ∧ p < hi then (lookup rs p).bind g else lookup rs p := by
  induction rs generalizing a with
  | nil => simp
  | cons r rs ih =>
    obtain ⟨-, -, -, hrest⟩ := within_cons.1 h
    rw [carve, flatMap_cons, lookup_append, Range.lookup_carve, ← carve, ih hrest, lookup_cons]
    by_cases hp : r.Covers p
    · have htail : lookup rs p = none := hrest.lookup_eq_none (.inl hp.2)
      simp only [if_pos hp, htail]
      split <;> simp
    · simp only [if_neg hp, none_or]

/-! ## Inserting a range -/

/-- Put `r` in front of the first range that starts later. -/
def insert (r : Range α) : List (Range α) → List (Range α)
  | [] => [r]
  | x :: xs => if x.first > r.first then r :: x :: xs else x :: insert r xs

theorem insert_within (h : Within lo hi rs) (hlo : lo ≤ r.first) (hcount : 0 < r.count)
    (hhi : r.stop ≤ hi) (hfree : ∀ p, r.Covers p → lookup rs p = none) :
    Within lo hi (insert r rs) := by
  have hstop : r.stop = r.first + r.count := rfl
  induction rs generalizing lo with
  | nil => simp [insert, hlo, hcount, hhi]
  | cons x xs ih =>
    obtain ⟨hxlo, hxcount, hxhi, hrest⟩ := within_cons.1 h
    have hxstop : x.stop = x.first + x.count := rfl
    -- the two ranges share no position, so one lies before the other
    have happart : r.stop ≤ x.first ∨ x.stop ≤ r.first := by
      by_contra hmeet
      have := hfree (max r.first x.first) ⟨by omega, by omega⟩
      rw [lookup_cons, if_pos ⟨by omega, by omega⟩] at this
      simp at this
    have hfree' : ∀ p, r.Covers p → lookup xs p = none := fun p hp => by
      have := hfree p hp
      rw [lookup_cons] at this
      split at this
      · simp at this
      · exact this
    rw [insert]
    split
    · simp only [within_cons]
      exact ⟨hlo, hcount, hhi, by omega, hxcount, hxhi, hrest⟩
    · rw [within_cons]
      exact ⟨hxlo, hxcount, hxhi, ih hrest (by omega) hfree'⟩

theorem lookup_insert (hfree : ∀ p, r.Covers p → lookup rs p = none) (p : Nat) :
    lookup (insert r rs) p = if r.Covers p then some r.label else lookup rs p := by
  induction rs with
  | nil => rfl
  | cons x xs ih =>
    have hfree' : ∀ q, r.Covers q → ¬x.Covers q ∧ lookup xs q = none := fun q hq => by
      have := hfree q hq
      rw [lookup_cons] at this
      split at this
      · simp at this
      · exact ⟨‹_›, this⟩
    rw [insert]
    split
    · rfl
    · rw [lookup_cons, ih (fun q hq => (hfree' q hq).2), lookup_cons]
      by_cases hp : r.Covers p
      · simp only [if_pos hp, if_neg (hfree' p hp).1]
      · simp only [if_neg hp]

/-! ## Which positions are covered

The facts below ask nothing of the shape of the list. -/

theorem lookup_ne_none : lookup rs p ≠ none ↔ ∃ r ∈ rs, r.Covers p := by
  induction rs with
  | nil => simp
  | cons r rs ih =>
    rw [lookup_cons]
    by_cases hp : r.Covers p
    · simp [hp]
    · simp [hp, ih]

/-- The pieces of a range cover what the range covers, less what is dropped. -/
theorem Range.carve_covers (lo hi : Nat) : (∃ piece ∈ r.carve g lo hi, piece.Covers p) ↔
      r.Covers p ∧ (lo ≤ p → p < hi → g r.label ≠ none) := by
  rw [← lookup_ne_none, lookup_carve]
  by_cases hp : r.Covers p
  · by_cases hwindow : lo ≤ p ∧ p < hi
    · simp [hp, hwindow]
    · have hout : lo ≤ p → ¬ p < hi := fun h h' => hwindow ⟨h, h'⟩
      simp [hp, hwindow]
      exact fun h h' => absurd h' (Nat.not_lt.mpr (Nat.not_lt.mp (hout h)))
  · simp [hp]

theorem carve_covers (lo hi : Nat) : lookup (carve g lo hi rs) p ≠ none ↔
      ∃ r ∈ rs, r.Covers p ∧ (lo ≤ p → p < hi → g r.label ≠ none) := by
  rw [lookup_ne_none]
  constructor
  · intro ⟨piece, hpiece, hp⟩
    obtain ⟨r, hr, hin⟩ := mem_flatMap.mp hpiece
    exact ⟨r, hr, (Range.carve_covers g lo hi).mp ⟨piece, hin, hp⟩⟩
  · intro ⟨r, hr, hp⟩
    obtain ⟨piece, hin, hcovers⟩ := (Range.carve_covers g lo hi).mpr hp
    exact ⟨piece, mem_flatMap.mpr ⟨r, hr, hin⟩, hcovers⟩

theorem mem_insert {x : Range α} : x ∈ insert r rs ↔ x = r ∨ x ∈ rs := by
  induction rs with
  | nil => simp [insert]
  | cons y rs ih =>
    rw [insert]
    split
    · simp
    · rw [mem_cons, ih, mem_cons]
      exact or_left_comm

end RangeMap
