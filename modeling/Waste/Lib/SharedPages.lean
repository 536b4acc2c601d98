import Mathlib

/-!
# Counted pages that are copied when they are written

Places of a type `H` hold pages by number.  Several places can hold one page, and
a count with each page says how many at least.  A page that is marked shared is
written in place, for all who hold it.  Any other page is copied before it is
written, unless the count says that the writer is the only one.

What the places see of this is their `view` and, for the shared pages, which page
they hold.  Taking a page of one's own (`own`) changes neither.  Writing it (`poke`)
changes the view of the writer and of those who hold the same shared page.
-/

namespace SharedPages

open Function

variable {H C : Type*}

structure Heap (H C : Type*) where
  backing : H → Option Nat
  content : Nat → C
  refs : Nat → Nat
  shared : Nat → Bool
  next : Nat

namespace Heap

variable (h : Heap H C)

/-- The places that hold the page `id`. -/
def holders (id : Nat) : Set H :=
  {x | h.backing x = some id}

/-- Pages that are held are numbered below `next`, and a count is never below the
number of holders.  `extra` are references of the page that no place has yet. -/
structure SoundWith (extra : Nat → Nat) (h : Heap H C) : Prop where
  allocated : ∀ x id, h.backing x = some id → id < h.next
  counted : ∀ id, (h.holders id).encard + extra id ≤ h.refs id

abbrev Sound : Prop := h.SoundWith fun _ => 0

/-- What a place sees; a place without a page sees `blank`. -/
def view (blank : C) (h : Heap H C) (x : H) : C :=
  match h.backing x with
  | none => blank
  | some id => h.content id

/-- The shared page a place holds. -/
def sharedAt (x : H) : Option Nat :=
  match h.backing x with
  | none => none
  | some id => if h.shared id then some id else none

/-- A write to the page of `x` reaches `x` only, or the page is shared. -/
def Owned (x : H) : Prop :=
  ∃ id, h.backing x = some id ∧ (h.shared id ∨ ∀ y, h.backing y = some id → y = x)

/-! ## Changes to the counts and the contents -/

def release : Option Nat → Heap H C
  | none => h
  | some id => { h with refs := update h.refs id (h.refs id - 1) }

def retain : Option Nat → Heap H C
  | none => h
  | some id => { h with refs := update h.refs id (h.refs id + 1) }

def markShared : Option Nat → Heap H C
  | none => h
  | some id => { h with shared := update h.shared id true }

def poke (x : H) (f : C → C) : Heap H C :=
  match h.backing x with
  | none => h
  | some id => { h with content := update h.content id (f (h.content id)) }

variable {h : Heap H C} {extra : Nat → Nat}

theorem release_refs (data : Option Nat) (id : Nat) :
    (h.release data).refs id = h.refs id - if data = some id then 1 else 0 := by
  cases data with
  | none => simp [release]
  | some old =>
    by_cases heq : old = id
    · simp [release, heq]
    · simp [release, heq, update_of_ne (symm heq)]

theorem retain_refs (data : Option Nat) (id : Nat) :
    (h.retain data).refs id = h.refs id + if data = some id then 1 else 0 := by
  cases data with
  | none => simp [retain]
  | some old =>
    by_cases heq : old = id
    · simp [retain, heq]
    · simp [retain, heq, update_of_ne (symm heq)]

theorem release_eq (data : Option Nat) :
    h.release data = { h with refs := (h.release data).refs } := by
  cases data <;> rfl

theorem retain_eq (data : Option Nat) :
    h.retain data = { h with refs := (h.retain data).refs } := by
  cases data <;> rfl

theorem SoundWith.retain (hsound : h.SoundWith extra) (data : Option Nat) :
    (h.retain data).SoundWith fun id => extra id + if data = some id then 1 else 0 where
  allocated x id hx := by
    rw [retain_eq] at hx ⊢
    exact hsound.allocated x id hx
  counted id := by
    have hcounted := hsound.counted id
    have hholders : (h.retain data).holders id = h.holders id := by
      rw [holders, retain_eq]
      rfl
    rw [hholders, retain_refs]
    split_ifs
    · push_cast
      rw [← add_assoc]
      gcongr
    · simpa using hcounted

variable {h' : Heap H C} {x : H} {id : Nat}

/-- Places that lose their page leave the counts right. -/
theorem SoundWith.fewer (hsound : h.SoundWith extra)
    (hback : ∀ x id, h'.backing x = some id → h.backing x = some id) (hrefs : h'.refs = h.refs)
    (hnext : h'.next = h.next) : h'.SoundWith extra where
  allocated x id hx := by
    rw [hnext]
    exact hsound.allocated x id (hback x id hx)
  counted id := by
    have hsubset : h'.holders id ⊆ h.holders id := fun x hx => hback x id hx
    rw [hrefs]
    exact le_trans (add_le_add_left (Set.encard_le_encard hsubset) _) (hsound.counted id)

theorem SoundWith.holders_next (hsound : h.SoundWith extra) : h.holders h.next = ∅ := by
  ext y
  simp only [Set.mem_empty_iff_false, iff_false]
  intro hy
  exact lt_irrefl _ (hsound.allocated y h.next hy)

/-! ## What the places see -/

variable {blank : C}

theorem view_of_backing (hx : h.backing x = some id) : h.view blank x = h.content id := by
  rw [view, hx]

theorem sharedAt_of_backing (hx : h.backing x = some id) :
    h.sharedAt x = if h.shared id then some id else none := by
  rw [sharedAt, hx]

theorem backing_of_sharedAt (hx : h.sharedAt x = some id) :
    h.backing x = some id ∧ h.shared id := by
  unfold sharedAt at hx
  split at hx
  · cases hx
  · next old hold =>
    split_ifs at hx with hshared
    cases hx
    exact ⟨hold, hshared⟩

/-- Places that did not change see what they saw. -/
theorem view_congr (hback : h'.backing x = h.backing x)
    (hcontent : ∀ id, h.backing x = some id → h'.content id = h.content id) :
    h'.view blank x = h.view blank x := by
  unfold view
  rw [hback]
  split
  · rfl
  · next id hid => exact hcontent id hid

theorem sharedAt_congr (hback : h'.backing x = h.backing x)
    (hshared : ∀ id, h.backing x = some id → h'.shared id = h.shared id) :
    h'.sharedAt x = h.sharedAt x := by
  unfold sharedAt
  rw [hback]
  split
  · rfl
  · next id hid => rw [hshared id hid]

@[simp] theorem poke_backing (x : H) (f : C → C) : (h.poke x f).backing = h.backing := by
  unfold poke
  split <;> rfl

theorem poke_content (hx : h.backing x = some id) (f : C → C) :
    (h.poke x f).content = update h.content id (f (h.content id)) := by
  simp only [poke, hx]

theorem SoundWith.poke (hsound : h.SoundWith extra) (x : H) (f : C → C) :
    (h.poke x f).SoundWith extra := by
  unfold Heap.poke
  split
  · exact hsound
  · exact ⟨hsound.allocated, hsound.counted⟩

/-- The places that see a write of `x`. -/
def Reaches (h : Heap H C) (x y : H) : Prop :=
  y = x ∨ (h.sharedAt x ≠ none ∧ h.sharedAt y = h.sharedAt x)

/-- A write to a page of one's own changes one's own view and that of the places
that hold the same shared page. -/
theorem Owned.poke_view (howned : h.Owned x) {f : C → C} {y : H} :
    (h.Reaches x y → (h.poke x f).view blank y = f (h.view blank x)) ∧
      (¬ h.Reaches x y → (h.poke x f).view blank y = h.view blank y) := by
  obtain ⟨id, hid, hreach⟩ := howned
  rw [view_of_backing hid]
  constructor
  · intro hy
    have hback : h.backing y = some id := by
      rcases hy with rfl | ⟨hsome, hsame⟩
      · exact hid
      · rw [sharedAt_of_backing hid] at hsome hsame
        split_ifs at hsome hsame
        · exact (backing_of_sharedAt hsame).1
        · exact absurd rfl hsome
    rw [view_of_backing (show (h.poke x f).backing y = some id by rwa [poke_backing]),
      poke_content hid, update_self]
  · intro hy
    apply view_congr (by rw [poke_backing])
    intro other hother
    rw [poke_content hid]
    apply update_of_ne
    intro heq
    rw [heq] at hother
    apply hy
    rcases hreach with hshared | hunique
    · refine .inr ⟨?_, ?_⟩
      · rw [sharedAt_of_backing hid, if_pos hshared]
        exact Option.some_ne_none id
      · rw [sharedAt_of_backing hid, sharedAt_of_backing hother]
    · exact .inl (hunique y hother)

/-! ## Changes of one place -/

section Place

variable [DecidableEq H]

/-- `x` gives up what it holds and takes over a reference to `data`. -/
def install (h : Heap H C) (x : H) (data : Option Nat) : Heap H C :=
  { h.release (h.backing x) with backing := update h.backing x data }

/-- A new page for `x`. -/
def fresh (h : Heap H C) (x : H) (c : C) : Heap H C :=
  { h.install x (some h.next) with
    content := update h.content h.next c
    refs := update (h.release (h.backing x)).refs h.next 1
    shared := update h.shared h.next false
    next := h.next + 1 }

/-- The page that a write of `x` goes to. -/
def own (blank : C) (h : Heap H C) (x : H) : Heap H C :=
  match h.backing x with
  | none => h.fresh x blank
  | some id => if h.refs id ≤ 1 ∨ h.shared id then h else h.fresh x (h.content id)

/-! ## Counting -/

/-- The holders of a page after one place changed: the others, and that place if it
holds the page now. -/
theorem encard_update (f : H → Option Nat) (x : H) (data : Option Nat) (id : Nat) :
    {y | update f x data y = some id}.encard =
      ({y | f y = some id} \ {x}).encard + if data = some id then 1 else 0 := by
  have hothers : {y | update f x data y = some id} \ {x} = {y | f y = some id} \ {x} := by
    ext y
    simp only [Set.mem_sdiff, Set.mem_ofPred_eq, Set.mem_singleton_iff]
    refine and_congr_left fun hne => ?_
    rw [update_of_ne hne]
  rw [← hothers]
  split_ifs with hdata
  · exact (Set.encard_sdiff_singleton_add_one (by simp [hdata])).symm
  · rw [add_zero, Set.sdiff_singleton_eq_self (by simp [hdata])]

theorem encard_holders (x : H) (id : Nat) : (h.holders id).encard =
      (h.holders id \ {x}).encard + if h.backing x = some id then 1 else 0 := by
  have hself := encard_update h.backing x (h.backing x) id
  rwa [update_eq_self] at hself

variable (hsound : h.SoundWith extra) {data : Option Nat} {c : C}
include hsound

/-- A count that is known to be finite. -/
theorem SoundWith.others (x : H) (id : Nat) : ∃ n : Nat, (h.holders id \ {x}).encard = n ∧
      n + (if h.backing x = some id then 1 else 0) + extra id ≤ h.refs id := by
  have hcounted := hsound.counted id
  rw [encard_holders x id] at hcounted
  have hfinite : (h.holders id \ {x}).encard ≠ ⊤ := by
    intro htop
    rw [htop, top_add, top_add, top_le_iff] at hcounted
    exact ENat.natCast_ne_top _ hcounted
  obtain ⟨n, hn⟩ := ENat.ne_top_iff_exists.mp hfinite
  refine ⟨n, hn.symm, ?_⟩
  rw [← hn] at hcounted
  split_ifs at hcounted ⊢ <;> exact_mod_cast hcounted

omit hsound in
theorem SoundWith.install (x : H)
    (hsound : h.SoundWith fun id => extra id + if data = some id then 1 else 0)
    (hdata : ∀ id, data = some id → id < h.next) : (h.install x data).SoundWith extra where
  allocated y id hy := by
    show id < (h.release (h.backing x)).next
    rw [release_eq]
    change update h.backing x data y = some id at hy
    by_cases hyx : y = x
    · rw [hyx, update_self] at hy
      exact hdata id hy
    · rw [update_of_ne hyx] at hy
      exact hsound.allocated y id hy
  counted id := by
    obtain ⟨n, hn, hcount⟩ := hsound.others x id
    show ({y | update h.backing x data y = some id}.encard + _ : ℕ∞) ≤
      ((h.release (h.backing x)).refs id : Nat)
    rw [encard_update, release_refs]
    change (h.holders id \ {x}).encard + _ + _ ≤ _
    rw [hn]
    split_ifs at hcount ⊢ <;> norm_cast <;> omega

theorem SoundWith.fresh (hextra : extra h.next = 0) (x : H) (c : C) :
    (h.fresh x c).SoundWith extra where
  allocated y id hy := by
    change update h.backing x (some h.next) y = some id at hy
    by_cases hyx : y = x
    · rw [hyx, update_self] at hy
      cases hy
      exact Nat.lt_succ_self _
    · rw [update_of_ne hyx] at hy
      exact Nat.lt_succ_of_lt (hsound.allocated y id hy)
  counted id := by
    show ({y | update h.backing x (some h.next) y = some id}.encard + _ : ℕ∞) ≤
      (update (h.release (h.backing x)).refs h.next 1 id : Nat)
    rw [encard_update]
    by_cases hid : id = h.next
    · have hnobody : {y | h.backing y = some id} = ∅ := by
        rw [hid]
        exact hsound.holders_next
      rw [hnobody, hid, update_self, hextra]
      simp
    · obtain ⟨n, hn, hcount⟩ := hsound.others x id
      have hne : ¬ some h.next = some id := by
        intro heq
        exact hid (Option.some.inj heq).symm
      rw [update_of_ne hid, release_refs, if_neg hne]
      change (h.holders id \ {x}).encard + _ + _ ≤ _
      rw [hn]
      have hrefs : n + extra id ≤ h.refs id - (if h.backing x = some id then 1 else 0) := by
        split_ifs at hcount ⊢ <;> omega
      exact_mod_cast hrefs

omit hsound in
theorem fresh_backing_self : (h.fresh x c).backing x = some h.next :=
  update_self ..

variable {x y z : H} {id : Nat}

omit hsound in
theorem fresh_backing_ne (hne : y ≠ x) : (h.fresh x c).backing y = h.backing y :=
  update_of_ne hne ..

theorem SoundWith.fresh_view (x : H) (c : C) (y : H) :
    (h.fresh x c).view blank y = if y = x then c else h.view blank y := by
  split_ifs with hyx
  · rw [hyx, view_of_backing fresh_backing_self]
    exact update_self ..
  · apply view_congr (fresh_backing_ne hyx)
    intro id hid
    exact update_of_ne (hsound.allocated y id hid).ne ..

/-- A new page that everyone may see is shared where it is kept. -/
theorem SoundWith.kept_sharedAt (x : H) (c : C) (y : H) :
    ((h.fresh x c).markShared (some h.next)).sharedAt y =
      if y = x then some h.next else h.sharedAt y := by
  split_ifs with hyx
  · have hself : ((h.fresh x c).markShared (some h.next)).backing x = some h.next :=
      fresh_backing_self (c := c)
    rw [hyx, sharedAt_of_backing hself]
    exact if_pos (update_self ..)
  · refine sharedAt_congr (fresh_backing_ne (c := c) hyx) ?_
    intro id hid
    have hne : id ≠ h.next := (hsound.allocated y id hid).ne
    exact (update_of_ne hne ..).trans (update_of_ne hne ..)

theorem SoundWith.fresh_sharedAt (x : H) (c : C) (y : H) :
    (h.fresh x c).sharedAt y = if y = x then none else h.sharedAt y := by
  split_ifs with hyx
  · rw [hyx, sharedAt_of_backing fresh_backing_self]
    show (if update h.shared h.next false h.next then _ else _) = _
    rw [update_self]
    rfl
  · apply sharedAt_congr (fresh_backing_ne hyx)
    intro id hid
    exact update_of_ne (hsound.allocated y id hid).ne ..

omit hsound in
theorem own_backing_ne (hne : y ≠ x) : (h.own blank x).backing y = h.backing y := by
  unfold own
  split
  · exact fresh_backing_ne hne
  · split_ifs
    · rfl
    · exact fresh_backing_ne hne

theorem SoundWith.own (hextra : extra h.next = 0) (x : H) : (h.own blank x).SoundWith extra := by
  unfold Heap.own
  split
  · exact hsound.fresh hextra x blank
  · split_ifs
    · exact hsound
    · exact hsound.fresh hextra x _

/-- Taking a page of one's own changes nothing that a place sees. -/
theorem SoundWith.own_view (x y : H) : (h.own blank x).view blank y = h.view blank y := by
  unfold Heap.own
  split
  · next hnone =>
    rw [hsound.fresh_view]
    split_ifs with hyx
    · rw [hyx, view, hnone]
    · rfl
  · next id hid =>
    split_ifs
    · rfl
    · rw [hsound.fresh_view]
      split_ifs with hyx
      · rw [hyx, view_of_backing hid]
      · rfl

theorem SoundWith.own_sharedAt (x y : H) : (h.own blank x).sharedAt y = h.sharedAt y := by
  unfold Heap.own
  split
  · next hnone =>
    rw [hsound.fresh_sharedAt]
    split_ifs with hyx
    · rw [hyx, sharedAt, hnone]
    · rfl
  · next id hid =>
    split_ifs with hkeep
    · rfl
    · rw [hsound.fresh_sharedAt]
      split_ifs with hyx
      · rw [hyx, sharedAt_of_backing hid, if_neg fun hshared => hkeep (.inr hshared)]
      · rfl

theorem SoundWith.owned_fresh : (h.fresh x c).Owned x := by
  refine ⟨h.next, fresh_backing_self, .inr fun y hy => ?_⟩
  by_contra hyx
  rw [fresh_backing_ne hyx] at hy
  exact lt_irrefl _ (hsound.allocated y h.next hy)

/-- The count of a page with one reference leaves no room for a second holder. -/
theorem SoundWith.unique_of_refs (hrefs : h.refs id ≤ 1) (hx : h.backing x = some id)
    (hy : h.backing y = some id) : y = x := by
  obtain ⟨n, hn, hcount⟩ := hsound.others x id
  rw [if_pos hx] at hcount
  have hzero : n = 0 := by omega
  rw [hzero, Nat.cast_zero, Set.encard_eq_zero] at hn
  by_contra hyx
  have hmem : y ∈ h.holders id \ {x} := ⟨hy, hyx⟩
  rw [hn] at hmem
  exact hmem

theorem SoundWith.owned_own : (h.own blank x).Owned x := by
  unfold Heap.own
  split
  · exact hsound.owned_fresh
  · next id hid =>
    split_ifs with hkeep
    · refine ⟨id, hid, hkeep.symm.imp_right fun hrefs y hy => ?_⟩
      exact hsound.unique_of_refs hrefs hid hy
    · exact hsound.owned_fresh

omit hsound

theorem install_view (x : H) (y : H) : (h.install x data).view blank y =
      if y = x then (match data with | none => blank | some id => h.content id)
      else h.view blank y := by
  split_ifs with hyx
  · have hback : (h.install x data).backing y = data := by
      rw [hyx]
      exact update_self ..
    rw [view, hback]
    show (match data with | none => blank | some id => (h.release (h.backing x)).content id) = _
    rw [release_eq]
  · apply view_congr (update_of_ne hyx ..)
    intro id _
    show (h.release (h.backing x)).content id = _
    rw [release_eq]

theorem install_sharedAt (x : H) (y : H) : (h.install x data).sharedAt y =
    if y = x then
      (match data with | none => none | some id => if h.shared id then some id else none)
    else h.sharedAt y := by
  split_ifs with hyx
  · have hback : (h.install x data).backing y = data := by
      rw [hyx]
      exact update_self ..
    rw [sharedAt, hback]
    show (match data with
      | none => none
      | some id => if (h.release (h.backing x)).shared id then some id else none) = _
    rw [release_eq]
  · apply sharedAt_congr (update_of_ne hyx ..)
    intro id _
    show (h.release (h.backing x)).shared id = _
    rw [release_eq]

/-! ## Joining a page that is meant to be shared -/

/-- `x` takes the page of `z`, which becomes shared. -/
def adopt (h : Heap H C) (x : H) (id : Nat) : Heap H C :=
  ((h.retain (some id)).markShared (some id)).install x (some id)

theorem SoundWith.adopt (hsound : h.SoundWith extra) (x : H) (hz : h.backing z = some id) :
    (h.adopt x id).SoundWith extra := by
  have hretained := hsound.retain (some id)
  apply install x
  · exact ⟨hretained.allocated, hretained.counted⟩
  · intro id' hid
    cases hid
    exact hsound.allocated z id hz

theorem adopt_markShared (x : H) (id : Nat) :
    (h.markShared (some id)).adopt x id = h.adopt x id := by
  unfold adopt
  congr 1
  show { h with refs := _, shared := update (update h.shared id true) id true } = _
  rw [update_idem]
  rfl

theorem adopt_refs_le (x : H) (id other : Nat) : (h.adopt x id).refs other ≤ h.refs other + 1 := by
  show (((h.retain (some id)).markShared (some id)).release _).refs other ≤ _
  rw [release_refs]
  have hretain := h.retain_refs (some id) other
  have hmarked : ((h.retain (some id)).markShared (some id)).refs other =
      (h.retain (some id)).refs other := rfl
  rw [hmarked, hretain]
  split_ifs <;> omega

theorem adopt_backing (x : H) (id : Nat) (y : H) :
    (h.adopt x id).backing y = if y = x then some id else h.backing y := by
  show update h.backing x (some id) y = _
  split_ifs with hyx
  · rw [hyx, update_self]
  · rw [update_of_ne hyx]

theorem adopt_view (hz : h.backing z = some id) (y : H) :
    (h.adopt x id).view blank y = if y = x then h.view blank z else h.view blank y := by
  have hadopt : (h.adopt x id).view blank y =
      if y = x then h.content id else h.view blank y := install_view x y
  rw [hadopt, view_of_backing hz]

/-- The page was shared before, or nobody else has it. -/
theorem adopt_sharedAt (hunique : h.shared id ∨ ∀ y, h.backing y = some id → y = z) (y : H) :
    (h.adopt x id).sharedAt y =
      if y = x then some id else if y = z ∧ h.backing y = some id then some id
      else h.sharedAt y := by
  have hadopt : (h.adopt x id).sharedAt y = if y = x then
      (if update h.shared id true id then some id else none)
      else ((h.retain (some id)).markShared (some id)).sharedAt y :=
    install_sharedAt x y
  have hmarked : ∀ other, h.backing y = some other →
      ((h.retain (some id)).markShared (some id)).sharedAt y =
        if update h.shared id true other then some other else none := fun other hy =>
    sharedAt_of_backing (show ((h.retain (some id)).markShared (some id)).backing y = some other
      from hy)
  rw [hadopt, update_self]
  split_ifs with hyx htrue hyz
  · rfl
  · exact absurd rfl htrue
  · rw [hmarked id hyz.2, update_self]
    rfl
  cases hy : h.backing y with
  | none =>
    have hnone : ((h.retain (some id)).markShared (some id)).backing y = none := hy
    rw [sharedAt, sharedAt, hy, hnone]
  | some other =>
    rw [hmarked other hy, sharedAt_of_backing hy]
    by_cases hother : other = id
    · rw [hother] at hy ⊢
      rcases hunique with hshared | hunique
      · rw [update_self, if_pos rfl, if_pos hshared]
      · exact absurd ⟨hunique y hy, hy⟩ hyz
    · rw [update_of_ne hother]

end Place

end Heap

end SharedPages
