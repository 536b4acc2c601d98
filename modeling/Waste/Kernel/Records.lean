import Waste.Kernel.Files

/-!
# The lists of record locks

What `record_replace` computes, as a function from the records of a file to its records
afterwards.  `lockAt` is the purpose of such a list: the type of lock that an owner holds
on a byte.  `Locks` is the shape that the lists have.
-/

namespace Waste.Kernel

open List Option

/-! ## Records -/

def RecordLock.Valid (r : RecordLock) : Prop :=
  r.first ≤ r.last ∧ r.last ≤ uint64Max ∧ r.type ≠ .unlck

def RecordLock.Apart (a b : RecordLock) : Prop := a.last < b.first ∨ b.last < a.first

/-- The record is a lock of type `x.2` on the byte `x.1`. -/
def RecordLock.Holds (r : RecordLock) (x : Nat × LockType) : Prop :=
  r.first ≤ x.1 ∧ x.1 ≤ r.last ∧ r.type = x.2

variable {a b e r : RecordLock} {o : Nat}

/-- The guard against the overflow of `end + 1` never decides. -/
theorem touches_iff (ha : a.Valid) (hb : b.Valid) :
    a.touches b = true ↔ a.type = b.type ∧ b.first ≤ a.last + 1 ∧ a.first ≤ b.last + 1 := by
  obtain ⟨ha, hamax, -⟩ := ha
  obtain ⟨hb, hbmax, -⟩ := hb
  simp only [RecordLock.touches, Bool.and_eq_true, Bool.or_eq_true, decide_eq_true_eq, and_assoc]
  constructor
  · rintro ⟨htype, hleft, hright⟩
    exact ⟨htype, by omega, by omega⟩
  · rintro ⟨htype, hleft, hright⟩
    exact ⟨htype, .inr hleft, .inr hright⟩

/-- The records of one owner, before they go into its file. -/
def RecordLock.Mine (o : Nat) (r : RecordLock) : Prop := r.Valid ∧ r.owner = o

theorem Mine.join (ha : a.Mine o) (hb : b.Mine o) : (a.join b).Mine o := by
  obtain ⟨⟨ha, hamax, hatype⟩, howner⟩ := ha
  obtain ⟨⟨hb, hbmax, -⟩, -⟩ := hb
  refine ⟨⟨?_, ?_, hatype⟩, howner⟩
  · show min a.first b.first ≤ max a.last b.last
    omega
  · show max a.last b.last ≤ uint64Max
    omega

theorem record_laws (o : Nat) :
    Coalesce.Laws RecordLock.touches .join (RecordLock.Mine o) RecordLock.Apart
      RecordLock.Holds where
  good a b _ ha hb := Mine.join ha hb
  cover := by
    intro a b x ha hb htouch
    obtain ⟨htype, hleft, hright⟩ := (touches_iff ha.1 hb.1).mp htouch
    show (min a.first b.first ≤ x.1 ∧ x.1 ≤ max a.last b.last ∧ a.type = x.2) ↔
      (a.first ≤ x.1 ∧ x.1 ≤ a.last ∧ a.type = x.2) ∨ (b.first ≤ x.1 ∧ x.1 ≤ b.last ∧ b.type = x.2)
    rw [← htype]
    constructor
    · rintro ⟨hfirst, hlast, hx⟩
      by_cases hin : a.first ≤ x.1 ∧ x.1 ≤ a.last
      · exact .inl ⟨hin.1, hin.2, hx⟩
      · exact .inr ⟨by omega, by omega, hx⟩
    · rintro (⟨hfirst, hlast, hx⟩ | ⟨hfirst, hlast, hx⟩)
      · exact ⟨by omega, by omega, hx⟩
      · exact ⟨by omega, by omega, hx⟩
  untouched := by
    intro e he a b htouch ha hb
    obtain ⟨htype, hleft, hright⟩ := (touches_iff ha.1.1 hb.1.1).mp htouch
    have hjoin := Mine.join ha.1 hb.1
    refine ⟨hjoin, ?_⟩
    have hna := ha.2
    have hnb := hb.2
    rw [Bool.eq_false_iff, Ne, touches_iff he.1 ha.1.1] at hna
    rw [Bool.eq_false_iff, Ne, touches_iff he.1 hb.1.1] at hnb
    rw [Bool.eq_false_iff, Ne, touches_iff he.1 hjoin.1]
    rintro ⟨hetype, hefirst, helast⟩
    have hetype' : e.type = a.type := hetype
    have hefirst' : min a.first b.first ≤ e.last + 1 := hefirst
    have helast' : e.first ≤ max a.last b.last + 1 := helast
    have hele := he.1.1
    have hnotA : ¬(a.first ≤ e.last + 1 ∧ e.first ≤ a.last + 1) := fun h => hna ⟨hetype', h⟩
    have hnotB : ¬(b.first ≤ e.last + 1 ∧ e.first ≤ b.last + 1) :=
      fun h => hnb ⟨hetype'.trans htype, h⟩
    omega
  apart_symm := fun h => h.symm
  apart := by
    intro e he a b htouch ha hb
    obtain ⟨-, hleft, hright⟩ := (touches_iff ha.1.1 hb.1.1).mp htouch
    refine ⟨Mine.join ha.1 hb.1, ?_⟩
    have hea : e.last < a.first ∨ a.last < e.first := ha.2
    have heb : e.last < b.first ∨ b.last < e.first := hb.2
    have hele := he.1.1
    show e.last < min a.first b.first ∨ max a.last b.last < e.first
    omega

/-! ## The private list -/

variable {first last : Nat} {type : LockType}

/-- What is left of an old record outside the range of the new one. -/
theorem mem_pieces (hr : r ∈ pieces first last e) (he : e.Valid) :
    r.Valid ∧ r.owner = e.owner ∧ r.type = e.type ∧ e.first ≤ r.first ∧ r.last ≤ e.last ∧
      (r.last < first ∨ last < r.first) := by
  obtain ⟨hele, hemax, hetype⟩ := he
  unfold pieces at hr
  simp only [recordOverlap, Bool.not_eq_true', Bool.and_eq_false_iff, decide_eq_false_iff_not] at hr
  split at hr
  · next hout =>
    obtain rfl := mem_singleton.mp hr
    exact ⟨⟨hele, hemax, hetype⟩, rfl, rfl, le_refl _, Nat.le_refl _, by omega⟩
  rcases List.mem_append.mp hr with hr | hr
  · split at hr
    · obtain rfl := mem_singleton.mp hr
      refine ⟨⟨?_, ?_, hetype⟩, rfl, rfl, le_refl _, ?_, ?_⟩ <;> dsimp only <;> omega
    · exact absurd hr not_mem_nil
  · split at hr
    · obtain rfl := mem_singleton.mp hr
      refine ⟨⟨?_, ?_, hetype⟩, rfl, rfl, ?_, le_refl _, ?_⟩ <;> dsimp only <;> omega
    · exact absurd hr not_mem_nil

/-- Nothing outside the range is lost. -/
theorem pieces_cover {x : Nat × LockType} (hx : e.Holds x)
    (hout : x.1 < first ∨ last < x.1) : ∃ r ∈ pieces first last e, r.Holds x := by
  obtain ⟨hfirst, hlast, htype⟩ := hx
  unfold pieces
  split
  · exact ⟨e, mem_singleton_self e, hfirst, hlast, htype⟩
  rcases hout with hbefore | hafter
  · refine ⟨{ e with last := first - 1 }, ?_, hfirst, ?_, htype⟩
    · rw [if_pos (by omega)]
      exact mem_append_left _ (mem_singleton_self _)
    · show x.1 ≤ first - 1
      omega
  · refine ⟨{ e with first := last + 1 }, ?_, ?_, hlast, htype⟩
    · rw [if_pos (show last < e.last by omega)]
      exact mem_append_right _ (mem_singleton_self _)
    · show last + 1 ≤ x.1
      omega

theorem pieces_apart (hle : first ≤ last) : (pieces first last e).Pairwise RecordLock.Apart := by
  unfold pieces
  split
  · exact pairwise_singleton _ _
  refine pairwise_append.mpr ⟨?_, ?_, fun a ha b hb => ?_⟩
  · split
    · exact pairwise_singleton _ _
    · exact Pairwise.nil
  · split
    · exact pairwise_singleton _ _
    · exact Pairwise.nil
  split at ha
  · split at hb
    · obtain rfl := mem_singleton.mp ha
      obtain rfl := mem_singleton.mp hb
      left
      show first - 1 < last + 1
      omega
    · exact absurd hb not_mem_nil
  · exact absurd ha not_mem_nil

/-! ## The list of a file -/

/-- The records of one owner are disjoint, and not adjacent if their type is the same. -/
structure Tidy (locks : List RecordLock) : Prop where
  valid : ∀ r ∈ locks, r.Valid
  apart : locks.Pairwise fun a b => a.owner = b.owner → a.Apart b ∧ a.touches b = false

/-- The records of a file: those of two owners overlap only for reading. -/
structure Locks (locks : List RecordLock) : Prop extends Tidy locks where
  exclusive : ∀ a ∈ locks, ∀ b ∈ locks, a.owner ≠ b.owner → recordOverlap a.first a.last b = true →
    a.type = .rdlck ∧ b.type = .rdlck

def lockAt (locks : List RecordLock) (o byte : Nat) : Option LockType :=
  (locks.find? fun r => r.owner = o && (r.first ≤ byte && byte ≤ r.last)).map (·.type)

variable {locks : List RecordLock} {byte : Nat} {t : LockType}

theorem Locks.nil : Locks [] :=
  ⟨⟨fun _ h => absurd h not_mem_nil, Pairwise.nil⟩, fun _ h => absurd h not_mem_nil⟩

theorem touches_symm (ha : a.Valid) (hb : b.Valid) : a.touches b = b.touches a := by
  rw [Bool.eq_iff_iff, touches_iff ha hb, touches_iff hb ha]
  exact ⟨fun h => ⟨h.1.symm, h.2.2, h.2.1⟩, fun h => ⟨h.1.symm, h.2.2, h.2.1⟩⟩

section

variable (h : Tidy locks)
include h

theorem Tidy.pair (ha : a ∈ locks) (hb : b ∈ locks) (hne : a ≠ b) (howner : a.owner = b.owner) :
    a.Apart b ∧ a.touches b = false := by
  have hvalid : locks.Pairwise fun a b =>
      a.owner = b.owner → a.Apart b ∧ a.touches b = false ∧ b.touches a = false := by
    refine h.apart.imp_of_mem fun {r s} hr hs hrs ho => ?_
    obtain ⟨hapart, htouch⟩ := hrs ho
    rw [touches_symm (h.valid s hs) (h.valid r hr)]
    exact ⟨hapart, htouch, htouch⟩
  have : Std.Symm fun a b : RecordLock =>
      a.owner = b.owner → a.Apart b ∧ a.touches b = false ∧ b.touches a = false :=
    ⟨fun a b hab ho => ⟨(hab ho.symm).1.symm, (hab ho.symm).2.2, (hab ho.symm).2.1⟩⟩
  have hpair := hvalid.forall ha hb hne howner
  exact ⟨hpair.1, hpair.2.1⟩

theorem Tidy.unique (ha : a ∈ locks) (hb : b ∈ locks) (howner : a.owner = b.owner)
    {x y : Nat × LockType} (hx : a.Holds x) (hy : b.Holds y) (hxy : x.1 = y.1) : a = b := by
  by_contra hne
  obtain ⟨hxfirst, hxlast, -⟩ := hx
  obtain ⟨hyfirst, hylast, -⟩ := hy
  rcases (h.pair ha hb hne howner).1 with hlt | hlt <;> omega

theorem Tidy.nodup : locks.Nodup := by
  refine h.apart.imp_of_mem fun {a b} ha _ hab heq => ?_
  subst heq
  have hle := (h.valid a ha).1
  rcases (hab rfl).1 with hlt | hlt <;> omega

theorem lockAt_eq_some :
    lockAt locks o byte = some t ↔ ∃ r ∈ locks, r.owner = o ∧ r.Holds (byte, t) := by
  unfold lockAt
  rw [map_eq_some_iff]
  constructor
  · rintro ⟨r, hfind, rfl⟩
    have hr := find?_some hfind
    simp only [Bool.and_eq_true, decide_eq_true_eq] at hr
    exact ⟨r, mem_of_find?_eq_some hfind, hr.1, hr.2.1, hr.2.2, rfl⟩
  rintro ⟨r, hr, howner, hholds⟩
  have hsome : (locks.find? fun r => r.owner = o && (r.first ≤ byte && byte ≤ r.last)).isSome := by
    rw [find?_isSome]
    refine ⟨r, hr, ?_⟩
    simp only [Bool.and_eq_true, decide_eq_true_eq]
    exact ⟨howner, hholds.1, hholds.2.1⟩
  obtain ⟨s, hs⟩ := isSome_iff_exists.mp hsome
  have hs' := find?_some hs
  simp only [Bool.and_eq_true, decide_eq_true_eq] at hs'
  have heq : s = r := h.unique (mem_of_find?_eq_some hs) hr (hs'.1.trans howner.symm)
    (x := (byte, s.type)) ⟨hs'.2.1, hs'.2.2, rfl⟩ hholds rfl
  exact ⟨s, hs, by rw [heq]; exact hholds.2.2⟩

/-! ## The list after `record_replace` -/

/-- The records of a file after a request has been granted. -/
def replaced (locks : List RecordLock) (o : Nat) (type : LockType) (first last : Nat) :
    List RecordLock :=
  (coalesceRecords (pendingRecords locks o type first last)).reverse ++ locks.filter (·.owner ≠ o)

omit h in
theorem mem_pendingRecords : r ∈ pendingRecords locks o type first last ↔
      (∃ e ∈ locks, e.owner = o ∧ r ∈ pieces first last e) ∨
        (type ≠ .unlck ∧ r = { owner := o, first, last, type }) := by
  have hkept : r ∈ ((locks.filter (·.owner = o)).flatMap (pieces first last)).reverse ↔
      ∃ e ∈ locks, e.owner = o ∧ r ∈ pieces first last e := by
    simp only [mem_reverse, mem_flatMap, mem_filter, decide_eq_true_eq, and_assoc]
  unfold pendingRecords
  split_ifs with htype
  · rw [hkept]
    exact ⟨.inl, fun h => h.resolve_right fun h => h.1 htype⟩
  · rw [mem_cons, hkept, or_comm]
    exact or_congr_right ⟨fun h => ⟨htype, h⟩, fun h => h.2⟩

structure Request (first last : Nat) : Prop where
  ordered : first ≤ last
  bounded : last ≤ uint64Max

theorem pendingRecords_mine (hrange : Request first last) (o : Nat) (type : LockType) :
    ∀ r ∈ pendingRecords locks o type first last, r.Mine o := by
  intro r hr
  rcases mem_pendingRecords.mp hr with ⟨e, he, howner, hr⟩ | ⟨htype, rfl⟩
  · obtain ⟨hvalid, howner', -⟩ := mem_pieces hr (h.valid e he)
    exact ⟨hvalid, howner'.trans howner⟩
  · exact ⟨⟨hrange.ordered, hrange.bounded, htype⟩, rfl⟩

theorem pendingRecords_apart (hrange : Request first last) :
    (pendingRecords locks o type first last).Pairwise RecordLock.Apart := by
  have hkept : ((locks.filter (·.owner = o)).flatMap (pieces first last)).reverse.Pairwise
      RecordLock.Apart := by
    rw [pairwise_reverse, pairwise_flatMap]
    refine ⟨fun e _ => (pieces_apart hrange.ordered).imp .symm, ?_⟩
    refine (h.apart.filter _).imp_of_mem fun {a b} ha hb hab x hx y hy => ?_
    rw [mem_filter, decide_eq_true_eq] at ha hb
    obtain ⟨hapart, -⟩ := hab (ha.2.trans hb.2.symm)
    obtain ⟨-, -, -, hxfirst, hxlast, -⟩ := mem_pieces hx (h.valid a ha.1)
    obtain ⟨-, -, -, hyfirst, hylast, -⟩ := mem_pieces hy (h.valid b hb.1)
    rcases hapart with hlt | hlt
    · right
      omega
    · left
      omega
  unfold pendingRecords
  split_ifs
  · exact hkept
  · refine pairwise_cons.mpr ⟨fun r hr => ?_, hkept⟩
    rw [mem_reverse, mem_flatMap] at hr
    obtain ⟨e, he, hr⟩ := hr
    obtain ⟨-, -, -, -, -, hout⟩ := mem_pieces hr (h.valid e (mem_filter.mp he).1)
    exact hout.symm

/-- Inside the range the private list has the new type, and outside what there was. -/
theorem pendingRecords_cover (byte : Nat) (t : LockType) :
    (∃ r ∈ pendingRecords locks o type first last, r.Holds (byte, t)) ↔
      if first ≤ byte ∧ byte ≤ last then type = t ∧ type ≠ .unlck
      else ∃ r ∈ locks, r.owner = o ∧ r.Holds (byte, t) := by
  split_ifs with hin
  · constructor
    · rintro ⟨r, hr, hholds⟩
      rcases mem_pendingRecords.mp hr with ⟨e, he, -, hr⟩ | ⟨htype, rfl⟩
      · obtain ⟨-, -, -, -, -, hout⟩ := mem_pieces hr (h.valid e he)
        have hfirst : r.first ≤ byte := hholds.1
        have hlast : byte ≤ r.last := hholds.2.1
        omega
      · exact ⟨hholds.2.2, htype⟩
    · rintro ⟨htype, hlock⟩
      exact ⟨{ owner := o, first, last, type }, mem_pendingRecords.mpr (.inr ⟨hlock, rfl⟩),
        hin.1, hin.2, htype⟩
  · constructor
    · rintro ⟨r, hr, hfirst, hlast, htype⟩
      rcases mem_pendingRecords.mp hr with ⟨e, he, howner, hr⟩ | ⟨-, rfl⟩
      · obtain ⟨-, -, htype', hefirst, helast, -⟩ := mem_pieces hr (h.valid e he)
        exact ⟨e, he, howner, le_trans hefirst hfirst, le_trans hlast helast,
          htype'.symm.trans htype⟩
      · exact absurd ⟨hfirst, hlast⟩ hin
    · rintro ⟨e, he, howner, hholds⟩
      have hout : byte < first ∨ last < byte := by omega
      obtain ⟨r, hr, hr'⟩ := pieces_cover hholds hout
      exact ⟨r, mem_pendingRecords.mpr (.inl ⟨e, he, howner, hr⟩), hr'⟩

omit h in
theorem mem_replaced : r ∈ replaced locks o type first last ↔
      r ∈ coalesceRecords (pendingRecords locks o type first last) ∨ (r ∈ locks ∧ r.owner ≠ o) := by
  unfold replaced
  simp only [mem_append, mem_reverse, mem_filter, decide_eq_true_eq]

theorem coalesced_mine (hrange : Request first last) (o : Nat) (type : LockType) :
    ∀ r ∈ coalesceRecords (pendingRecords locks o type first last), r.Mine o :=
  Coalesce.coalesce_forall (record_laws o).good _ (pendingRecords_mine h hrange o type)

/-- The granted request, as a change of the map from owners and bytes to locks. -/
theorem replaced_cover (hrange : Request first last) (o : Nat) (type : LockType) (o' byte : Nat)
    (t : LockType) :
    (∃ r ∈ replaced locks o type first last, r.owner = o' ∧ r.Holds (byte, t)) ↔
      if o' = o ∧ first ≤ byte ∧ byte ≤ last then type = t ∧ type ≠ .unlck
      else ∃ r ∈ locks, r.owner = o' ∧ r.Holds (byte, t) := by
  have hmine := coalesced_mine h hrange o type
  by_cases ho : o' = o
  · subst ho
    have hcover := (Coalesce.coalesce_cover (record_laws o')
      (pendingRecords locks o' type first last).length (pendingRecords_mine h hrange o' type)
      (byte, t)).trans (pendingRecords_cover h byte t)
    simp only [true_and]
    rw [← hcover]
    constructor
    · rintro ⟨r, hr, howner, hholds⟩
      rcases mem_replaced.mp hr with hr | ⟨-, hne⟩
      · exact ⟨r, hr, hholds⟩
      · exact absurd howner hne
    · rintro ⟨r, hr, hholds⟩
      exact ⟨r, mem_replaced.mpr (.inl hr), (hmine r hr).2, hholds⟩
  · rw [if_neg fun hand => ho hand.1]
    constructor
    · rintro ⟨r, hr, howner, hholds⟩
      rcases mem_replaced.mp hr with hr | ⟨hr, -⟩
      · exact absurd (howner.symm.trans (hmine r hr).2) ho
      · exact ⟨r, hr, howner, hholds⟩
    · rintro ⟨r, hr, howner, hholds⟩
      exact ⟨r, mem_replaced.mpr (.inr ⟨hr, by rw [howner]; exact ho⟩), howner, hholds⟩

/-- A request is granted when no other owner is in its way. -/
def Granted (locks : List RecordLock) (o : Nat) (type : LockType) (first last : Nat) : Prop :=
  type ≠ .unlck → recordConflict locks o type first last = none

omit h in
theorem Granted.rdlck (h : Granted locks o type first last) (htype : type ≠ .unlck) (hr : r ∈ locks)
    (howner : r.owner ≠ o) (hvalid : r.Valid) (hoverlap : recordOverlap first last r = true) :
    type = .rdlck ∧ r.type = .rdlck := by
  have hnone := find?_eq_none.mp (h htype) r hr
  simp only [RecordLock.conflicts, hoverlap, and_true, Bool.and_eq_true, decide_eq_true_eq,
    Bool.or_eq_true, not_and, not_or] at hnone
  obtain ⟨hwrlck, hwrlck'⟩ := hnone howner
  have hunlck := hvalid.2.2
  constructor
  · cases type <;> first | rfl | contradiction
  · revert hunlck hwrlck'
    cases r.type <;> simp

theorem Tidy.replaced (hrange : Request first last) (o : Nat) (type : LockType) :
    Tidy (replaced locks o type first last) := by
  have hmine := coalesced_mine h hrange o type
  have hpending := pendingRecords_mine h hrange o type
  refine ⟨fun r hr => ?_, ?_⟩
  · rcases mem_replaced.mp hr with hr | ⟨hr, -⟩
    · exact (hmine r hr).1
    · exact h.valid r hr
  refine pairwise_append.mpr ⟨?_, h.apart.filter _, fun a ha b hb howner => ?_⟩
  · rw [pairwise_reverse]
    have hapart := Coalesce.coalesce_apart (record_laws o)
      (pendingRecords locks o type first last).length hpending (pendingRecords_apart h hrange)
    have hseparate := Coalesce.coalesce_separate (record_laws o) _ hpending (le_refl _)
    refine (hapart.and hseparate).imp_of_mem fun {a b} ha hb hab _ => ?_
    rw [touches_symm (hmine b hb).1 (hmine a ha).1]
    exact ⟨hab.1.symm, hab.2⟩
  · rw [mem_reverse] at ha
    rw [mem_filter, decide_eq_true_eq] at hb
    exact absurd (howner.symm.trans (hmine a ha).2) hb.2

theorem lockAt_replaced (hrange : Request first last) (o : Nat) (o' byte : Nat) :
    lockAt (replaced locks o type first last) o' byte =
      if o' = o ∧ first ≤ byte ∧ byte ≤ last then (if type = .unlck then none else some type)
      else lockAt locks o' byte := by
  refine ext fun t => ?_
  rw [lockAt_eq_some (h.replaced hrange o type), replaced_cover h hrange]
  split_ifs with hin htype
  · simp [htype]
  · simp [htype]
  · rw [lockAt_eq_some h]

end

theorem Locks.replaced (h : Locks locks) (hrange : Request first last)
    (hgranted : Granted locks o type first last) : Locks (replaced locks o type first last) := by
  have hmine := coalesced_mine h.toTidy hrange o type
  -- a record of the owner and one of another
  have hcross : ∀ a ∈ coalesceRecords (pendingRecords locks o type first last), ∀ b ∈ locks,
      b.owner ≠ o → recordOverlap a.first a.last b = true → a.type = .rdlck ∧ b.type = .rdlck := by
    intro a ha b hb howner hoverlap
    simp only [recordOverlap, Bool.and_eq_true, decide_eq_true_eq] at hoverlap
    have haowner := (hmine a ha).2
    have havalid := (hmine a ha).1
    have hbvalid := h.valid b hb
    have hale := havalid.1
    have hble := hbvalid.1
    have hbyte : a.Holds (max a.first b.first, a.type) :=
      ⟨by dsimp only; omega, by dsimp only; omega, rfl⟩
    have hcover := (replaced_cover h.toTidy hrange o type o (max a.first b.first) a.type).mp
      ⟨a, mem_replaced.mpr (.inl ha), haowner, hbyte⟩
    split_ifs at hcover with hin
    · obtain ⟨htype, hlock⟩ := hcover
      have hwith := hgranted.rdlck hlock hb howner hbvalid (by
        simp only [recordOverlap, Bool.and_eq_true, decide_eq_true_eq]
        omega)
      exact ⟨htype ▸ hwith.1, hwith.2⟩
    · obtain ⟨e, he, heowner, hefirst, helast, hetype⟩ := hcover
      dsimp only at hefirst helast hetype
      have hwith := h.exclusive e he b hb (by rw [heowner]; exact howner.symm) (by
        simp only [recordOverlap, Bool.and_eq_true, decide_eq_true_eq]
        omega)
      exact ⟨hetype ▸ hwith.1, hwith.2⟩
  refine ⟨h.toTidy.replaced hrange o type, fun a ha b hb howner hoverlap => ?_⟩
  rcases mem_replaced.mp ha with ha | ⟨ha, hao⟩
  · rcases mem_replaced.mp hb with hb | ⟨hb, hbo⟩
    · exact absurd ((hmine a ha).2.trans (hmine b hb).2.symm) howner
    · exact hcross a ha b hb hbo hoverlap
  rcases mem_replaced.mp hb with hb | ⟨hb, hbo⟩
  · have hflip : recordOverlap b.first b.last a = true := by
      simp only [recordOverlap, Bool.and_eq_true, decide_eq_true_eq] at hoverlap ⊢
      omega
    exact (hcross b hb a ha hao hflip).symm
  · exact h.exclusive a ha b hb howner hoverlap

theorem Locks.sublist {locks' : List RecordLock} (h : Locks locks) (hsub : locks'.Sublist locks) :
    Locks locks' :=
  ⟨⟨fun r hr => h.valid r (hsub.subset hr), h.apart.sublist hsub⟩,
    fun a ha b hb => h.exclusive a (hsub.subset ha) b (hsub.subset hb)⟩

end Waste.Kernel
