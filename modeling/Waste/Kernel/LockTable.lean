import Waste.Kernel.Records
import Waste.Kernel.Transfer

/-!
# The lock tables of all files and owners together

`World.locking` is what the locks see of a world: the records of every file and of every
owner, which kernel an owner waits in, and the request that a kernel waits for.  A record
is in the list of its file and in the list of its owner, and `LockView.Ok` says that the
two agree.

Four changes make up all others: a record goes (`remove`), a record comes (`publish`), a
wait ends (`cancel`) and a wait begins (`register`).
-/

namespace Waste.Kernel

open Function StateExcept List Prod

variable (kind : Description) (file : Option Nat) (o : Nat)
variable {request : LockRequest}

structure LockView where
  locks : Nat → List RecordLock
  count : Nat → Nat
  records : Nat → List (Nat × RecordLock)
  waiting : Nat → Option Nat
  wanted : Nat → Option (Nat × LockRequest)
  owner : Nat → Nat
  live : Nat → Bool
  next : Nat

def World.locking (w : World) : LockView where
  locks f := (w.file f).locks
  count f := (w.file f).lockCount
  records o := (w.owner o).records
  waiting o := (w.owner o).waitingKernel
  wanted k := (w.kernel k).wanted
  owner k := (w.kernel k).lockOwner
  live k := (w.kernel k).live
  next := w.next

namespace LockView

/-! ## Changes -/

def remove (f : Nat) (r : RecordLock) (V : LockView) : LockView :=
  { V with
    locks := update V.locks f ((V.locks f).erase r)
    count := update V.count f (V.count f - 1)
    records := update V.records r.owner ((V.records r.owner).erase (f, r)) }

def publish (f : Nat) (r : RecordLock) (V : LockView) : LockView :=
  { V with
    locks := update V.locks f (r :: V.locks f)
    count := update V.count f (V.count f + 1)
    records := update V.records r.owner ((f, r) :: V.records r.owner) }

def cancel (k : Nat) (V : LockView) : LockView :=
  { V with
    waiting := if V.waiting (V.owner k) = some k then update V.waiting (V.owner k) none
      else V.waiting
    wanted := update V.wanted k none }

def register (k o f : Nat) (request : LockRequest) (V : LockView) : LockView :=
  { V with
    waiting := update V.waiting o (some k)
    wanted := update V.wanted k (some (f, request)) }

/-! ## The invariant -/

structure Ok (V : LockView) : Prop where
  locks : ∀ f, Locks (V.locks f)
  count : ∀ f, V.count f = (V.locks f).length
  max : ∀ f, (V.locks f).length ≤ recordLockMax
  records : ∀ o f r, (f, r) ∈ V.records o ↔ r ∈ V.locks f ∧ r.owner = o
  nodup : ∀ o, (V.records o).Nodup
  owned : ∀ f, ∀ r ∈ V.locks f, r.owner < V.next
  kernels : ∀ k, V.live k = true → k < V.next ∧ V.owner k < V.next
  wanted : ∀ k f request, V.wanted k = some (f, request) →
    V.live k = true ∧ Request request.first request.last ∧ request.type ≠ .unlck

structure Single (V : LockView) : Prop where
  kernel : ∀ k x, V.wanted k = some x → V.waiting (V.owner k) = some k
  owner : ∀ o k, V.waiting o = some k → V.owner k = o ∧ V.live k = true

variable {V : LockView} {f k : Nat} {r : RecordLock}


theorem remove_locks (V : LockView) (f f' : Nat) (r : RecordLock) :
    (V.remove f r).locks f' = if f' = f then (V.locks f).erase r else V.locks f' := by
  exact update_apply _ _ _ _

theorem remove_records (V : LockView) (f o : Nat) (r : RecordLock) : (V.remove f r).records o =
      if o = r.owner then (V.records r.owner).erase (f, r) else V.records o := by
  exact update_apply _ _ _ _

theorem Ok.mem_remove (hV : V.Ok) {f' : Nat} {r' : RecordLock} :
    r' ∈ (V.remove f r).locks f' ↔ r' ∈ V.locks f' ∧ ¬(f' = f ∧ r' = r) := by
  rw [remove_locks]
  split_ifs with hf
  · subst hf
    rw [(hV.locks f').nodup.mem_erase_iff]
    exact ⟨fun h => ⟨h.2, fun hand => h.1 hand.2⟩, fun h => ⟨fun heq => h.2 ⟨rfl, heq⟩, h.1⟩⟩
  · exact ⟨fun h => ⟨h, fun hand => hf hand.1⟩, fun h => h.1⟩

theorem Ok.remove (hV : V.Ok) (hr : r ∈ V.locks f) : (V.remove f r).Ok := by
  refine ⟨fun f' => ?_, fun f' => ?_, fun f' => ?_, fun o f' r' => ?_, fun o => ?_,
    fun f' r' hr' => hV.owned f' r' (hV.mem_remove.mp hr').1, hV.kernels, hV.wanted⟩
  · rw [remove_locks]
    split_ifs
    · exact (hV.locks f).sublist erase_sublist
    · exact hV.locks f'
  · rw [remove_locks]
    show update V.count f (V.count f - 1) f' = _
    rw [update_apply]
    split_ifs
    · rw [length_erase_of_mem hr, hV.count f]
    · exact hV.count f'
  · rw [remove_locks]
    split_ifs
    · exact le_trans erase_sublist.length_le (hV.max f)
    · exact hV.max f'
  · rw [hV.mem_remove, remove_records]
    split_ifs with ho
    · subst ho
      rw [(hV.nodup r.owner).mem_erase_iff, hV.records, ne_eq, Prod.mk.injEq]
      exact ⟨fun h => ⟨⟨h.2.1, h.1⟩, h.2.2⟩, fun h => ⟨h.1.2, h.1.1, h.2⟩⟩
    · rw [hV.records]
      refine ⟨fun h => ⟨⟨h.1, fun hand => ho ?_⟩, h.2⟩, fun h => ⟨h.1.1, h.2⟩⟩
      rw [← h.2, hand.2]
  · rw [remove_records]
    split_ifs
    · exact (hV.nodup r.owner).erase _
    · exact hV.nodup o

/-- Several records go. -/
def removeAll (l : List (Nat × RecordLock)) (V : LockView) : LockView :=
  l.foldl (fun V x => V.remove x.1 x.2) V

/-- Everything but the records. -/
structure SameWaits (V V' : LockView) : Prop where
  waiting : V'.waiting = V.waiting
  wanted : V'.wanted = V.wanted
  owner : V'.owner = V.owner
  live : V'.live = V.live
  next : V'.next = V.next

theorem removeAll_waits (l : List (Nat × RecordLock)) (V : LockView) :
    V.SameWaits (V.removeAll l) := by
  induction l generalizing V with
  | nil => exact ⟨rfl, rfl, rfl, rfl, rfl⟩
  | cons x _ ih =>
    have hrest := ih (V.remove x.1 x.2)
    exact { hrest with }

theorem Ok.removeAll (hV : V.Ok) (l : List (Nat × RecordLock)) (hl : l.Nodup)
    (hmem : ∀ x ∈ l, x.2 ∈ V.locks x.1) :
    (V.removeAll l).Ok ∧ ∀ f, (V.removeAll l).locks f = (V.locks f).filter fun r => (f, r) ∉ l := by
  induction l generalizing V with
  | nil => exact ⟨hV, fun f => (filter_eq_self.mpr (by simp)).symm⟩
  | cons x rest ih =>
    obtain ⟨hx, hrest⟩ := nodup_cons.mp hl
    have hfirst := hmem x mem_cons_self
    have hleft : ∀ y ∈ rest, y.2 ∈ (V.remove x.1 x.2).locks y.1 := by
      intro y hy
      refine hV.mem_remove.mpr ⟨hmem y (mem_cons_of_mem x hy), fun hand => hx ?_⟩
      rw [show x = y from (Prod.ext hand.1 hand.2).symm]
      exact hy
    obtain ⟨hok, hlocks⟩ := ih (hV.remove hfirst) hrest hleft
    refine ⟨hok, fun f => ?_⟩
    refine (hlocks f).trans ?_
    rw [remove_locks]
    split_ifs with hf
    · subst hf
      rw [(hV.locks x.1).nodup.erase_eq_filter, filter_filter]
      refine filter_congr fun r _ => ?_
      rw [Bool.eq_iff_iff]
      simp only [Bool.and_eq_true, decide_eq_true_eq, mem_cons, not_or, bne_iff_ne, ne_eq]
      refine ⟨fun h => ⟨fun heq => h.2 (by rw [← heq]), h.1⟩, fun h => ⟨h.2, fun heq => h.1 ?_⟩⟩
      rw [heq]
    · refine filter_congr fun r _ => ?_
      rw [Bool.eq_iff_iff]
      simp only [decide_eq_true_eq, mem_cons, not_or]
      exact ⟨fun h => ⟨fun heq => hf (by rw [← heq]), h⟩, fun h => h.2⟩

theorem Ok.cancel (hV : V.Ok) (k : Nat) : (V.cancel k).Ok := by
  refine { hV with wanted := fun k' f request h => hV.wanted k' f request ?_ }
  by_cases hk : k' = k
  · subst hk
    have hself : (V.cancel k').wanted k' = none := by simp [LockView.cancel]
    rw [hself] at h
    exact absurd h (by simp)
  · rw [← h]
    exact (update_of_ne hk _ _).symm

variable {o : Nat}

theorem Ok.register (hV : V.Ok) (hlive : V.live k = true)
    (hrequest : Request request.first request.last) (htype : request.type ≠ .unlck) :
    (V.register k o f request).Ok := by
  refine { hV with wanted := fun k' f' request' h => ?_ }
  by_cases hk : k' = k
  · subst hk
    have hself : some (f, request) = some (f', request') := (update_self k' _ _).symm.trans h
    obtain ⟨-, rfl⟩ := Prod.mk.inj (Option.some.inj hself)
    exact ⟨hlive, hrequest, htype⟩
  · exact hV.wanted k' f' request' ((update_of_ne hk _ _).symm.trans h)

/-- Several records of one file come. -/
def publishAll (f : Nat) (l : List RecordLock) (V : LockView) : LockView :=
  l.foldl (fun V r => V.publish f r) V

theorem publishAll_waits (f : Nat) (l : List RecordLock) (V : LockView) :
    V.SameWaits (V.publishAll f l) := by
  induction l generalizing V with
  | nil => exact ⟨rfl, rfl, rfl, rfl, rfl⟩
  | cons r _ ih =>
    have hrest := ih (V.publish f r)
    exact { hrest with }

theorem publishAll_locks (f : Nat) (l : List RecordLock) (V : LockView) :
    (V.publishAll f l).locks = update V.locks f (l.reverse ++ V.locks f) ∧
      (V.publishAll f l).count = update V.count f (V.count f + l.length) := by
  induction l generalizing V with
  | nil => exact ⟨(update_eq_self f V.locks).symm, (update_eq_self f V.count).symm⟩
  | cons r rest ih =>
    obtain ⟨hlocks, hcount⟩ := ih (V.publish f r)
    refine ⟨hlocks.trans ?_, hcount.trans ?_⟩
    · show update (update V.locks f _) f (rest.reverse ++ update V.locks f _ f) = _
      rw [update_idem, update_self, reverse_cons, append_assoc]
      rfl
    · show update (update V.count f _) f (update V.count f _ f + rest.length) = _
      rw [update_idem, update_self, length_cons]
      congr 1
      omega

theorem publishAll_records (f o : Nat) (l : List RecordLock) (V : LockView)
    (hl : ∀ r ∈ l, r.owner = o) :
    (V.publishAll f l).records =
      update V.records o ((l.reverse.map fun r => (f, r)) ++ V.records o) := by
  induction l generalizing V with
  | nil => exact (update_eq_self o V.records).symm
  | cons r _ ih =>
    have hrest := ih (V.publish f r) fun s hs => hl s (mem_cons_of_mem r hs)
    have howner := hl r mem_cons_self
    refine hrest.trans ?_
    show update (update V.records r.owner _) o (_ ++ update V.records r.owner _ o) = _
    rw [howner, update_idem, update_self, reverse_cons, map_append, append_assoc]
    rfl

theorem Ok.publishAll (hV : V.Ok) {l : List RecordLock} (hl : ∀ r ∈ l, r.owner = o)
    (ho : o < V.next) (hlocks : Locks (l.reverse ++ V.locks f))
    (hmax : (l.reverse ++ V.locks f).length ≤ recordLockMax) : (V.publishAll f l).Ok := by
  obtain ⟨hpublished, hcount⟩ := publishAll_locks f l V
  have hrecords := publishAll_records f o l V hl
  have hwaits := publishAll_waits f l V
  have hself : (V.publishAll f l).locks f = l.reverse ++ V.locks f := by
    rw [hpublished, update_self]
  have hother : ∀ f', f' ≠ f → (V.publishAll f l).locks f' = V.locks f' := fun f' hf => by
    rw [hpublished, update_of_ne hf]
  have hmem : ∀ f' r, r ∈ (V.publishAll f l).locks f' ↔ (f' = f ∧ r ∈ l) ∨ r ∈ V.locks f' := by
    intro f' r
    by_cases hf : f' = f
    · subst hf
      rw [hself, mem_append, mem_reverse]
      simp
    · rw [hother f' hf]
      simp [hf]
  refine ⟨fun f' => ?_,
    fun f' => ?_, fun f' => ?_,
      fun o' f' r => ?_, fun o' => ?_, fun f' r hr => ?_, fun k hk => ?_, fun k f' request h => ?_⟩
  · by_cases hf : f' = f
    · rw [hf, hself]
      exact hlocks
    · rw [hother f' hf]
      exact hV.locks f'
  · by_cases hf : f' = f
    · rw [hf, hself, hcount, update_self, length_append, length_reverse, hV.count f]
      omega
    · rw [hother f' hf, hcount, update_of_ne hf]
      exact hV.count f'
  · by_cases hf : f' = f
    · rw [hf, hself]
      exact hmax
    · rw [hother f' hf]
      exact hV.max f'
  · rw [hmem, hrecords]
    by_cases ho' : o' = o
    · subst ho'
      rw [update_self, mem_append, hV.records, mem_map]
      constructor
      · rintro (⟨s, hs, heq⟩ | ⟨hr, howner⟩)
        · obtain ⟨rfl, rfl⟩ := Prod.mk.inj heq
          exact ⟨.inl ⟨rfl, mem_reverse.mp hs⟩, hl s (mem_reverse.mp hs)⟩
        · exact ⟨.inr hr, howner⟩
      · rintro ⟨⟨rfl, hr⟩ | hr, howner⟩
        · exact .inl ⟨r, mem_reverse.mpr hr, rfl⟩
        · exact .inr ⟨hr, howner⟩
    · rw [update_of_ne ho', hV.records]
      refine ⟨fun h => ⟨.inr h.1, h.2⟩, fun h => ⟨h.1.resolve_left fun hand => ho' ?_, h.2⟩⟩
      rw [← h.2, hl r hand.2]
  · rw [hrecords]
    by_cases ho' : o' = o
    · subst ho'
      rw [update_self, nodup_append]
      have hnodup := nodup_append.mp hlocks.nodup
      refine ⟨hnodup.1.map fun _ _ heq => (Prod.mk.inj heq).2, hV.nodup o', fun x hx y hy heq => ?_⟩
      obtain ⟨s, hs, rfl⟩ := mem_map.mp hx
      rw [← heq] at hy
      exact hnodup.2.2 s hs s ((hV.records o' f s).mp hy).1 rfl
    · rw [update_of_ne ho']
      exact hV.nodup o'
  · rw [hwaits.next]
    rcases (hmem f' r).mp hr with ⟨-, hr⟩ | hr
    · rw [hl r hr]
      exact ho
    · exact hV.owned f' r hr
  · rw [hwaits.live] at hk
    rw [hwaits.owner, hwaits.next]
    exact hV.kernels k hk
  · rw [hwaits.wanted] at h
    rw [hwaits.live]
    exact hV.wanted k f' request h

def ofOwner (V : LockView) (o f : Nat) : List (Nat × RecordLock) :=
  ((V.locks f).filter (·.owner = o)).map fun r => (f, r)

theorem Ok.releaseFile (hV : V.Ok) (o f : Nat) : (V.removeAll (V.ofOwner o f)).Ok ∧
      ∀ f', (V.removeAll (V.ofOwner o f)).locks f' =
        if f' = f then (V.locks f).filter (·.owner ≠ o) else V.locks f' := by
  have hnodup : (V.ofOwner o f).Nodup :=
    ((hV.locks f).nodup.filter _).map fun _ _ heq => (Prod.mk.inj heq).2
  have hmem : ∀ x ∈ V.ofOwner o f, x.2 ∈ V.locks x.1 := by
    intro x hx
    obtain ⟨r, hr, rfl⟩ := mem_map.mp hx
    exact (mem_filter.mp hr).1
  obtain ⟨hok, hlocks⟩ := hV.removeAll _ hnodup hmem
  refine ⟨hok, fun f' => (hlocks f').trans ?_⟩
  have hin : ∀ r, (f', r) ∈ V.ofOwner o f ↔ f' = f ∧ r ∈ V.locks f ∧ r.owner = o := by
    intro r
    rw [ofOwner, mem_map]
    simp only [mem_filter, decide_eq_true_eq, Prod.mk.injEq]
    constructor
    · rintro ⟨s, hs, rfl, rfl⟩
      exact ⟨rfl, hs⟩
    · rintro ⟨rfl, hr⟩
      exact ⟨r, hr, rfl, rfl⟩
  split_ifs with hf
  · subst hf
    refine filter_congr fun r hr => ?_
    simp only [hin, hr, true_and]
  · rw [filter_eq_self]
    intro r _
    rw [decide_eq_true_eq, hin]
    exact fun h => hf h.1

/-- The change that a granted request makes. -/
def replace (f o : Nat) (type : LockType) (first last : Nat) (V : LockView) : LockView :=
  (V.removeAll (V.ofOwner o f)).publishAll f
    (coalesceRecords (pendingRecords (V.locks f) o type first last))

theorem Ok.replace_locks (hV : V.Ok) (f o : Nat) {type : LockType} (first last f' : Nat) :
    (V.replace f o type first last).locks f' =
      if f' = f then replaced (V.locks f) o type first last else V.locks f' := by
  obtain ⟨-, hlocks⟩ := hV.releaseFile o f
  refine (congrFun (publishAll_locks f _ _).1 f').trans ?_
  rw [update_apply]
  split_ifs with hf
  · rw [hlocks f, if_pos rfl]
    rfl
  · rw [hlocks f', if_neg hf]

theorem Ok.replace (hV : V.Ok) {type : LockType} {first last : Nat} (ho : o < V.next)
    (hrange : Request first last) (hgranted : Granted (V.locks f) o type first last)
    (hmax : (replaced (V.locks f) o type first last).length ≤ recordLockMax) :
    (V.replace f o type first last).Ok := by
  obtain ⟨hok, hlocks⟩ := hV.releaseFile o f
  have hself : (coalesceRecords (pendingRecords (V.locks f) o type first last)).reverse ++
      (V.removeAll (V.ofOwner o f)).locks f = replaced (V.locks f) o type first last := by
    rw [hlocks f, if_pos rfl]
    rfl
  have hnext : o < (V.removeAll (V.ofOwner o f)).next := by
    rw [(removeAll_waits _ V).next]
    exact ho
  refine hok.publishAll
    (fun r hr => (coalesced_mine (hV.locks f).toTidy hrange o type r hr).2) hnext ?_ ?_
  · rw [hself]
    exact (hV.locks f).replaced hrange hgranted
  · rw [hself]
    exact hmax

/-! ## Waiting -/

def conflictOwners (V : LockView) (o f : Nat) (request : LockRequest) : List Nat :=
  ((V.locks f).filter (·.conflicts o request.type request.first request.last)).map (·.owner)

/-- The edges of the waits-for graph. -/
def waitsFor (V : LockView) (o : Nat) : List Nat :=
  match V.waiting o with
  | none => []
  | some k =>
    match V.wanted k with
    | none => []
    | some (f, request) => V.conflictOwners o f request

theorem mem_conflictOwners {o o' : Nat} : o' ∈ V.conflictOwners o f request ↔
      ∃ r ∈ V.locks f, r.conflicts o request.type request.first request.last = true ∧
        r.owner = o' := by
  simp only [conflictOwners, mem_map, mem_filter, and_assoc]

theorem mem_waitsFor {o o' : Nat} :
    o' ∈ V.waitsFor o ↔ ∃ k f request, V.waiting o = some k ∧ V.wanted k = some (f, request) ∧
      o' ∈ V.conflictOwners o f request := by
  unfold waitsFor
  constructor
  · intro h
    split at h
    · exact absurd h not_mem_nil
    next k hk =>
    split at h
    · exact absurd h not_mem_nil
    next f request hwanted => exact ⟨k, f, request, hk, hwanted, h⟩
  · rintro ⟨k, f, request, hk, hwanted, h⟩
    rw [hk]
    dsimp only
    rw [hwanted]
    exact h

end LockView

/-! ## What leaves the lock tables alone -/

variable {w : World}

theorem locking_setFile {f : Nat} {g : FileObject → FileObject}
    (hlocks : (g (w.file f)).locks = (w.file f).locks)
    (hcount : (g (w.file f)).lockCount = (w.file f).lockCount) :
    (w.setFile f g).locking = w.locking := by
  simp only [World.locking, World.setFile, update_field FileObject.locks hlocks,
    update_field FileObject.lockCount hcount]

theorem locking_setOwner {o : Nat} {g : LockOwner → LockOwner}
    (hrecords : (g (w.owner o)).records = (w.owner o).records)
    (hwaiting : (g (w.owner o)).waitingKernel = (w.owner o).waitingKernel) :
    (w.setOwner o g).locking = w.locking := by
  simp only [World.locking, World.setOwner, update_field LockOwner.records hrecords,
    update_field LockOwner.waitingKernel hwaiting]

variable {k : Nat} {g : PosixKernel → PosixKernel}

theorem locking_setKernel
    (hwanted : (g (w.kernel k)).wanted = (w.kernel k).wanted)
    (howner : (g (w.kernel k)).lockOwner = (w.kernel k).lockOwner)
    (hlive : (g (w.kernel k)).live = (w.kernel k).live) :
    (w.setKernel k g).locking = w.locking := by
  simp only [World.locking, World.setKernel, update_field PosixKernel.wanted hwanted,
    update_field PosixKernel.lockOwner howner, update_field PosixKernel.live hlive]

@[simp] theorem locking_resourceRelease (b : Option Nat) (amount : Nat) (w : World) :
    (resourceRelease b amount w).locking = w.locking := by
  cases b <;> rfl

@[simp] theorem locking_fileRetain (w : World) : (fileRetain file w).locking = w.locking := by
  unfold fileRetain
  split
  · rfl
  · split
    · rfl
    · exact locking_setFile rfl rfl

@[simp] theorem locking_fileRelease : (fileRelease file w).locking = w.locking := by
  unfold fileRelease
  split
  · rfl
  dsimp only
  split
  · rfl
  split
  · exact locking_setFile rfl rfl
  · rw [locking_resourceRelease]
    exact locking_setFile rfl rfl

theorem signalRaise_lock (kernel : PosixKernel) (signal : Nat) :
    (kernel.signalRaise signal).2.wanted = kernel.wanted ∧
      (kernel.signalRaise signal).2.lockOwner = kernel.lockOwner ∧
      (kernel.signalRaise signal).2.live = kernel.live := by
  rcases signalRaise_cases kernel signal with h | h <;> rw [h] <;> exact ⟨rfl, rfl, rfl⟩

@[simp] theorem locking_pollSignals : (pollSignals k w).locking = w.locking := by
  have halarm : (alarmPoll k w).locking = w.locking := by
    unfold alarmPoll
    dsimp only
    split
    · rfl
    split
    · rfl
    · obtain ⟨hwanted, howner, hlive⟩ :=
        signalRaise_lock { w.kernel k with alarmActive := false } sigalrm
      exact locking_setKernel hwanted howner hlive
  have hroute : ∀ (o : Nat) (w : World) (signal : Nat),
      (routeSignal k o w signal).locking = w.locking := by
    intro o w signal
    unfold routeSignal
    split
    · obtain ⟨hwanted, howner, hlive⟩ := signalRaise_lock (w.kernel k) signal
      exact (locking_setKernel hwanted howner hlive).trans rfl
    · rfl
  unfold pollSignals routeTerminalSignals
  dsimp only
  split
  · exact halarm
  split
  · exact halarm
  · exact (foldl_view (hroute _) _ _).trans halarm

theorem locking_deliver (k signal : Nat) (w : World) : (deliver k signal w).locking = w.locking :=
  locking_setKernel rfl rfl rfl

theorem locking_setFd (fd : Fin fdMax) {entry : Option FdEntry} (w : World) :
    (setFd k fd entry w).locking = w.locking := locking_setKernel rfl rfl rfl

theorem locking_countEnds (delta : Int) (w : World) :
    (kind.countEnds delta w).locking = w.locking := by
  cases kind <;> rfl

theorem locking_release (w : World) : (kind.release w).locking = w.locking := by
  cases kind with
  | regular | null => exact locking_fileRelease _
  | pipeRead | pipeWrite =>
    rw [Description.release]
    split_ifs <;> rfl
  | terminal | stream | directory => rfl

theorem locking_dropFd {fd : Fin fdMax} {o : Nat} :
    (dropFd k fd o w).locking = w.locking := by
  have hrelease : ∀ w : World, (ofdRelease o w).locking = w.locking := by
    intro w
    unfold ofdRelease
    dsimp only
    split
    · rfl
    · exact (locking_release _ _).trans rfl
  rw [dropFd, hrelease, pipeCountDec, locking_countEnds, locking_setFd]

/-! ## What changes them -/

theorem field_update {α β : Type} (f : Nat → α) (i : Nat) (a : α) (g : α → β) :
    (fun j => g (update f i a j)) = update (fun j => g (f j)) i (g a) :=
  comp_update g f i a

theorem locking_recordRemove (f : Nat) (r : RecordLock) (w : World) :
    (recordRemove f r w).locking = w.locking.remove f r := by
  rw [recordRemove, locking_fileRelease]
  simp only [World.locking, World.setFile, World.setOwner, LockView.remove, field_update,
    update_eq_self]

theorem locking_recordPublish (f : Nat) (r : RecordLock) (w : World) :
    (recordPublish f w r).locking = w.locking.publish f r := by
  rw [← locking_fileRetain (some f) w]
  unfold recordPublish
  generalize fileRetain (some f) w = w
  simp only [World.locking, World.setFile, World.setOwner, LockView.publish, field_update,
    update_eq_self]

theorem locking_foldRemove (l : List (Nat × RecordLock)) (w : World) :
    (l.foldl (fun w x => recordRemove x.1 x.2 w) w).locking = w.locking.removeAll l :=
  (foldl_hom World.locking fun w x => (locking_recordRemove x.1 x.2 w).symm).symm

theorem locking_recordReleaseFile (o f : Nat) (w : World) :
    (recordReleaseFile o f w).locking = w.locking.removeAll (w.locking.ofOwner o f) := by
  rw [← locking_foldRemove, LockView.ofOwner, foldl_map]
  rfl

theorem locking_foldPublish (f : Nat) (l : List RecordLock) (w : World) :
    (l.foldl (recordPublish f) w).locking = w.locking.publishAll f l :=
  (foldl_hom World.locking fun w r => (locking_recordPublish f r w).symm).symm

theorem locking_setKernel_eq (k : Nat) (g : PosixKernel → PosixKernel) (w : World) :
    (w.setKernel k g).locking = { w.locking with
      wanted := update w.locking.wanted k (g (w.kernel k)).wanted
      owner := update w.locking.owner k (g (w.kernel k)).lockOwner
      live := update w.locking.live k (g (w.kernel k)).live } := by
  simp only [World.locking, World.setKernel, field_update]

theorem locking_setWait
    (howner : (g (w.kernel k)).lockOwner = w.locking.owner k)
    (hlive : (g (w.kernel k)).live = w.locking.live k) :
    (w.setKernel k g).locking =
      { w.locking with wanted := update w.locking.wanted k (g (w.kernel k)).wanted } := by
  rw [locking_setKernel_eq, howner, hlive, update_eq_self, update_eq_self]

theorem locking_setWaiting (waiting : Option Nat) (w : World) :
    (w.setOwner o fun owner => { owner with waitingKernel := waiting }).locking =
      { w.locking with waiting := update w.locking.waiting o waiting } := by
  simp only [World.locking, World.setOwner, field_update, update_eq_self]

theorem locking_clearWait (k : Nat) (file : Option Nat) (w : World) :
    ((fileRelease file w).setKernel k (·.clearWait)).locking =
      { w.locking with wanted := update w.locking.wanted k none } := by
  rw [locking_setWait rfl rfl, locking_fileRelease]
  rfl

theorem locking_cancelWait (k : Nat) (w : World) :
    (cancelWait k w).locking = w.locking.cancel k := by
  unfold cancelWait
  dsimp only
  by_cases hwaiting : (w.owner (w.kernel k).lockOwner).waitingKernel = some k
  · have hwaiting' : w.locking.waiting (w.locking.owner k) = some k := hwaiting
    rw [if_pos hwaiting, locking_clearWait, LockView.cancel, if_pos hwaiting']
    rw [locking_setWaiting]
    rfl
  · have hwaiting' : ¬w.locking.waiting (w.locking.owner k) = some k := hwaiting
    rw [if_neg hwaiting, locking_clearWait, LockView.cancel, if_neg hwaiting']

theorem locking_registerLock (k o : Nat) (fd : Int) (f : Nat) (request : LockRequest) (w : World) :
    (registerLock k o fd f request w).locking = w.locking.register k o f request := by
  unfold registerLock
  rw [locking_setWaiting, locking_setWait rfl rfl, locking_fileRetain]
  rfl

end Waste.Kernel
