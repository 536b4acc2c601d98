import Waste.Kernel.LockTable

/-!
# What the lock calls do to the lock tables

`recordLock_effect` says everything that one call of `posix_kernel_record_lock` can do:
nothing, give up a wait, change the records of its range, or begin a wait.
-/

namespace Waste.Kernel

open Function StateExcept Bool List Option Nat

variable {V : LockView} {w : World} {k f o : Nat} {type : LockType} {first last : Nat}
variable {request : LockRequest} {range : Nat × Nat} {e : Errno}

theorem allocateOr_locking : Fixes World.locking (allocateOr e) :=
  allocateOr_view (fun _ _ => rfl)

theorem allocateRecords_spec (l : List RecordLock) :
    Triple (fun w => w.locking = V) (allocateRecords l) (fun _ w => w.locking = V)
      (fun e w => e = .enolck ∧ w.locking = V) := by
  induction l with
  | nil => exact .pure fun _ h => h
  | cons r _ ih =>
    refine .bind ?_ fun _ => ih
    refine .bind (Q := fun _ w => w.locking = V) ?_ fun granted => ?_
    · intro w hw
      exact ⟨fun _ _ hrun => ((allocate_view fun _ _ => rfl : Fixes World.locking allocate).view_eq
        w hw).1 _ _ hrun, nofun⟩
    · cases granted
      · exact .throw fun _ h => ⟨rfl, h⟩
      · exact .pure fun _ h => h

/-- `record_replace` grants the request, or answers `ENOLCK` and changes nothing. -/
theorem recordReplace_spec (f o : Nat) (first last : Nat) :
    Triple (fun w => w.locking = V) (recordReplace f o type first last)
      (fun _ w => w.locking = V.replace f o type first last ∧
        (replaced (V.locks f) o type first last).length ≤ recordLockMax)
      (fun e w => e = .enolck ∧ w.locking = V) := by
  refine .read_bind fun w hw => ?_
  have hlocks : (w.file f).locks = V.locks f := by
    rw [← hw]
    rfl
  dsimp only
  rw [hlocks]
  refine .bind (allocateRecords_spec _) fun _ => ?_
  refine .ite (fun _ => .throw fun _ h => ⟨rfl, h⟩) fun hroom => ?_
  have hmax : (replaced (V.locks f) o type first last).length ≤ recordLockMax := by
    rw [replaced, length_append, length_reverse]
    omega
  refine .modify_bind fun w hw => .modify ?_
  rintro _ rfl
  rw [locking_foldPublish, locking_recordReleaseFile, hw]
  exact ⟨rfl, hmax⟩

theorem recordReplace_error (f o : Nat) (type : LockType) (first last : Nat) (w : World)
    (h : (exec (recordReplace f o type first last) w).1 = .error e) : e = .enolck :=
  ((recordReplace_spec f o first last w rfl).2 e _ (Prod.ext h rfl)).1

/-! ## Ranges -/

/-- A lock request is in range, or the call fails with one of two errors. -/
def Ranged {α : Type} (first last : α → Nat) : Except Errno α → Prop
  | .ok a => Request (first a) (last a)
  | .error e => e = .einval ∨ e = .eoverflow

theorem lockSpan_ranged (position length : Int) :
    Ranged Prod.fst Prod.snd (lockSpan position length) := by
  have hmax : int32Max ≤ uint64Max := by decide
  unfold lockSpan
  split_ifs
  · exact .inl rfl
  · exact .inr rfl
  · exact .inl rfl
  · constructor <;> dsimp only <;> omega
  · constructor <;> dsimp only <;> omega
  · exact .inr rfl
  · constructor <;> dsimp only <;> omega

theorem lockRange_ranged (lock : Flock) (offset size : Nat) :
    Ranged Prod.fst Prod.snd (lockRange lock offset size) := by
  unfold lockRange
  dsimp only
  generalize (if lock.whence = 0 then 0 else if lock.whence = 1 then offset else size) = base
  split_ifs
  · exact .inl rfl
  · exact .inr rfl
  · exact .inr rfl
  · exact lockSpan_ranged _ _

theorem newLockRequest_ranged (command : LockCommand) (lock : Flock) (offset size : Nat) :
    Ranged LockRequest.first LockRequest.last (newLockRequest command lock offset size) := by
  unfold newLockRequest
  split
  · exact .inl rfl
  split_ifs
  · exact .inl rfl
  have hrange := lockRange_ranged lock offset size
  cases hresult : lockRange lock offset size with
  | error _ | ok _ =>
    rw [hresult] at hrange
    exact hrange

/-! ## One call -/

/-- What a lock call can do, with the answer that it gives. -/
inductive LockEffect (k : Nat) (command : LockCommand) (V : LockView) :
    Except Errno Flock → LockView → Prop
  | same (answer : Except Errno Flock) : LockEffect k command V answer V
  | cancelled (answer : Except Errno Flock) (hcommand : command = .setlkw) :
    LockEffect k command V answer (V.cancel k)
  | granted {U : LockView} (lock : Flock) (f : Nat) (type : LockType) (first last : Nat)
    (hcommand : command = .setlk ∧ U = V ∨ command = .setlkw ∧ U = V.cancel k)
    (hrange : Request first last) (hgranted : Granted (V.locks f) (V.owner k) type first last)
    (hmax : (replaced (V.locks f) (V.owner k) type first last).length ≤ recordLockMax) :
    LockEffect k command V (.ok lock) (U.replace f (V.owner k) type first last)
  | registered (f : Nat) (request : LockRequest) (hcommand : command = .setlkw)
    (hrange : Request request.first request.last) (htype : request.type ≠ .unlck)
    (hidle : V.wanted k = none) (visited : List Nat)
    (hsearch : DepthFirst.visitAll (DepthFirst.visit V.waitsFor (V.owner k) recordLockMax
      (recordLockMax + 1)) (V.conflictOwners (V.owner k) f request) [] = some (false, visited)) :
    LockEffect k command V (.error .eagain) (V.register k (V.owner k) f request)

variable {command : LockCommand} {lock : Flock} {fd : Int}

/-- A program whose outcome is one of the effects. -/
def Effects (k : Nat) (command : LockCommand) (V : LockView) (c : KernelM Flock) : Prop :=
  Triple (fun w => w.locking = V) c (fun a w => LockEffect k command V (.ok a) w.locking)
    fun e w => LockEffect k command V (.error e) w.locking

theorem giveUp_effects : Effects k .setlkw V (giveUp k e) := by
  refine .modify_bind fun w hw => .throw ?_
  rintro _ rfl
  rw [locking_cancelWait, hw]
  exact .cancelled _ rfl

theorem throw_effects : Effects k command V (throw e) := by
  refine .throw fun w hw => ?_
  rw [hw]
  exact .same _

theorem waitForLock_effects (k : Nat) (fd : Int) (f : Nat)
    (hrange : Request request.first request.last) (htype : request.type ≠ .unlck) :
    Effects k .setlkw V (waitForLock k fd f request) := by
  refine .read_bind fun w hw => ?_
  dsimp only
  rcases hsearch : findCycle w (w.kernel k).lockOwner f request with e | found
  · exact giveUp_effects
  cases found
  · refine .ite (fun _ => ?_) fun hidle => ?_
    · refine .ite (fun _ => ?_) fun _ => ?_
      · exact throw_effects
      · exact throw_effects
    refine .ite (fun _ => ?_) fun _ => ?_
    · exact throw_effects
    have howner : (w.kernel k).lockOwner = V.owner k := by
      rw [← hw]
      rfl
    refine .modify_bind fun w' hw' => .throw ?_
    rintro _ rfl
    rw [locking_registerLock, hw', howner]
    have hwanted : V.wanted k = none := by
      rw [← hw]
      exact if_neg hidle
    unfold findCycle at hsearch
    subst hw
    split at hsearch
    · exact absurd hsearch (by simp)
    next visited hvisited =>
    obtain rfl := Except.ok.inj hsearch
    exact .registered f request rfl hrange htype hwanted visited hvisited
  · exact giveUp_effects

/-- The request goes to `record_replace` from the table `U`. -/
theorem replace_effects {U : LockView}
    (hcommand : command = .setlk ∧ U = V ∨ command = .setlkw ∧ U = V.cancel k)
    (hrange : Request request.first request.last)
    (hgranted : Granted (V.locks f) (V.owner k) request.type request.first request.last) :
    Triple (fun w => w.locking = U)
      (recordReplace f (V.owner k) request.type request.first request.last >>= fun _ => pure lock)
      (fun a w => LockEffect k command V (.ok a) w.locking)
      fun e w => LockEffect k command V (.error e) w.locking := by
  have hlocks : U.locks = V.locks := by
    rcases hcommand with ⟨-, rfl⟩ | ⟨-, rfl⟩ <;> rfl
  refine .bind ((recordReplace_spec _ _ _ _).conseq (fun _ h => h) (fun _ _ h => h) fun e w h => ?_)
    fun _ => .pure fun w h => ?_
  · rw [h.2]
    rcases hcommand with ⟨-, rfl⟩ | ⟨hcommand, rfl⟩
    · exact .same _
    · exact .cancelled _ hcommand
  · rw [hlocks] at h
    rw [h.1]
    exact .granted lock f _ _ _ hcommand hrange hgranted h.2

theorem applyLock_effects (hrange : Request request.first request.last) :
    Effects k command V (applyLock k fd command lock f request) := by
  refine .read_bind fun w hw => ?_
  have hfile : (w.file f).locks = V.locks f := by
    rw [← hw]
    rfl
  have howner : (w.kernel k).lockOwner = V.owner k := by
    rw [← hw]
    rfl
  dsimp only
  rw [hfile, howner]
  -- without a conflict the request is granted, and with one it is for a lock
  have hgranted : (if request.type = .unlck then none
      else recordConflict (V.locks f) (V.owner k) request.type request.first request.last).isSome ≠
        true → Granted (V.locks f) (V.owner k) request.type request.first request.last := by
    intro hnone htype
    rw [if_neg htype] at hnone
    exact not_isSome_iff_eq_none.mp hnone
  have htype : (if request.type = .unlck then none
      else recordConflict (V.locks f) (V.owner k) request.type request.first request.last).isSome =
        true → request.type ≠ .unlck := by
    intro hsome heq
    rw [if_pos heq] at hsome
    exact absurd hsome (by simp)
  generalize (if request.type = .unlck then none
    else recordConflict (V.locks f) (V.owner k) request.type request.first request.last) = conflict
    at hgranted htype ⊢
  cases command with
  | getlk =>
    cases describeConflict w lock conflict with
    | error e => exact throw_effects
    | ok a =>
      refine .pure fun w' hw' => ?_
      rw [hw']
      exact .same _
  | setlk =>
    refine .ite (fun _ => ?_) fun hnone => ?_
    · exact throw_effects
    · exact replace_effects (.inl ⟨rfl, rfl⟩) hrange (hgranted hnone)
  | setlkw =>
    refine .ite (fun hsome => ?_) fun hnone => ?_
    · exact waitForLock_effects k fd f hrange (htype hsome)
    · refine .bind ?_ fun _ => replace_effects (.inr ⟨rfl, rfl⟩) hrange (hgranted hnone)
      refine .modify fun w' hw' => ?_
      rw [locking_cancelWait, hw']

theorem interruptible_locking (k : Nat) :
    Triple (fun w => w.locking = V) (interruptible k) (fun _ w => w.locking = V)
      (fun e w => e = .eintr ∧ w.locking = V.cancel k) := by
  refine .get_bind fun w hw => ?_
  unfold signalInterrupt
  dsimp only
  have hpoll : (pollSignals k w).locking = V := locking_pollSignals.trans hw
  split
  · exact .set_bind fun _ _ => .ite (fun h => absurd h (by simp)) fun _ =>
      .pure fun _ h => h ▸ hpoll
  · refine .set_bind fun _ _ => .ite (fun _ => .throw ?_) fun h => absurd rfl h
    rintro _ rfl
    rw [locking_cancelWait, locking_deliver, hpoll]
    exact ⟨rfl, rfl⟩

theorem lockRequest_spec (hV : V.Ok) (k : Nat) (fd : Int) (r : Regular) :
    Triple (fun w => w.locking = V) (lockRequest k fd command lock r)
      (fun request w => w.locking = V ∧ Request request.first request.last)
      (fun e w => LockEffect k command V (.error e) w.locking) := by
  refine .get_bind fun w hw => ?_
  split
  · next f request hwanted =>
    have hcommand : command = .setlkw := by
      by_contra hne
      rw [if_neg hne] at hwanted
      exact absurd hwanted (by simp)
    rw [if_pos hcommand] at hwanted
    have hwanted' : V.wanted k = some (f, request) := by
      rw [← hw]
      exact hwanted
    refine .ite (fun _ => ?_) fun _ => ?_
    · refine .modify_bind ?_
      rintro _ rfl
      refine .throw ?_
      rintro _ rfl
      rw [locking_cancelWait, hw]
      exact .cancelled _ hcommand
    · refine .pure ?_
      rintro _ rfl
      exact ⟨hw, (hV.wanted k f request hwanted').2.1⟩
  · have hranged := newLockRequest_ranged command lock r.offset (w.file r.file).data.length
    generalize newLockRequest command lock r.offset (w.file r.file).data.length = result at hranged
    rcases result with e | request
    · refine .throw ?_
      rintro _ rfl
      rw [hw]
      exact .same _
    · refine .pure ?_
      rintro _ rfl
      exact ⟨hw, hranged⟩

/-- Everything that a lock call can do. -/
theorem recordLock_effects (hV : V.Ok) (k : Nat) (fd : Int) (command : LockCommand) (lock : Flock) :
    Effects k command V (kernelRecordLock k fd command lock) := by
  refine .read_bind fun w hw => ?_
  have hrefuse : ∀ e, Effects k command V
      (if command = .setlkw then giveUp k e else throw e : KernelM Flock) := by
    intro e
    refine .ite (fun hcommand => ?_) fun _ => throw_effects
    subst hcommand
    exact giveUp_effects
  dsimp only
  split
  · exact hrefuse _
  split
  · next r hr =>
    refine .bind (lockRequest_spec hV k fd r) fun request => ?_
    rintro w' ⟨hw', hrange⟩
    refine Triple.ite (fun _ => throw_effects) (fun _ => ?_) w' hw'
    refine .ite (fun hcommand => ?_) fun _ => applyLock_effects hrange
    subst hcommand
    refine .bind ?_ fun _ => applyLock_effects hrange
    refine (interruptible_locking k).conseq (fun _ h => h) (fun _ _ h => h) fun e w h => ?_
    rw [h.2]
    exact .cancelled _ rfl
  · exact hrefuse _

/-! ## Calls that acquire nothing -/

/-- The tables are in order, and no record and no wait is new. -/
structure Fewer (V V' : LockView) : Prop where
  ok : V'.Ok
  single : V.Single → V'.Single
  locks : ∀ f, (V'.locks f).Sublist (V.locks f)
  waiting : ∀ o k, V'.waiting o = some k → V.waiting o = some k
  wanted : ∀ k x, V'.wanted k = some x → V.wanted k = some x ∧ V'.owner k = V.owner k
  next : V.next ≤ V'.next

variable {V0 : LockView}

theorem Fewer.refl (hV : V.Ok) : Fewer V V :=
  ⟨hV, fun h => h, fun _ => Sublist.refl _, fun _ _ h => h, fun _ _ h => ⟨h, rfl⟩, le_refl _⟩

theorem Fewer.trans {V1 : LockView} (h : Fewer V0 V) (h' : Fewer V V1) : Fewer V0 V1 := by
  refine ⟨h'.ok, fun hs => h'.single (h.single hs), fun f => (h'.locks f).trans (h.locks f),
    fun o k hk => h.waiting o k (h'.waiting o k hk), fun k x hx => ?_, le_trans h.next h'.next⟩
  obtain ⟨hx', howner⟩ := h'.wanted k x hx
  obtain ⟨hx'', howner'⟩ := h.wanted k x hx'
  exact ⟨hx'', howner.trans howner'⟩

theorem Fewer.wanted_none (h : Fewer V0 V) (hk : V0.wanted k = none) : V.wanted k = none := by
  rw [eq_none_iff_forall_not_mem]
  intro x hx
  exact absurd (hk.symm.trans (h.wanted k x hx).1) (by simp)

theorem cancel_waiting (V : LockView) (k o : Nat) : (V.cancel k).waiting o =
      if o = V.owner k ∧ V.waiting o = some k then none else V.waiting o := by
  unfold LockView.cancel
  dsimp only
  by_cases hwaiting : V.waiting (V.owner k) = some k
  · rw [if_pos hwaiting, update_apply]
    by_cases ho : o = V.owner k
    · rw [if_pos ho, if_pos ⟨ho, ho ▸ hwaiting⟩]
    · rw [if_neg ho, if_neg fun h => ho h.1]
  · rw [if_neg hwaiting, if_neg]
    rintro ⟨rfl, h⟩
    exact hwaiting h

theorem cancel_wanted (V : LockView) (k k' : Nat) :
    (V.cancel k).wanted k' = if k' = k then none else V.wanted k' :=
  update_apply _ _ _ _

theorem cancel_wanted_self : (V.cancel k).wanted k = none := by
  rw [cancel_wanted, if_pos rfl]

theorem cancel_not_waiting (hs : V.Single) (k o : Nat) : (V.cancel k).waiting o ≠ some k := by
  intro ho
  rw [cancel_waiting] at ho
  split_ifs at ho with h
  exact h ⟨(hs.owner o k ho).1.symm, ho⟩

theorem Fewer.cancel (hV : V.Ok) (k : Nat) : Fewer V (V.cancel k) := by
  have hwaiting : ∀ o k', (V.cancel k).waiting o = some k' → V.waiting o = some k' := by
    intro o k' h
    rw [cancel_waiting] at h
    split_ifs at h
    exact h
  have hwanted : ∀ k' x, (V.cancel k).wanted k' = some x → k' ≠ k ∧ V.wanted k' = some x := by
    intro k' x h
    rw [cancel_wanted] at h
    split_ifs at h with hk
    exact ⟨hk, h⟩
  refine ⟨hV.cancel k, fun hs => ⟨fun k' x h => ?_, fun o k' h => hs.owner o k' (hwaiting o k' h)⟩,
    fun _ => Sublist.refl _, hwaiting, fun k' x h => ⟨(hwanted k' x h).2, rfl⟩, le_refl _⟩
  obtain ⟨hk, hx⟩ := hwanted k' x h
  have hself := hs.kernel k' x hx
  rw [cancel_waiting, if_neg fun h => hk (some.inj (hself.symm.trans h.2))]
  exact hself

theorem Fewer.of_waits {V' : LockView} (hok : V'.Ok) (hwaits : V.SameWaits V')
    (hlocks : ∀ f, (V'.locks f).Sublist (V.locks f)) : Fewer V V' := by
  refine ⟨hok, fun hs => ⟨?_, ?_⟩, hlocks, fun o k h => ?_, fun k x h => ⟨?_, ?_⟩,
    le_of_eq hwaits.next.symm⟩
  · rw [hwaits.wanted, hwaits.waiting, hwaits.owner]
    exact hs.kernel
  · rw [hwaits.waiting, hwaits.owner, hwaits.live]
    exact hs.owner
  · rw [hwaits.waiting] at h
    exact h
  · rw [hwaits.wanted] at h
    exact h
  · rw [hwaits.owner]

theorem Fewer.removeAll (hV : V.Ok) {l : List (Nat × RecordLock)} (hl : l.Nodup)
    (hmem : ∀ x ∈ l, x.2 ∈ V.locks x.1) : Fewer V (V.removeAll l) := by
  obtain ⟨hok, hlocks⟩ := hV.removeAll l hl hmem
  refine of_waits hok (LockView.removeAll_waits l V) fun f => ?_
  rw [hlocks f]
  exact filter_sublist

theorem Fewer.releaseFile (hV : V.Ok) (o f : Nat) : Fewer V (V.removeAll (V.ofOwner o f)) := by
  refine .removeAll hV ?_ fun x hx => ?_
  · exact ((hV.locks f).nodup.filter _).map fun _ _ heq => (Prod.mk.inj heq).2
  · obtain ⟨r, hr, rfl⟩ := mem_map.mp hx
    exact (mem_filter.mp hr).1

/-- The world has lost locks and waits only. -/
def Shrunk (V0 : LockView) (w : World) : Prop := Fewer V0 w.locking

section

variable (h : Shrunk V0 w)
include h

theorem Shrunk.of_locking {w' : World} (heq : w'.locking = w.locking) : Shrunk V0 w' := by
  rw [Shrunk, heq]
  exact h

theorem Shrunk.cancelWait (k : Nat) : Shrunk V0 (cancelWait k w) := by
  rw [Shrunk, locking_cancelWait]
  exact h.trans (.cancel h.ok k)

theorem Shrunk.recordReleaseFile (o f : Nat) : Shrunk V0 (recordReleaseFile o f w) := by
  rw [Shrunk, locking_recordReleaseFile]
  exact h.trans (.releaseFile h.ok o f)

theorem Shrunk.lockOwnerRelease (o : Nat) : Shrunk V0 (lockOwnerRelease o w) := by
  have hrefs : (w.setOwner o fun owner => { owner with refs := owner.refs - 1 }).locking =
      w.locking :=
    locking_setOwner rfl rfl
  unfold Kernel.lockOwnerRelease
  dsimp only
  split
  · exact h.of_locking hrefs
  rw [Shrunk, locking_foldRemove, hrefs]
  have hrecords : ((w.setOwner o fun owner => { owner with refs := owner.refs - 1 }).owner
      o).records = w.locking.records o := congrFun (congrArg LockView.records hrefs) o
  rw [hrecords]
  refine h.trans (.removeAll h.ok (h.ok.nodup o) fun x hx => ?_)
  exact ((h.ok.records o x.1 x.2).mp hx).1

omit h in
theorem kernelClose_shrunk (fd : Int) : Keeps (Shrunk V0) (kernelClose k fd) := by
  refine .bind openFd_keeps fun r => .bind (.modify fun w hw => ?_) fun _ =>
    .modify fun w hw => hw.of_locking locking_dropFd
  unfold releaseLocks
  split
  · exact hw.recordReleaseFile _ _
  · exact hw

omit h in
theorem kernelCloseAllFds_shrunk (k : Nat) : Keeps (Shrunk V0) (kernelCloseAllFds k) :=
  .bind (.modify fun _ hw => hw.cancelWait k) fun _ =>
    closeEach_keeps kernelClose_shrunk

theorem Shrunk.setKernel {g : PosixKernel → PosixKernel}
    (hidle : V0.Single → ∀ o, w.locking.waiting o ≠ some k)
    (hwanted : (g (w.kernel k)).wanted = none)
    (hnumbers : (g (w.kernel k)).live = true → k < w.next ∧ (g (w.kernel k)).lockOwner < w.next) :
    Shrunk V0 (w.setKernel k g) := by
  rw [Shrunk, locking_setKernel_eq, hwanted]
  have hwanted' : ∀ k' x, update w.locking.wanted k none k' = some x →
      k' ≠ k ∧ w.locking.wanted k' = some x := by
    intro k' x hx
    rw [update_apply] at hx
    split_ifs at hx with hk
    exact ⟨hk, hx⟩
  have howner : ∀ {k'}, k' ≠ k → update w.locking.owner k (g (w.kernel k)).lockOwner k' =
      w.locking.owner k' := fun hk => update_of_ne hk _ _
  have hlive : ∀ {k'}, k' ≠ k → update w.locking.live k (g (w.kernel k)).live k' =
      w.locking.live k' := fun hk => update_of_ne hk _ _
  refine ⟨{ h.ok with kernels := fun k' hk' => ?_, wanted := fun k' f request hx => ?_ },
    fun hs => ⟨fun k' x hx => ?_, fun o k' hk' => ?_⟩, h.locks, h.waiting,
      fun k' x hx => ?_, h.next⟩
  · dsimp only at hk' ⊢
    by_cases hk : k' = k
    · subst hk
      rw [update_self] at hk' ⊢
      exact hnumbers hk'
    · rw [hlive hk] at hk'
      rw [howner hk]
      exact h.ok.kernels k' hk'
  · obtain ⟨hk, hx⟩ := hwanted' k' _ hx
    dsimp only
    rw [hlive hk]
    exact h.ok.wanted k' f request hx
  · obtain ⟨hk, hx⟩ := hwanted' k' _ hx
    dsimp only
    rw [howner hk]
    exact (h.single hs).kernel k' x hx
  · have hk : k' ≠ k := fun heq => hidle hs o (heq ▸ hk')
    dsimp only
    rw [howner hk, hlive hk]
    exact (h.single hs).owner o k' hk'
  · obtain ⟨hk, hx⟩ := hwanted' k' _ hx
    dsimp only
    rw [howner hk]
    exact h.wanted k' x hx

theorem Shrunk.fileReleases {α : Type} (file : α → Option Nat) (l : List α) :
    Shrunk V0 (l.foldl (fun w a => fileRelease (file a) w) w) :=
  l.foldlRecOn _ h fun _ hw a _ => hw.of_locking (locking_fileRelease (file a))

theorem Shrunk.shmNamespaceRelease (n : Nat) : Shrunk V0 (shmNamespaceRelease n w) := by
  unfold Kernel.shmNamespaceRelease
  dsimp only
  split
  · exact h
  have hrefs : Shrunk V0 (w.setShm n fun shm => { shm with refs := shm.refs - 1 }) :=
    h.of_locking rfl
  split
  · exact hrefs
  · exact hrefs.fileReleases (fun object : ShmObject => some object.file) _

theorem kernelDestroy_shrunk : Shrunk V0 (kernelDestroy k w) := by
  have hself : Shrunk (w.locking.cancel k) (cancelWait k w) := by
    rw [Shrunk, locking_cancelWait]
    exact .refl (h.ok.cancel k)
  have hfds : Shrunk (w.locking.cancel k) (allFds.foldl (destroyFd k) (cancelWait k w)) := by
    refine allFds.foldlRecOn _ hself fun w hw fd _ => ?_
    unfold destroyFd
    split
    · exact hw
    · exact hw.of_locking locking_dropFd
  unfold kernelDestroy
  dsimp only
  generalize allFds.foldl (destroyFd k) (cancelWait k w) = w1 at hfds
  have hpaths := hfds.fileReleases (fun node : PathNode => node.file) (w1.kernel k).pathNodes
  generalize (w1.kernel k).pathNodes.foldl (fun w node => fileRelease node.file w) w1 = w2 at hpaths
  have hinodes : Shrunk (w.locking.cancel k) (w2.setInodes (w1.kernel k).inodeSequence fun inodes =>
      { inodes with refs := inodes.refs - 1 }) := hpaths.of_locking rfl
  have hshared := (hinodes.shmNamespaceRelease (w1.kernel k).shmNamespace).lockOwnerRelease
    (w1.kernel k).lockOwner
  generalize lockOwnerRelease _ _ = w3 at hshared
  -- the wait has been given up at the start, and there is no new one
  have hend : Shrunk V0 w3 := h.trans ((Fewer.cancel h.ok k).trans hshared)
  refine hend.setKernel (fun hs o ho => ?_) ?_ fun h => absurd h (by simp)
  · exact cancel_not_waiting (h.single hs) k o (hshared.waiting o k ho)
  · exact hshared.wanted_none cancel_wanted_self

end

/-! ## Copying a kernel -/

theorem Fewer.numbers (hV : V.Ok) {n : Nat} (hn : V.next ≤ n) : Fewer V { V with next := n } :=
  ⟨{ hV with
      owned := fun f r hr => (hV.owned f r hr).trans_le hn
      kernels := fun k hk => (hV.kernels k hk).imp (·.trans_le hn) (·.trans_le hn) },
        fun h => ⟨h.kernel, h.owner⟩,
    fun _ => Sublist.refl _, fun _ _ h => h, fun _ _ h => ⟨h, rfl⟩, hn⟩

theorem fresh_locking {R : Errno → World → Prop} : Triple (fun w => w.locking = V) fresh
      (fun n w => n = V.next ∧ w.locking = { V with next := V.next + 1 }) R := by
  refine .get_bind fun w hw => ?_
  subst hw
  refine .set_bind fun _ _ => .pure ?_
  rintro _ rfl
  exact ⟨rfl, rfl⟩

theorem fresh_shrunk : Keeps (Shrunk V0) fresh := by
  intro w hw
  have hspec := fresh_locking (R := fun _ => Shrunk V0) w rfl
  refine ⟨fun n w' hrun => ?_, hspec.2⟩
  show Fewer V0 w'.locking
  rw [(hspec.1 n w' hrun).2]
  exact .trans hw (.numbers hw.ok (le_succ _))

theorem copying_shrunk {clone : Nat} : Copying (Shrunk V0) clone where
  allocateOr := allocateOr_locking.keeps (Fewer V0)
  fresh := fresh_shrunk
  setOfd _ _ _ hw := hw.of_locking rfl
  setStatus _ _ _ hw := hw.of_locking rfl
  fileRetain file w hw := hw.of_locking (locking_fileRetain file w)
  retainOfd _ _ hw := hw.of_locking (locking_countEnds _ _ _)
  setFd fd _ w hw := hw.of_locking (locking_setFd fd w)

theorem retainShared_locking (kernel : PosixKernel) (w : World) :
    (retainShared kernel w).locking = w.locking := by
  refine (foldl_view (fun w (node : PathNode) => locking_fileRetain node.file w) _ _).trans ?_
  exact locking_setOwner (w := w) (g := fun owner => { owner with refs := owner.refs + 1 }) rfl rfl

theorem kernelClone_shrunk {source : Nat} :
    Triple (fun w => Shrunk V0 w ∧ (w.kernel source).live = true) (kernelClone source)
      (fun _ => Shrunk V0) (fun _ => Shrunk V0) := by
  refine .get_bind fun w hw => ?_
  -- the owner of the original exists, so the copy may have it
  have howner : (w.kernel source).lockOwner < w.locking.next := (hw.1.ok.kernels source hw.2).2
  refine .ite (fun _ => .throw fun _ h => h ▸ hw.1) fun _ => ?_
  refine allocateOr_locking.then (fun _ => congrArg World.locking) (fun _ _ => hw.1.of_locking)
    fun _ => ?_
  refine .bind fresh_locking fun clone => ?_
  refine .bind (Q := fun _ => Shrunk V0) ?_ fun _ => ?_
  · refine .modify fun w' hw' => ?_
    have hshrunk : Shrunk V0 w' := by
      rw [Shrunk, hw'.2]
      exact .trans hw.1 (.numbers hw.1.ok (le_succ _))
    have hnext : w'.locking.next = w.locking.next + 1 := by rw [hw'.2]
    refine hshrunk.setKernel (fun hs o ho => ?_) ?_ fun _ => ⟨?_, ?_⟩
    · -- a kernel with a new number was not alive
      rw [hw'.2] at ho
      have hlive := ((hw.1.single hs).owner o clone ho).2
      have hbelow := (hw.1.ok.kernels clone hlive).1
      omega
    · simp [PosixKernel.wanted, PosixKernel.forClone]
    · show clone < w'.locking.next
      omega
    · show (w.kernel source).lockOwner < w'.locking.next
      omega
  refine .keep_bind (.modify fun w' hw' => hw'.of_locking (retainShared_locking _ w')) fun _ => ?_
  refine .bind ?_ fun _ => Keeps.pure _
  refine .tryCatch (copying_shrunk.cloneFds source allFds []) fun e => ?_
  exact Keeps.bind (.modify fun w' hw' => kernelDestroy_shrunk hw') fun _ => .throw _

theorem Shrunk.newOwner (h : Shrunk V0 w) {new : Nat}
    (hnew : ∀ f, ∀ r ∈ w.locking.locks f, r.owner ≠ new)
    (hkernels : ∀ k, w.locking.live k = true → w.locking.owner k ≠ new) (pid : Int) :
    Shrunk V0 (w.setOwner new fun _ =>
      { refs := 1, pid, records := [], waitingKernel := none }) := by
  have hview : (w.setOwner new fun _ =>
      { refs := 1, pid, records := [], waitingKernel := none }).locking = { w.locking with
        records := update w.locking.records new []
        waiting := update w.locking.waiting new none } := by
    simp only [World.locking, World.setOwner, field_update]
  rw [Shrunk, hview]
  have hwaiting : ∀ o k, update w.locking.waiting new none o = some k →
      w.locking.waiting o = some k := by
    intro o k hk
    rw [update_apply] at hk
    split_ifs at hk
    exact hk
  refine h.trans ⟨⟨h.ok.locks, h.ok.count, h.ok.max, fun o f r => ?_, fun o => ?_, h.ok.owned,
    h.ok.kernels, h.ok.wanted⟩,
      fun hs => ⟨fun k x hx => ?_, fun o k hk => hs.owner o k (hwaiting o k hk)⟩,
    fun _ => Sublist.refl _, hwaiting, fun _ _ h => ⟨h, rfl⟩, le_refl _⟩
  · dsimp only
    by_cases ho : o = new
    · subst ho
      rw [update_self]
      exact ⟨fun hr => absurd hr not_mem_nil, fun hr => absurd hr.2 (hnew f r hr.1)⟩
    · rw [update_of_ne ho]
      exact h.ok.records o f r
  · dsimp only
    by_cases ho : o = new
    · rw [ho, update_self]
      exact nodup_nil
    · rw [update_of_ne ho]
      exact h.ok.nodup o
  · have hlive := (h.ok.wanted k x.1 x.2 hx).1
    dsimp only
    rw [update_of_ne (hkernels k hlive)]
    exact hs.kernel k x hx

theorem kernelSetLockPid_shrunk {pid : Int} : Keeps (Shrunk V0) (kernelSetLockPid k pid) := by
  refine .ite (fun _ => .throw _) fun _ => .get_bind fun w _ => ?_
  refine .ite (fun _ => .pure _) fun _ => ?_
  refine .bind (allocateOr_locking.keeps (Fewer V0)) fun _ => ?_
  intro w1 hw1
  refine Triple.bind fresh_locking (fun new => ?_) w1 rfl
  refine .modify fun w2 hw2 => ?_
  obtain ⟨rfl, hview⟩ := hw2
  have hfewer : Fewer w1.locking w2.locking := by
    rw [hview]
    exact .numbers hw1.ok (le_succ _)
  have hnew : ∀ f, ∀ r ∈ w2.locking.locks f, r.owner ≠ w1.locking.next := by
    intro f r hr
    rw [hview] at hr
    exact Nat.ne_of_lt (hw1.ok.owned f r hr)
  have hkernels : ∀ k, w2.locking.live k = true → w2.locking.owner k ≠ w1.locking.next := by
    intro k hk
    rw [hview] at hk ⊢
    exact Nat.ne_of_lt (hw1.ok.kernels k hk).2
  have hself : Shrunk w2.locking w2 := .refl hfewer.ok
  have hnewOwner := hself.newOwner hnew hkernels pid
  have hnext : w1.locking.next < w2.locking.next := by
    rw [hview]
    exact lt_succ_self _
  unfold replaceOwner
  dsimp only
  generalize w2.setOwner _ _ = w3 at hnewOwner
  have hself3 : Shrunk (w3.locking.cancel k) (cancelWait k w3) := by
    rw [Shrunk, locking_cancelWait]
    exact .refl (hnewOwner.ok.cancel k)
  have hreleased := hself3.lockOwnerRelease (w.kernel k).lockOwner
  generalize lockOwnerRelease _ _ = w4 at hreleased
  have hend : Shrunk w2.locking w4 :=
    hnewOwner.trans ((Fewer.cancel hnewOwner.ok k).trans hreleased)
  have hreplaced := hend.setKernel (g := fun kernel => { kernel with lockOwner := w1.locking.next })
    (fun hs o ho => cancel_not_waiting (hnewOwner.single hs) k o (hreleased.waiting o k ho))
    (hreleased.wanted_none cancel_wanted_self)
    fun hlive => ⟨(hend.ok.kernels k hlive).1, lt_of_lt_of_le hnext hend.next⟩
  exact .trans hw1 (hfewer.trans hreplaced)

theorem forkKernel_shrunk (k : Nat) {pid : Int} :
    Triple (fun w => Shrunk V0 w ∧ (w.kernel k).live = true) (forkKernel k pid)
      (fun _ => Shrunk V0) (fun _ => Shrunk V0) := by
  refine .bind kernelClone_shrunk fun child => ?_
  refine .keep_bind (.modify fun w hw => hw.of_locking (locking_setKernel rfl rfl rfl)) fun _ => ?_
  refine .bind ?_ fun _ => Keeps.pure _
  refine .tryCatch kernelSetLockPid_shrunk fun _ => ?_
  exact Keeps.bind (.modify fun w hw => kernelDestroy_shrunk hw) fun _ => .throw _

end Waste.Kernel
