import Waste.Kernel.Table

/-!
# What leaves the descriptor tables alone

Signals, waits, files, locks and readiness touch neither the descriptor tables and the signal
actions nor what the descriptions are.  `Blind view` says that a view of the world shows nothing
else; then the functions on worlds have an equation each (`view_*`), and the programs fix the
view (`*_fixes`).  `World.table` is such a view.
-/

namespace Waste.Kernel

open StateExcept

variable {α : Type}

/-- The view shows nothing of the files and of what they are charged to. -/
structure FileBlind {V : Type} (view : World → V) : Prop where
  file : ∀ (w : World) (f : Nat) (g : FileObject → FileObject), view (w.setFile f g) = view w
  budget : ∀ (w : World) (b : Nat) (g : Budget → Budget), view (w.setBudget b g) = view w
  requests : ∀ (w : World) (n : Nat), view { w with requests := n } = view w

/-- Nor of the lock owners and the shared memory. -/
structure ObjectBlind {V : Type} (view : World → V) : Prop extends FileBlind view where
  owner : ∀ (w : World) (o : Nat) (g : LockOwner → LockOwner), view (w.setOwner o g) = view w
  shm : ∀ (w : World) (n : Nat) (g : ShmNamespace → ShmNamespace), view (w.setShm n g) = view w

/-- The view shows descriptors and signal actions, and what does not change in descriptions. -/
structure Blind {V : Type} (view : World → V) : Prop extends ObjectBlind view where
  kernel : ∀ {w : World} {k : Nat} {g : PosixKernel → PosixKernel},
    (g (w.kernel k)).settings = (w.kernel k).settings → view (w.setKernel k g) = view w
  terminal : ∀ (w : World) (o : Nat) (g : Terminal → Terminal),
    view (w.setOfd o (·.mapTerminal g)) = view w
  offset : ∀ (w : World) (o : Nat) (r : Regular) (n : Nat), (w.ofd o).kind = .regular r →
    view (w.setOfd o (.setRegular { r with offset := n })) = view w
  clock : ∀ w : World, view (clockNow w).2 = view w

variable {w : World} {V : Type} {view : World → V} {mask : Option SigSet}

/-! ## Functions on worlds -/

theorem resourceReserve_world (b : Option Nat) (amount : Nat) (w : World) :
    (resourceReserve b amount w).2 = w ∨
      ∃ c g, (resourceReserve b amount w).2 = w.setBudget c g := by
  unfold resourceReserve
  split
  · exact .inl rfl
  next b =>
  dsimp only
  split
  · exact .inl rfl
  split
  · exact .inr ⟨b, .refuse, rfl⟩
  · exact .inr ⟨b, .charge amount, rfl⟩

theorem resourceRelease_world (b : Option Nat) (amount : Nat) (w : World) :
    resourceRelease b amount w = w ∨ ∃ c g, resourceRelease b amount w = w.setBudget c g := by
  cases b with
  | none => exact .inl rfl
  | some b => exact .inr ⟨b, .refund amount, rfl⟩

section Files

variable (h : FileBlind view)
include h

theorem FileBlind.refund (b : Option Nat) (amount : Nat) (w : World) :
    view (resourceRelease b amount w) = view w := by
  rcases resourceRelease_world b amount w with heq | ⟨c, g, heq⟩ <;> rw [heq]
  exact h.budget w c g

theorem FileBlind.retain (file : Option Nat) : view (fileRetain file w) = view w := by
  unfold fileRetain
  cases file with
  | none => rfl
  | some f =>
    dsimp only
    split_ifs
    · rfl
    · exact h.file w f _

theorem FileBlind.release (file : Option Nat) : view (fileRelease file w) = view w := by
  unfold fileRelease
  cases file with
  | none => rfl
  | some f =>
    dsimp only
    split_ifs
    · rfl
    · exact h.file w f _
    · rw [h.refund]
      exact h.file w f _

theorem fileObjectResize_fixes {f : Nat} {size : Nat} :
    Fixes view (fileObjectResize f size) := by
  have hreserve : ∀ b amount w, view (resourceReserve b amount w).2 = view w := by
    intro b amount w
    rcases resourceReserve_world b amount w with heq | ⟨c, g, heq⟩ <;> rw [heq]
    exact h.budget w c g
  refine .get_bind fun w => ?_
  dsimp only
  split
  · rfl
  rw [exec_bind, exec_set]
  dsimp only
  have hset := hreserve (w.file f).resources (size + (w.file f).extra - (w.file f).resourceBytes) w
  refine trans ?_ hset
  split
  · rfl
  have hallocate : Fixes view allocate := .get_set (fun w => h.requests w _) fun _ => .pure _
  refine Fixes.bind hallocate (fun granted => .ite ?_ ?_) _
  · exact .bind (.modify (h.refund _ _)) fun _ => .pure _
  · refine .bind (.modify fun w => ?_) fun _ => .pure _
    unfold fileObjectStore
    rw [h.file, h.refund]

theorem ensureSize_fixes (f needed : Nat) : Fixes view (ensureSize f needed) := by
  refine .get_bind fun w => ?_
  exact Fixes.ite (fileObjectResize_fixes h) (.pure _) w

end Files

theorem ensureSize_ofd (f needed : Nat) : Fixes World.ofd (ensureSize f needed) :=
  ensureSize_fixes ⟨fun _ _ _ => rfl, fun _ _ _ => rfl, fun _ _ => rfl⟩ f needed

section Objects

variable (h : ObjectBlind view)
include h

theorem ObjectBlind.removeRecord (f : Nat) {record : RecordLock} :
    view (recordRemove f record w) = view w := by
  unfold recordRemove
  rw [h.release, h.owner, h.file]

theorem ObjectBlind.releaseOwner (o : Nat) (w : World) : view (lockOwnerRelease o w) = view w := by
  unfold lockOwnerRelease
  dsimp only
  split_ifs
  · exact h.owner w o _
  · refine (foldl_view (fun w (entry : Nat × RecordLock) => ?_) _ _).trans (h.owner w o _)
    exact h.removeRecord entry.1

theorem ObjectBlind.releaseShm (n : Nat) (w : World) : view (shmNamespaceRelease n w) = view w := by
  unfold shmNamespaceRelease
  dsimp only
  split_ifs
  · rfl
  · exact h.shm w n _
  · refine (foldl_view (fun w (object : ShmObject) => ?_) _ _).trans (h.shm w n _)
    exact h.release (some object.file)

end Objects

section World

variable (h : Blind view)
include h

variable (k o : Nat)

theorem view_alarmPoll (w : World) : view (alarmPoll k w) = view w := by
  unfold alarmPoll
  dsimp only
  split_ifs
  · rfl
  · exact h.clock w
  · exact (h.kernel signalRaise_settings).trans (h.clock w)

theorem view_routeSignal (w : World) (signal : Nat) : view (routeSignal k o w signal) = view w := by
  unfold routeSignal
  split_ifs
  · exact (h.kernel signalRaise_settings).trans (h.terminal w o _)
  · rfl

theorem view_routeTerminalSignals (w : World) : view (routeTerminalSignals k w) = view w := by
  unfold routeTerminalSignals
  dsimp only
  split_ifs
  · rfl
  · cases allFds.findSome? (foregroundTerminal w k) with
    | none => rfl
    | some o => exact foldl_view (view_routeSignal h k o) signals w

theorem view_pollSignals : view (pollSignals k w) = view w :=
  (view_routeTerminalSignals h k _).trans (view_alarmPoll h k w)

theorem view_cancelWait (w : World) : view (cancelWait k w) = view w := by
  unfold cancelWait
  rw [h.kernel rfl, h.release]
  split_ifs
  · exact h.owner w _ _
  · rfl

theorem view_deliver (k signal : Nat) (w : World) : view (deliver k signal w) = view w :=
  h.kernel rfl

theorem view_deliverFirst (w : World) : view (deliverFirst k w) = view w := by
  unfold deliverFirst
  cases (w.kernel k).firstUnmaskedPending with
  | none => rfl
  | some signal => exact view_deliver h k signal w

theorem view_signalInterrupt (w : World) : view (signalInterrupt k w).2 = view w := by
  unfold signalInterrupt
  dsimp only
  split
  · exact view_pollSignals h k
  · rw [view_cancelWait h, view_deliver h, view_pollSignals h]

theorem view_waitPoll (w : World) : view (waitPoll k w).2 = view w := by
  rcases waitPoll_world k w with heq | heq | heq <;> rw [heq]
  · exact view_pollSignals h k
  · exact (h.clock _).trans (view_pollSignals h k)

end World

theorem installMask_settings {kernel : PosixKernel} :
    (kernel.installMask mask).settings = kernel.settings := by
  cases mask <;> rfl

theorem registerSelect_settings {nfds : Nat} {sets : FdSets} {timeout : Timeout} {hadWait : Bool}
    (kernel : PosixKernel) :
    (kernel.registerSelect nfds sets timeout hadWait mask).settings = kernel.settings := by
  unfold PosixKernel.registerSelect
  dsimp only
  split
  · rfl
  · exact installMask_settings

/-! ## Programs -/

section Programs

variable (h : Blind view)
include h

variable (k : Nat) (e : Errno) (nfds : Nat) (sets : FdSets) (timeout : Timeout) (fd : Int)
  (o : Nat) (ofd : Ofd) (t : Terminal) (nonblock : Bool) (count : Nat)

theorem allocateOr_fixes : Fixes view (allocateOr e) := allocateOr_view h.requests

theorem interruptible_fixes : Fixes view (interruptible k) := by
  refine .get_set (view_signalInterrupt h k) fun w => ?_
  exact .ite (.throw _) (.pure _)

omit h in
theorem attempt_fixes {c : KernelM Unit} (hc : Fixes view c) :
    Fixes view (attempt c) := .tryCatch hc fun _ => .pure _

theorem cancelWait_fixes : Fixes view (modify (cancelWait k) : KernelM Unit) :=
  .modify (view_cancelWait h k)

theorem giveUp_fixes : Fixes view (giveUp k e : KernelM α) :=
  .bind (cancelWait_fixes h k) fun _ => .throw e

theorem finish_fixes {answer : α} : Fixes view (finish k answer) :=
  .bind (cancelWait_fixes h k) fun _ => .pure answer

theorem kernelWaitRead_fixes {minimum : Nat} : Fixes view (kernelWaitRead k fd minimum) := by
  unfold kernelWaitRead
  split
  · exact .throw _
  next i =>
  refine .get_bind fun w => ?_
  split
  · rfl
  · refine Fixes.ite (cancelWait_fixes h k) (.ite (.throw _) ?_) w
    exact .bind (.modify fun w => h.kernel rfl) fun _ => .throw _

theorem selectInterrupted_fixes : Fixes view (selectInterrupted k) :=
  .bind (.modify (view_deliverFirst h k)) fun _ => giveUp_fixes h k _

theorem selectScan_fixes {hadWait : Bool}
    : Fixes view (selectScan k nfds sets timeout hadWait mask) := by
  refine .get_bind fun w => ?_
  split
  · exact giveUp_fixes h k _ w
  · split
    · exact finish_fixes h k w
    split
    · exact finish_fixes h k w
    · exact h.kernel (registerSelect_settings _)

theorem selectPoll_fixes (hadWait : Bool)
    : Fixes view (selectPoll k nfds sets timeout hadWait mask) := by
  refine .get_set (view_waitPoll h k) fun w => ?_
  split
  · exact selectInterrupted_fixes h k
  · exact finish_fixes h k
  · exact .ite (selectInterrupted_fixes h k) (selectScan_fixes h k nfds sets timeout)

theorem kernelSelectCore_fixes {nfds : Int} {sets : FdSets} {timeout : Timeout}
    : Fixes view (kernelSelectCore k nfds sets timeout mask) := by
  refine .bind (.modify (view_routeTerminalSignals h k)) fun _ => ?_
  refine .ite (giveUp_fixes h k _) ?_
  refine .get_bind fun w => ?_
  refine Fixes.bind (.modify fun w' => ?_) (fun _ => ?_) w
  · split
    · rfl
    · exact h.kernel installMask_settings
  · exact .ite (giveUp_fixes h k _) (selectPoll_fixes h k _ sets timeout _)

theorem readTimeout_fixes (k units scale : Nat) {timeout : Option Duration} :
    Fixes view (readTimeout k units scale timeout) := by
  cases timeout with
  | none => exact .pure _
  | some t =>
    refine .ite (giveUp_fixes h k _) (.ite (.pure _) ?_)
    refine .get_bind fun w => ?_
    split
    · exact h.clock w
    · rfl

theorem blockRead_fixes {register : KernelM Unit} (hregister : Fixes view register) :
    Fixes view (blockRead k nonblock register : KernelM α) := by
  refine .ite (giveUp_fixes h k _) ?_
  exact .bind (interruptible_fixes h k) fun _ => .bind (attempt_fixes hregister) fun _ => .throw _

theorem blockWrite_fixes (fd : Fin fdMax) {nonblock : Bool} :
    Fixes view (blockWrite k fd nonblock) := by
  refine .ite (giveUp_fixes h k _) ?_
  refine .bind (interruptible_fixes h k) fun _ => ?_
  refine .bind (attempt_fixes ?_) fun _ => .throw _
  refine .bind ?_ fun _ => .pure _
  exact .bind (readTimeout_fixes h k _ _) fun timeout => kernelSelectCore_fixes h k

theorem terminalWaitWithTimeout_fixes : Fixes view (terminalWaitWithTimeout k fd t count) := by
  refine .tryCatch (kernelWaitRead_fixes h k fd) fun e => ?_
  refine .ite (.bind (.modify fun w => ?_) fun _ => .throw e) (.throw e)
  unfold setReadDeadline
  dsimp only
  split
  · exact .trans (h.kernel rfl) (h.clock w)
  · rfl

theorem deadlinePassed_fixes : Fixes view (deadlinePassed k) := by
  refine .get_bind fun w => ?_
  dsimp only
  split
  · exact h.clock w
  · rfl

theorem takeInput_fixes {n : Nat} : Fixes view (takeInput k o t n) := by
  refine .bind (.modify fun w => ?_) fun _ => finish_fixes h k
  exact h.terminal w o _

theorem readStream_fixes : Fixes view (readStream k fd o ofd t nonblock count) := by
  refine .ite (.throw _) (.ite ?_ (takeInput_fixes h k o t))
  exact .ite (.pure _) (blockRead_fixes h k nonblock (kernelWaitRead_fixes h k fd))

theorem readEmptyTerminal_fixes : Fixes view (readEmptyTerminal k fd t nonblock count) := by
  refine .ite (.pure _) (.ite (giveUp_fixes h k _) (.ite (.pure _) ?_))
  refine .bind (interruptible_fixes h k) fun _ => ?_
  refine .bind (attempt_fixes (terminalWaitWithTimeout_fixes h k fd t count)) fun _ => ?_
  refine .ite (.throw _) (.bind (deadlinePassed_fixes h k) fun _ => ?_)
  exact .ite (finish_fixes h k) (.throw _)

theorem readRaw_fixes : Fixes view (readRaw k fd o t nonblock count) := by
  refine .ite ?_ (takeInput_fixes h k o t)
  refine .bind (interruptible_fixes h k) fun _ => ?_
  refine .bind (attempt_fixes (terminalWaitWithTimeout_fixes h k fd t count)) fun _ => ?_
  refine .bind (deadlinePassed_fixes h k) fun _ => ?_
  exact .ite (takeInput_fixes h k o t) (.throw _)

theorem readTerminal_fixes : Fixes view (readTerminal k fd o ofd t nonblock count) := by
  refine .ite (.throw _) (.ite (readEmptyTerminal_fixes h k fd t nonblock count) ?_)
  refine .ite ?_ (readRaw_fixes h k fd o t nonblock count)
  refine .ite (takeInput_fixes h k o t) (.ite (takeInput_fixes h k o t) ?_)
  exact blockRead_fixes h k nonblock (kernelWaitRead_fixes h k fd)

variable {o : Nat}

theorem readRegular_fixes {r : Regular} (hkind : (w.ofd o).kind = .regular r)
    {count : Nat} : view (exec (readRegular o r count) w).2 = view w := by
  unfold readRegular
  split
  · rfl
  · rw [exec_bind, exec_get]
    dsimp only
    split
    · rfl
    · exact h.offset w o r _ hkind

theorem writeRegular_fixes {r : Regular} (hkind : (w.ofd o).kind = .regular r)
    (append : Bool) {data : List UInt8} :
    view (exec (writeRegular o r append data) w).2 = view w := by
  unfold writeRegular
  split
  · rfl
  rw [exec_bind, exec_get]
  dsimp only
  generalize (if append = true then _ else _) = offset
  generalize (offset + data.length) % _ = needed
  split
  · rfl
  refine Fixes.bind_at (ensureSize_fixes h.toFileBlind _ _) fun room w' hrun => ?_
  have hofd : w'.ofd = w.ofd := by
    have hfixed := ensureSize_ofd r.file needed w
    rw [hrun] at hfixed
    exact hfixed
  split
  · rfl
  · refine .trans (h.offset (w'.setFile r.file (.splice offset data)) o r _ ?_) (h.file w' r.file _)
    show (w'.ofd o).kind = .regular r
    rw [hofd]
    exact hkind

theorem readKind_fixes {ofd : Ofd} (hofd : w.ofd o = ofd)
    (hpipe : ∀ p, ofd.kind ≠ .pipeRead p) (k : Nat) (fd : Int) (nonblock : Bool) (count : Nat) :
    view (exec (readKind k fd o ofd nonblock count) w).2 = view w := by
  unfold readKind
  split
  · exact readStream_fixes h k fd o ofd _ nonblock count w
  · exact readTerminal_fixes h k fd o ofd _ nonblock count w
  · next p hkind => exact absurd hkind (hpipe p)
  · next r hkind =>
    refine readRegular_fixes h ?_
    rw [hofd, hkind]
  · rfl
  · split <;> rfl
  · rfl

theorem writeKind_fixes {ofd : Ofd} (hofd : w.ofd o = ofd)
    (hpipe : ∀ p, ofd.kind ≠ .pipeWrite p) (k : Nat) (fd : Fin fdMax) (flags : BitVec 32)
    (data : List UInt8) : view (exec (writeKind k fd o ofd flags data) w).2 = view w := by
  unfold writeKind
  split
  · split <;> rfl
  · split <;> rfl
  · split <;> rfl
  · next p hkind => exact absurd hkind (hpipe p)
  · rfl
  · rfl
  · next r hkind =>
    refine writeRegular_fixes h ?_ _
    rw [hofd, hkind]

end Programs

/-! ## The table -/

theorem table_setKernel {k : Nat} {f : PosixKernel → PosixKernel}
    (h : (f (w.kernel k)).fds = (w.kernel k).fds) : (w.setKernel k f).table = w.table := by
  simp only [World.table, World.setKernel, update_field PosixKernel.fds h]

theorem table_setOfd {o : Nat} {f : Ofd → Ofd} (hrefs : (f (w.ofd o)).refCount = (w.ofd o).refCount)
    (hkind : (f (w.ofd o)).kind.pipeEnd = (w.ofd o).kind.pipeEnd) :
    (w.setOfd o f).table = w.table := by
  simp only [World.table, World.setOfd, update_field Ofd.refCount hrefs,
    update_field (fun ofd : Ofd => ofd.kind.pipeEnd) hkind]

theorem kernel_blind : ObjectBlind World.kernel where
  file _ _ _ := rfl
  budget _ _ _ := rfl
  requests _ _ := rfl
  owner _ _ _ := rfl
  shm _ _ _ := rfl

theorem mapTerminal_kind {f : Terminal → Terminal} {ofd : Ofd} :
    (ofd.mapTerminal f).refCount = ofd.refCount ∧
      (ofd.mapTerminal f).kind.pipeEnd = ofd.kind.pipeEnd := by
  unfold Ofd.mapTerminal
  cases hkind : ofd.kind <;> simp [hkind, Description.pipeEnd]

theorem table_blind : Blind World.table where
  kernel h := table_setKernel (congrArg Prod.fst h)
  terminal _ _ _ := table_setOfd mapTerminal_kind.1 mapTerminal_kind.2
  offset w o r n hkind := table_setOfd rfl (by rw [hkind]; rfl)
  file _ _ _ := rfl
  owner _ _ _ := rfl
  shm _ _ _ := rfl
  budget _ _ _ := rfl
  requests _ _ := rfl
  clock _ := rfl

end Waste.Kernel
