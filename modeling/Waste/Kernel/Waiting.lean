import Waste.Kernel.LockCalls
import Waste.Kernel.Polling

/-!
# What the blocking calls do to the wait record

A call that blocks leaves the wait record behind, and the next call finds it.  The lemmas
say for `select` and `pselect`, `read` and `write` what the record is when they return:
cleared, as it was, or filled in for this call.
-/

namespace Waste.Kernel

open StateExcept Except List Nat Prod

variable {k : Nat} {w w' : World}
variable {K kernel' K' : PosixKernel} {answer : Except Errno Selected} {e : Errno}
  {rest : KernelM (List UInt8)} {found : Selected} {hadWait : Bool} {minimum : Nat}

/-! ## Records without a wait -/

/-- The record that `posix_kernel_cancel_wait` leaves. -/
structure WaitRecord.Cleared (wait : WaitRecord) : Prop where
  active : wait.active = false
  lockFile : wait.lockFile = none
  hasSignalMask : wait.hasSignalMask = false

def WaitRecord.Idle (wait : WaitRecord) : Prop := wait.active = false → wait.Cleared

/-- The mask that `posix_kernel_cancel_wait` leaves. -/
def PosixKernel.restored (kernel : PosixKernel) : SigSet :=
  if kernel.wait.hasSignalMask then kernel.wait.savedMask else kernel.signalMask

variable {kernel : PosixKernel}

theorem WaitRecord.Cleared.restored (h : kernel.wait.Cleared) :
    kernel.restored = kernel.signalMask := by
  unfold PosixKernel.restored
  rw [h.hasSignalMask, if_neg Bool.false_ne_true]

theorem clearWait_cleared : kernel.clearWait.wait.Cleared := ⟨rfl, rfl, rfl⟩

theorem cancelWait_kernel (k : Nat) (w : World) :
    (cancelWait k w).kernel k = (w.kernel k).clearWait := by
  refine (Function.update_self k _ _).trans ?_
  rw [kernel_blind.release]
  split <;> rfl

theorem cancelWait_cleared (k : Nat) (w : World) : ((cancelWait k w).kernel k).wait.Cleared := by
  rw [cancelWait_kernel]
  exact clearWait_cleared

/-! ## `select` -/

/-- The kernel after `pselect` has installed its mask. -/
def PosixKernel.prepared (mask : Option SigSet) (kernel : PosixKernel) : PosixKernel :=
  if kernel.wait.active then kernel else kernel.installMask mask

structure SameWait (kernel kernel' : PosixKernel) : Prop where
  wait : kernel'.wait = kernel.wait
  signalMask : kernel'.signalMask = kernel.signalMask

theorem SameWait.restored (h : SameWait K K') : K'.restored = K.restored := by
  unfold PosixKernel.restored
  rw [h.wait, h.signalMask]

theorem Polled.sameWait (h : Polled k w w') : SameWait (w.kernel k) (w'.kernel k) :=
  ⟨h.wait, h.signalMask⟩

theorem Polled.idle (h : Polled k w w') (hidle : (w.kernel k).wait.Idle) :
    (w'.kernel k).wait.Idle := by
  rw [h.wait]
  exact hidle

theorem Polled.entry (h : Polled k w w') {i : Fin fdMax} {entry : FdEntry}
    (hentry : (w.kernel k).fds i = some entry) : (w'.kernel k).fds i = some entry := by
  rw [h.fds]
  exact hentry

theorem SameWait.trans {K'' : PosixKernel} (h : SameWait K K') (h' : SameWait K' K'') :
    SameWait K K'' := ⟨h'.wait.trans h.wait, h'.signalMask.trans h.signalMask⟩

variable {mask : Option SigSet}

theorem prepared_restored (h : kernel.wait.Idle) :
    (kernel.prepared mask).restored = kernel.restored := by
  unfold PosixKernel.prepared
  split
  · rfl
  next hactive =>
  have hcleared := h (Bool.not_eq_true _ ▸ hactive)
  cases mask with
  | none => rfl
  | some mask =>
    unfold PosixKernel.restored
    rw [hcleared.hasSignalMask]
    rfl

structure WaitRecord.On (wait : WaitRecord) (nfds : Nat) (sets : FdSets) : Prop where
  nfds : wait.nfds = nfds
  readMinimum : wait.readMinimum = 0
  readfds : wait.readfds = sets.readfds.getD 0
  writefds : wait.writefds = sets.writefds.getD 0
  exceptfds : wait.exceptfds = sets.exceptfds.getD 0

/-- What `select` leaves behind when it waits: `kernel` made the call, and `kernel'` is the
kernel afterwards. -/
structure SelectWait (nfds : Nat) (sets : FdSets) (timeout : Timeout) (mask : Option SigSet)
    (kernel kernel' : PosixKernel) : Prop where
  active : kernel'.wait.active = true
  on : kernel'.wait.On nfds sets
  lockFile : kernel'.wait.lockFile = kernel.wait.lockFile
  deadline : kernel'.wait.hasDeadline =
      (if kernel.wait.active then kernel.wait.hasDeadline else timeout.hasDeadline) ∧
    kernel'.wait.deadlineNs =
      if kernel.wait.active then kernel.wait.deadlineNs else timeout.deadlineNs
  restored : kernel'.restored = kernel.restored
  installed : ∀ m, mask = some m → kernel'.wait.hasSignalMask = true ∧
    kernel'.signalMask = if kernel.wait.active && kernel.wait.hasSignalMask
      then kernel.signalMask else m
  unmasked : mask = none → kernel'.wait.hasSignalMask = kernel.wait.hasSignalMask ∧
    kernel'.signalMask = kernel.signalMask

theorem registerSelect_wait {K1 : PosixKernel} {nfds : Nat} {sets : FdSets} {timeout : Timeout}
    (hsettled : K.wait.Idle) (h : SameWait (K.prepared mask) K1) :
    SelectWait nfds sets timeout mask K
      (K1.registerSelect nfds sets timeout K.wait.active mask) := by
  obtain ⟨hwait, hmask⟩ := h
  unfold PosixKernel.prepared at hwait hmask
  have hon : (K1.registerSelect nfds sets timeout K.wait.active mask).wait.On nfds sets := by
    unfold PosixKernel.registerSelect
    dsimp only
    split
    · exact ⟨rfl, rfl, rfl, rfl, rfl⟩
    · cases mask <;> exact ⟨rfl, rfl, rfl, rfl, rfl⟩
  cases hactive : K.wait.active with
  | true =>
    rw [hactive] at hon
    cases hsaved : K.wait.hasSignalMask with
    | true => refine ⟨?_, hon, ?_, ?_, ?_, ?_, ?_⟩ <;> simp [PosixKernel.registerSelect,
        WaitRecord.forSelect, PosixKernel.restored, hwait, hmask, hactive, hsaved]
    | false => cases mask <;> refine ⟨?_, hon, ?_, ?_, ?_, ?_, ?_⟩ <;>
        simp [PosixKernel.registerSelect, WaitRecord.forSelect, PosixKernel.installMask,
          PosixKernel.restored, hwait, hmask, hactive, hsaved]
  | false =>
    rw [hactive] at hon
    have hsaved := (hsettled hactive).hasSignalMask
    cases mask <;> refine ⟨?_, hon, ?_, ?_, ?_, ?_, ?_⟩ <;> simp [PosixKernel.registerSelect,
      WaitRecord.forSelect, PosixKernel.installMask, PosixKernel.restored, hwait, hmask,
        hactive, hsaved]

/-- What `select` can do: it ends without a wait, or it waits. -/
inductive SelectEffect (k nfds : Nat) (sets : FdSets) (timeout : Timeout) (mask : Option SigSet)
    (kernel : PosixKernel) : Except Errno Selected → World → Prop
  | ended {answer : Except Errno Selected} {w' : World} (hanswer : answer ≠ .error .eagain)
    (hcleared : (w'.kernel k).wait.Cleared) (hmask : (w'.kernel k).signalMask = kernel.restored) :
    SelectEffect k nfds sets timeout mask kernel answer w'
  | waits {w' : World} (h : SelectWait nfds sets timeout mask kernel (w'.kernel k)) :
    SelectEffect k nfds sets timeout mask kernel (.error .eagain) w'

section Select

variable {nfds : Nat} {sets : FdSets} {timeout : Timeout} {mask : Option SigSet}
  {kernel : PosixKernel}

theorem SelectEffect.cancel (hanswer : answer ≠ .error .eagain)
    (h : (w.kernel k).restored = kernel.restored) :
    SelectEffect k nfds sets timeout mask kernel answer (cancelWait k w) := by
  refine .ended hanswer (cancelWait_cleared k w) ?_
  rw [cancelWait_kernel]
  exact h

theorem fdIsset_setBit (i fd : Fin fdMax) (set : FdSet) :
    fdIsset fd (fdSetBit i set) = (fdIsset fd set || decide (fd = i)) := by
  have hfd : fd.val < 1024 := lt_trans fd.isLt (by decide)
  rw [fdIsset, fdSetBit, BitVec.getLsbD_or, BitVec.getLsbD_shiftLeft, BitVec.getLsbD_one]
  by_cases heq : fd = i
  · subst heq
    simp [hfd]
  · have hbit : (decide (fd.val < 1024) && !decide (fd.val < i.val) &&
        (decide (0 < 1024) && decide (fd.val - i.val = 0))) = false := by
      simp [hfd]
      omega
    rw [hbit, Bool.or_false, fdIsset, decide_eq_false heq, Bool.or_false]

/-- What the sets ask of a descriptor and its readiness grants. -/
def FdSets.granted (sets : FdSets) (w : World) (k : Nat) (fd : Fin fdMax) : Bool × Bool × Bool :=
  match (w.kernel k).fds fd with
  | none => ⊥
  | some entry =>
    let r := readiness w (w.ofd entry.ofd)
    (wants sets.readfds fd && (r.pollIn || r.pollHup), wants sets.writefds fd && r.pollOut,
      wants sets.exceptfds fd && r.pollErr)

/-- The bits of a descriptor in the three sets. -/
def Selected.bits (found : Selected) (fd : Nat) : Bool × Bool × Bool :=
  (fdIsset fd found.readfds, fdIsset fd found.writefds, fdIsset fd found.exceptfds)

def Selected.add (found : Selected) (fd : Nat) (b : Bool × Bool × Bool) : Selected where
  count := found.count + b.1.toNat + b.2.1.toNat + b.2.2.toNat
  readfds := if b.1 then fdSetBit fd found.readfds else found.readfds
  writefds := if b.2.1 then fdSetBit fd found.writefds else found.writefds
  exceptfds := if b.2.2 then fdSetBit fd found.exceptfds else found.exceptfds

theorem Selected.none_bits (fd : Nat) : none.bits fd = ⊥ := by
  simp [bits, none, fdIsset]
  rfl

theorem Selected.add_bits (found : Selected) (i fd : Fin fdMax) (b : Bool × Bool × Bool) :
    (found.add i b).bits fd = found.bits fd ⊔ if fd = i then b else ⊥ := by
  have hbit : ∀ (c : Bool) (set : FdSet), fdIsset fd (if c then fdSetBit i set else set) =
      (fdIsset fd set || (c && decide (fd = i))) := by
    intro c set
    cases c with
    | false => simp
    | true => exact fdIsset_setBit i fd set
  simp only [bits, add, hbit]
  by_cases heq : fd = i
  · simp only [heq, decide_true, Bool.and_true]
    rfl
  · simp only [heq, decide_false, Bool.and_false, Bool.or_false, if_false, sup_bot_eq]

theorem Selected.add_cases (found : Selected) (fd : Nat) :
    (b : Bool × Bool × Bool) → found.add fd b = found ∨ 0 < (found.add fd b).count ∧ b ≠ ⊥
  | (false, false, false) => .inl rfl
  | (true, _, _) | (false, true, _) | (false, false, true) => .inr ⟨by simp [add], nofun⟩

theorem scanFd_eq (found : Selected) (fd : Fin fdMax) : scanFd w k sets found fd =
    if sets.wantsAny fd = true ∧ (w.kernel k).fds fd = none then .error .ebadf
    else .ok (found.add fd (sets.granted w k fd)) := by
  unfold scanFd FdSets.granted
  cases hentry : (w.kernel k).fds fd with
  | none => cases sets.wantsAny fd <;> rfl
  | some entry =>
    cases hwants : sets.wantsAny fd with
    | true => rfl
    | false =>
      simp only [FdSets.wantsAny, Bool.or_eq_false_iff] at hwants
      simp only [hwants]
      rfl

/-- A scan fails if a descriptor in the sets is not open.  Otherwise it sets the bits of every
descriptor by its readiness, and counts none only if there are none to set. -/
theorem scanFds_cases : (scanFds w k sets nfds = .error .ebadf ∧
      ∃ fd : Fin fdMax, sets.wantsAny fd = true ∧ (w.kernel k).fds fd = none) ∨
    ∃ found, scanFds w k sets nfds = .ok found ∧
      (∀ fd : Fin fdMax, fd.val < nfds → found.bits fd = sets.granted w k fd) ∧
      (found = .none ∨ 0 < found.count ∧ ∃ fd, sets.granted w k fd ≠ ⊥) := by
  have hfold : ∀ (l : List (Fin fdMax)) (found0 : Selected),
      (l.foldlM (scanFd w k sets) found0 = .error .ebadf ∧
        ∃ fd : Fin fdMax, sets.wantsAny fd = true ∧ (w.kernel k).fds fd = none) ∨
      ∃ found, l.foldlM (scanFd w k sets) found0 = .ok found ∧
        (∀ fd : Fin fdMax, found.bits fd = found0.bits fd ⊔
          if fd ∈ l then sets.granted w k fd else ⊥) ∧
        (found = found0 ∨ 0 < found.count ∧ ∃ fd, sets.granted w k fd ≠ ⊥) := by
    intro l
    induction l with
    | nil => exact fun found0 => .inr ⟨found0, rfl, fun _ => by simp, .inl rfl⟩
    | cons i rest ih =>
      intro found0
      rw [foldlM_cons, scanFd_eq]
      split
      · next hclosed => exact .inl ⟨rfl, i, hclosed⟩
      refine (ih (found0.add i (sets.granted w k i))).imp id ?_
      rintro ⟨found, hrun, hbits, hcount⟩
      refine ⟨found, hrun, fun fd => ?_, ?_⟩
      · rw [hbits, Selected.add_bits, sup_assoc]
        by_cases heq : fd = i
        · rw [if_pos heq, if_pos (mem_cons.mpr (.inl heq)), heq]
          split <;> simp
        · simp only [heq, if_false, bot_sup_eq, mem_cons, false_or]
      · refine hcount.elim (fun heq => ?_) .inr
        rw [heq]
        exact (Selected.add_cases found0 i _).imp id fun h => ⟨h.1, i, h.2⟩
  refine (hfold _ _).imp id ?_
  rintro ⟨found, hrun, hbits, hcount⟩
  refine ⟨found, hrun, fun fd hfd => ?_, hcount⟩
  have hmem : fd ∈ allFds.filter (·.val < nfds) :=
    mem_filter.mpr ⟨mem_finRange fd, decide_eq_true hfd⟩
  rw [hbits, if_pos hmem, Selected.none_bits, bot_sup_eq]

theorem scanFds_error (h : scanFds w k sets nfds = .error e) : e = .ebadf := by
  rcases scanFds_cases with ⟨hrun, -⟩ | ⟨found, hrun, -⟩
  · exact error.inj (h.symm.trans hrun)
  · exact nomatch h.symm.trans hrun

theorem scanFds_ok (h : scanFds w k sets nfds = .ok found) :
    (∀ fd : Fin fdMax, fd.val < nfds → found.bits fd = sets.granted w k fd) ∧
      (found = .none ∨ 0 < found.count) := by
  rcases scanFds_cases with ⟨hrun, -⟩ | ⟨found', hrun, hbits, hcount⟩
  · exact nomatch h.symm.trans hrun
  · obtain rfl := ok.inj (h.symm.trans hrun)
    exact ⟨hbits, hcount.imp id And.left⟩

theorem deliverFirst_sameWait (k : Nat) (w : World) :
    SameWait (w.kernel k) ((deliverFirst k w).kernel k) := by
  unfold deliverFirst
  split
  · exact ⟨rfl, rfl⟩
  · rw [deliver, World.setKernel_self]
    exact ⟨rfl, rfl⟩

theorem selectInterrupted_effect (h : (w.kernel k).restored = kernel.restored) :
    SelectEffect k nfds sets timeout mask kernel (exec (selectInterrupted k) w).1
      (exec (selectInterrupted k) w).2 := by
  have hrestored := (deliverFirst_sameWait k w).restored.trans h
  exact .cancel nofun hrestored

theorem selectScan_effect (hsettled : kernel.wait.Idle)
    (h : SameWait (kernel.prepared mask) (w.kernel k)) :
    SelectEffect k nfds sets timeout mask kernel
      (exec (selectScan k nfds sets timeout kernel.wait.active mask) w).1
      (exec (selectScan k nfds sets timeout kernel.wait.active mask) w).2 := by
  have hrestored := h.restored.trans (prepared_restored hsettled)
  unfold selectScan
  simp only [exec_bind, exec_get]
  cases hscan : scanFds w k sets nfds with
  | error e =>
    obtain rfl := scanFds_error hscan
    exact .cancel nofun hrestored
  | ok _ =>
    dsimp only
    split
    · exact .cancel nofun hrestored
    split
    · exact .cancel nofun hrestored
    · refine .waits ?_
      show SelectWait nfds sets timeout mask kernel ((w.setKernel k
          (·.registerSelect nfds sets timeout kernel.wait.active mask)).kernel k)
      rw [World.setKernel_self]
      exact registerSelect_wait hsettled h

theorem waitPoll_polled : Polled k w (waitPoll k w).2 := by
  rcases waitPoll_world k w with heq | heq | heq <;> rw [heq]
  · exact .refl k w
  · exact pollSignals_polled k w
  · exact (pollSignals_polled k w).trans (clockNow_polled k _)

theorem selectPoll_effect (hsettled : kernel.wait.Idle)
    (h : SameWait (kernel.prepared mask) (w.kernel k)) :
    SelectEffect k nfds sets timeout mask kernel
      (exec (selectPoll k nfds sets timeout kernel.wait.active mask) w).1
      (exec (selectPoll k nfds sets timeout kernel.wait.active mask) w).2 := by
  have hpoll := h.trans waitPoll_polled.sameWait
  have hrestored := hpoll.restored.trans (prepared_restored hsettled)
  unfold selectPoll
  simp only [exec_bind, exec_get, exec_set]
  split
  · exact selectInterrupted_effect hrestored
  · exact .cancel nofun hrestored
  · split
    · exact selectInterrupted_effect hrestored
    · exact selectScan_effect hsettled hpoll

/-- Everything that `select` and `pselect` can do. -/
theorem kernelSelectCore_effect (k : Nat) (nfds : Int) (sets : FdSets) (timeout : Timeout)
    (mask : Option SigSet) (w : World) (hsettled : (w.kernel k).wait.Idle) :
    SelectEffect k nfds.toNat sets timeout mask (w.kernel k)
      (exec (kernelSelectCore k nfds sets timeout mask) w).1
      (exec (kernelSelectCore k nfds sets timeout mask) w).2 := by
  have hroute := (routeTerminalSignals_polled k w).sameWait
  have hactive : ((routeTerminalSignals k w).kernel k).wait.active = (w.kernel k).wait.active := by
    rw [hroute.wait]
  unfold kernelSelectCore
  simp only [exec_bind, exec_modify]
  generalize routeTerminalSignals k w = w1 at hroute hactive ⊢
  split
  · exact .cancel nofun hroute.restored
  simp only [exec_bind, exec_get, exec_modify]
  -- the mask is installed unless the call is a retry
  have hprepared : SameWait ((w.kernel k).prepared mask)
      ((if (w1.kernel k).wait.active = true then w1
        else w1.setKernel k (·.installMask mask)).kernel k) := by
    rw [hactive]
    unfold PosixKernel.prepared
    split
    · exact hroute
    rw [World.setKernel_self]
    cases mask with
    | none => exact hroute
    | some m =>
      refine ⟨?_, rfl⟩
      simp only [PosixKernel.installMask, hroute.wait, hroute.signalMask]
  generalize (if (w1.kernel k).wait.active = true then w1
    else w1.setKernel k (·.installMask mask)) = w2 at hprepared ⊢
  split
  · exact .cancel nofun (hprepared.restored.trans (prepared_restored hsettled))
  · rw [hactive]
    exact selectPoll_effect hsettled hprepared

/-- The deadline that a timeout sets when the call is made in `w`.  A second has `units`
fractions of `scale` nanoseconds. -/
def ownDeadline (w : World) (k scale : Nat) : Option Duration → Option Nat
  | none => none
  | some t =>
    if t.seconds = 0 ∧ t.fraction = 0 then none
    else if (w.kernel k).hasClock then
      some (deadlineFrom (timeoutNs t.seconds.toNat t.fraction.toNat scale) (w.clock w.reads))
    else none

structure Timeout.Until (timeout : Timeout) (deadline : Option Nat) : Prop where
  hasDeadline : timeout.hasDeadline = deadline.isSome
  deadlineNs : ∀ d, deadline = some d → timeout.deadlineNs = d

theorem readTimeout_cases (k units scale : Nat) (t : Option Duration) (w : World) :
    exec (readTimeout k units scale t) w = (.error .einval, cancelWait k w) ∨
      ∃ timeout w1, exec (readTimeout k units scale t) w = (.ok timeout, w1) ∧ Polled k w w1 ∧
        timeout.Until (ownDeadline w k scale t) := by
  cases t with
  | none => exact .inr ⟨_, w, rfl, .refl k w, rfl, nofun⟩
  | some t =>
    unfold readTimeout
    dsimp only
    by_cases hinvalid : t.seconds < 0 ∨ t.fraction < 0 ∨ (units : Int) ≤ t.fraction
    · rw [if_pos hinvalid]
      exact .inl rfl
    split_ifs with hzero
    · refine .inr ⟨_, w, rfl, .refl k w, ?_, ?_⟩
      · simp [ownDeadline, hzero]
      · simp [ownDeadline, hzero]
    simp only [exec_bind, exec_get]
    split
    · next hclock =>
      refine .inr ⟨_, _, rfl, clockNow_polled k w, ?_, ?_⟩
      · simp [ownDeadline, hzero, hclock]
      · simp [ownDeadline, hzero, hclock, clockNow]
    · next hclock =>
      refine .inr ⟨_, w, rfl, .refl k w, ?_, ?_⟩
      · simp [ownDeadline, hzero, hclock]
      · simp [ownDeadline, hzero, hclock]

/-- `select` and `pselect` with the timeout that the guest gives. -/
def selectWith (k units scale : Nat) (nfds : Int) (sets : FdSets) (t : Option Duration)
    (mask : Option SigSet) : KernelM Selected := do
  let timeout ← readTimeout k units scale t
  kernelSelectCore k nfds sets timeout mask

theorem SelectWait.of_same {kernel'' : PosixKernel}
    (h : SelectWait nfds sets timeout mask kernel' kernel'') (hsame : SameWait kernel kernel') :
    SelectWait nfds sets timeout mask kernel kernel'' := by
  obtain ⟨hwait, hmask⟩ := hsame
  have hrestored : kernel'.restored = kernel.restored := SameWait.restored ⟨hwait, hmask⟩
  refine ⟨h.active, h.on, ?_, ?_, ?_, ?_, ?_⟩
  · rw [h.lockFile, hwait]
  · rw [← hwait]
    exact h.deadline
  · rw [h.restored, hrestored]
  · rw [← hwait, ← hmask]
    exact h.installed
  · rw [← hwait, ← hmask]
    exact h.unmasked

theorem SelectEffect.of_same
    (h : SelectEffect k nfds sets timeout mask kernel' answer w')
    (hsame : SameWait kernel kernel') : SelectEffect k nfds sets timeout mask kernel answer w' := by
  cases h with
  | ended hanswer hcleared hmask => exact .ended hanswer hcleared (hmask.trans hsame.restored)
  | waits h => exact .waits (h.of_same hsame)

theorem selectWith_effect (k units scale : Nat) (nfds : Int) (sets : FdSets) (t : Option Duration)
    (mask : Option SigSet) (hsettled : (w.kernel k).wait.Idle) :
    ∃ timeout : Timeout, timeout.Until (ownDeadline w k scale t) ∧
      SelectEffect k nfds.toNat sets timeout mask (w.kernel k)
        (exec (selectWith k units scale nfds sets t mask) w).1
        (exec (selectWith k units scale nfds sets t mask) w).2 := by
  unfold selectWith
  rw [exec_bind]
  rcases readTimeout_cases k units scale t w with hrun | ⟨timeout, w1, hrun, hpolled, huntil⟩
  · rw [hrun]
    refine ⟨⟨false, (ownDeadline w k scale t).isSome, (ownDeadline w k scale t).getD 0⟩,
      ⟨rfl, ?_⟩, ?_⟩
    · intro d hd
      simp [hd]
    · exact .cancel nofun rfl
  · rw [hrun]
    refine ⟨timeout, huntil, ?_⟩
    exact (kernelSelectCore_effect k nfds sets timeout mask w1 (hpolled.idle hsettled)).of_same
      hpolled.sameWait

end Select

/-! ## Waiting to read -/

theorem exec_attempt (c : KernelM Unit) (w : World) :
    exec (attempt c) w = (.ok (), (exec c w).2) := by
  unfold attempt
  rw [exec_tryCatch]
  rcases exec c w with ⟨e | ⟨⟩, -⟩ <;> rfl

/-- What a blocked read leaves behind; `deadlines` are those that it may set. -/
structure ReadWait (i : Fin fdMax) (deadlines : Nat → Prop) (wait wait' : WaitRecord) : Prop where
  active : wait'.active = true
  lockFile : wait'.lockFile = wait.lockFile
  kept : wait.active = true → wait'.nfds = wait.nfds ∧ wait'.readfds = wait.readfds ∧
    wait'.writefds = wait.writefds ∧ wait'.exceptfds = wait.exceptfds ∧
    wait'.hasSignalMask = wait.hasSignalMask
  own : wait.active = false → wait'.nfds = i + 1 ∧ wait'.readfds = fdSetBit i 0 ∧
    wait'.writefds = 0 ∧ wait'.exceptfds = 0 ∧ wait'.hasSignalMask = false ∧
    (wait'.hasDeadline = true → deadlines wait'.deadlineNs)

/-- What a call that may wait can do to the record: it ends without a wait, it returns and leaves
the record alone, or it waits. -/
inductive BlockEffect {α : Type} (k : Nat) (wait : WaitRecord) (ended kept : Except Errno α → Prop)
    (waits : PosixKernel → Prop) : Except Errno α → World → Prop
  | ended {answer : Except Errno α} {w' : World} (hanswer : ended answer)
    (hcleared : (w'.kernel k).wait.Cleared) : BlockEffect k wait ended kept waits answer w'
  | kept {answer : Except Errno α} {w' : World} (hkept : kept answer)
    (hanswer : answer ≠ .error .eagain) (hwait : (w'.kernel k).wait = wait) :
    BlockEffect k wait ended kept waits answer w'
  | waits {w' : World} (h : waits (w'.kernel k)) :
    BlockEffect k wait ended kept waits (.error .eagain) w'

theorem SelectEffect.block {nfds : Nat} {sets : FdSets} {timeout : Timeout} {mask : Option SigSet}
    (h : SelectEffect k nfds sets timeout mask kernel answer w') :
    BlockEffect k kernel.wait (· ≠ .error .eagain) (fun _ => False)
      (SelectWait nfds sets timeout mask kernel) answer w' := by
  cases h with
  | ended hanswer hcleared _ => exact .ended hanswer hcleared
  | waits h => exact .waits h

section Read

variable {fd : Int} {i : Fin fdMax} {entry : FdEntry} {nonblock : Bool} {stays : Prop}
  {deadlines : Nat → Prop} {count : Nat}

/-- Nothing to read yet. -/
def Quiet (w : World) (o minimum : Nat) : Prop :=
  (((readiness w (w.ofd o)).threshold (w.ofd o) minimum).pollIn ||
    ((readiness w (w.ofd o)).threshold (w.ofd o) minimum).pollHup) = false

theorem Polled.quiet (h : Polled k w w') {o : Nat} (hquiet : Quiet w o minimum) :
    Quiet w' o minimum := by
  unfold Quiet
  rw [h.readiness, h.threshold]
  exact hquiet

theorem exec_kernelWaitRead (hfd : fdValid fd = some i)
    (hentry : (w.kernel k).fds i = some entry) (hquiet : Quiet w entry.ofd minimum) :
    exec (kernelWaitRead k fd minimum) w =
      (.error .eagain, if (w.kernel k).wait.active then w else registerRead k i minimum w) := by
  unfold kernelWaitRead
  rw [hfd]
  simp only [exec_bind, exec_get, hentry]
  rw [hquiet, if_neg Bool.false_ne_true]
  split <;> rfl

/-- The record is there already, or the read fills it in. -/
theorem registerRead_wait : ReadWait i deadlines (w.kernel k).wait
      ((if (w.kernel k).wait.active then w else registerRead k i minimum w).kernel k).wait := by
  cases hactive : (w.kernel k).wait.active with
  | true =>
    refine ⟨hactive, rfl, fun _ => ⟨rfl, rfl, rfl, rfl, rfl⟩,
      fun h => absurd (hactive.symm.trans h) (by simp)⟩
  | false =>
    have hself : ((registerRead k i minimum w).kernel k).wait = { (w.kernel k).wait with
        readfds := fdSetBit i 0, writefds := 0, exceptfds := 0
        nfds := i + 1
        readMinimum := minimum
        hasDeadline := false
        hasSignalMask := false
        generation := (w.kernel k).wait.nextGeneration
        active := true } := by
      unfold registerRead
      rw [World.setKernel_self]
    rw [if_neg Bool.false_ne_true, hself]
    exact ⟨rfl, rfl, fun h => absurd (hactive.symm.trans h) (by simp),
      fun _ => ⟨rfl, rfl, rfl, rfl, rfl, nofun⟩⟩

/-- The effect of a read.  `stays` is the condition under which it returns and leaves the record
alone. -/
def Reads (k : Nat) (i : Fin fdMax) (nonblock : Bool) (stays : Prop) (deadlines : Nat → Prop)
    (wait : WaitRecord) (c : KernelM (List UInt8)) (w : World) : Prop :=
  BlockEffect k wait (fun answer => answer = .error .eagain → nonblock = true) (fun _ => stays)
    (fun kernel => nonblock = false ∧ ReadWait i deadlines wait kernel.wait)
    (exec c w).1 (exec c w).2

variable {wait : WaitRecord}

/-- The beginning of every blocking read: a signal ends it, and otherwise the signals have
been polled. -/
theorem interruptible_reads
    (h : ∀ w', Polled k w w' → Reads k i nonblock stays deadlines wait rest w') :
    Reads k i nonblock stays deadlines wait (interruptible k >>= fun _ => rest) w := by
  unfold Reads
  rw [exec_bind]
  cases hsignal : ((pollSignals k w).kernel k).firstUnmaskedPending with
  | none =>
    rw [exec_interruptible hsignal]
    exact h _ (pollSignals_polled k w)
  | some _ =>
    rw [exec_interrupted hsignal]
    exact .ended nofun (cancelWait_cleared k _)

theorem giveUp_reads (h : nonblock = true) :
    Reads k i nonblock stays deadlines wait (giveUp k .eagain) w :=
  .ended (fun _ => h) (cancelWait_cleared k w)

variable {t : Terminal}

theorem takeInput_reads {o : Nat} {n : Nat} :
    Reads k i nonblock stays deadlines wait (takeInput k o t n) w :=
  .ended nofun (cancelWait_cleared k _)

theorem blockRead_reads (hfd : fdValid fd = some i) (hentry : (w.kernel k).fds i = some entry)
    (hquiet : Quiet w entry.ofd 0) :
    Reads k i nonblock stays deadlines (w.kernel k).wait
      (blockRead k nonblock (waitRead k fd)) w := by
  cases nonblock with
  | true => exact giveUp_reads rfl
  | false =>
    refine interruptible_reads fun w' hpolled => ?_
    unfold Reads
    rw [exec_bind, exec_attempt]
    unfold waitRead
    rw [exec_kernelWaitRead hfd (hpolled.entry hentry) (hpolled.quiet hquiet), ← hpolled.wait]
    exact .waits ⟨rfl, registerRead_wait⟩

/-! ### Terminals -/

/-- The deadlines that a read of a terminal may set. -/
def Terminal.timer (w : World) (t : Terminal) (d : Nat) : Prop :=
  t.termios.cc vtime ≠ 0 ∧
    ∃ n, w.reads ≤ n ∧ d = deadlineFrom ((t.termios.cc vtime).toNat * 100000000) (w.clock n)

theorem setReadDeadline_wait {w0 : World} (t : Terminal)
    (h : ReadWait i (t.timer w0) wait (w.kernel k).wait) (hclock : w.clock = w0.clock)
    (hreads : w0.reads ≤ w.reads) :
    ReadWait i (t.timer w0) wait ((setReadDeadline k t w).kernel k).wait := by
  unfold setReadDeadline
  dsimp only
  split
  · next hset =>
    rw [World.setKernel_self]
    refine { h with own := fun hinactive => ?_ }
    obtain ⟨hnfds, hread, hwrite, hexcept, hmask, -⟩ := h.own hinactive
    refine ⟨hnfds, hread, hwrite, hexcept, hmask, fun _ => ⟨hset.1, w.reads, hreads, ?_⟩⟩
    rw [← hclock]
    rfl
  · exact h

theorem exec_terminalWait (hfd : fdValid fd = some i)
    (hentry : (w.kernel k).fds i = some entry)
    (hquiet : Quiet w entry.ofd
      (min (if t.canonical then 0 else (t.termios.cc vmin).toNat) count)) :
    exec (attempt (terminalWaitWithTimeout k fd t count)) w =
      (.ok (), setReadDeadline k t (if (w.kernel k).wait.active then w
        else registerRead k i (min (if t.canonical then 0 else (t.termios.cc vmin).toNat) count)
          w)) := by
  rw [exec_attempt]
  unfold terminalWaitWithTimeout
  rw [exec_tryCatch, exec_kernelWaitRead hfd hentry hquiet]
  rfl

theorem exec_deadlinePassed (k : Nat) (w : World) :
    ∃ passed w', exec (deadlinePassed k) w = (.ok passed, w') ∧ (w'.kernel k).wait =
      (w.kernel k).wait := by
  unfold deadlinePassed
  simp only [exec_bind, exec_get]
  split
  · exact ⟨_, _, rfl, rfl⟩
  · exact ⟨_, _, rfl, rfl⟩

theorem terminalWait_reads (hfd : fdValid fd = some i)
    (hentry : (w.kernel k).fds i = some entry)
    (hquiet : Quiet w entry.ofd (min (if t.canonical then 0 else (t.termios.cc vmin).toNat) count))
    (hrest : ∀ w', ReadWait i (t.timer w) (w.kernel k).wait (w'.kernel k).wait →
      Reads k i nonblock stays (t.timer w) (w.kernel k).wait rest w') :
    Reads k i nonblock stays (t.timer w) (w.kernel k).wait (interruptible k >>= fun _ =>
      attempt (terminalWaitWithTimeout k fd t count) >>= fun _ => rest) w := by
  refine interruptible_reads fun w' hpolled => ?_
  unfold Reads
  rw [exec_bind, exec_terminalWait hfd (hpolled.entry hentry) (hpolled.quiet hquiet)]
  refine hrest _ (setReadDeadline_wait t ?_ ?_ ?_)
  · rw [← hpolled.wait]
    exact registerRead_wait
  · split <;> exact hpolled.clock
  · split <;> exact hpolled.reads

theorem deadlinePassed_reads {done : KernelM (List UInt8)}
    (hblock : nonblock = false) (hwait : ReadWait i deadlines wait (w.kernel k).wait)
    (hdone : ∀ w', Reads k i nonblock stays deadlines wait done w') :
    Reads k i nonblock stays deadlines wait
      (deadlinePassed k >>= fun passed => if passed then done else throw .eagain) w := by
  obtain ⟨passed, w', hrun, hkept⟩ := exec_deadlinePassed k w
  unfold Reads
  rw [exec_bind, hrun]
  cases passed with
  | true => exact hdone w'
  | false =>
    refine .waits ⟨hblock, ?_⟩
    show ReadWait i deadlines wait (w'.kernel k).wait
    rw [hkept]
    exact hwait

/-! ### Descriptions -/

/-- Does a read of the description ever wait? -/
def Ofd.blocksRead (ofd : Ofd) : Bool :=
  match ofd.kind with
  | .stream _ => 0 ≤ ofd.inputHandle
  | .terminal _ => !(ofd.streamMode ≠ 0 ∧ ofd.inputHandle < 0)
  | .pipeRead _ => true
  | _ => false

/-- A read returns without having looked at the wait record: it is at the end of a stream,
a terminal or a pipe, or the terminal is set to return at once. -/
def Ofd.atEnd (w : World) (nonblock : Bool) (ofd : Ofd) : Prop :=
  match ofd.kind with
  | .stream t => t.input = [] ∧ t.eof = true
  | .terminal t => t.input = [] ∧ (t.eof = true ∨
      nonblock = false ∧ t.canonical = false ∧ t.termios.cc vmin = 0 ∧ t.termios.cc vtime = 0)
  | .pipeRead p => (w.pipe p).buffer = [] ∧ (w.pipe p).writers = 0
  | _ => False

/-- The deadlines that a read of the description may set. -/
def Ofd.timer (w : World) (ofd : Ofd) (d : Nat) : Prop :=
  match ofd.kind with
  | .terminal t => t.timer w d
  | _ => False

theorem Ofd.timer_terminal {ofd : Ofd} (h : ofd.kind = .terminal t) :
    ofd.timer w = t.timer w := by
  unfold timer
  rw [h]

/-- The effect of a read of the description. -/
def ReadsOfd (k : Nat) (i : Fin fdMax) (nonblock : Bool) (ofd : Ofd) (c : KernelM (List UInt8))
    (w : World) : Prop :=
  Reads k i nonblock (ofd.blocksRead = false ∨ ofd.atEnd w nonblock) (ofd.timer w)
    (w.kernel k).wait c w

variable {ofd : Ofd} {t : Terminal} (hfd : fdValid fd = some i)
  (hentry : (w.kernel k).fds i = some entry) (hofd : w.ofd entry.ofd = ofd)

include hfd hentry hofd

theorem readStream_reads (hkind : ofd.kind = .stream t) :
    ReadsOfd k i nonblock ofd (readStream k fd entry.ofd ofd t nonblock count) w := by
  unfold readStream
  by_cases hinput : ofd.inputHandle < 0
  · rw [if_pos hinput]
    refine .kept (.inl ?_) nofun rfl
    unfold Ofd.blocksRead
    rw [hkind]
    simpa using hinput
  rw [if_neg hinput]
  cases hempty : t.input with
  | cons b _ => exact takeInput_reads
  | nil =>
    cases heof : t.eof with
    | true =>
      refine .kept (.inr ?_) nofun rfl
      unfold Ofd.atEnd
      rw [hkind]
      exact ⟨hempty, heof⟩
    | false =>
      refine blockRead_reads hfd hentry ?_
      unfold Quiet readiness
      rw [hofd, hkind]
      simp [Readiness.threshold, hkind, hempty, heof]

theorem readPipe_reads {p : Nat} (hkind : ofd.kind = .pipeRead p) :
    ReadsOfd k i nonblock ofd (readPipe k fd p nonblock count) w := by
  unfold readPipe ReadsOfd Reads
  rw [exec_bind, exec_get]
  dsimp only
  cases hempty : (w.pipe p).buffer with
  | cons b _ => exact .ended nofun (cancelWait_cleared k _)
  | nil =>
    by_cases hwriters : (w.pipe p).writers = 0
    · rw [if_pos hwriters]
      refine .kept (.inr ?_) nofun rfl
      unfold Ofd.atEnd
      rw [hkind]
      exact ⟨hempty, hwriters⟩
    · rw [if_neg hwriters]
      refine blockRead_reads hfd hentry ?_
      unfold Quiet readiness
      rw [hofd, hkind]
      simp [Readiness.threshold, hkind, hempty, hwriters]

theorem readEmptyTerminal_reads (hkind : ofd.kind = .terminal t) (hempty : t.input = []) :
    ReadsOfd k i nonblock ofd (readEmptyTerminal k fd t nonblock count) w := by
  unfold ReadsOfd readEmptyTerminal
  rw [Ofd.timer_terminal hkind]
  cases heof : t.eof with
  | true =>
    refine .kept (.inr ?_) nofun rfl
    unfold Ofd.atEnd
    rw [hkind]
    exact ⟨hempty, .inl heof⟩
  | false =>
    cases nonblock with
    | true => exact giveUp_reads rfl
    | false =>
      by_cases hpoll : (!t.canonical) = true ∧ t.termios.cc vmin = 0 ∧ t.termios.cc vtime = 0
      · rw [if_pos hpoll]
        refine .kept (.inr ?_) nofun rfl
        unfold Ofd.atEnd
        rw [hkind]
        exact ⟨hempty, .inr ⟨rfl, by simpa using hpoll.1, hpoll.2⟩⟩
      · rw [if_neg hpoll]
        refine terminalWait_reads hfd hentry ?_ fun w' hwait => ?_
        · unfold Quiet readiness
          rw [hofd, hkind]
          simp only [Readiness.threshold, hkind, hempty, heof]
          split <;> simp
        · split
          · exact .waits ⟨rfl, hwait⟩
          · exact deadlinePassed_reads rfl hwait fun w'' => .ended nofun (cancelWait_cleared k w'')

theorem readRaw_reads (hkind : ofd.kind = .terminal t) (hraw : t.canonical = false) :
    ReadsOfd k i nonblock ofd (readRaw k fd entry.ofd t nonblock count) w := by
  unfold ReadsOfd readRaw
  rw [Ofd.timer_terminal hkind]
  dsimp only
  split
  · next hfew =>
    obtain ⟨-, hlength, heof, hblock⟩ := hfew
    have heof' : t.eof = false := by simpa using heof
    have hblock' : nonblock = false := by simpa using hblock
    refine terminalWait_reads hfd hentry ?_ fun w' hwait => ?_
    · unfold Quiet readiness
      rw [hofd, hkind, hraw]
      simp only [Readiness.threshold, hkind, heof', Bool.false_eq_true, if_false]
      rw [if_pos ⟨by omega, rfl, hlength⟩]
      rfl
    · exact deadlinePassed_reads hblock' hwait fun w'' => takeInput_reads
  · exact takeInput_reads

theorem readTerminal_reads (hkind : ofd.kind = .terminal t) :
    ReadsOfd k i nonblock ofd (readTerminal k fd entry.ofd ofd t nonblock count) w := by
  unfold readTerminal
  by_cases hclosed : ofd.streamMode ≠ 0 ∧ ofd.inputHandle < 0
  · rw [if_pos hclosed]
    refine .kept (.inl ?_) nofun rfl
    unfold Ofd.blocksRead
    rw [hkind]
    simpa using hclosed
  rw [if_neg hclosed]
  cases hempty : t.input with
  | nil =>
    exact readEmptyTerminal_reads hfd hentry hofd hkind hempty
  | cons b rest =>
    cases hcanonical : t.canonical with
    | false =>
      exact readRaw_reads hfd hentry hofd hkind hcanonical
    | true =>
      by_cases hline : (b :: rest).contains newline = true
      · rw [if_pos hline]
        exact takeInput_reads
      rw [if_neg hline]
      cases heof : t.eof with
      | true => exact takeInput_reads
      | false =>
        refine blockRead_reads hfd hentry ?_
        unfold Quiet readiness
        rw [hofd, hkind]
        simp only [Readiness.threshold, hkind, hempty, heof, hcanonical]
        simpa using hline

/-- Everything that a read of an open descriptor can do to the wait record. -/
theorem readKind_reads :
    ReadsOfd k i nonblock ofd (readKind k fd entry.ofd ofd nonblock count) w := by
  unfold readKind
  split
  · next t hkind => exact readStream_reads hfd hentry hofd hkind
  · next t hkind => exact readTerminal_reads hfd hentry hofd hkind
  · next p hkind => exact readPipe_reads hfd hentry hofd hkind
  · next r hkind =>
    have hnever : ofd.blocksRead = false := by simp [Ofd.blocksRead, hkind]
    unfold ReadsOfd Reads readRegular
    split
    · exact .kept (.inl hnever) nofun rfl
    · simp only [exec_bind, exec_get]
      split <;> exact .kept (.inl hnever) nofun rfl
  · next p hkind => exact .kept (.inl (by simp [Ofd.blocksRead, hkind])) nofun rfl
  · next f readable writable hkind =>
    split <;> exact .kept (.inl (by simp [Ofd.blocksRead, hkind])) nofun rfl
  · next n j hkind => exact .kept (.inl (by simp [Ofd.blocksRead, hkind])) nofun rfl

end Read

/-! ## Waiting to write -/

def writeSets (i : Fin fdMax) : FdSets :=
  { readfds := none, writefds := some (fdSetBit i 0), exceptfds := some (fdSetBit i 0) }

def noTimeout : Timeout := { isZero := false, hasDeadline := false, deadlineNs := 0 }

section Scan

variable {sets : FdSets} {nfds : Nat}

theorem scanFds_found {fd : Fin fdMax} (hfd : fd.val < nfds) (hready : sets.granted w k fd ≠ ⊥)
    (h : scanFds w k sets nfds = .ok found) : 0 < found.count := by
  obtain ⟨hbits, rfl | hcount⟩ := scanFds_ok h
  · exact absurd ((hbits fd hfd).symm.trans (Selected.none_bits fd)) hready
  · exact hcount

theorem wants_eq (set : Option FdSet) (fd : Nat) : wants set fd = fdIsset fd (set.getD 0) := by
  cases set <;> simp [wants, fdIsset]

/-- What `wait_sets_ready` finds for a wait of `select` is what the scan would grant. -/
theorem WaitRecord.On.granted {wait : WaitRecord} (h : wait.On nfds sets) {fd : Fin fdMax} :
    sets.granted w k fd = ⊥ ↔ wait.fdReady w k fd = false := by
  obtain ⟨-, hminimum, hread, hwrite, hexcept⟩ := h
  unfold FdSets.granted fdReady
  cases hentry : (w.kernel k).fds fd with
  | none => exact iff_of_true rfl rfl
  | some entry =>
    have hthreshold (r : Readiness) (ofd : Ofd) : r.threshold ofd 0 = r := by
      unfold Readiness.threshold
      cases ofd.kind <;> simp
    simp only [hminimum, hthreshold, hread, hwrite, hexcept, ← wants_eq]
    rw [Bool.or_eq_false_iff, Bool.or_eq_false_iff, and_assoc, Prod.ext_iff, Prod.ext_iff]
    rfl

/-- The record of a `select` waits for the same descriptors as the call itself. -/
theorem WaitRecord.On.ready {wait : WaitRecord} (hon : wait.On nfds sets)
    (h : waitSetsReady w k wait = true) :
    ∃ fd : Fin fdMax, fd.val < nfds ∧ sets.granted w k fd ≠ ⊥ := by
  obtain ⟨fd, -, hfd⟩ := any_eq_true.mp h
  obtain ⟨hlt, hready⟩ := Bool.and_eq_true_iff.mp hfd
  refine ⟨fd, hon.nfds ▸ of_decide_eq_true hlt, ?_⟩
  rw [Ne, hon.granted, hready]
  simp

variable {mask : Option SigSet} {timeout : Timeout}

/-- A scan that waits on has found nothing, and reads no clock. -/
theorem selectScan_eagain
    (h : (exec (selectScan k nfds sets timeout hadWait mask) w).1 = .error .eagain) :
    (exec (selectScan k nfds sets timeout hadWait mask) w).2.reads = w.reads ∧
      ∃ found, scanFds w k sets nfds = .ok found ∧ ¬0 < found.count := by
  unfold selectScan at h ⊢
  simp only [exec_bind, exec_get] at h ⊢
  cases hscan : scanFds w k sets nfds with
  | error e =>
    rw [hscan] at h
    obtain rfl := scanFds_error hscan
    exact nomatch h
  | ok found =>
    rw [hscan] at h
    dsimp only at h ⊢
    by_cases hcount : 0 < found.count
    · rw [if_pos hcount] at h
      exact nomatch h
    rw [if_neg hcount] at h ⊢
    refine ⟨?_, found, rfl, hcount⟩
    split
    · next hzero =>
      rw [if_pos hzero] at h
      exact nomatch h
    · rfl

variable (hactive : (w.kernel k).wait.active = true) (hfile : (w.kernel k).wait.lockFile = none)
  (hdeadline : (w.kernel k).wait.hasDeadline = true) (hclock : (w.kernel k).hasClock = true)

include hactive hfile hdeadline hclock

/-- A `select` that waits on has looked at the clock, and its deadline had not come. -/
theorem selectPoll_clock (hon : (w.kernel k).wait.On nfds sets)
    (h : (exec (selectPoll k nfds sets timeout hadWait mask) w).1 = .error .eagain) :
    ∃ n, w.reads ≤ n ∧ n < (exec (selectPoll k nfds sets timeout hadWait mask) w).2.reads ∧
      w.clock n < (w.kernel k).wait.deadlineNs := by
  have hpolled := pollSignals_polled k w
  unfold selectPoll at h ⊢
  simp only [exec_bind, exec_get, exec_set] at h ⊢
  unfold waitPoll at h ⊢
  simp only [hactive, Bool.not_true, Bool.false_eq_true, if_false, hpolled.wait, hfile, hdeadline,
    hpolled.hasClock, hclock, Bool.and_true, if_true] at h ⊢
  generalize pollSignals k w = w1 at hpolled h ⊢
  by_cases hsignal : (w1.kernel k).firstUnmaskedPending.isSome = true
  · rw [if_pos hsignal] at h
    exact nomatch h
  rw [if_neg hsignal] at h ⊢
  by_cases hready : waitSetsReady w1 k (w.kernel k).wait = true
  · -- what is ready is reported
    rw [if_pos hready] at h
    rw [if_neg hsignal] at h
    obtain ⟨fd, hfd, hfdready⟩ := hon.ready hready
    obtain ⟨-, found, hscan, hnone⟩ := selectScan_eagain h
    exact absurd (scanFds_found hfd hfdready hscan) hnone
  rw [if_neg hready] at h ⊢
  by_cases hpassed : (w.kernel k).wait.deadlineNs ≤ (clockNow w1).1
  · rw [if_pos hpassed] at h
    exact nomatch h
  rw [if_neg hpassed] at h ⊢
  have hsignal' : ((clockNow w1).2.kernel k).firstUnmaskedPending.isSome ≠ true := hsignal
  rw [if_neg hsignal'] at h ⊢
  refine ⟨w1.reads, hpolled.reads, ?_, ?_⟩
  · rw [(selectScan_eagain h).1]
    exact lt_succ_self _
  · rw [← hpolled.clock]
    exact Nat.lt_of_not_le hpassed

theorem selectWith_clock {units scale : Nat} {nfds : Int} {t : Option Duration}
    (hon : (w.kernel k).wait.On nfds.toNat sets)
    (h : (exec (selectWith k units scale nfds sets t mask) w).1 = .error .eagain) :
    ∃ n, w.reads ≤ n ∧ n < (exec (selectWith k units scale nfds sets t mask) w).2.reads ∧
      w.clock n < (w.kernel k).wait.deadlineNs := by
  unfold selectWith at h ⊢
  rw [exec_bind] at h ⊢
  rcases readTimeout_cases k units scale t w with hrun | ⟨timeout, w1, hrun, hpolled, -⟩
  · rw [hrun] at h
    exact nomatch h
  rw [hrun] at h ⊢
  have hpolled' := hpolled.trans (routeTerminalSignals_polled k w1)
  unfold kernelSelectCore at h ⊢
  simp only [exec_bind, exec_modify] at h ⊢
  generalize routeTerminalSignals k w1 = w2 at hpolled' h ⊢
  rw [← hpolled'.wait] at hactive hfile hdeadline hon ⊢
  rw [← hpolled'.hasClock] at hclock
  split
  · next hrange =>
    rw [if_pos hrange] at h
    exact nomatch h
  next hrange =>
  rw [if_neg hrange] at h
  simp only [exec_bind, exec_get, exec_modify, hactive, if_true] at h ⊢
  split
  · next hbeyond =>
    rw [if_pos hbeyond] at h
    exact nomatch h
  next hbeyond =>
  rw [if_neg hbeyond] at h
  obtain ⟨n, hfrom, hto, hlt⟩ := selectPoll_clock hactive hfile hdeadline hclock hon h
  rw [hpolled'.clock] at hlt
  exact ⟨n, le_trans hpolled'.reads hfrom, hto, hlt⟩

end Scan

theorem writeSets_wants (i fd : Fin fdMax) :
    wants (writeSets i).readfds fd = false ∧ wants (writeSets i).writefds fd = decide (fd = i) ∧
      wants (writeSets i).exceptfds fd = decide (fd = i) :=
  have hbit : fdIsset fd (fdSetBit i 0) = decide (fd = i) := by
    rw [fdIsset_setBit]
    simp [fdIsset]
  ⟨rfl, hbit, hbit⟩

/-- `select` on a full pipe registers the wait, unless there is one. -/
theorem exec_select_write {i : Fin fdMax} {entry : FdEntry}
    (hinactive : (w.kernel k).wait.active = false) (hroute : routeTerminalSignals k w = w)
    (hsignal : (w.kernel k).firstUnmaskedPending = none) (hentry : (w.kernel k).fds i = some entry)
    (hfull : (readiness w (w.ofd entry.ofd)).pollOut = false ∧
      (readiness w (w.ofd entry.ofd)).pollErr = false) :
    (exec (kernelSelectCore k (i + 1) (writeSets i) noTimeout none) w).1 = .error .eagain := by
  have hi : i.val < 64 := i.isLt
  have hscan : scanFds w k (writeSets i) (((i : Nat) : Int) + 1).toNat = .ok .none := by
    rcases scanFds_cases with ⟨-, fd, hwants, hclosed⟩ | ⟨found, hrun, -, rfl | ⟨-, fd, hgranted⟩⟩
    · obtain ⟨hread, hwrite, hexcept⟩ := writeSets_wants i fd
      rw [FdSets.wantsAny, hread, hwrite, hexcept] at hwants
      obtain rfl : fd = i := by simpa using hwants
      exact nomatch hclosed.symm.trans hentry
    · exact hrun
    refine absurd ?_ hgranted
    unfold FdSets.granted
    obtain ⟨hread, hwrite, hexcept⟩ := writeSets_wants i fd
    rw [hread, hwrite, hexcept]
    by_cases hfd : fd = i
    · rw [hfd, hentry]
      simp only [hfull]
      rfl
    · simp only [hfd, decide_false]
      split <;> rfl
  have hpoll : waitPoll k w = (.blocked, w) := by
    unfold waitPoll
    rw [hinactive]
    rfl
  unfold kernelSelectCore
  simp only [exec_bind, exec_modify, hroute]
  rw [if_neg (by unfold fdSetSize; omega)]
  simp only [exec_bind, exec_get, exec_modify, hinactive]
  have hsame : w.setKernel k (·.installMask none) = w := by
    show { w with kernel := Function.update w.kernel k (w.kernel k) } = w
    rw [Function.update_eq_self]
  have hinside : ((range ((((i : Nat) : Int) + 1).toNat)).any fun fd =>
      decide (fdMax ≤ fd) && (writeSets i).wantsAny fd) = false := by
    rw [any_eq_false]
    intro fd hfd
    have hlt : fd < fdMax := by
      have := mem_range.mp hfd
      omega
    simp [not_le.mpr hlt]
  rw [hsame, hinside]
  unfold selectPoll
  simp only [Bool.false_eq_true, if_false, exec_bind, exec_get, exec_set, hpoll, hsignal]
  unfold selectScan
  simp only [Option.isSome_none, Bool.false_eq_true, if_false, exec_bind, exec_get, hscan]
  rfl

/-- The effect of a write from a world. -/
def Writes (k : Nat) (i : Fin fdMax) (nonblock : Bool) (stays : Prop) (c : KernelM Nat)
    (w : World) : Prop :=
  BlockEffect k (w.kernel k).wait
    (fun answer => answer = .error .eagain → nonblock = true ∨ (w.kernel k).wait.active = true)
    (fun _ => stays)
    (fun kernel => nonblock = false ∧
      SelectWait (i + 1) (writeSets i) noTimeout none (w.kernel k) kernel)
    (exec c w).1 (exec c w).2

section Write

variable {i : Fin fdMax} {entry : FdEntry} {nonblock : Bool} {stays : Prop}
variable (o : Nat) (r : Regular) (append : Bool) (data : List UInt8)

theorem blockWrite_writes (hsettled : (w.kernel k).wait.Idle)
    (hentry : (w.kernel k).fds i = some entry)
    (hfull : (readiness w (w.ofd entry.ofd)).pollOut = false ∧
      (readiness w (w.ofd entry.ofd)).pollErr = false) :
    Writes k i nonblock stays (blockWrite k i nonblock) w := by
  unfold blockWrite
  cases nonblock with
  | true => exact .ended (fun _ => .inl rfl) (cancelWait_cleared k w)
  | false =>
    rw [if_neg Bool.false_ne_true]
    unfold Writes
    rw [exec_bind]
    cases hsignal : ((pollSignals k w).kernel k).firstUnmaskedPending with
    | some _ =>
      rw [exec_interrupted hsignal]
      exact .ended nofun (cancelWait_cleared k _)
    | none =>
      rw [exec_interruptible hsignal]
      have hpolled := pollSignals_polled k w
      have hroute : routeTerminalSignals k (pollSignals k w) = pollSignals k w :=
        routeTerminalSignals_idem k _
      generalize pollSignals k w = w1 at hsignal hpolled hroute
      have hend : ∀ c : KernelM Selected, (exec (attempt do let _ ← c) w1) =
          (.ok (), (exec c w1).2) := by
        intro c
        rw [exec_attempt, exec_bind]
        rcases exec c w1 with ⟨e | a, w2⟩ <;> rfl
      dsimp only
      rw [exec_bind, hend]
      change BlockEffect k _ _ _ _ _
        (exec (kernelSelectCore k (i + 1) (writeSets i) noTimeout none) w1).2
      have heffect := (kernelSelectCore_effect k (i + 1) (writeSets i) noTimeout none w1
        (hpolled.idle hsettled)).of_same hpolled.sameWait
      rw [← hpolled.readiness] at hfull
      have hanswer : (w.kernel k).wait.active = false →
          (exec (kernelSelectCore k (i + 1) (writeSets i) noTimeout none) w1).1 =
            .error .eagain := by
        intro hinactive
        rw [← hpolled.wait] at hinactive
        exact exec_select_write hinactive hroute hsignal (hpolled.entry hentry) hfull
      generalize exec (kernelSelectCore k (i + 1) (writeSets i) noTimeout none) w1 = outcome
        at heffect hanswer
      obtain ⟨answer, w2⟩ := outcome
      cases heffect with
      | ended hother hcleared _ =>
        refine .ended (fun _ => .inr ?_) hcleared
        cases hactive : (w.kernel k).wait.active with
        | true => rfl
        | false => exact absurd (hanswer hactive) hother
      | waits h => exact .waits ⟨rfl, h⟩

/-- A write to the description returns without having looked at the wait record. -/
def Ofd.writesAtOnce (w : World) (ofd : Ofd) : Prop :=
  match ofd.kind with
  | .pipeWrite p => (w.pipe p).readers = 0
  | _ => True

theorem writePipe_writes {p : Nat} {data : List UInt8} (hsettled : (w.kernel k).wait.Idle)
    (hentry : (w.kernel k).fds i = some entry) (hkind : (w.ofd entry.ofd).kind = .pipeWrite p) :
    Writes k i nonblock ((w.ofd entry.ofd).writesAtOnce w) (writePipe k i p nonblock data) w := by
  unfold writePipe Writes
  rw [exec_bind, exec_get]
  dsimp only
  by_cases hreaders : (w.pipe p).readers = 0
  · rw [if_pos hreaders]
    refine .kept ?_ nofun rfl
    unfold Ofd.writesAtOnce
    rw [hkind]
    exact hreaders
  split_ifs with hblock
  · cases nonblock with
    | true => exact .ended (fun _ => .inl rfl) (cancelWait_cleared k w)
    | false =>
      have hfull : (w.pipe p).capacity - (w.pipe p).buffer.length = 0 :=
        hblock.resolve_right fun h => Bool.false_ne_true h.1
      refine blockWrite_writes hsettled hentry ?_
      unfold readiness
      rw [hkind]
      simp [hreaders]
      omega
  · exact .ended nofun (cancelWait_cleared k _)

theorem writeRegular_kernel : Fixes World.kernel (writeRegular o r append data) := by
  refine .ite (.throw _) (.get_bind fun w => ?_)
  refine Fixes.ite (.throw _) (.bind (ensureSize_fixes kernel_blind.toFileBlind _ _)
    fun room => ?_) w
  refine .ite (.throw _) ?_
  refine .bind (.modify fun _ => rfl) fun _ => .bind (.modify fun _ => rfl) fun _ => ?_
  exact .pure _

theorem ensureSize_answer (f needed : Nat) {E : Errno → World → Prop} :
    Triple (fun _ => True) (ensureSize f needed) (fun _ _ => True) E := by
  have hallocate : Triple (fun _ : World => True) allocate (fun _ _ => True) E :=
    .get_bind fun w _ => .set_bind fun _ _ => .pure fun _ _ => trivial
  have hresize : Triple (fun _ => True) (fileObjectResize f needed) (fun _ _ => True) E := by
    refine .get_bind fun w _ => .ite (fun _ => .pure fun _ _ => trivial) fun _ => ?_
    refine .set_bind fun _ _ => .ite (fun _ => .pure fun _ _ => trivial) fun _ => ?_
    refine .bind (hallocate.pre fun _ _ => trivial) fun _ => .ite (fun _ => ?_) fun _ => ?_
    · exact .modify_bind fun _ _ => .pure fun _ _ => trivial
    · exact .modify_bind fun _ _ => .pure fun _ _ => trivial
  refine .get_bind fun w _ => .ite (fun _ => ?_) fun _ => .pure fun _ _ => trivial
  exact hresize.pre (fun _ _ => trivial)

theorem writeRegular_answer (w : World) :
    (exec (writeRegular o r append data) w).1 ≠ .error .eagain ∧
      (exec (writeRegular o r append data) w).1 ≠ .error .epipe := by
  have hspec : Triple (fun _ => True) (writeRegular o r append data) (fun _ _ => True)
      (fun e _ => e ≠ .eagain ∧ e ≠ .epipe) := by
    refine .ite (fun _ => .throw fun _ _ => by decide) fun _ => ?_
    refine .get_bind fun w _ => ?_
    refine .ite (fun _ => .throw fun _ _ => by decide) fun _ => ?_
    refine .bind ((ensureSize_answer _ _).pre (fun _ _ => trivial)) fun room => ?_
    refine .ite (fun _ => .throw fun _ _ => by decide) fun _ => ?_
    exact .modify_bind fun _ _ => .modify_bind fun _ _ => .pure fun _ _ => trivial
  have hends := (hspec w trivial).2
  exact ⟨fun h => (hends _ _ (Prod.ext h rfl)).1 rfl, fun h => (hends _ _ (Prod.ext h rfl)).2 rfl⟩

/-- Everything that a write to an open descriptor can do to the wait record. -/
theorem writeKind_writes {flags : BitVec 32} {data : List UInt8} (hsettled : (w.kernel k).wait.Idle)
    (hentry : (w.kernel k).fds i = some entry) :
    Writes k i (flags &&& oNonblock ≠ 0) ((w.ofd entry.ofd).writesAtOnce w)
      (writeKind k i entry.ofd (w.ofd entry.ofd) flags data) w := by
  have honce : (∀ p, (w.ofd entry.ofd).kind ≠ .pipeWrite p) → (w.ofd entry.ofd).writesAtOnce w := by
    intro hother
    unfold Ofd.writesAtOnce
    split
    · next p hkind => exact absurd hkind (hother p)
    · trivial
  unfold writeKind Writes
  split
  · next t hkind => split <;> exact .kept (honce (by simp [hkind])) nofun rfl
  · next f r wr hkind => split <;> exact .kept (honce (by simp [hkind])) nofun rfl
  · next t hkind => split <;> exact .kept (honce (by simp [hkind])) nofun rfl
  · next p hkind => exact writePipe_writes hsettled hentry hkind
  · next p hkind => exact .kept (honce (by simp [hkind])) nofun rfl
  · next n j hkind => exact .kept (honce (by simp [hkind])) nofun rfl
  · next r hkind =>
    refine .kept (honce (by simp [hkind])) (writeRegular_answer _ _ _ _ w).1 ?_
    rw [writeRegular_kernel]

end Write

/-! ## Waiting for a lock -/

/-- If the record is in use, then for a lock. -/
def WaitRecord.ForLock (wait : WaitRecord) : Prop :=
  wait.active = true → wait.lockFile.isSome = true

/-- What `F_SETLKW` leaves behind when it waits. -/
structure LockWait (wait wait' : WaitRecord) : Prop where
  active : wait'.active = true
  lockFile : wait'.lockFile.isSome = true
  kept : wait.active = true → wait' = wait
  own : wait.active = false →
    wait'.nfds = 0 ∧ wait'.hasDeadline = false ∧ wait'.hasSignalMask = false

/-- The effect of `F_SETLKW`.  `stays` is the condition under which it returns and leaves a record
alone that is in use. -/
def LocksWith (k : Nat) (stays : Prop) (wait : WaitRecord) (c : KernelM Flock) (w : World) : Prop :=
  BlockEffect k wait (fun answer => answer ≠ .error .eagain ∧ answer ≠ .error .ebusy)
    (fun answer => wait.ForLock → answer ≠ .error .ebusy ∧ (wait.active = true → stays))
    (fun kernel => LockWait wait kernel.wait) (exec c w).1 (exec c w).2

section Lock

variable {fd : Int} {lock : Flock} {request : LockRequest} {f : Nat} {stays : Prop}
  {wait : WaitRecord}

theorem giveUp_locks (he : e ≠ .eagain) (hbusy : e ≠ .ebusy) :
    LocksWith k stays wait (giveUp k e) w := by
  refine .ended ⟨fun h => he (error.inj h), fun h => hbusy (error.inj h)⟩ ?_
  exact cancelWait_cleared k w

theorem allocateRecords_kernel (l : List RecordLock) : Fixes World.kernel (allocateRecords l) := by
  induction l with
  | nil => exact .pure _
  | cons r _ ih =>
    refine .bind ?_ fun _ => ih
    exact allocateOr_view (fun _ _ => rfl)

theorem recordReplace_kernel (f o : Nat) (type : LockType) (first last : Nat) :
    Fixes World.kernel (recordReplace f o type first last) := by
  refine .get_bind fun w => ?_
  refine Fixes.bind (allocateRecords_kernel _) (fun _ => .ite (.throw _) ?_) w
  refine .bind (.modify fun w => ?_) fun _ => .modify fun w => ?_
  · exact foldl_view (fun w r => kernel_blind.removeRecord f) _ w
  · refine foldl_view (fun w r => ?_) _ w
    exact kernel_blind.retain _

theorem findCycle_error {o : Nat} (h : findCycle w o f request = .error e) : e = .enolck := by
  unfold findCycle at h
  split at h
  · exact (error.inj h).symm
  · exact absurd h (by simp)

theorem waitForLock_locks : LocksWith k stays (w.kernel k).wait (waitForLock k fd f request) w := by
  unfold waitForLock LocksWith
  simp only [exec_bind, exec_get]
  cases hsearch : findCycle w (w.kernel k).lockOwner f request with
  | error e =>
    obtain rfl := findCycle_error hsearch
    exact giveUp_locks (by decide) (by decide)
  | ok found =>
    cases found with
    | true => exact giveUp_locks (by decide) (by decide)
    | false =>
      dsimp only
      cases hactive : (w.kernel k).wait.active with
      | true =>
        cases hfile : (w.kernel k).wait.lockFile with
        | none =>
          refine .kept (fun hlock => ?_) nofun rfl
          have hsome := hlock hactive
          rw [hfile] at hsome
          exact nomatch hsome
        | some f =>
          refine .waits ⟨hactive, ?_,
            fun _ => rfl, fun h => absurd (hactive.symm.trans h) (by simp)⟩
          exact congrArg Option.isSome hfile
      | false =>
        rw [if_neg Bool.false_ne_true]
        split
        · exact .kept (fun _ => ⟨nofun, nofun⟩) nofun rfl
        have hself : ((registerLock k (w.kernel k).lockOwner fd f request w).kernel k) =
            (w.kernel k).awaitLock fd f request := by
          refine World.setKernel_self.trans ?_
          rw [kernel_blind.retain]
        have hwait : ((registerLock k (w.kernel k).lockOwner fd f request w).kernel k).wait =
            ((w.kernel k).awaitLock fd f request).wait := congrArg PosixKernel.wait hself
        refine .waits ⟨?_, ?_, fun h => absurd h (by simp [hactive]), fun _ => ?_⟩
        · exact congrArg WaitRecord.active hwait
        · exact congrArg (fun wait => wait.lockFile.isSome) hwait
        · exact ⟨congrArg WaitRecord.nfds hwait, congrArg WaitRecord.hasDeadline hwait,
            congrArg WaitRecord.hasSignalMask hwait⟩

theorem applyLock_locks :
    LocksWith k stays (w.kernel k).wait (applyLock k fd .setlkw lock f request) w := by
  unfold applyLock LocksWith
  simp only [exec_bind, exec_get]
  generalize (if request.type = .unlck then none else recordConflict (w.file f).locks
    (w.kernel k).lockOwner request.type request.first request.last) = conflict
  split
  · exact waitForLock_locks
  simp only [exec_bind, exec_modify]
  have hkernel := recordReplace_kernel f (w.kernel k).lockOwner request.type request.first
    request.last (cancelWait k w)
  have hcleared := cancelWait_cleared k w
  rw [← hkernel] at hcleared
  have herror := fun e => recordReplace_error (e := e) f (w.kernel k).lockOwner request.type
    request.first request.last (cancelWait k w)
  generalize exec (recordReplace f (w.kernel k).lockOwner request.type request.first request.last)
    (cancelWait k w) = outcome at hcleared herror
  obtain ⟨e | a, w'⟩ := outcome
  · obtain rfl := herror e rfl
    exact .ended ⟨nofun, nofun⟩ hcleared
  · exact .ended ⟨nofun, nofun⟩ hcleared

/-- The description may no longer be locked the way that the record asks for. -/
def LockRefused (w : World) (k : Nat) (fd : Int) : Prop :=
  ∃ entry r f request, w.entry k fd = some entry ∧ (w.ofd entry.ofd).kind = .regular r ∧
    (w.kernel k).wanted = some (f, request) ∧ (w.kernel k).wait.lockFd = fd ∧ f = r.file ∧
    r.permits request.type = false

theorem checkedLock_locks {r : Regular}
    (hrefused : (w.kernel k).wait.ForLock → (w.kernel k).wait.active = true →
      r.permits request.type = false → stays) :
    LocksWith k stays (w.kernel k).wait
      (if LockCommand.setlkw ≠ .getlk ∧ (!r.permits request.type) = true then throw .ebadf
        else if LockCommand.setlkw = .setlkw then do
          interruptible k
          applyLock k fd .setlkw lock r.file request
        else applyLock k fd .setlkw lock r.file request) w := by
  by_cases hpermits : r.permits request.type = true
  · rw [if_neg (by simp [hpermits]), if_pos rfl]
    unfold LocksWith
    rw [exec_bind]
    cases hsignal : ((pollSignals k w).kernel k).firstUnmaskedPending with
    | none =>
      rw [exec_interruptible hsignal]
      rw [← (pollSignals_polled k w).wait]
      exact applyLock_locks
    | some _ =>
      rw [exec_interrupted hsignal]
      exact .ended ⟨nofun, nofun⟩ (cancelWait_cleared k _)
  · have hfalse : r.permits request.type = false := by simpa using hpermits
    rw [if_pos ⟨by decide, by simp [hfalse]⟩]
    exact .kept (fun hlock => ⟨nofun, fun hactive => hrefused hlock hactive hfalse⟩)
      nofun rfl

/-- Everything that `F_SETLKW` can do to the wait record. -/
theorem recordLock_locks (k : Nat) (fd : Int) (lock : Flock) (w : World) :
    LocksWith k (LockRefused w k fd) (w.kernel k).wait (kernelRecordLock k fd .setlkw lock) w := by
  have hidle : (w.kernel k).wait.ForLock → (w.kernel k).wanted = none →
      (w.kernel k).wait.active ≠ true := by
    intro hlock hnone hactive
    obtain ⟨f, hf⟩ := Option.isSome_iff_exists.mp (hlock hactive)
    unfold PosixKernel.wanted at hnone
    rw [if_pos hactive, hf] at hnone
    exact nomatch hnone
  unfold kernelRecordLock LocksWith
  simp only [exec_bind, exec_get]
  cases hentry : w.entry k fd with
  | none => exact giveUp_locks (by decide) (by decide)
  | some entry =>
    dsimp only
    split
    · next r hr =>
      -- the request comes from the record, or from the argument when there is none
      rw [exec_bind]
      cases hwanted : (w.kernel k).wanted with
      | none =>
        have hrun : exec (lockRequest k fd .setlkw lock r) w =
            (newLockRequest .setlkw lock r.offset (w.file r.file).data.length, w) := by
          unfold lockRequest
          simp only [exec_bind, exec_get, if_true, hwanted, exec_require]
        rw [hrun]
        have hranged := newLockRequest_ranged .setlkw lock r.offset (w.file r.file).data.length
        cases hnew : newLockRequest .setlkw lock r.offset (w.file r.file).data.length with
        | error e =>
          rw [hnew] at hranged
          refine .kept (fun hlock => ⟨fun h => ?_, fun h => absurd h (hidle hlock hwanted)⟩)
            (fun h => ?_) rfl <;>
          · obtain rfl := error.inj h
            exact absurd hranged (by simp [Ranged])
        | ok request =>
          exact checkedLock_locks fun hlock hactive => absurd hactive (hidle hlock hwanted)
      | some x =>
        obtain ⟨f, request⟩ := x
        by_cases hother : (w.kernel k).wait.lockFd ≠ fd ∨ f ≠ r.file
        · have hrun : exec (lockRequest k fd .setlkw lock r) w =
              (.error .ebadf, cancelWait k w) := by
            unfold lockRequest
            simp only [exec_bind, exec_get, if_true, hwanted, if_pos hother]
            rfl
          rw [hrun]
          exact .ended ⟨nofun, nofun⟩ (cancelWait_cleared k w)
        · have hrun : exec (lockRequest k fd .setlkw lock r) w = (.ok request, w) := by
            unfold lockRequest
            simp only [exec_bind, exec_get, if_true, hwanted, if_neg hother, exec_pure]
          rw [hrun]
          rw [not_or, not_not, not_not] at hother
          refine checkedLock_locks fun _ _ hpermits => ?_
          exact ⟨entry, r, f, request, hentry, hr, hwanted, hother.1, hother.2, hpermits⟩
    · exact giveUp_locks (by decide) (by decide)

end Lock

end Waste.Kernel
