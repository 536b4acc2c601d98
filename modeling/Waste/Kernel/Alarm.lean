import Waste.Kernel.SignalMask

/-!
# The alarm

A process has one alarm, which `alarm` arms, replaces and cancels.  It comes at the first poll
or `alarm` at or after its deadline.  What the kernel holds of it is compared with the history
of the polls and the `alarm` calls of the process: the last call armed it, and only polls
before its deadline came since.
-/

namespace Waste.Kernel

open Function StateExcept List Prod

/-! ## The call -/

/-- `seconds` from now, or the last time that the clock can show. -/
def alarmDeadline (now : Nat) (seconds : BitVec 32) : Nat :=
  let duration := seconds.toNat * 1000000000
  if now > uint64Max - duration then uint64Max else now + duration

namespace PosixKernel

/-- The two places where the alarm comes. -/
def alarmRaise (kernel : PosixKernel) : PosixKernel :=
  ({ kernel with alarmActive := false }.signalRaise sigalrm).2

/-- What `posix_kernel_alarm` does about the last arming, and the seconds that were left of it. -/
def alarmReplace (now : Nat) (kernel : PosixKernel) : PosixKernel × Nat :=
  if !kernel.alarmActive then (kernel, 0)
  else if kernel.alarmDeadlineNs ≤ now then (kernel.alarmRaise, 0)
  else
    let ns := kernel.alarmDeadlineNs - now
    (kernel, ns / 1000000000 + if ns % 1000000000 ≠ 0 then 1 else 0)

def alarmArm (now : Nat) (seconds : BitVec 32) (kernel : PosixKernel) : PosixKernel :=
  { kernel with alarmActive := seconds ≠ 0, alarmDeadlineNs := alarmDeadline now seconds }

end PosixKernel

/-- `posix_kernel_alarm`. -/
def kernelAlarm (k : Nat) (seconds : BitVec 32) : KernelM Nat := do
  let w ← get
  let kernel := w.kernel k
  if !kernel.hasClock then throw .enosys
  else do
    let (now, w) := clockNow w
    set (w.setKernel k fun kernel => (kernel.alarmReplace now).1.alarmArm now seconds)
    return (kernel.alarmReplace now).2

/-! ## Histories -/

inductive AlarmEvent
  | poll
  | alarm (seconds : BitVec 32)

/-- What a process did at which time, the last event first. -/
abbrev AlarmHistory := List (Nat × AlarmEvent)

variable {now deadline : Nat} {seconds : BitVec 32} {history older : AlarmHistory}

/-- The call after `older` armed the alarm for `deadline`, which is `seconds` later or the last
time that the clock can show, and since then there were only polls, before the deadline. -/
def AlarmPending (history older : AlarmHistory) (deadline : Nat) : Prop :=
  ∃ polls now seconds, history = polls ++ (now, .alarm seconds) :: older ∧ seconds ≠ 0 ∧
    deadline = min (now + seconds.toNat * 10 ^ 9) (2 ^ 64 - 1) ∧
    ∀ event ∈ polls, event.2 = .poll ∧ event.1 < deadline

theorem alarmPending_nil : ¬AlarmPending [] older deadline := by
  rintro ⟨polls, now, seconds, h, -⟩
  exact absurd h.symm (by simp)

theorem alarmPending_alarm : AlarmPending ((now, .alarm seconds) :: history) older deadline ↔
    seconds ≠ 0 ∧ older = history ∧
      deadline = min (now + seconds.toNat * 10 ^ 9) (2 ^ 64 - 1) := by
  constructor
  · rintro ⟨_ | ⟨event, polls⟩, now', seconds', h, hseconds, hdeadline, hpolls⟩
    · obtain ⟨⟨⟩, rfl⟩ := cons.inj h
      exact ⟨hseconds, rfl, hdeadline⟩
    · obtain ⟨rfl, -⟩ := cons.inj h
      exact nomatch (hpolls _ mem_cons_self).1
  · rintro ⟨hseconds, rfl, hdeadline⟩
    exact ⟨[], now, seconds, rfl, hseconds, hdeadline, nofun⟩

theorem alarmPending_poll : AlarmPending ((now, .poll) :: history) older deadline ↔
    AlarmPending history older deadline ∧ now < deadline := by
  constructor
  · rintro ⟨_ | ⟨event, polls⟩, now', seconds', h, hseconds, hdeadline, hpolls⟩
    · exact nomatch (cons.inj h).1
    · obtain ⟨rfl, rfl⟩ := cons.inj h
      rw [forall_mem_cons] at hpolls
      exact ⟨⟨polls, now', seconds', rfl, hseconds, hdeadline, hpolls.2⟩, hpolls.1.2⟩
  · rintro ⟨⟨polls, now', seconds', rfl, hseconds, hdeadline, hpolls⟩, hnow⟩
    refine ⟨(now, .poll) :: polls, now', seconds', rfl, hseconds, hdeadline, ?_⟩
    exact forall_mem_cons.mpr ⟨⟨rfl, hnow⟩, hpolls⟩

/-- The alarm has come: `SIGALRM`, the bit 13, is pending unless it is ignored. -/
def PosixKernel.alarmed (kernel : PosixKernel) : PosixKernel :=
  { kernel with
    alarmActive := false
    pendingSignals := if kernel.signalDisposition 14 = .ignore then kernel.pendingSignals
      else kernel.pendingSignals ||| 1#128 <<< 13 }

theorem alarmRaise_eq (kernel : PosixKernel) : kernel.alarmRaise = kernel.alarmed := by
  unfold PosixKernel.alarmRaise PosixKernel.alarmed PosixKernel.signalRaise sigalrm
  have hvalid : signalValid 14 = true := by decide
  have hdefault : defaultIgnored 14 = false := by decide
  cases kernel.signalDisposition 14 <;> simp [hvalid, hdefault, signalBitSet]

theorem alarmDeadline_eq : alarmDeadline now seconds =
    min (now + seconds.toNat * 10 ^ 9) (2 ^ 64 - 1) := by
  have hseconds := seconds.isLt
  unfold alarmDeadline uint64Max
  dsimp only
  split <;> omega

def PosixKernel.alarm (kernel : PosixKernel) : Bool × Nat :=
  (kernel.alarmActive, kernel.alarmDeadlineNs)

/-- The kernel holds the pending alarm of the history. -/
def PosixKernel.AlarmAgrees (kernel : PosixKernel) (history : AlarmHistory) : Prop :=
  ∀ deadline, kernel.alarmActive = true ∧ kernel.alarmDeadlineNs = deadline ↔
    ∃ older, AlarmPending history older deadline

/-- The alarm comes with a poll now. -/
def PosixKernel.Expired (kernel : PosixKernel) (now : Nat) : Prop :=
  kernel.alarmActive = true ∧ kernel.alarmDeadlineNs ≤ now

section

variable {kernel : PosixKernel} (h : kernel.AlarmAgrees history)
include h

omit h in
theorem alarmRaise_inactive : kernel.alarmRaise.alarmActive = false := by
  rw [alarmRaise_eq]
  rfl

omit h in
theorem PosixKernel.AlarmAgrees.arm : (kernel.alarmArm now seconds).AlarmAgrees
    ((now, .alarm seconds) :: history) := by
  intro deadline
  simp only [alarmPending_alarm, alarmArm, decide_eq_true_eq, alarmDeadline_eq]
  constructor
  · rintro ⟨hseconds, rfl⟩
    exact ⟨history, hseconds, rfl, rfl⟩
  · rintro ⟨_, hseconds, -, rfl⟩
    exact ⟨hseconds, rfl⟩

theorem PosixKernel.AlarmAgrees.early (hearly : ¬kernel.Expired now) :
    kernel.AlarmAgrees ((now, .poll) :: history) := by
  intro deadline
  simp only [alarmPending_poll, exists_and_right, ← h deadline]
  constructor
  · rintro ⟨hactive, rfl⟩
    exact ⟨⟨hactive, rfl⟩, Nat.lt_of_not_le fun hle => hearly ⟨hactive, hle⟩⟩
  · exact .left

theorem PosixKernel.AlarmAgrees.came (hnow : kernel.alarmDeadlineNs ≤ now) :
    kernel.alarmRaise.AlarmAgrees ((now, .poll) :: history) := by
  intro deadline
  simp only [alarmPending_poll, exists_and_right, ← h deadline, alarmRaise_inactive]
  constructor
  · exact fun hno => nomatch hno.1
  · rintro ⟨⟨-, rfl⟩, hlt⟩
    omega

/-- Before the deadline the last arming is replaced, and the answer is what was left of it. -/
theorem PosixKernel.AlarmAgrees.replace (hearly : ¬kernel.Expired now) :
    (kernel.alarmReplace now).1 = kernel ∧
    ((kernel.alarmReplace now).2 = 0 ↔ ¬∃ older deadline, AlarmPending history older deadline) ∧
    ∀ older deadline, AlarmPending history older deadline →
      (kernel.alarmReplace now).2 = (deadline - now) ⌈/⌉ 1000000000 := by
  unfold alarmReplace
  cases hactive : kernel.alarmActive with
  | false =>
    have hnone : ∀ older deadline, ¬AlarmPending history older deadline := by
      intro older deadline hpending
      have hon := ((h deadline).mpr ⟨older, hpending⟩).1
      exact Bool.false_ne_true (hactive.symm.trans hon)
    exact ⟨rfl, iff_of_true rfl fun ⟨older, deadline, hno⟩ => hnone older deadline hno,
      fun older deadline hno => absurd hno (hnone older deadline)⟩
  | true =>
    have hbefore : ¬kernel.alarmDeadlineNs ≤ now := fun hnow => hearly ⟨hactive, hnow⟩
    rw [if_neg (by decide), if_neg hbefore]
    obtain ⟨older, hpending⟩ := (h _).mp ⟨hactive, rfl⟩
    refine ⟨rfl, iff_of_false ?_ fun hno => hno ⟨older, _, hpending⟩,
      fun older deadline hpending => ?_⟩
    · dsimp only
      split <;> omega
    · obtain ⟨-, rfl⟩ := (h deadline).mpr ⟨older, hpending⟩
      rw [Nat.ceilDiv_eq_add_pred_div]
      dsimp only
      split <;> omega

end

variable {k : Nat} {w w' : World}

theorem alarmPoll_expired (hclock : (w.kernel k).hasClock = true)
    (h : (w.kernel k).Expired (w.clock w.reads)) :
    alarmPoll k w = (clockNow w).2.setKernel k .alarmRaise := by
  unfold alarmPoll
  dsimp only
  rw [h.1, hclock, if_neg (by decide)]
  exact if_neg (not_lt.mpr h.2)

theorem alarmPoll_early (h : ¬(w.kernel k).Expired (w.clock w.reads)) :
    alarmPoll k w = w ∨ alarmPoll k w = (clockNow w).2 := by
  unfold alarmPoll
  dsimp only
  split_ifs with hoff hbefore
  · exact .inl rfl
  · exact .inr rfl
  · refine absurd ⟨?_, Nat.le_of_not_lt hbefore⟩ h
    simp_all

theorem exec_kernelAlarm (hclock : (w.kernel k).hasClock = true) : exec (kernelAlarm k seconds) w =
    (.ok ((w.kernel k).alarmReplace (w.clock w.reads)).2, (clockNow w).2.setKernel k fun _ =>
      ((w.kernel k).alarmReplace (w.clock w.reads)).1.alarmArm (w.clock w.reads) seconds) := by
  unfold kernelAlarm
  simp only [exec_bind, exec_get]
  rw [hclock, if_neg (by decide)]
  rfl

/-! ## Runs -/

/-- A process of a world, with its history. -/
structure AlarmProcess where
  world : World
  number : Nat
  history : AlarmHistory

inductive AlarmCall
  | poll
  | alarm (seconds : BitVec 32)
  | fork (pid : Int) (child : Bool)
  | execve

namespace AlarmProcess

def kernel (p : AlarmProcess) : PosixKernel := p.world.kernel p.number

def time (p : AlarmProcess) : Nat := p.world.clock p.world.reads

/-- Without a clock there are no alarms. -/
def record (p : AlarmProcess) (event : AlarmEvent) : AlarmHistory :=
  if p.kernel.hasClock then (p.time, event) :: p.history else p.history

/-- One call; after a fork the run goes on with the parent or with the child, which has no
history. -/
def step (p : AlarmProcess) : AlarmCall → AlarmProcess
  | .poll => { p with world := alarmPoll p.number p.world, history := p.record .poll }
  | .alarm seconds =>
    { p with
      world := (exec (kernelAlarm p.number seconds) p.world).2
      history := p.record (.alarm seconds) }
  | .fork pid child =>
    match exec (forkKernel p.number pid) p.world with
    | (.ok number, w) => if child then ⟨w, number, []⟩ else { p with world := w }
    | (.error _, w) => { p with world := w }
  | .execve =>
    { p with
      world := (exec (kernelCloseOnExec p.number) p.world).2.setKernel p.number (·.signalExec) }

end AlarmProcess

theorem kernelClose_alarm {fd : Int} :
    Fixes (fun w => ((w.kernel k).alarm, w.next)) (kernelClose k fd) := by
  have hview : ∀ {w w' : World}, base w' = base w →
      ((w'.kernel k).alarm, w'.next) = ((w.kernel k).alarm, w.next) :=
    fun h => congrArg (fun b : (Nat → PosixKernel) × Nat => ((b.1 k).alarm, b.2)) h
  have hopen (w : World) : (exec (openFd k fd) w).2 = w := openFd_keeps.exec_snd (P := (· = w)) rfl
  refine .bind (fun w => hview (congrArg base (hopen w))) fun r => ?_
  refine .bind (.modify fun w => ?_) fun _ => .modify fun w => ?_
  · unfold releaseLocks
    split
    · exact hview (foldl_view (fun w _ => base_blind.removeRecord _) _ _)
    · rfl
  · unfold dropFd pipeCountDec
    rw [hview ((base_ofdRelease _ _).trans (base_countEnds _)), setFd, World.setKernel_self]
    rfl

theorem kernelSetLockPid_alarm (pid : Int) :
    Fixes (fun w => (w.kernel k).alarm) (kernelSetLockPid k pid) := by
  refine .ite (.throw _) (.get_bind fun w => ?_)
  dsimp only
  split
  · rfl
  have hfresh : Fixes (fun w => (w.kernel k).alarm) fresh := fun _ => rfl
  refine Fixes.bind (allocateOr_view fun _ _ => rfl) (fun _ => .bind hfresh fun new => ?_) w
  refine .modify fun w => ?_
  rw [replaceOwner_kernel]
  rfl

theorem forkKernel_alarm (pid : Int) : Triple (fun _ => True) (forkKernel k pid)
    (fun child w => (w.kernel child).alarmActive = false) fun _ _ => True := by
  refine .bind .trivial fun child => ?_
  refine .bind (Q := fun _ w => (w.kernel child).alarmActive = false) (.modify fun w _ => ?_)
    fun _ => ?_
  · rw [World.setKernel_self]
  refine .bind (.tryCatch (E := fun _ _ => True) ?_ fun _ => ?_) fun _ => .pure fun _ h => h
  · exact ((kernelSetLockPid_alarm pid).keeps fun alarm => alarm.1 = false).conseq (fun _ h => h)
      (fun _ _ h => h) fun _ _ _ => trivial
  · exact .modify_bind fun _ _ => .throw fun _ _ => trivial

/-- The process has the alarm of its history. -/
def AlarmProcess.Agrees (p : AlarmProcess) : Prop :=
  p.number < p.world.next ∧ p.kernel.AlarmAgrees p.history

theorem agrees_nil {kernel : PosixKernel} (h : kernel.alarmActive = false) :
    kernel.AlarmAgrees [] := by
  refine fun deadline => iff_of_false ?_ fun ⟨_, hno⟩ => alarmPending_nil hno
  rw [h]
  exact fun hno => nomatch hno.1

section

variable {p : AlarmProcess} (h : p.Agrees)
include h

theorem AlarmProcess.Agrees.other (halarm : (w.kernel p.number).alarm = p.kernel.alarm)
    (hnext : p.world.next ≤ w.next) : { p with world := w }.Agrees := by
  obtain ⟨hactive, hdeadline⟩ := Prod.mk.inj halarm
  refine ⟨lt_of_lt_of_le h.1 hnext, fun deadline => ?_⟩
  rw [← h.2 deadline, ← hactive, ← hdeadline]
  rfl

theorem AlarmProcess.Agrees.fork (pid : Int) (child : Bool) :
    (p.step (.fork pid child)).Agrees := by
  have hbeside := forkKernel_beside p.number pid p.world p.world rfl
  have halarm := (forkKernel_alarm (k := p.number) pid p.world trivial).1
  have hparent : ∀ w, BesideOrSame p.world w → { p with world := w }.Agrees := by
    rintro w (⟨hothers, hnext⟩ | hbase)
    · refine h.other ?_ (le_of_lt hnext)
      exact congrArg PosixKernel.alarm (congrFun hothers ⟨p.number, ne_of_lt h.1⟩)
    · obtain ⟨hkernel, hnext⟩ := Prod.mk.inj hbase
      exact h.other (congrArg (fun f => (f p.number).alarm) hkernel) (le_of_eq hnext.symm)
  unfold step
  dsimp only
  generalize exec (forkKernel p.number pid) p.world = run at hbeside halarm
  obtain ⟨e | number, w⟩ := run
  · exact hparent w (hbeside.2 e w rfl)
  · obtain ⟨rfl, hw⟩ := hbeside.1 number w rfl
    cases child with
    | true => exact ⟨hw.2, agrees_nil (halarm _ w rfl)⟩
    | false => exact hparent w (.inl hw)

theorem AlarmProcess.Agrees.poll : (p.step .poll).Agrees := by
  unfold step record
  dsimp only
  split
  · next hclock =>
    by_cases hexpired : p.kernel.Expired p.time
    · rw [alarmPoll_expired hclock hexpired]
      refine ⟨h.1, ?_⟩
      unfold kernel
      rw [World.setKernel_self]
      exact h.2.came hexpired.2
    · rcases alarmPoll_early hexpired with heq | heq <;> rw [heq] <;>
        exact ⟨h.1, h.2.early hexpired⟩
  · next hclock =>
    have hoff : (p.world.kernel p.number).hasClock = false := Bool.not_eq_true _ ▸ hclock
    have hsame : alarmPoll p.number p.world = p.world := if_pos (by simp [hoff])
    rw [hsame]
    exact h

theorem AlarmProcess.Agrees.alarm (seconds : BitVec 32) : (p.step (.alarm seconds)).Agrees := by
  unfold step record
  dsimp only
  split
  · next hclock =>
    rw [exec_kernelAlarm hclock]
    refine ⟨h.1, ?_⟩
    unfold kernel
    rw [World.setKernel_self]
    exact .arm
  · next hclock =>
    have hsame : (exec (kernelAlarm p.number seconds) p.world).2 = p.world := by
      have hoff : (p.world.kernel p.number).hasClock = false := Bool.not_eq_true _ ▸ hclock
      unfold kernelAlarm
      simp [hoff]
    rw [hsame]
    exact h

theorem AlarmProcess.Agrees.step (c : AlarmCall) : (p.step c).Agrees := by
  cases c with
  | poll => exact h.poll
  | alarm seconds => exact h.alarm seconds
  | fork pid child => exact h.fork pid child
  | execve =>
    obtain ⟨halarm, hnext⟩ := Prod.mk.inj ((closeEach_keeps fun fd => kernelClose_alarm.keeps
      (· = (p.kernel.alarm, p.world.next))).exec_snd (s := p.world) rfl)
    have hsame : ∀ kernel : PosixKernel, kernel.signalExec.alarm = kernel.alarm := fun _ => by
      simp only [PosixKernel.alarm, PosixKernel.signalExec]
    refine h.other ?_ (le_of_eq hnext.symm)
    rw [World.setKernel_self, hsame]
    exact halarm

end

end Waste.Kernel
