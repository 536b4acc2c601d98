import Waste.Kernel.Waiting
import Waste.Kernel.Pipes

/-!
# The wait record over whole runs

Five calls share one wait record.  A process that is answered `EAGAIN` on a blocking
descriptor makes the same call again until the answer is another; `WaitReach` are the runs
with that discipline, with anything that leaves the record alone in between.

The record is inactive whenever such a call has returned, in every run in which no call
`Leaks`: a retry that finds the end of a file, a reader that has gone, or a descriptor that
was closed or reopened returns before it has looked at the record.
-/

namespace Waste.Kernel

open StateExcept Bool Option

variable {fd : Int} {mask : Option SigSet} {sets : FdSets}

/-! ## Calls that can block -/

inductive BlockCall
  | read (fd count : Int)
  | write (fd : Int) (data : List UInt8)
  | select (nfds : Int) (sets : FdSets) (timeout : Option Duration)
  | pselect (nfds : Int) (sets : FdSets) (timeout : Option Duration) (mask : Option SigSet)
  | setlkw (fd : Int) (lock : Flock)

/-- The error that a program ends with, if any, and the world afterwards. -/
def outcome {α : Type} (c : KernelM α) (w : World) : Option Errno × World :=
  let answer := match (exec c w).1 with
    | .ok _ => none
    | .error e => some e
  (answer, (exec c w).2)

theorem outcome_error {α : Type} {c : KernelM α} {w : World} {e : Errno} :
    (outcome c w).1 = some e ↔ (exec c w).1 = .error e := by
  unfold outcome
  cases (exec c w).1 <;> simp

/-- Is the descriptor open with `O_NONBLOCK`? -/
def World.nonblocking (w : World) (k : Nat) (fd : Int) : Bool :=
  match w.entry k fd with
  | none => false
  | some entry => (w.status (w.ofd entry.ofd).status).flags &&& oNonblock ≠ 0

namespace BlockCall

/-- The call, made by the kernel `k`. -/
def perform (k : Nat) (w : World) : BlockCall → Option Errno × World
  | read fd count => outcome (kernelRead k fd count) w
  | write fd data => outcome (kernelWrite k fd data) w
  | select nfds sets timeout => outcome (kernelSelect k nfds sets timeout) w
  | pselect nfds sets timeout mask => outcome (kernelPselect k nfds sets timeout mask) w
  | setlkw fd lock => outcome (kernelRecordLock k fd .setlkw lock) w

def nonblocking (k : Nat) (w : World) : BlockCall → Bool
  | read fd _ => w.nonblocking k fd
  | write fd _ => w.nonblocking k fd
  | _ => false

/-- The call answers `EAGAIN` on a blocking descriptor. -/
def Waits (k : Nat) (w : World) (c : BlockCall) : Prop :=
  (c.perform k w).1 = some .eagain ∧ c.nonblocking k w = false

/-- The call returns before it has looked at the wait record. -/
def AtOnce (k : Nat) (w : World) : BlockCall → Prop
  | read fd count => fdValid fd = none ∨ count ≤ 0 ∨ w.entry k fd = none ∨
      ∃ entry, w.entry k fd = some entry ∧
        ((w.ofd entry.ofd).blocksRead = false ∨ (w.ofd entry.ofd).atEnd w (w.nonblocking k fd))
  | write fd data => fdValid fd = none ∨ data = [] ∨ w.entry k fd = none ∨
      ∃ entry, w.entry k fd = some entry ∧ (w.ofd entry.ofd).writesAtOnce w
  | setlkw fd _ => LockRefused w k fd
  | select _ _ _ => False
  | pselect _ _ _ _ => False

/-- The call is a retry, and it returns before it has looked at the wait record. -/
def Leaks (k : Nat) (w : World) (c : BlockCall) : Prop :=
  (w.kernel k).wait.active = true ∧ c.AtOnce k w

def Awaits (wait : WaitRecord) : BlockCall → Prop
  | read fd _ => ∃ i, fdValid fd = some i ∧ wait.nfds = i + 1 ∧ wait.readfds = fdSetBit i 0 ∧
      wait.writefds = 0 ∧ wait.exceptfds = 0 ∧ wait.lockFile = none ∧ wait.hasSignalMask = false
  | write fd _ => ∃ i : Fin fdMax, fdValid fd = some i ∧ wait.On (i + 1) (writeSets i) ∧
      wait.lockFile = none ∧ wait.hasSignalMask = false
  | select nfds sets _ => wait.On nfds.toNat sets ∧ wait.lockFile = none ∧
    wait.hasSignalMask = false
  | pselect nfds sets _ mask => wait.On nfds.toNat sets ∧ wait.lockFile = none ∧
      wait.hasSignalMask = mask.isSome
  | setlkw _ _ => wait.nfds = 0 ∧ wait.lockFile.isSome = true ∧ wait.hasSignalMask = false

/-- The deadline of a `select` that was called first in `first`. -/
def deadline (k : Nat) (first : World) : BlockCall → Option Nat
  | select _ _ timeout => ownDeadline first k 1000 timeout
  | pselect _ _ timeout _ => ownDeadline first k 1 timeout
  | _ => none

/-- The record has the deadline of this call and no other.  A read has none, or the one that
the terminal sets. -/
def Until (k : Nat) (first : World) (wait : WaitRecord) : BlockCall → Prop
  | read fd _ => wait.hasDeadline = true →
      ∃ entry, first.entry k fd = some entry ∧ (first.ofd entry.ofd).timer first wait.deadlineNs
  | c => wait.hasDeadline = (c.deadline k first).isSome ∧
      ∀ d, c.deadline k first = some d → wait.deadlineNs = d

end BlockCall

/-! ## Runs -/

/-- A call that was answered `EAGAIN` and has to be made again; `first` is the world in which
it was made for the first time. -/
structure Pending where
  call : BlockCall
  first : World

/-- The world in which the call `c` was first made, if it is made now in `w`. -/
def firstWorld (pending : Option Pending) (w : World) : World :=
  match pending with
  | none => w
  | some q => q.first

open Classical in
noncomputable def pendingAfter (k : Nat) (w : World) (pending : Option Pending) (c : BlockCall) :
    Option Pending :=
  if c.Waits k w ∧ ((c.perform k w).2.kernel k).wait.active = true then
    some { call := c, first := firstWorld pending w }
  else none

/-- Only the pending call may be made. -/
def Retries (pending : Option Pending) (c : BlockCall) : Prop :=
  ∀ q, pending = some q → q.call = c

/-- The runs of one kernel: anything that leaves its wait record alone, and calls that can
block, the same one again while it is answered `EAGAIN`.  No call leaks. -/
inductive WaitReach (k : Nat) (w0 : World) : World → Option Pending → Prop
  | start : WaitReach k w0 w0 none
  | other {w w' : World} {pending : Option Pending} (h : WaitReach k w0 w pending)
    (hwait : (w'.kernel k).wait = (w.kernel k).wait) : WaitReach k w0 w' pending
  | call {w : World} {pending : Option Pending} {c : BlockCall} (h : WaitReach k w0 w pending)
    (hretry : Retries pending c) (hleaks : ¬c.Leaks k w) :
    WaitReach k w0 (c.perform k w).2 (pendingAfter k w pending c)

/-- The record is cleared, or it is that of the pending call. -/
def Settled (k : Nat) (w : World) : Option Pending → Prop
  | none => (w.kernel k).wait.Cleared
  | some q => (w.kernel k).wait.active = true ∧ q.call.Awaits (w.kernel k).wait ∧
      ((∀ fd count, q.call ≠ .read fd count) → q.call.Until k q.first (w.kernel k).wait)

variable {k : Nat} {w : World} {pending : Option Pending} {c : BlockCall}

theorem Settled.cleared (h : Settled k w pending) (hidle : (w.kernel k).wait.active = false) :
    (w.kernel k).wait.Cleared := by
  cases pending with
  | none => exact h
  | some q => exact absurd (h.1.symm.trans hidle) (by decide)

/-- An active record is that of the call which is made again. -/
theorem Settled.awaits (h : Settled k w pending) (hretry : Retries pending c)
    (hactive : (w.kernel k).wait.active = true) : c.Awaits (w.kernel k).wait ∧
      ((∀ fd count, c ≠ .read fd count) → c.Until k (firstWorld pending w) (w.kernel k).wait) := by
  cases pending with
  | none => exact absurd (hactive.symm.trans h.active) (by decide)
  | some q =>
    obtain rfl := hretry q rfl
    exact h.2

theorem Settled.first (h : Settled k w pending) (hidle : (w.kernel k).wait.active = false) :
    firstWorld pending w = w := by
  cases pending with
  | none => rfl
  | some q => exact absurd (h.1.symm.trans hidle) (by decide)

/-! ## One call -/

/-- What a call that does not leak does to the record. -/
inductive CallEffect (k : Nat) (w first : World) (c : BlockCall) : Prop
  | settled (hcleared : ((c.perform k w).2.kernel k).wait.Cleared)
    (hended : (w.kernel k).wait.active = false → ¬c.Waits k w)
  | waits (hwaits : c.Waits k w) (hactive : ((c.perform k w).2.kernel k).wait.active = true)
    (hawaits : c.Awaits ((c.perform k w).2.kernel k).wait)
    (huntil : ((w.kernel k).wait.active = false ∨ ∀ fd count, c ≠ .read fd count) →
      c.Until k first ((c.perform k w).2.kernel k).wait)

/-- The call returned before it looked at the record. -/
structure ReturnedAtOnce (k : Nat) (w : World) (c : BlockCall) : Prop where
  atOnce : c.AtOnce k w
  wait : ((c.perform k w).2.kernel k).wait = (w.kernel k).wait
  answer : (c.perform k w).1 ≠ some .eagain

section Step

variable (hinv : Settled k w pending) (hleaks : ¬c.Leaks k w)
include hinv hleaks

/-- A call that returns before it has looked at the record is not a retry. -/
theorem cleared_of_atOnce (h : (w.kernel k).wait.active = true → c.AtOnce k w) :
    (w.kernel k).wait.Cleared := by
  refine hinv.cleared ?_
  cases hactive : (w.kernel k).wait.active with
  | false => rfl
  | true => exact absurd ⟨hactive, h hactive⟩ hleaks

theorem CallEffect.atOnce (h : ReturnedAtOnce k w c) : CallEffect k w (firstWorld pending w) c := by
  refine .settled ?_ fun _ hwaits => h.answer hwaits.1
  rw [h.wait]
  exact cleared_of_atOnce hinv hleaks fun _ => h.atOnce

theorem BlockEffect.callEffect {α : Type} {run : KernelM α} {ended kept : Except Errno α → Prop}
    {waits : PosixKernel → Prop}
    (h : BlockEffect k (w.kernel k).wait ended kept waits (exec run w).1 (exec run w).2)
    (hperform : c.perform k w = outcome run w)
    (hended : (w.kernel k).wait.active = false → c.nonblocking k w = false →
      ¬ended (.error .eagain))
    (hkept : ∀ answer, kept answer → (w.kernel k).wait.active = true → c.AtOnce k w)
    (hwaits : ∀ kernel, waits kernel → c.nonblocking k w = false ∧ kernel.wait.active = true ∧
      c.Awaits kernel.wait ∧ (((w.kernel k).wait.active = false ∨ ∀ fd count, c ≠ .read fd count) →
        c.Until k (firstWorld pending w) kernel.wait)) :
    CallEffect k w (firstWorld pending w) c := by
  have hworld : (c.perform k w).2 = (exec run w).2 := by
    rw [hperform]
    rfl
  have hanswer : (c.perform k w).1 = some .eagain ↔ (exec run w).1 = .error .eagain := by
    rw [hperform]
    exact outcome_error
  generalize exec run w = result at h hworld hanswer
  obtain ⟨answer, w'⟩ := result
  obtain rfl : (c.perform k w).2 = w' := hworld
  cases h with
  | ended hend hcleared =>
    refine .settled hcleared fun hidle hwaits => hended hidle hwaits.2 ?_
    exact (hanswer.mp hwaits.1) ▸ hend
  | kept hstays hother hwait =>
    refine .settled ?_ fun _ hwaits => hother (hanswer.mp hwaits.1)
    rw [hwait]
    exact cleared_of_atOnce hinv hleaks (hkept answer hstays)
  | waits h =>
    obtain ⟨hblock, hactive, hawaits, huntil⟩ := hwaits _ h
    exact .waits ⟨hanswer.mpr rfl, hblock⟩ hactive hawaits huntil

end Step

theorem ReturnedAtOnce.of_exec {α : Type} {run : KernelM α} {answer : Except Errno α}
    (h : c.AtOnce k w) (hperform : c.perform k w = outcome run w) (hrun : exec run w = (answer, w))
    (hanswer : answer ≠ .error .eagain) : ReturnedAtOnce k w c := by
  refine ⟨h, ?_, fun heagain => ?_⟩
  · rw [hperform, outcome, hrun]
  · rw [hperform, outcome_error, hrun] at heagain
    exact hanswer heagain

theorem kernelRead_effect (k : Nat) (fd count : Int) (w : World) :
    ReturnedAtOnce k w (.read fd count) ∨ ∃ i entry, fdValid fd = some i ∧
      w.entry k fd = some entry ∧ ReadsOfd k i (w.nonblocking k fd) (w.ofd entry.ofd)
        (kernelRead k fd count) w := by
  by_cases hrefused : count ≤ 0 ∨ w.entry k fd = none
  · obtain ⟨answer, hrun, hanswer, -⟩ := kernelRead_refused hrefused
    refine .inl (.of_exec ?_ rfl hrun hanswer)
    exact hrefused.elim (fun h => .inr (.inl h)) fun h => .inr (.inr (.inl h))
  obtain ⟨-, entry, hentry⟩ := (not_or.mp hrefused).imp_right ne_none_iff_exists'.mp
  obtain ⟨i, hfd, hopen⟩ := bind_eq_some_iff.mp hentry
  refine .inr ⟨i, entry, hfd, hentry, ?_⟩
  rw [ReadsOfd, Reads, kernelRead_open hfd hopen (by omega), World.nonblocking, hentry]
  exact readKind_reads hfd hopen rfl

theorem kernelWrite_effect (fd : Int) (data : List UInt8)
    (hsettled : (w.kernel k).wait.active = false → (w.kernel k).wait.Cleared) :
    ReturnedAtOnce k w (.write fd data) ∨ ∃ i entry, fdValid fd = some i ∧
      w.entry k fd = some entry ∧ Writes k i (w.nonblocking k fd) ((w.ofd entry.ofd).writesAtOnce w)
        (kernelWrite k fd data) w := by
  by_cases hrefused : data = [] ∨ w.entry k fd = none
  · obtain ⟨answer, hrun, hanswer, -⟩ := kernelWrite_refused hrefused
    refine .inl (.of_exec ?_ rfl hrun hanswer)
    exact hrefused.elim (fun h => .inr (.inl h)) fun h => .inr (.inr (.inl h))
  obtain ⟨hdata, entry, hentry⟩ := (not_or.mp hrefused).imp_right ne_none_iff_exists'.mp
  obtain ⟨i, hfd, hopen⟩ := bind_eq_some_iff.mp hentry
  refine .inr ⟨i, entry, hfd, hentry, ?_⟩
  rw [Writes, kernelWrite_open hfd hopen hdata, World.nonblocking, hentry]
  exact writeKind_writes hsettled hopen

section

variable (hinv : Settled k w pending)
include hinv

theorem read_effect {count : Int} (hretry : Retries pending (.read fd count))
    (hleaks : ¬(BlockCall.read fd count).Leaks k w) :
    CallEffect k w (firstWorld pending w) (.read fd count) := by
  rcases kernelRead_effect k fd count w with hreturned | ⟨i, entry, hfd, hentry, heffect⟩
  · exact .atOnce hinv hleaks hreturned
  refine heffect.callEffect hinv hleaks rfl (fun _ hblock hend => ?_) (fun _ hstays _ => ?_) ?_
  · exact absurd (hblock.symm.trans (hend rfl)) (by decide)
  · exact .inr (.inr (.inr ⟨entry, hentry, hstays⟩))
  rintro kernel ⟨hblock, h⟩
  refine ⟨hblock, h.active, ?_, fun hfirst => ?_⟩
  · -- the record is there already, or the read fills it in
    cases hactive : (w.kernel k).wait.active with
    | true =>
      obtain ⟨⟨j, hj, hnfds, hread, hwrite, hexcept, hfile, hmask⟩, -⟩ := hinv.awaits hretry hactive
      obtain ⟨hnfds', hread', hwrite', hexcept', hmask'⟩ := h.kept hactive
      exact ⟨j, hj, hnfds'.trans hnfds, hread'.trans hread, hwrite'.trans hwrite,
        hexcept'.trans hexcept, h.lockFile.trans hfile, hmask'.trans hmask⟩
    | false =>
      obtain ⟨hnfds, hread, hwrite, hexcept, hmask, -⟩ := h.own hactive
      exact ⟨i, hfd, hnfds, hread, hwrite, hexcept,
        h.lockFile.trans (hinv.cleared hactive).lockFile, hmask⟩
  · have hidle : (w.kernel k).wait.active = false := hfirst.resolve_right fun h => h fd count rfl
    obtain ⟨-, -, -, -, -, hdeadline⟩ := h.own hidle
    rw [hinv.first hidle]
    exact fun htimed => ⟨entry, hentry, hdeadline htimed⟩

omit hinv in
/-- The record of a `select` that waits is its own. -/
theorem SelectWait.record {nfds : Nat} {timeout : Timeout}
    {kernel kernel' : PosixKernel} (h : SelectWait nfds sets timeout mask kernel kernel')
    (deadline : Option Nat)
    (hidle : kernel.wait.active = false → kernel.wait.Cleared ∧ timeout.Until deadline)
    (hretry : kernel.wait.active = true → kernel.wait.lockFile = none ∧
      kernel.wait.hasSignalMask = mask.isSome ∧ kernel.wait.hasDeadline = deadline.isSome ∧
      ∀ d, deadline = some d → kernel.wait.deadlineNs = d) :
    kernel'.wait.lockFile = none ∧ kernel'.wait.hasSignalMask = mask.isSome ∧
      kernel'.wait.hasDeadline = deadline.isSome ∧ ∀ d, deadline = some d →
        kernel'.wait.deadlineNs = d := by
  have hmask : kernel.wait.hasSignalMask = false ∨ kernel.wait.hasSignalMask = mask.isSome →
      kernel'.wait.hasSignalMask = mask.isSome := by
    intro hbefore
    cases hm : mask with
    | none =>
      rw [(h.unmasked hm).1]
      rw [hm] at hbefore
      exact hbefore.elim id id
    | some m => exact (h.installed m hm).1
  obtain ⟨hhas, hns⟩ := h.deadline
  cases hactive : kernel.wait.active with
  | true =>
    obtain ⟨hfile, hmask0, hdeadline, hdeadlineNs⟩ := hretry hactive
    rw [if_pos hactive] at hhas hns
    exact ⟨h.lockFile.trans hfile, hmask (.inr hmask0), hhas.trans hdeadline,
      fun d hd => hns.trans (hdeadlineNs d hd)⟩
  | false =>
    obtain ⟨hcleared, huntil⟩ := hidle hactive
    rw [hactive, if_neg Bool.false_ne_true] at hhas hns
    exact ⟨h.lockFile.trans hcleared.lockFile, hmask (.inl hcleared.hasSignalMask),
      hhas.trans huntil.hasDeadline, fun d hd => hns.trans (huntil.deadlineNs d hd)⟩

theorem write_effect {data : List UInt8} (hretry : Retries pending (.write fd data))
    (hleaks : ¬(BlockCall.write fd data).Leaks k w) :
    CallEffect k w (firstWorld pending w) (.write fd data) := by
  rcases kernelWrite_effect fd data hinv.cleared with hreturned | ⟨i, entry, hfd, hentry, heffect⟩
  · exact .atOnce hinv hleaks hreturned
  refine heffect.callEffect hinv hleaks rfl (fun hidle hblock hend => ?_) (fun _ hstays _ => ?_) ?_
  · rcases hend rfl with h | h
    · exact absurd (hblock.symm.trans h) (by decide)
    · exact absurd (hidle.symm.trans h) (by decide)
  · exact .inr (.inr (.inr ⟨entry, hentry, hstays⟩))
  rintro kernel ⟨hblock, h⟩
  have hrecord := h.record none (fun hidle => ⟨hinv.cleared hidle, rfl, nofun⟩) (fun hactive => by
      obtain ⟨⟨j, -, -, hfile, hmask⟩, huntil⟩ := hinv.awaits hretry hactive
      obtain ⟨hhas, hns⟩ := huntil nofun
      exact ⟨hfile, hmask, hhas, hns⟩)
  obtain ⟨hfile, hmask, hhas, hns⟩ := hrecord
  exact ⟨hblock, h.active, ⟨i, hfd, h.on, hfile, hmask⟩, fun _ => ⟨hhas, hns⟩⟩

/-- `select` and `pselect`, for a call `c` that is one of them. -/
theorem selectWith_callEffect {units scale : Nat} {nfds : Int}
    {timeout : Option Duration} (hretry : Retries pending c) (hleaks : ¬c.Leaks k w)
    (hread : ∀ fd count, c ≠ .read fd count)
    (hperform : c.perform k w = outcome (selectWith k units scale nfds sets timeout mask) w)
    (hblock : c.nonblocking k w = false)
    (hawaits : ∀ wait, c.Awaits wait ↔ wait.On nfds.toNat sets ∧ wait.lockFile = none ∧
      wait.hasSignalMask = mask.isSome) (huntil : ∀ first wait, c.Until k first wait ↔
      wait.hasDeadline = (ownDeadline first k scale timeout).isSome ∧
        ∀ d, ownDeadline first k scale timeout = some d → wait.deadlineNs = d) :
    CallEffect k w (firstWorld pending w) c := by
  obtain ⟨time, htime, heffect⟩ :=
    selectWith_effect k units scale nfds sets timeout mask hinv.cleared
  refine heffect.block.callEffect hinv hleaks hperform (fun _ _ h => h rfl) (fun _ => False.elim) ?_
  intro kernel h
  obtain ⟨hfile, hmask, hdeadline⟩ := h.record (ownDeadline (firstWorld pending w) k scale timeout)
    (fun hidle => by
      rw [hinv.first hidle]
      exact ⟨hinv.cleared hidle, htime⟩)
    (fun hactive => by
      obtain ⟨hon, hown⟩ := hinv.awaits hretry hactive
      obtain ⟨-, hfile, hmask⟩ := (hawaits _).mp hon
      exact ⟨hfile, hmask, (huntil _ _).mp (hown hread)⟩)
  exact ⟨hblock, h.active, (hawaits _).mpr ⟨h.on, hfile, hmask⟩,
    fun _ => (huntil _ _).mpr hdeadline⟩

theorem setlkw_effect {lock : Flock} (hretry : Retries pending (.setlkw fd lock))
    (hleaks : ¬(BlockCall.setlkw fd lock).Leaks k w) :
    CallEffect k w (firstWorld pending w) (.setlkw fd lock) ∧
      ((BlockCall.setlkw fd lock).perform k w).1 ≠ some .ebusy := by
  have hforlock : (w.kernel k).wait.ForLock := fun hactive => (hinv.awaits hretry hactive).1.2.1
  have heffect : LocksWith .. := recordLock_locks k fd lock w
  constructor
  · refine heffect.callEffect hinv hleaks rfl (fun _ _ h => h.1 rfl) (fun _ h => (h hforlock).2) ?_
    intro kernel h
    refine ⟨rfl, h.active, ?_⟩
    cases hactive : (w.kernel k).wait.active with
    | true =>
      obtain ⟨hawaits, huntil⟩ := hinv.awaits hretry hactive
      rw [h.kept hactive]
      exact ⟨hawaits, fun _ => huntil nofun⟩
    | false =>
      obtain ⟨hnfds, hdeadline, hmask⟩ := h.own hactive
      exact ⟨⟨hnfds, h.lockFile, hmask⟩, fun _ => ⟨hdeadline, nofun⟩⟩
  · rw [Ne, show (BlockCall.setlkw fd lock).perform k w = outcome _ w from rfl, outcome_error]
    unfold LocksWith at heffect
    generalize (exec (kernelRecordLock k fd .setlkw lock) w).1 = answer at heffect
    cases heffect with
    | ended hanswer _ => exact hanswer.2
    | kept hstays _ _ => exact (hstays hforlock).1
    | waits _ => exact nofun

theorem call_effect (hretry : Retries pending c) (hleaks : ¬c.Leaks k w) :
    CallEffect k w (firstWorld pending w) c := by
  cases c with
  | read fd _ => exact read_effect hinv hretry hleaks
  | write fd _ => exact write_effect hinv hretry hleaks
  | select | pselect =>
    exact selectWith_callEffect hinv hretry hleaks nofun rfl rfl (fun _ => .rfl) (fun _ _ => .rfl)
  | setlkw fd _ => exact (setlkw_effect hinv hretry hleaks).1

/-! ## Whole runs -/

theorem Settled.call (hretry : Retries pending c) (hleaks : ¬c.Leaks k w) :
    Settled k (c.perform k w).2 (pendingAfter k w pending c) := by
  unfold pendingAfter
  cases call_effect hinv hretry hleaks with
  | settled hcleared _ =>
    rw [if_neg fun h => absurd (hcleared.active.symm.trans h.2) (by decide)]
    exact hcleared
  | waits hwaits hactive hawaits huntil =>
    rw [if_pos ⟨hwaits, hactive⟩]
    exact ⟨hactive, hawaits, fun hread => huntil (.inr hread)⟩

end

theorem WaitReach.settled {w0 : World} (hstart : (w0.kernel k).wait.Cleared)
    (h : WaitReach k w0 w pending) : Settled k w pending := by
  induction h with
  | start => exact hstart
  | @other w w' pending _ hwait ih =>
    cases pending with
    | none =>
      show (w'.kernel k).wait.Cleared
      rw [hwait]
      exact ih
    | some q =>
      show (w'.kernel k).wait.active = true ∧ q.call.Awaits (w'.kernel k).wait ∧
        ((∀ fd count, q.call ≠ .read fd count) → q.call.Until k q.first (w'.kernel k).wait)
      rw [hwait]
      exact ih
  | call _ hretry hleaks ih => exact ih.call hretry hleaks

/-- A retried `select` that waits on has looked at the clock before its deadline. -/
theorem Settled.clock {q : Pending} (hinv : Settled k w (some q)) {d : Nat}
    (hdeadline : q.call.deadline k q.first = some d) (hclock : (w.kernel k).hasClock = true)
    (hwaits : q.call.Waits k w) :
    ∃ n, w.reads ≤ n ∧ n < (q.call.perform k w).2.reads ∧ w.clock n < d := by
  obtain ⟨hactive, hawaits, huntil⟩ := hinv
  obtain ⟨c, first⟩ := q
  cases c with
  | read | write | setlkw => exact nomatch hdeadline
  | select | pselect =>
    obtain ⟨hhas, hns⟩ := huntil nofun
    obtain ⟨hon, hfile, -⟩ := hawaits
    rw [hdeadline] at hhas
    have hrun := selectWith_clock hactive hfile hhas hclock hon (outcome_error.mp hwaits.1)
    rw [hns d hdeadline] at hrun
    exact hrun

/-- In every run in which no call leaks: the record is inactive after every answer but the
`EAGAIN` of a blocking call; a call that begins to wait registers what it waits for and its
own deadline; a `select` that waits on has seen the clock before that deadline; and no
`F_SETLKW` is refused because of another wait. -/
theorem wait_record_lifecycle (k : Nat) (w0 : World) (hstart : (w0.kernel k).wait.Cleared)
    (w : World) (pending : Option Pending) (hreach : WaitReach k w0 w pending)
    (c : BlockCall) (hretry : Retries pending c) (hleaks : ¬c.Leaks k w) :
    (¬c.Waits k w → ((c.perform k w).2.kernel k).wait.active = false) ∧
    (pending = none → c.Waits k w →
      ((c.perform k w).2.kernel k).wait.active = true ∧
        c.Awaits ((c.perform k w).2.kernel k).wait ∧
        c.Until k w ((c.perform k w).2.kernel k).wait) ∧
    (∀ q d, pending = some q → c.deadline k q.first = some d → (w.kernel k).hasClock = true →
      c.Waits k w → ∃ n, w.reads ≤ n ∧ n < (c.perform k w).2.reads ∧ w.clock n < d) ∧
    (∀ fd lock, c = .setlkw fd lock → (c.perform k w).1 ≠ some .ebusy) := by
  have hinv := hreach.settled hstart
  refine ⟨fun hreturns => ?_, fun hnone hwaits => ?_, fun q d hq hdeadline hclock hwaits => ?_,
    fun fd lock hc => ?_⟩
  · cases call_effect hinv hretry hleaks with
    | settled hcleared _ => exact hcleared.active
    | waits hwaits _ _ _ => exact absurd hwaits hreturns
  · subst hnone
    have hidle : (w.kernel k).wait.active = false := hinv.active
    cases call_effect hinv hretry hleaks with
    | settled _ hended => exact absurd hwaits (hended hidle)
    | waits _ hactive hawaits huntil => exact ⟨hactive, hawaits, huntil (.inl hidle)⟩
  · subst hq
    obtain rfl := hretry q rfl
    exact hinv.clock hdeadline hclock hwaits
  · subst hc
    exact (setlkw_effect hinv hretry hleaks).2

/-- A world whose kernel has just opened a pipe. -/
def onePipe : World := runCalls [(0, .pipe)] World.initial

theorem wait_record_lifecycle_read :
    ((BlockCall.read 0 8).perform 0 onePipe).1 = some .eagain ∧
      (((BlockCall.read 0 8).perform 0 onePipe).2.kernel 0).wait.active = true ∧
      (BlockCall.read 0 8).Awaits (((BlockCall.read 0 8).perform 0 onePipe).2.kernel 0).wait := by
  have hcleared : (onePipe.kernel 0).wait.Cleared :=
    ⟨by decide +kernel, by decide +kernel, by decide +kernel⟩
  have hwaits : (BlockCall.read 0 8).Waits 0 onePipe := ⟨by decide +kernel, by decide +kernel⟩
  have hrun := wait_record_lifecycle 0 onePipe hcleared onePipe none .start (.read 0 8)
    (fun _ h => nomatch h) (fun h => absurd (hcleared.active.symm.trans h.1) (by decide))
  obtain ⟨hactive, hawaits, -⟩ := hrun.2.1 rfl hwaits
  exact ⟨hwaits.1, hactive, hawaits⟩

/-- Two kernels with a clock; the first holds the read end of a pipe, and the second both. -/
def sharedPipe : World :=
  runCalls [(0, .pipe), (0, .clone), (0, .close 1)]
    { World.initial with kernel := fun _ => { PosixKernel.initial with hasClock := true } }

/-- The same world after the first kernel was blocked in a read and the second closed the
write end. -/
def abandonedPipe : World := runCalls [(6, .close 1)] ((BlockCall.read 0 8).perform 0 sharedPipe).2

/-- The retry of the read returns 0 and leaves its record behind, and a `select` with a
timeout then waits without a deadline. -/
theorem wait_record_outlives_read :
    ((BlockCall.read 0 8).perform 0 sharedPipe).1 = some .eagain ∧
      ((BlockCall.read 0 8).perform 0 abandonedPipe).1 = none ∧
      (((BlockCall.read 0 8).perform 0 abandonedPipe).2.kernel 0).wait.active = true ∧
      ((BlockCall.select 0 ⟨none, none, none⟩ (some ⟨1, 0⟩)).perform 0
        ((BlockCall.read 0 8).perform 0 abandonedPipe).2).1 = some .eagain ∧
      (((BlockCall.select 0 ⟨none, none, none⟩ (some ⟨1, 0⟩)).perform 0
        ((BlockCall.read 0 8).perform 0 abandonedPipe).2).2.kernel 0).wait.hasDeadline = false := by
  decide +kernel

end Waste.Kernel
