import Waste.Kernel.Files

/-!
# Signals and the wait record

The signal state of a kernel, the alarm, the signals that wait at a terminal, and the
one wait record that the blocking calls share.
-/

namespace Waste.Kernel

open StateExcept

/-! ## Raising and finding signals -/

/-- Signals whose default is to do nothing. -/
def defaultIgnored (signal : Nat) : Bool :=
  signal = sigchld || signal = sigcont || signal = sigurg || signal = sigwinch

variable (kernel : PosixKernel)

/-- `posix_kernel_signal_raise`. -/
def PosixKernel.signalRaise (signal : Nat) : Except Errno Unit × PosixKernel :=
  if !signalValid signal then (.error .einval, kernel)
  else
    match kernel.signalDisposition signal with
    | .ignore => (.ok (), kernel)
    | .default =>
      if defaultIgnored signal then (.ok (), kernel)
      else if 19 ≤ signal ∧ signal ≤ 22 then (.error .enosys, kernel)
      else (.ok (), { kernel with pendingSignals := signalBitSet kernel.pendingSignals signal })
    | .handler =>
      (.ok (), { kernel with pendingSignals := signalBitSet kernel.pendingSignals signal })

theorem signalRaise_cases (signal : Nat) :
    (kernel.signalRaise signal).2 = kernel ∨ (kernel.signalRaise signal).2 =
      { kernel with pendingSignals := signalBitSet kernel.pendingSignals signal } := by
  unfold PosixKernel.signalRaise
  split
  · exact .inl rfl
  split
  · exact .inl rfl
  · split
    · exact .inl rfl
    split
    · exact .inl rfl
    · exact .inr rfl
  · exact .inr rfl

/-- What signals and waits do not change in a kernel. -/
def PosixKernel.settings : (Fin fdMax → Option FdEntry) × (Nat → Disposition) × (Nat → SigSet) :=
  (kernel.fds, kernel.signalDisposition, kernel.signalActionMasks)

theorem signalRaise_settings {kernel : PosixKernel} {signal : Nat} :
    (kernel.signalRaise signal).2.settings = kernel.settings := by
  rcases signalRaise_cases kernel signal with h | h <;> rw [h]
  rfl

def PosixKernel.firstUnmaskedPending : Option Nat :=
  signals.find? fun signal =>
    signalBitTest kernel.pendingSignals signal && !signalBitTest kernel.signalMask signal

/-- `posix_kernel_alarm_poll`. -/
def alarmPoll (k : Nat) (w : World) : World :=
  let kernel := w.kernel k
  if !kernel.alarmActive || !kernel.hasClock then w
  else
    let (now, w) := clockNow w
    if now < kernel.alarmDeadlineNs then w
    else w.setKernel k fun kernel => ({ kernel with alarmActive := false }.signalRaise sigalrm).2

/-- The terminal behind a descriptor, if the kernel is in its foreground. -/
def foregroundTerminal (w : World) (k : Nat) (fd : Fin fdMax) : Option Nat :=
  let kernel := w.kernel k
  (kernel.fds fd).bind fun entry =>
    match (w.ofd entry.ofd).kind with
    | .terminal t =>
      if t.controllingSessionId = kernel.sessionId ∧ t.foregroundPgid = kernel.processGroupId then
        some entry.ofd
      else none
    | _ => none

def Ofd.mapTerminal (f : Terminal → Terminal) (ofd : Ofd) : Ofd :=
  match ofd.kind with
  | .terminal t => { ofd with kind := .terminal (f t) }
  | .stream t => { ofd with kind := .stream (f t) }
  | _ => ofd

def Ofd.terminalPending (ofd : Ofd) : SigSet :=
  match ofd.kind with
  | .terminal t => t.pendingSignals
  | _ => 0

/-- One turn of the inner loop of `route_terminal_signals`. -/
def routeSignal (k o : Nat) (w : World) (signal : Nat) : World :=
  if signalBitTest (w.ofd o).terminalPending signal then
    let w := w.setOfd o (·.mapTerminal fun t =>
      { t with pendingSignals := signalBitClear t.pendingSignals signal })
    w.setKernel k fun kernel => (kernel.signalRaise signal).2
  else w

def routeTerminalSignals (k : Nat) (w : World) : World :=
  let kernel := w.kernel k
  if kernel.processGroupId ≤ 0 ∨ !kernel.hasControllingTerminal then w
  else
    match allFds.findSome? (foregroundTerminal w k) with
    | none => w
    | some o => signals.foldl (routeSignal k o) w

/-- The two sources of signals that a call looks at before it checks for one. -/
def pollSignals (k : Nat) (w : World) : World := routeTerminalSignals k (alarmPoll k w)

/-! ## The wait record -/

/-- The kernel without its wait: a mask that `pselect` has installed is taken back. -/
def PosixKernel.clearWait : PosixKernel :=
  { kernel with
    signalMask := if kernel.wait.hasSignalMask then kernel.wait.savedMask else kernel.signalMask
    wait := { kernel.wait with
      lockFile := none, active := false, readMinimum := 0, hasSignalMask := false } }

/-- `posix_kernel_cancel_wait`. -/
def cancelWait (k : Nat) (w : World) : World :=
  let kernel := w.kernel k
  let w :=
    if (w.owner kernel.lockOwner).waitingKernel = some k then
      w.setOwner kernel.lockOwner fun owner => { owner with waitingKernel := none }
    else w
  let w := fileRelease kernel.wait.lockFile w
  w.setKernel k (·.clearWait)

/-- Take a pending signal as the one that interrupts. -/
def deliver (k signal : Nat) (w : World) : World :=
  w.setKernel k fun kernel =>
    { kernel with
      pendingSignals := signalBitClear kernel.pendingSignals signal
      deliveredSignal := signal }

/-- `posix_kernel_signal_interrupt`; the answer is whether it is `-EINTR`. -/
def signalInterrupt (k : Nat) (w : World) : Bool × World :=
  let w := pollSignals k w
  match (w.kernel k).firstUnmaskedPending with
  | none => (false, w)
  | some signal => (true, cancelWait k (deliver k signal w))

/-- The check of a call that is about to block. -/
def interruptible (k : Nat) : KernelM Unit := do
  let (interrupted, w) := signalInterrupt k (← get)
  set w
  if interrupted then throw .eintr

theorem exec_interruptible {k : Nat} {w : World}
    (h : ((pollSignals k w).kernel k).firstUnmaskedPending = none) :
    exec (interruptible k) w = (.ok (), pollSignals k w) := by
  have hinterrupt : signalInterrupt k w = (false, pollSignals k w) := by
    unfold signalInterrupt
    dsimp only
    rw [h]
  unfold interruptible
  simp only [exec_bind, exec_get, hinterrupt, exec_set]
  rfl

theorem exec_interrupted {k signal : Nat} {w : World}
    (h : ((pollSignals k w).kernel k).firstUnmaskedPending = some signal) :
    exec (interruptible k) w =
      (.error .eintr, cancelWait k (deliver k signal (pollSignals k w))) := by
  have hinterrupt : signalInterrupt k w =
      (true, cancelWait k (deliver k signal (pollSignals k w))) := by
    unfold signalInterrupt
    dsimp only
    rw [h]
  unfold interruptible
  simp only [exec_bind, exec_get, hinterrupt, exec_set]
  rfl

/-! ## Readiness -/

/-- The bits of a `POSIX_POLL_*` mask. -/
structure Readiness where
  pollIn : Bool
  pollOut : Bool
  pollErr : Bool
  pollHup : Bool
deriving DecidableEq, Repr

def Terminal.canonical (t : Terminal) : Bool := t.termios.lflag &&& lflagIcanon ≠ 0

def newline : UInt8 := 10

/-- `posix_kernel_query_readiness` for the description of an open descriptor. -/
def readiness (w : World) (ofd : Ofd) : Readiness :=
  match ofd.kind with
  | .stream t =>
    { pollIn := 0 ≤ ofd.inputHandle && (!t.input.isEmpty || t.eof)
      pollHup := t.eof
      pollOut := 0 ≤ ofd.outputHandle
      pollErr := false }
  | .terminal t =>
    { pollIn := (t.eof || !t.input.isEmpty) && (!t.canonical || t.input.contains newline)
      pollHup := t.eof
      pollOut := ofd.streamMode = 0 || 0 ≤ ofd.outputHandle
      pollErr := false }
  | .pipeRead p =>
    let pipe := w.pipe p
    { pollIn := !pipe.buffer.isEmpty || pipe.writers = 0
      pollHup := pipe.writers = 0
      pollOut := false
      pollErr := false }
  | .pipeWrite p =>
    let pipe := w.pipe p
    { pollIn := false
      pollHup := false
      pollOut := pipe.readers ≠ 0 && pipe.buffer.length < pipe.capacity
      pollErr := pipe.readers = 0 }
  | .regular r =>
    { pollIn := r.readable && r.offset < (w.file r.file).data.length
      pollOut := r.writable
      pollErr := false
      pollHup := false }
  | .directory _ _ => { pollIn := true, pollOut := false, pollErr := false, pollHup := false }
  | .null _ readable writable =>
    { pollIn := readable, pollOut := writable, pollErr := false, pollHup := false }

/-- The threshold of a terminal read: less input than `minimum` does not count. -/
def Readiness.threshold (r : Readiness) (ofd : Ofd) (minimum : Nat) : Readiness :=
  match ofd.kind with
  | .terminal t =>
    if minimum ≠ 0 ∧ !t.eof ∧ t.input.length < minimum then { r with pollIn := false } else r
  | _ => r

/-- One descriptor of `wait_sets_ready`. -/
def WaitRecord.fdReady (wait : WaitRecord) (w : World) (k : Nat) (fd : Fin fdMax) : Bool :=
  match (w.kernel k).fds fd with
  | none => false
  | some entry =>
    let ofd := w.ofd entry.ofd
    let r := (readiness w ofd).threshold ofd wait.readMinimum
    (fdIsset fd wait.readfds && (r.pollIn || r.pollHup)) ||
      (fdIsset fd wait.writefds && r.pollOut) || (fdIsset fd wait.exceptfds && r.pollErr)

def waitSetsReady (w : World) (k : Nat) (wait : WaitRecord) : Bool :=
  allFds.any fun fd => fd < wait.nfds && wait.fdReady w k fd

inductive WaitStatus
  | blocked | ready | timeout | signal
deriving DecidableEq, Repr

/-- The state of the descriptor that a lock waits on: is it still open on the file? -/
def lockDescriptorOpen (w : World) (k : Nat) (fd : Int) (f : Nat) : Bool :=
  match w.entry k fd with
  | none => false
  | some entry =>
    match (w.ofd entry.ofd).kind with
    | .regular r => r.file = f
    | _ => false

/-- `posix_kernel_wait_poll`. -/
def waitPoll (k : Nat) (w : World) : WaitStatus × World :=
  if !(w.kernel k).wait.active then (.blocked, w)
  else
    let w := pollSignals k w
    let kernel := w.kernel k
    if kernel.firstUnmaskedPending.isSome then (.signal, w)
    else
      match kernel.wait.lockFile with
      | some f =>
        if !lockDescriptorOpen w k kernel.wait.lockFd f then (.ready, w)
        else if (recordConflict (w.file f).locks kernel.lockOwner kernel.wait.lockType
            kernel.wait.lockFirst kernel.wait.lockLast).isSome then (.blocked, w)
        else (.ready, w)
      | none =>
        if waitSetsReady w k kernel.wait then (.ready, w)
        else if kernel.wait.hasDeadline && kernel.hasClock then
          let (now, w) := clockNow w
          if kernel.wait.deadlineNs ≤ now then (.timeout, w) else (.blocked, w)
        else (.blocked, w)

theorem waitPoll_world (k : Nat) (w : World) :
    (waitPoll k w).2 = w ∨ (waitPoll k w).2 = pollSignals k w ∨
      (waitPoll k w).2 = (clockNow (pollSignals k w)).2 := by
  unfold waitPoll
  split
  · exact .inl rfl
  right
  dsimp only
  split
  · exact .inl rfl
  split
  · split
    · exact .inl rfl
    split <;> exact .inl rfl
  · split
    · exact .inl rfl
    split
    · split <;> exact .inr rfl
    · exact .inl rfl

/-- A generation number is never zero. -/
def WaitRecord.nextGeneration (wait : WaitRecord) : Nat :=
  if (wait.generation + 1) % 2 ^ 64 = 0 then 1 else (wait.generation + 1) % 2 ^ 64

/-- The wait record of a blocked read. -/
def registerRead (k : Nat) (fd : Fin fdMax) (minimum : Nat) (w : World) : World :=
  w.setKernel k fun kernel =>
    { kernel with wait := { kernel.wait with
        readfds := fdSetBit fd 0, writefds := 0, exceptfds := 0
        nfds := fd + 1
        readMinimum := minimum
        hasDeadline := false
        hasSignalMask := false
        generation := kernel.wait.nextGeneration
        active := true } }

def kernelWaitRead (k : Nat) (fd : Int) (minimum : Nat) : KernelM Unit :=
  match fdValid fd with
  | none => throw .einval
  | some i => do
    let w ← get
    match (w.kernel k).fds i with
    | none => throw .ebadf
    | some entry =>
      let ofd := w.ofd entry.ofd
      let r := (readiness w ofd).threshold ofd minimum
      if r.pollIn || r.pollHup then modify (cancelWait k)
      else if (w.kernel k).wait.active then throw .eagain
      else do
        modify (registerRead k i minimum)
        throw .eagain

/-- `posix_kernel_wait_read`. -/
def waitRead (k : Nat) (fd : Int) : KernelM Unit := kernelWaitRead k fd 0

end Waste.Kernel
