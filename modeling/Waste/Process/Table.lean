import Mathlib

/-!
# The process table

The process table of `store.h` with the functions of `process.c` that create, end
and collect processes, and `guest_posix_waitpid_common` of `guest_posix.c` with
the libc wrapper of the timed call.

A slot of the table holds a process until a parent collects it.  What the table
asks of the rest of the engine (the kernel of a process, guest memory, the
allocator) is an argument of the step that asks, so a statement about all steps
covers every answer.  A step that only changes a capsule, such as installing a
handler or blocking on input, is `Op.capsule` with the change.

`history` records what the table did, newest first; no function reads it.
-/

namespace Waste.ProcessTable

/-! ## Constants -/

/-- `NATIVE_PROCESS_MAX`. -/
abbrev processMax : Nat := 16
def int32Max : Int := 2147483647
def signalMax : Int := 128

def esrch : Int := 3
def eintr : Int := 4
def echild : Int := 10
def eagain : Int := 11
def enomem : Int := 12
def efault : Int := 14
def ebusy : Int := 16
def einval : Int := 22
def enosys : Int := 38

abbrev Slot := Fin processMax

/-! ## Data -/

inductive RunState
  | runnable | browserBlocked | waitBlocked | exited
deriving DecidableEq, Repr

inductive Transition
  | none | exec | exit | wake
deriving DecidableEq, Repr

inductive ExecStatus
  | ok | format | unsupported | trap | exception | notFound | longjmp | exit | yield
  | interrupted | resource
deriving DecidableEq, Repr

/-- The part of a `native_process_handler` that ends a process.  `installed` is
`kind` other than `NATIVE_PROCESS_HANDLER_NONE`. -/
structure Handler where
  installed : Bool := false
  status : ExecStatus := .ok
  exitCode : Int := 0
deriving DecidableEq, Repr

/-- The scheduling half of a `native_process_capsule`. -/
structure Capsule where
  state : RunState := .runnable
  isApplication : Bool := false
  waitPid : Int := 0
  pendingTransition : Transition := .none
  pendingResult : Int := 0
  pendingResultValid : Bool := false
  handler : Handler := {}
deriving DecidableEq, Repr

structure Process where
  used : Bool := false
  pid : Int := 0
  ppid : Int := 0
  zombie : Bool := false
  exitStatus : Int := 0
  capsule : Capsule := {}
deriving DecidableEq, Repr

/-- What the table did: `parent` forked `child`; `pid` ended with a status;
`parent` took `child` out of the table; a `waitpid` of `caller` returned `pid`
with a status. -/
inductive Event
  | forked (parent child : Int)
  | exited (pid status : Int)
  | collected (parent child : Int)
  | returned (caller pid status : Int)
deriving DecidableEq, Repr

structure Store where
  processes : Slot → Process
  processCount : Int
  activePid : Int
  nextPid : Int
  lastWaitPid : Int
  lastWaitStatus : Int
  /-- The process limit of the resource budget, when there is one. -/
  processLimit : Option Int
  history : List Event

/-- The table that `native_store_init` leaves. -/
def init (processLimit : Option Int) : Store where
  processes := Function.update (fun _ => {}) 0 { used := true, pid := 1 }
  processCount := 1
  activePid := 1
  nextPid := 2
  lastWaitPid := 0
  lastWaitStatus := 0
  processLimit := processLimit
  history := []

variable (s : Store)

def Store.setProcess (i : Slot) (p : Process) : Store :=
  { s with processes := Function.update s.processes i p }

def Store.setCapsule (i : Slot) (c : Capsule) : Store :=
  s.setProcess i { s.processes i with capsule := c }

def Store.record (e : Event) : Store :=
  { s with history := e :: s.history }

def findProcess (pid : Int) : Option Slot :=
  if pid ≤ 0 then none
  else (List.finRange processMax).find? fun i =>
    (s.processes i).used && (s.processes i).pid == pid

def activeProcess : Option Slot :=
  findProcess s s.activePid

def setActiveProcess (pid : Int) : Int × Store :=
  match findProcess s pid with
  | none => (-echild, s)
  | some i =>
    if (s.processes i).zombie then (-echild, s)
    else (0, { s with activePid := pid }.setCapsule i
      { (s.processes i).capsule with state := .runnable })

/-! ## Fork -/

/-- What fork asks for: a clone of the parent's kernel, a lock owner for the new
pid, and a clone of the parent's capsule. -/
structure ForkAnswers where
  kernel : Bool
  lockPid : Bool
  capsule : Bool
deriving DecidableEq, Repr

/-- The fields of `native_process_capsule_clone` that the table reads. -/
def cloneCapsule (source : Capsule) : Capsule where
  state := .runnable
  isApplication := source.isApplication
  pendingResult := source.pendingResult
  pendingResultValid := source.pendingResultValid
  handler := source.handler

def overLimit : Bool :=
  match s.processLimit with
  | none => false
  | some limit => decide (limit ≤ s.processCount)

def freeSlot : Option Slot :=
  (List.finRange processMax).find? fun i => !(s.processes i).used

def forkPid : Int :=
  if s.nextPid ≤ 0 then 2 else s.nextPid

def advancePid : Store :=
  { s with nextPid := if forkPid s = int32Max then -1 else forkPid s + 1 }

/-- The table with the child of `parent` in `slot`. -/
def addChild (parent slot : Slot) : Store :=
  let child : Process :=
    { used := true, pid := forkPid s, ppid := (s.processes parent).pid,
      capsule := cloneCapsule (s.processes parent).capsule }
  { ((advancePid s).setProcess slot child).record
      (.forked (s.processes parent).pid (forkPid s)) with
    processCount := s.processCount + 1 }

def forkProcess (answers : ForkAnswers) : Int × Store :=
  match activeProcess s with
  | none => (-efault, s)
  | some parent =>
    if overLimit s then (-enomem, s)
    else match freeSlot s with
      | none => (-enomem, s)
      | some slot =>
        if !answers.kernel then (-enomem, s)
        else if !answers.lockPid then (-enomem, { s with nextPid := forkPid s })
        else if !answers.capsule then
          -- The slot is cleared again, but the pid stays spent.
          (-enomem, (advancePid s).setProcess slot {})
        else (0, addChild s parent slot)

/-! ## The ways a process ends -/

/-- The assignments that every ending makes. -/
def Process.ended (p : Process) (status : Int) : Process :=
  { p with
    exitStatus := status
    zombie := true
    capsule := { p.capsule with state := .exited, pendingTransition := .exit } }

def recordExit (i : Slot) (status : Int) : Store :=
  (s.setProcess i ((s.processes i).ended status)).record (.exited (s.processes i).pid status)

def exitProcess (status : Int) : Int × Store :=
  match activeProcess s with
  | none => (-einval, s)
  | some i =>
    if (s.processes i).pid = 1 then (-einval, s)
    else if (s.processes i).zombie then (0, s)
    else (0, recordExit s i (status % 256 * 256))

inductive SignalDisposition
  | default | ignore | handler
deriving DecidableEq, Repr

/-- What a signal asks of the kernel of the process it is sent to. -/
structure SignalAnswers where
  raised : Int
  disposition : Option SignalDisposition
  defaultPending : Int
deriving DecidableEq, Repr

def signalProcess (pid signal : Int) (answers : SignalAnswers) : Int × Store :=
  if signal < 0 ∨ signal > signalMax then (-einval, s)
  else match findProcess s pid with
    | none => (-esrch, s)
    | some i =>
      if signal = 0 then (0, s)
      else if (s.processes i).zombie then (-esrch, s)
      else if answers.raised ≠ 0 then (answers.raised, s)
      else if answers.disposition ≠ some .default ∨ answers.defaultPending ≠ signal ∨
          (pid = s.activePid ∧ (s.processes i).capsule.isApplication) then (0, s)
      else (0, recordExit s i (signal % 128))

/-- The loop of `native_store_signal_process_group` and of the terminal half of
`native_store_signal_foreground`: `member` says which kernels are in the group. -/
def signalMembers (member : Slot → Bool) (signal : Int) (answers : Slot → SignalAnswers) :
    List Slot → Int × Store → Int × Store
  | [], r => r
  | i :: rest, (delivered, s) =>
    if !(s.processes i).used || ((s.processes i).zombie && signal != 0) || !member i then
      signalMembers member signal answers rest (delivered, s)
    else
      let r := signalProcess s (s.processes i).pid signal (answers i)
      signalMembers member signal answers rest (if r.1 = 0 then delivered + 1 else delivered, r.2)

def signalProcessGroup (pgid signal : Int) (member : Slot → Bool)
    (answers : Slot → SignalAnswers) : Int × Store :=
  if pgid ≤ 0 ∨ signal < 0 ∨ signal > signalMax then (-einval, s)
  else signalMembers member signal answers (List.finRange processMax) (0, s)

/-- `terminal` is the group of the controlling terminal, when a process has one
open. -/
def signalForeground (signal : Int) (terminal : Option (Slot → Bool))
    (answers : Slot → SignalAnswers) : Int × Store :=
  match terminal with
  | some member =>
    if signal < 0 ∨ signal > signalMax then (-einval, s)
    else signalMembers member signal answers (List.finRange processMax) (0, s)
  | none =>
    match activeProcess s with
    | none => signalProcess s s.activePid signal ⟨0, none, 0⟩
    | some i => signalProcess s s.activePid signal (answers i)

def terminateProcess (signal : Int) : Int × Store :=
  match activeProcess s with
  | none => (-einval, s)
  | some i =>
    if signal ≤ 0 ∨ signal > signalMax then (-einval, s)
    else (0, recordExit s i (signal % 128))

/-! ## Handlers -/

def handlerDefaultExitCode (status : ExecStatus) (explicitExitCode : Int) : Int :=
  match status with
  | .ok => 0
  | .exit => explicitExitCode
  | .format | .unsupported | .notFound => 126
  | _ => 127

/-- The capsule of a handler that has answered `result`. -/
def answeredCapsule (c : Capsule) (result : Int) : Capsule :=
  { c with pendingResult := result, pendingResultValid := true, handler := {} }

def completeProcessHandler (exitCode : Int) : Int × Store :=
  match activeProcess s with
  | none => (-einval, s)
  | some i =>
    let p := s.processes i
    if p.pid = 1 ∨ p.zombie ∨ exitCode < 0 ∨ exitCode > 255 ∨
        p.capsule.pendingResultValid then (-einval, s)
    else if !p.capsule.handler.installed then (-einval, s)
    else if p.capsule.state ≠ .runnable then (-ebusy, s)
    else exitProcess (s.setCapsule i (answeredCapsule p.capsule exitCode)) exitCode

def completeProcessHandlerDefault (status : ExecStatus) : Int × Store :=
  match activeProcess s with
  | none => (-einval, s)
  | some i =>
    let handler := (s.processes i).capsule.handler
    if !handler.installed then (-einval, s)
    else completeProcessHandler s (handlerDefaultExitCode status handler.exitCode)

def completeProcessHandlerSignal (signal : Int) : Int × Store :=
  match activeProcess s with
  | none => (-einval, s)
  | some i =>
    let p := s.processes i
    if p.pid = 1 ∨ p.zombie ∨ signal ≤ 0 ∨ signal > signalMax ∨
        p.capsule.pendingResultValid then (-einval, s)
    else if !p.capsule.handler.installed ∨ p.capsule.state ≠ .runnable then (-ebusy, s)
    else (0, recordExit (s.setCapsule i (answeredCapsule p.capsule (128 + signal))) i
      (signal % 128))

def wakeProcess (pid result : Int) : Int × Store :=
  match findProcess s pid with
  | none => (-echild, s)
  | some i =>
    let c := (s.processes i).capsule
    if (s.processes i).zombie then (-echild, s)
    else if c.pendingTransition = .wake then (-ebusy, s)
    else if (setActiveProcess s pid).1 ≠ 0 then (-echild, (setActiveProcess s pid).2)
    else (0, (setActiveProcess s pid).2.setCapsule i { c with
        pendingResult := result
        pendingResultValid := true
        pendingTransition := .wake
        state := .runnable })

def completeProcessHandlerAndWake (exitCode : Int) : Int × Store :=
  match activeProcess s with
  | none => (-einval, s)
  | some i =>
    let child := s.processes i
    if child.pid = 1 ∨ child.ppid ≤ 0 then (-einval, s)
    else match findProcess s child.ppid with
      | none => (-ebusy, s)
      | some j =>
        let parent := s.processes j
        if parent.zombie ∨ parent.capsule.pendingResultValid ∨
            parent.capsule.pendingTransition ≠ .none then (-ebusy, s)
        else
          let completed := completeProcessHandler s exitCode
          if completed.1 ≠ 0 then (-einval, completed.2)
          else wakeProcess completed.2 parent.pid child.pid

def completeProcessHandlerAndWakeDefault (status : ExecStatus) : Int × Store :=
  match activeProcess s with
  | none => (-einval, s)
  | some i =>
    let handler := (s.processes i).capsule.handler
    if !handler.installed then (-einval, s)
    else completeProcessHandlerAndWake s (handlerDefaultExitCode status handler.exitCode)

def completeProcessHandlerResultAndWake : Int × Store :=
  match activeProcess s with
  | none => (-einval, s)
  | some i =>
    let handler := (s.processes i).capsule.handler
    if !handler.installed then (-einval, s)
    else completeProcessHandlerAndWake s (handlerDefaultExitCode handler.status handler.exitCode)

/-! ## Wait -/

/-- `child` is a process that a wait of `parent` for `pid` looks at. -/
def Matches (parent pid : Int) (child : Process) : Prop :=
  child.used ∧ child.ppid = parent ∧ (0 < pid → child.pid = pid)

instance (parent pid : Int) (child : Process) : Decidable (Matches parent pid child) :=
  inferInstanceAs (Decidable (_ ∧ _ ∧ _))

/-- The scan of `native_store_wait_process`: the first child that has ended, or
the last child. -/
def scanChildren (s : Store) (parent pid : Int) : List Slot → Option Slot → Option Slot
  | [], candidate => candidate
  | i :: rest, candidate =>
    if Matches parent pid (s.processes i) then
      if (s.processes i).zombie then some i
      else scanChildren s parent pid rest (some i)
    else scanChildren s parent pid rest candidate

/-- What `posix_kernel_merge_paths` answers. -/
inductive MergeAnswer
  | ok | invalid | full
deriving DecidableEq, Repr

def MergeAnswer.code : MergeAnswer → Int
  | .ok => 0
  | .invalid => -einval
  | .full => -enomem

def hasWnohang (options : Int) : Bool :=
  options % 2 == 1

/-- The slot is cleared and the status kept as the last one waited for. -/
def collect (parent : Int) (i : Slot) : Store :=
  let p := s.processes i
  { (s.setProcess i {}).record (.collected parent p.pid) with
    lastWaitPid := p.pid
    lastWaitStatus := p.exitStatus
    processCount := if s.processCount > 0 then s.processCount - 1 else s.processCount }

/-- The pid or error, the status when a child was collected, and the table. -/
def waitProcess (pid options : Int) (merge : MergeAnswer) : Int × Option Int × Store :=
  match activeProcess s with
  | none => (-efault, none, s)
  | some parent =>
    if pid < -1 then (-einval, none, s)
    else
      let selector := if pid = 0 then -1 else pid
      match scanChildren s (s.processes parent).pid selector (List.finRange processMax) none with
      | none => (-echild, none, s)
      | some i =>
        if !(s.processes i).zombie then
          (if hasWnohang options then 0 else -eagain, none, s)
        else if merge ≠ .ok then (merge.code, none, s)
        else ((s.processes i).pid, some (s.processes i).exitStatus,
          collect s (s.processes parent).pid i)

/-! ## The guest's `waitpid` -/

/-- A call of `waitpid`, or of `waste_waitpid_until` when `timed`. -/
structure WaitpidCall where
  timed : Bool
  pid : Int
  statusAddress : Nat
  options : Int
deriving DecidableEq, Repr

/-- How the status destination is prepared. -/
inductive PrepareAnswer
  | ok | memoryFault | noMemory
deriving DecidableEq, Repr

/-- How a signal that interrupts the wait is delivered. -/
inductive DeliverAnswer
  | unwinds | returns (restart : Bool)
deriving DecidableEq, Repr

/-- What a call asks of guest memory, of the kernel and of the clock. -/
structure WaitpidAnswers where
  memory : Bool := true
  clock : Bool := true
  prepare : PrepareAnswer := .ok
  merge : MergeAnswer := .ok
  interrupt : Bool := false
  deliver : DeliverAnswer := .returns false
  expired : Bool := false
  write : Bool := true
deriving DecidableEq, Repr

/-- What the guest sees: a value, with the error number that was set and the status
that was stored, if any; a yield; or the status of a signal handler that did not
return. -/
inductive WaitpidReply
  | value (result : Int) (errno status : Option Int)
  | yields
  | unwinds
deriving DecidableEq, Repr

/-- `guest_posix_wait_result`, and for a timed call `process_result` of libc: both
turn a negative number into -1 with an error number. -/
def waitResult (result : Int) : WaitpidReply :=
  if result < 0 then .value (-1) (some (-result)) none else .value result none none

def deliverStatus (call : WaitpidCall) (answers : WaitpidAnswers)
    (caller pid status : Int) : WaitpidReply × Store :=
  if call.statusAddress ≠ 0 ∧ !answers.write then (waitResult (-efault), s)
  else (.value pid none (if call.statusAddress = 0 then none else some status),
    s.record (.returned caller pid status))

def blockInWait (call : WaitpidCall) (answers : WaitpidAnswers) : WaitpidReply × Store :=
  if call.timed ∧ answers.expired then (waitResult 0, s)
  else match activeProcess s with
    | none => (.yields, s)
    | some i => (.yields, s.setCapsule i { (s.processes i).capsule with waitPid := call.pid })

/-- The checks that a call passes before it looks for a child. -/
def checkWaitpid (call : WaitpidCall) (answers : WaitpidAnswers) : Option Int :=
  if !answers.memory then some efault
  else if call.timed ∧ ¬ (call.options = 0 ∨ call.options = 1) then some einval
  else if call.timed ∧ !hasWnohang call.options ∧ !answers.clock then some enosys
  else if call.statusAddress ≠ 0 ∧ answers.prepare = .memoryFault then some efault
  else if call.statusAddress ≠ 0 ∧ answers.prepare = .noMemory then some enomem
  else none

def settleWaitpid (caller : Int) (call : WaitpidCall) (answers : WaitpidAnswers)
    (waited : Int) (status : Option Int) : WaitpidReply × Store :=
  if waited = -eagain ∧ !hasWnohang call.options then
    if answers.interrupt then
      match answers.deliver with
      | .unwinds => (.unwinds, s)
      | .returns false => (waitResult (-eintr), s)
      | .returns true => blockInWait s call answers
    else blockInWait s call answers
  else match status with
    | some status => deliverStatus s call answers caller waited status
    | none =>
      if !call.timed ∧ waited = -echild ∧ call.pid = 0 ∧ s.lastWaitPid > 0 then
        deliverStatus s call answers caller s.lastWaitPid s.lastWaitStatus
      else (waitResult waited, s)

def guestWaitpid (call : WaitpidCall) (answers : WaitpidAnswers) : WaitpidReply × Store :=
  match checkWaitpid call answers with
  | some errno => (waitResult (-errno), s)
  | none =>
    let (waited, status, t) := waitProcess s call.pid call.options answers.merge
    settleWaitpid t s.activePid call answers waited status

/-! ## Runs -/

inductive Op
  | setActive (pid : Int)
  | fork (answers : ForkAnswers)
  | exit (status : Int)
  | signal (pid signal : Int) (answers : SignalAnswers)
  | signalGroup (pgid signal : Int) (member : Slot → Bool) (answers : Slot → SignalAnswers)
  | signalForeground (signal : Int) (terminal : Option (Slot → Bool))
      (answers : Slot → SignalAnswers)
  | terminate (signal : Int)
  | completeHandler (exitCode : Int)
  | completeHandlerDefault (status : ExecStatus)
  | completeHandlerSignal (signal : Int)
  | completeHandlerAndWake (exitCode : Int)
  | completeHandlerAndWakeDefault (status : ExecStatus)
  | completeHandlerResultAndWake
  | wake (pid result : Int)
  | capsule (slot : Slot) (change : Capsule → Capsule)
  | waitpid (call : WaitpidCall) (answers : WaitpidAnswers)

def Op.isFork : Op → Bool
  | .fork _ => true
  | _ => false

def step : Op → Store
  | .setActive pid => (setActiveProcess s pid).2
  | .fork answers => (forkProcess s answers).2
  | .exit status => (exitProcess s status).2
  | .signal pid signal answers => (signalProcess s pid signal answers).2
  | .signalGroup pgid signal member answers =>
    (signalProcessGroup s pgid signal member answers).2
  | .signalForeground signal terminal answers => (signalForeground s signal terminal answers).2
  | .terminate signal => (terminateProcess s signal).2
  | .completeHandler exitCode => (completeProcessHandler s exitCode).2
  | .completeHandlerDefault status => (completeProcessHandlerDefault s status).2
  | .completeHandlerSignal signal => (completeProcessHandlerSignal s signal).2
  | .completeHandlerAndWake exitCode => (completeProcessHandlerAndWake s exitCode).2
  | .completeHandlerAndWakeDefault status => (completeProcessHandlerAndWakeDefault s status).2
  | .completeHandlerResultAndWake => (completeProcessHandlerResultAndWake s).2
  | .wake pid result => (wakeProcess s pid result).2
  | .capsule slot change => s.setCapsule slot (change (s.processes slot).capsule)
  | .waitpid call answers => (guestWaitpid s call answers).2

def run (ops : List Op) : Store :=
  ops.foldl step s

end Waste.ProcessTable
