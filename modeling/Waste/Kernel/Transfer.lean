import Waste.Lib.DepthFirst
import Waste.Kernel.Descriptors

/-!
# Reading, writing, selecting and locking

The calls of `lib/kernel.c` that can block.  Each answers `EAGAIN` after it has filled
in the wait record, and the process calls it again when the record says so.
-/

namespace Waste.Kernel

open StateExcept

/-! ## `select` and `pselect` -/

structure FdSets where
  readfds : Option FdSet
  writefds : Option FdSet
  exceptfds : Option FdSet

def wants (set : Option FdSet) (fd : Nat) : Bool := (set.map (fdIsset fd)).getD false

def FdSets.wantsAny (sets : FdSets) (fd : Nat) : Bool :=
  wants sets.readfds fd || wants sets.writefds fd || wants sets.exceptfds fd

/-- The sets that `select` answers with. -/
structure Selected where
  count : Nat
  readfds : FdSet
  writefds : FdSet
  exceptfds : FdSet
deriving DecidableEq

def Selected.none : Selected := { count := 0, readfds := 0, writefds := 0, exceptfds := 0 }

def scanFd (w : World) (k : Nat) (sets : FdSets) (found : Selected) (fd : Fin fdMax) :
    Except Errno Selected :=
  if !sets.wantsAny fd then .ok found
  else
    match (w.kernel k).fds fd with
    | Option.none => .error .ebadf
    | some entry =>
      let r := readiness w (w.ofd entry.ofd)
      let readable := wants sets.readfds fd && (r.pollIn || r.pollHup)
      let writable := wants sets.writefds fd && r.pollOut
      let failed := wants sets.exceptfds fd && r.pollErr
      .ok {
        count := found.count + readable.toNat + writable.toNat + failed.toNat
        readfds := if readable then fdSetBit fd found.readfds else found.readfds
        writefds := if writable then fdSetBit fd found.writefds else found.writefds
        exceptfds := if failed then fdSetBit fd found.exceptfds else found.exceptfds }

def scanFds (w : World) (k : Nat) (sets : FdSets) (nfds : Nat) : Except Errno Selected :=
  (allFds.filter (·.val < nfds)).foldlM (scanFd w k sets) .none

/-- `pselect` installs its mask and keeps the old one in the wait record. -/
def PosixKernel.installMask (mask : Option SigSet) (kernel : PosixKernel) : PosixKernel :=
  match mask with
  | none => kernel
  | some mask =>
    { kernel with
      signalMask := mask
      wait := { kernel.wait with
        savedMask := kernel.signalMask, temporaryMask := mask, hasSignalMask := true } }

variable (k : Nat)

/-- Consume the first unmasked signal, if there is one. -/
def deliverFirst (w : World) : World :=
  match (w.kernel k).firstUnmaskedPending with
  | none => w
  | some signal => deliver k signal w

structure Timeout where
  isZero : Bool
  hasDeadline : Bool
  deadlineNs : Nat

/-- The record that `kernel_select_core` leaves behind. -/
def WaitRecord.forSelect (nfds : Nat) (sets : FdSets) (timeout : Timeout) (hadWait : Bool)
    (wait : WaitRecord) : WaitRecord :=
  { wait with
    active := true
    generation := if hadWait then wait.generation else wait.nextGeneration
    nfds
    readMinimum := 0
    readfds := sets.readfds.getD 0
    writefds := sets.writefds.getD 0
    exceptfds := sets.exceptfds.getD 0
    hasDeadline := if wait.active then wait.hasDeadline else timeout.hasDeadline
    deadlineNs := if wait.active then wait.deadlineNs else timeout.deadlineNs }

def PosixKernel.registerSelect (nfds : Nat) (sets : FdSets) (timeout : Timeout) (hadWait : Bool)
    (temporaryMask : Option SigSet) (kernel : PosixKernel) : PosixKernel :=
  let kernel := { kernel with wait := kernel.wait.forSelect nfds sets timeout hadWait }
  if kernel.wait.hasSignalMask then kernel else kernel.installMask temporaryMask

/-- End a call with an error and without a wait. -/
def giveUp {α : Type} (k : Nat) (e : Errno) : KernelM α := do
  modify (cancelWait k)
  throw e

/-- End a call with an answer and without a wait. -/
def finish {α : Type} (k : Nat) (answer : α) : KernelM α := do
  modify (cancelWait k)
  return answer

/-- `select` takes the first unmasked signal and ends with `EINTR`. -/
def selectInterrupted : KernelM Selected := do
  modify (deliverFirst k)
  giveUp k .eintr

/-- The second half of `kernel_select_core`: look at every descriptor, and register the
wait when there is nothing to report. -/
def selectScan (nfds : Nat) (sets : FdSets) (timeout : Timeout) (hadWait : Bool)
    (temporaryMask : Option SigSet) : KernelM Selected := do
  match scanFds (← get) k sets nfds with
  | .error e => giveUp k e
  | .ok found =>
    if 0 < found.count then finish k found
    else if timeout.isZero then finish k .none
    else do
      modify fun w => w.setKernel k (·.registerSelect nfds sets timeout hadWait temporaryMask)
      throw .eagain

/-- The middle of `kernel_select_core`: a wait that has ended, and a signal. -/
def selectPoll (nfds : Nat) (sets : FdSets) (timeout : Timeout) (hadWait : Bool)
    (temporaryMask : Option SigSet) : KernelM Selected := do
  let w ← get
  set (waitPoll k w).2
  match (waitPoll k w).1 with
  | .signal => selectInterrupted k
  | .timeout => finish k .none
  | _ =>
    if ((waitPoll k w).2.kernel k).firstUnmaskedPending.isSome then selectInterrupted k
    else selectScan k nfds sets timeout hadWait temporaryMask

def kernelSelectCore (nfds : Int) (sets : FdSets) (timeout : Timeout)
    (temporaryMask : Option SigSet) : KernelM Selected := do
  modify (routeTerminalSignals k)
  if nfds < 0 ∨ fdSetSize < nfds then giveUp k .einval
  else do
    let hadWait := ((← get).kernel k).wait.active
    modify fun w => if hadWait then w else w.setKernel k (·.installMask temporaryMask)
    -- descriptors beyond the table cannot be open
    if (List.range nfds.toNat).any (fun fd => fdMax ≤ fd && sets.wantsAny fd) then giveUp k .ebadf
    else selectPoll k nfds.toNat sets timeout hadWait temporaryMask

def timeoutNs (seconds fraction fractionScale : Nat) : Nat :=
  let scale := 1000000000
  if uint64Max / scale < seconds then uint64Max
  else if uint64Max - seconds * scale < fraction * fractionScale then uint64Max
  else seconds * scale + fraction * fractionScale

/-- `deadline_from`, for a kernel with a clock. -/
def deadlineFrom (duration now : Nat) : Nat :=
  if uint64Max - now < duration then uint64Max else now + duration

/-- A `struct timeval` or `struct timespec`. -/
structure Duration where
  seconds : Int
  fraction : Int

/-- The validation and the deadline that `select` and `pselect` share.  A second has
`units` fractions of `scale` nanoseconds. -/
def readTimeout (units scale : Nat) : Option Duration → KernelM Timeout
  | none => return { isZero := false, hasDeadline := false, deadlineNs := 0 }
  | some t =>
    if t.seconds < 0 ∨ t.fraction < 0 ∨ units ≤ t.fraction then giveUp k .einval
    else if t.seconds = 0 ∧ t.fraction = 0 then
      return { isZero := true, hasDeadline := false, deadlineNs := 0 }
    else do
      let w ← get
      if (w.kernel k).hasClock then do
        set (clockNow w).2
        return {
          isZero := false
          hasDeadline := true
          deadlineNs :=
            deadlineFrom (timeoutNs t.seconds.toNat t.fraction.toNat scale) (clockNow w).1 }
      else return { isZero := false, hasDeadline := false, deadlineNs := 0 }

/-- `posix_kernel_select`. -/
def kernelSelect (nfds : Int) (sets : FdSets) (timeout : Option Duration) : KernelM Selected := do
  let timeout ← readTimeout k 1000000 1000 timeout
  kernelSelectCore k nfds sets timeout none

/-- `posix_kernel_pselect`. -/
def kernelPselect (nfds : Int) (sets : FdSets) (timeout : Option Duration)
    (sigmask : Option SigSet) : KernelM Selected := do
  let timeout ← readTimeout k 1000000000 1 timeout
  kernelSelectCore k nfds sets timeout sigmask

/-! ## Reading -/

/-- A read that finds nothing: it registers a wait unless the description is
nonblocking. -/
def blockRead {α : Type} (k : Nat) (nonblock : Bool) (register : KernelM Unit) : KernelM α :=
  if nonblock then giveUp k .eagain
  else do
    interruptible k
    attempt register
    throw .eagain

/-- The deadline of a terminal read with `VTIME`. -/
def setReadDeadline (t : Terminal) (w : World) : World :=
  let kernel := w.kernel k
  if t.termios.cc vtime ≠ 0 ∧ kernel.hasClock ∧ !kernel.wait.hasDeadline then
    (clockNow w).2.setKernel k fun kernel =>
      { kernel with wait := { kernel.wait with
          hasDeadline := true
          deadlineNs := deadlineFrom ((t.termios.cc vtime).toNat * 100000000) (clockNow w).1 } }
  else w

def terminalWaitWithTimeout (fd : Int) (t : Terminal) (count : Nat) : KernelM Unit :=
  let minimum := if t.canonical then 0 else (t.termios.cc vmin).toNat
  tryCatch (kernelWaitRead k fd (min minimum count)) fun e =>
    if e = .eagain then do
      modify (setReadDeadline k t)
      throw e
    else throw e

def deadlinePassed : KernelM Bool := do
  let w ← get
  let kernel := w.kernel k
  if kernel.wait.hasDeadline && kernel.hasClock then do
    set (clockNow w).2
    return kernel.wait.deadlineNs ≤ (clockNow w).1
  else return false

/-- Take input out of the queue of a terminal or stream. -/
def takeInput (k o : Nat) (t : Terminal) (n : Nat) : KernelM (List UInt8) := do
  modify fun w => w.setOfd o (·.mapTerminal fun t => { t with input := t.input.drop n })
  finish k (t.input.take n)

def readStream (fd : Int) (o : Nat) (ofd : Ofd) (t : Terminal) (nonblock : Bool)
    (count : Nat) : KernelM (List UInt8) :=
  if ofd.inputHandle < 0 then throw .ebadf
  else if t.input.isEmpty then
    if t.eof then return [] else blockRead k nonblock (waitRead k fd)
  else takeInput k o t (min t.input.length count)

/-- The bytes up to the first newline, with it. -/
def lineLength (input : List UInt8) : Nat := (input.takeWhile (· ≠ newline)).length + 1

/-- A terminal without input. -/
def readEmptyTerminal (fd : Int) (t : Terminal) (nonblock : Bool) (count : Nat) :
    KernelM (List UInt8) :=
  if t.eof then return []
  else if nonblock then giveUp k .eagain
  else if !t.canonical ∧ t.termios.cc vmin = 0 ∧ t.termios.cc vtime = 0 then return []
  else do
    interruptible k
    attempt (terminalWaitWithTimeout k fd t count)
    if t.canonical then throw .eagain
    else if ← deadlinePassed k then finish k [] else throw .eagain

def readRaw (fd : Int) (o : Nat) (t : Terminal) (nonblock : Bool) (count : Nat) :
    KernelM (List UInt8) :=
  let minimum := min (t.termios.cc vmin).toNat count
  if 0 < minimum ∧ t.input.length < minimum ∧ !t.eof ∧ !nonblock then do
    interruptible k
    attempt (terminalWaitWithTimeout k fd t count)
    -- the bytes that came before the timer expired are the answer, even if they are few
    if ← deadlinePassed k then takeInput k o t (min count t.input.length) else throw .eagain
  else takeInput k o t (min count t.input.length)

def readTerminal (fd : Int) (o : Nat) (ofd : Ofd) (t : Terminal) (nonblock : Bool)
    (count : Nat) : KernelM (List UInt8) :=
  if ofd.streamMode ≠ 0 ∧ ofd.inputHandle < 0 then throw .ebadf
  else if t.input.isEmpty then readEmptyTerminal k fd t nonblock count
  else if t.canonical then
    if t.input.contains newline then takeInput k o t (min count (lineLength t.input))
    else if t.eof then takeInput k o t (min count t.input.length)
    else blockRead k nonblock (waitRead k fd)
  else readRaw k fd o t nonblock count

def readPipe (fd : Int) (p : Nat) (nonblock : Bool) (count : Nat) : KernelM (List UInt8) := do
  let pipe := (← get).pipe p
  if pipe.buffer.isEmpty then
    if pipe.writers = 0 then return [] else blockRead k nonblock (waitRead k fd)
  else do
    modify fun w => w.setPipe p fun pipe =>
      { pipe with buffer := pipe.buffer.drop (min count pipe.buffer.length) }
    finish k (pipe.buffer.take (min count pipe.buffer.length))

def Ofd.setRegular (r : Regular) (ofd : Ofd) : Ofd := { ofd with kind := .regular r }

def readRegular (o : Nat) (r : Regular) (count : Nat) : KernelM (List UInt8) :=
  if !r.readable then throw .ebadf
  else do
    let w ← get
    let data := (w.file r.file).data
    if data.length ≤ r.offset then return []
    else do
      let n := min (data.length - r.offset) count
      let offset := (r.offset + n) % 2 ^ w.sizeBits
      modify fun w => w.setOfd o (.setRegular { r with offset })
      return (data.drop r.offset).take n

/-- The part of `posix_kernel_read` for one kind of description. -/
def readKind (fd : Int) (o : Nat) (ofd : Ofd) (nonblock : Bool) (count : Nat) :
    KernelM (List UInt8) :=
  match ofd.kind with
  | .stream t => readStream k fd o ofd t nonblock count
  | .terminal t => readTerminal k fd o ofd t nonblock count
  | .pipeRead p => readPipe k fd p nonblock count
  | .regular r => readRegular o r count
  | .pipeWrite _ => throw .ebadf
  | .null _ readable _ => if readable then return [] else throw .ebadf
  | .directory _ _ => throw .eisdir

/-- `posix_kernel_read`. -/
def kernelRead (fd count : Int) : KernelM (List UInt8) :=
  match fdValid fd with
  | none => throw .einval
  | some i =>
    if count < 0 then throw .einval
    else if count = 0 then return []
    else do
      let w ← get
      match (w.kernel k).fds i with
      | none => throw .ebadf
      | some entry =>
        let ofd := w.ofd entry.ofd
        readKind k fd entry.ofd ofd ((w.status ofd.status).flags &&& oNonblock ≠ 0) count.toNat

/-! ## Writing -/

/-- A write to a pipe that has no room. -/
def blockWrite (fd : Fin fdMax) (nonblock : Bool) : KernelM Nat :=
  if nonblock then giveUp k .eagain
  else do
    interruptible k
    attempt do
      let _ ← kernelSelect k (fd.val + 1)
        { readfds := none
          writefds := some (fdSetBit fd 0)
          exceptfds := some (fdSetBit fd 0) } none
    throw .eagain

def writePipe (fd : Fin fdMax) (p : Nat) (nonblock : Bool) (data : List UInt8) : KernelM Nat := do
  let pipe := (← get).pipe p
  if pipe.readers = 0 then throw .epipe
  else
    let avail := pipe.capacity - pipe.buffer.length
    -- a nonblocking write of at most one buffer goes through as a whole or not at all
    if avail = 0 ∨ nonblock ∧ data.length ≤ pipe.capacity ∧ avail < data.length then
      blockWrite k fd nonblock
    else do
      modify fun w => w.setPipe p fun pipe =>
        { pipe with buffer := pipe.buffer ++ data.take (min data.length avail) }
      finish k (min data.length avail)

/-- The bytes of a file after a write. -/
def spliced (old : List UInt8) (offset : Nat) (data : List UInt8) : List UInt8 :=
  old.take offset ++ data ++ old.drop (offset + data.length)

def FileObject.splice (offset : Nat) (data : List UInt8) (object : FileObject) : FileObject :=
  { object with data := spliced object.data offset data }

/-- Make a file at least `needed` bytes long. -/
def ensureSize (f needed : Nat) : KernelM Bool := do
  if ((← get).file f).data.length < needed then fileObjectResize f needed else return true

def writeRegular (o : Nat) (r : Regular) (append : Bool) (data : List UInt8) : KernelM Nat :=
  if !r.writable then throw .ebadf
  else do
    let w ← get
    let offset := if append then (w.file r.file).data.length else r.offset
    -- the sum in `size_t`
    let needed := (offset + data.length) % 2 ^ w.sizeBits
    if needed < offset then throw .enospc
    else do
      let room ← ensureSize r.file needed
      if !room then throw .enomem
      else do
        modify fun w => w.setFile r.file (.splice offset data)
        modify fun w => w.setOfd o (.setRegular { r with offset := needed })
        return data.length

/-- The part of `posix_kernel_write` for one kind of description. -/
def writeKind (fd : Fin fdMax) (o : Nat) (ofd : Ofd) (flags : BitVec 32)
    (data : List UInt8) : KernelM Nat :=
  match ofd.kind with
  | .stream _ => if 0 ≤ ofd.outputHandle then return data.length else throw .ebadf
  | .null _ _ writable => if writable then return data.length else throw .ebadf
  | .terminal _ =>
    if ofd.streamMode ≠ 0 ∧ ofd.outputHandle < 0 then throw .ebadf else return data.length
  | .pipeWrite p => writePipe k fd p (flags &&& oNonblock ≠ 0) data
  | .pipeRead _ => throw .ebadf
  | .directory _ _ => throw .eisdir
  | .regular r => writeRegular o r (flags &&& oAppend ≠ 0) data

/-- `posix_kernel_write`. -/
def kernelWrite (fd : Int) (data : List UInt8) : KernelM Nat :=
  match fdValid fd with
  | none => throw .einval
  | some i =>
    if data.isEmpty then return 0
    else do
      let w ← get
      match (w.kernel k).fds i with
      | none => throw .ebadf
      | some entry =>
        let ofd := w.ofd entry.ofd
        writeKind k i entry.ofd ofd (w.status ofd.status).flags data

/-! ## Record locks -/

structure Flock where
  type : Int
  whence : Int
  start : Int
  length : Int
  pid : Int
deriving DecidableEq, Repr

inductive LockCommand
  | getlk | setlk | setlkw
deriving DecidableEq, Repr

/-- A request after the checks of its arguments. -/
structure LockRequest where
  type : LockType
  first : Nat
  last : Nat
deriving DecidableEq, Repr

def LockType.ofInt : Int → Option LockType
  | 0 => some .rdlck
  | 1 => some .wrlck
  | 2 => some .unlck
  | _ => none

def LockType.toInt : LockType → Int
  | .rdlck => 0
  | .wrlck => 1
  | .unlck => 2

/-- The bytes from `position` on, or before it if `length` is negative. -/
def lockSpan (position length : Int) : Except Errno (Nat × Nat) :=
  if position < 0 then .error .einval
  else if int32Max < position then .error .eoverflow
  else if length < 0 then
    if position + length < 0 then .error .einval
    else .ok ((position + length).toNat, position.toNat - 1)
  else if length = 0 then .ok (position.toNat, uint64Max)
  else if int32Max < position + length - 1 then .error .eoverflow
  else .ok (position.toNat, (position + length - 1).toNat)

/-- The range of a `struct flock` on a description whose offset is `offset` and whose
file has `size` bytes. -/
def lockRange (lock : Flock) (offset size : Nat) : Except Errno (Nat × Nat) :=
  let base := if lock.whence = 0 then 0 else if lock.whence = 1 then offset else size
  if lock.whence < 0 ∨ 2 < lock.whence then .error .einval
  else if lock.start < int32Min ∨ int32Max < lock.start ∨ lock.length < int32Min ∨
      int32Max < lock.length then .error .eoverflow
  else if int64Max < base ∨ 0 < lock.start ∧ (int64Max : Int) - lock.start < base then
    .error .eoverflow
  else lockSpan (base + lock.start) lock.length

/-- The request in the argument of a call. -/
def newLockRequest (command : LockCommand) (lock : Flock) (offset size : Nat) :
    Except Errno LockRequest :=
  match LockType.ofInt lock.type with
  | none => .error .einval
  | some type =>
    if command = .getlk ∧ type = .unlck then .error .einval
    else (lockRange lock offset size).map fun range =>
      { type, first := range.1, last := range.2 }

def PosixKernel.wanted (kernel : PosixKernel) : Option (Nat × LockRequest) :=
  if kernel.wait.active then
    kernel.wait.lockFile.map fun f =>
      (f, { type := kernel.wait.lockType, first := kernel.wait.lockFirst,
            last := kernel.wait.lockLast })
  else none

/-- The request of a call: the one that is already waiting, or the one in the
argument. -/
def lockRequest (fd : Int) (command : LockCommand) (lock : Flock) (r : Regular) :
    KernelM LockRequest := do
  let w ← get
  match if command = .setlkw then (w.kernel k).wanted else none with
  | some (f, request) =>
    if (w.kernel k).wait.lockFd ≠ fd ∨ f ≠ r.file then giveUp k .ebadf else return request
  | none => require (newLockRequest command lock r.offset (w.file r.file).data.length)

/-- The owners of the records that are in the way of a request. -/
def conflictOwners (w : World) (o f : Nat) (request : LockRequest) : List Nat :=
  ((w.file f).locks.filter (·.conflicts o request.type request.first request.last)).map (·.owner)

def waitsFor (w : World) (o : Nat) : List Nat :=
  match (w.owner o).waitingKernel with
  | none => []
  | some k =>
    match (w.kernel k).wanted with
    | none => []
    | some (f, request) => conflictOwners w o f request

/-- The search with `record_wait_cycle` from every owner whose record is in the way of a
request.  `ENOLCK` says that too many owners were visited. -/
def findCycle (w : World) (o f : Nat) (request : LockRequest) : Except Errno Bool :=
  match DepthFirst.visitAll (DepthFirst.visit (waitsFor w) o recordLockMax (recordLockMax + 1))
    (conflictOwners w o f request) [] with
  | none => .error .enolck
  | some (found, _) => .ok found

/-- The wait record of a blocked `F_SETLKW`. -/
def PosixKernel.awaitLock (fd : Int) (f : Nat) (request : LockRequest) (kernel : PosixKernel) :
    PosixKernel :=
  { kernel with wait := { kernel.wait with
      readfds := 0, writefds := 0, exceptfds := 0
      nfds := 0, hasDeadline := false, hasSignalMask := false
      lockFile := some f, lockFd := fd, lockType := request.type
      lockFirst := request.first, lockLast := request.last
      generation := kernel.wait.nextGeneration
      active := true } }

def registerLock (k o : Nat) (fd : Int) (f : Nat) (request : LockRequest) (w : World) : World :=
  let w := fileRetain (some f) w
  let w := w.setKernel k (·.awaitLock fd f request)
  w.setOwner o fun owner => { owner with waitingKernel := some k }

/-- `F_SETLKW` that finds a record in its way. -/
def waitForLock (fd : Int) (f : Nat) (request : LockRequest) : KernelM Flock := do
  let w ← get
  let o := (w.kernel k).lockOwner
  match findCycle w o f request with
  | .error e => giveUp k e
  | .ok true => giveUp k .edeadlk
  | .ok false =>
    if (w.kernel k).wait.active then
      if (w.kernel k).wait.lockFile.isNone then throw .ebusy else throw .eagain
    else if (w.file f).refs = uint32Max then throw .enolck
    else do
      modify (registerLock k o fd f request)
      throw .eagain

/-- What `F_GETLK` answers about the record in the way. -/
def describeConflict (w : World) (lock : Flock) : Option RecordLock → Except Errno Flock
  | none => .ok { lock with type := LockType.unlck.toInt }
  | some record =>
    let length := if record.last = uint64Max then 0 else record.last - record.first + 1
    if int32Max < record.first ∨ int32Max < length then .error .eoverflow
    else .ok {
      type := record.type.toInt
      whence := 0
      start := record.first
      length
      pid := (w.owner record.owner).pid }

/-- The part of `posix_kernel_record_lock` after the checks. -/
def applyLock (fd : Int) (command : LockCommand) (lock : Flock) (f : Nat)
    (request : LockRequest) : KernelM Flock := do
  let w ← get
  let o := (w.kernel k).lockOwner
  let conflict := if request.type = .unlck then none else
    recordConflict (w.file f).locks o request.type request.first request.last
  match command with
  | .getlk => require (describeConflict w lock conflict)
  | .setlk =>
    if conflict.isSome then throw .eagain
    else do
      recordReplace f o request.type request.first request.last
      return lock
  | .setlkw =>
    if conflict.isSome then waitForLock k fd f request
    else do
      modify (cancelWait k)
      recordReplace f o request.type request.first request.last
      return lock

/-- May the description be locked like that? -/
def Regular.permits (r : Regular) : LockType → Bool
  | .rdlck => r.readable
  | .wrlck => r.writable
  | .unlck => true

/-- `posix_kernel_record_lock`. -/
def kernelRecordLock (fd : Int) (command : LockCommand) (lock : Flock) : KernelM Flock := do
  let w ← get
  let refuse (e : Errno) : KernelM Flock := if command = .setlkw then giveUp k e else throw e
  match w.entry k fd with
  | none => refuse .ebadf
  | some entry =>
    match (w.ofd entry.ofd).kind with
    | .regular r => do
      let request ← lockRequest k fd command lock r
      if command ≠ .getlk ∧ !r.permits request.type then throw .ebadf
      else if command = .setlkw then do
        interruptible k
        applyLock k fd command lock r.file request
      else applyLock k fd command lock r.file request
    | _ => refuse .einval

end Waste.Kernel
