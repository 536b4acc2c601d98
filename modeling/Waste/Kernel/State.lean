import Waste.Lib.StateExcept

/-!
# The state of the POSIX kernels

`lib/kernel.c` and `lib/include/kernel.h`: every process has a kernel, and kernels
share open file descriptions, pipes, file objects and lock owners through counted
pointers.  A pointer is the number of an object here, and the `World` has one table
for each type of object.  `next` is the number of the next object, so no number is
used twice.

Pathnames, credentials and the metadata of files but their kind are left out.

Every allocation asks `granted`, and every reading of the monotonic clock takes the
next value of `clock`, so a statement about all worlds covers every pattern of
allocation failures and every behaviour of the clock.
-/

namespace Waste.Kernel

open Function StateExcept

/-! ## Constants -/

def fdMax : Nat := 64
def pipeCapacity : Nat := 4096
def recordLockMax : Nat := 64
def signalMax : Nat := 128
def fdSetSize : Nat := 1024

def int32Min : Int := -2 ^ 31
def int32Max : Int := 2 ^ 31 - 1
def int64Max : Nat := 2 ^ 63 - 1
def uint32Max : Nat := 2 ^ 32 - 1
def uint64Max : Nat := 2 ^ 64 - 1

def oWronly : BitVec 32 := 1
def oAppend : BitVec 32 := 0o2000
def oNonblock : BitVec 32 := 0o4000

def lflagIcanon : BitVec 32 := 0x0002

def vtime : Nat := 5
def vmin : Nat := 6

def sigkill : Nat := 9
def sigalrm : Nat := 14
def sigchld : Nat := 17
def sigcont : Nat := 18
def sigstop : Nat := 19
def sigurg : Nat := 23
def sigwinch : Nat := 28

inductive Errno
  | eperm | enoent | eintr | ebadf | eagain | enomem | eacces | efault | ebusy | eexist
  | enotdir | eisdir | einval | emfile | enotty | enospc | epipe | edeadlk | enametoolong
  | enolck | enosys | enotempty | eloop | eoverflow | espipe
deriving DecidableEq, Repr

/-! ## Sets of signals and of descriptors -/

abbrev SigSet := BitVec 128

def signalBitSet (set : SigSet) (signal : Nat) : SigSet := set ||| (1#128 <<< (signal - 1))

def signalBitClear (set : SigSet) (signal : Nat) : SigSet :=
  set &&& ~~~(1#128 <<< (signal - 1))

def signalBitTest (set : SigSet) (signal : Nat) : Bool := set.getLsbD (signal - 1)

def signalValid (signal : Nat) : Bool := 1 ≤ signal && signal ≤ signalMax

/-- The signal numbers, in the order in which the loops try them. -/
def signals : List Nat := List.range' 1 signalMax

abbrev FdSet := BitVec 1024

def fdIsset (fd : Nat) (set : FdSet) : Bool := set.getLsbD fd

def fdSetBit (fd : Nat) (set : FdSet) : FdSet := set ||| (1#1024 <<< fd)

/-- A descriptor number as the calls get it; `fd_valid` says which are in the table. -/
def fdValid (fd : Int) : Option (Fin fdMax) :=
  if h : 0 ≤ fd ∧ fd < fdMax then some ⟨fd.toNat, by omega⟩ else none

def allFds : List (Fin fdMax) := List.finRange fdMax

/-! ## Objects -/

structure Termios where
  lflag : BitVec 32
  cc : Nat → UInt8

structure Terminal where
  input : List UInt8
  inputCapacity : Nat
  eof : Bool
  termios : Termios
  foregroundPgid : Int
  controllingSessionId : Int
  pendingSignals : SigSet

structure Regular where
  node : Option Nat
  file : Nat
  offset : Nat
  readable : Bool
  writable : Bool

/-- `posix_ofd_kind` with the member of the union that belongs to it. -/
inductive Description
  | terminal (t : Terminal)
  | stream (t : Terminal)
  | pipeRead (pipe : Nat)
  | pipeWrite (pipe : Nat)
  | regular (r : Regular)
  | directory (node : Option Nat) (index : Nat)
  | null (file : Nat) (readable writable : Bool)

/-- `posix_ofd`: an open file description. -/
structure Ofd where
  kind : Description
  refCount : Int
  status : Nat
  inputHandle : Int
  outputHandle : Int
  streamMode : BitVec 32

structure OfdStatus where
  refs : Nat
  flags : BitVec 32

/-- `posix_pipe`; `allocated` until it is freed. -/
structure Pipe where
  buffer : List UInt8
  capacity : Nat
  readers : Int
  writers : Int
  allocated : Bool

structure FdEntry where
  ofd : Nat
  cloexec : Bool
deriving DecidableEq

inductive LockType
  | rdlck | wrlck | unlck
deriving DecidableEq, Repr

/-- `posix_record_lock`; the range is inclusive and `uint64Max` means all later bytes. -/
structure RecordLock where
  owner : Nat
  first : Nat
  last : Nat
  type : LockType
deriving DecidableEq, Repr

inductive NodeKind
  | regular | directory | symlink | null
deriving DecidableEq, Repr

structure Metadata where
  kind : NodeKind
deriving DecidableEq

/-- `posix_file_object`; `data_capacity` is the length of `data`. -/
structure FileObject where
  resources : Option Nat
  resourceBytes : Nat
  data : List UInt8
  refs : Nat
  metadata : Metadata
  locks : List RecordLock
  lockCount : Nat

/-- `posix_lock_owner`; `records` pairs each record with its file. -/
structure LockOwner where
  refs : Nat
  pid : Int
  records : List (Nat × RecordLock)
  waitingKernel : Option Nat

/-- `posix_wait_record`. -/
structure WaitRecord where
  active : Bool
  generation : Nat
  nfds : Nat
  readMinimum : Nat
  readfds : FdSet
  writefds : FdSet
  exceptfds : FdSet
  hasDeadline : Bool
  deadlineNs : Nat
  hasSignalMask : Bool
  savedMask : SigSet
  temporaryMask : SigSet
  lockFile : Option Nat
  lockFirst : Nat
  lockLast : Nat
  lockType : LockType
  lockFd : Int

inductive Disposition
  | default | ignore | handler
deriving DecidableEq, Repr

structure PathNode where
  file : Option Nat

structure ShmObject where
  file : Nat

structure ShmNamespace where
  refs : Nat
  objects : List ShmObject

structure InodeSequence where
  refs : Nat
  next : Nat

/-- The file side of `waste_resource_budget`. -/
structure Budget where
  fileBytes : Nat
  filePeak : Nat
  fileLimit : Nat
  exhausted : Bool

/-- `posix_kernel`.  `live` until `posix_kernel_destroy`; `hasClock` says that
`clock_now` is set. -/
structure PosixKernel where
  live : Bool
  fds : Fin fdMax → Option FdEntry
  wait : WaitRecord
  hasClock : Bool
  alarmActive : Bool
  alarmDeadlineNs : Nat
  signalMask : SigSet
  pendingSignals : SigSet
  deliveredSignal : Nat
  processGroupId : Int
  sessionId : Int
  hasControllingTerminal : Bool
  signalDisposition : Nat → Disposition
  signalHandlers : Nat → BitVec 32
  signalActionMasks : Nat → SigSet
  signalActionFlags : Nat → BitVec 32
  pathNodes : List PathNode
  inodeSequence : Nat
  shmNamespace : Nat
  lockOwner : Nat
  resources : Option Nat

/-- All kernels and what they share.  `sizeBits` is the width of `size_t`, which is 32 where the
kernel is built for the browser. -/
structure World where
  kernel : Nat → PosixKernel
  ofd : Nat → Ofd
  status : Nat → OfdStatus
  pipe : Nat → Pipe
  file : Nat → FileObject
  owner : Nat → LockOwner
  shm : Nat → ShmNamespace
  inodes : Nat → InodeSequence
  budget : Nat → Budget
  next : Nat
  granted : Nat → Bool
  requests : Nat
  clock : Nat → Nat
  reads : Nat
  sizeBits : Nat

abbrev KernelM (α : Type) := Comp World Errno α

/-! ## Updates of one object -/

namespace World

def setKernel (k : Nat) (f : PosixKernel → PosixKernel) (w : World) : World :=
  { w with kernel := update w.kernel k (f (w.kernel k)) }

def setOfd (o : Nat) (f : Ofd → Ofd) (w : World) : World :=
  { w with ofd := update w.ofd o (f (w.ofd o)) }

def setStatus (s : Nat) (f : OfdStatus → OfdStatus) (w : World) : World :=
  { w with status := update w.status s (f (w.status s)) }

def setPipe (p : Nat) (f : Pipe → Pipe) (w : World) : World :=
  { w with pipe := update w.pipe p (f (w.pipe p)) }

def setFile (i : Nat) (f : FileObject → FileObject) (w : World) : World :=
  { w with file := update w.file i (f (w.file i)) }

def setOwner (o : Nat) (f : LockOwner → LockOwner) (w : World) : World :=
  { w with owner := update w.owner o (f (w.owner o)) }

def setShm (n : Nat) (f : ShmNamespace → ShmNamespace) (w : World) : World :=
  { w with shm := update w.shm n (f (w.shm n)) }

def setInodes (n : Nat) (f : InodeSequence → InodeSequence) (w : World) : World :=
  { w with inodes := update w.inodes n (f (w.inodes n)) }

def setBudget (b : Nat) (f : Budget → Budget) (w : World) : World :=
  { w with budget := update w.budget b (f (w.budget b)) }

@[simp] theorem setKernel_self {k : Nat} {f : PosixKernel → PosixKernel} {w : World} :
    (w.setKernel k f).kernel k = f (w.kernel k) := update_self _ _ _

@[simp] theorem setOfd_self (o : Nat) (f : Ofd → Ofd) (w : World) :
    (w.setOfd o f).ofd o = f (w.ofd o) := update_self _ _ _

/-- The description behind a descriptor of a kernel. -/
def entry (w : World) (k : Nat) (fd : Int) : Option FdEntry :=
  (fdValid fd).bind (w.kernel k).fds

end World

/-! ## The first kernel -/

/-- The parts of `posix_kernel_create` that are not zero; the descriptor table is
empty. -/
def PosixKernel.initial : PosixKernel where
  live := true
  fds _ := none
  wait :=
    { active := false, generation := 0, nfds := 0, readMinimum := 0, readfds := 0, writefds := 0
      exceptfds := 0, hasDeadline := false, deadlineNs := 0, hasSignalMask := false
      savedMask := 0, temporaryMask := 0, lockFile := none, lockFirst := 0, lockLast := 0
      lockType := .rdlck, lockFd := 0 }
  hasClock := false
  alarmActive := false
  alarmDeadlineNs := 0
  signalMask := 0
  pendingSignals := 0
  deliveredSignal := 0
  processGroupId := 1
  sessionId := 1
  hasControllingTerminal := false
  signalDisposition _ := .default
  signalHandlers _ := 0
  signalActionMasks _ := 0
  signalActionFlags _ := 0
  pathNodes := []
  inodeSequence := 0
  shmNamespace := 0
  lockOwner := 0
  resources := none

/-- A world with one kernel, which has no files and no descriptors.  Every allocation
succeeds. -/
def World.initial : World where
  kernel _ := .initial
  ofd _ :=
    { kind := .null 0 false false, refCount := 0, status := 0, inputHandle := -1
      outputHandle := -1, streamMode := 0 }
  status _ := { refs := 0, flags := 0 }
  pipe _ := { buffer := [], capacity := 0, readers := 0, writers := 0, allocated := false }
  file _ :=
    { resources := none, resourceBytes := 0, data := [], refs := 0
      metadata := { kind := .regular }, locks := [], lockCount := 0 }
  owner _ := { refs := 1, pid := 1, records := [], waitingKernel := none }
  shm _ := { refs := 1, objects := [] }
  inodes _ := { refs := 1, next := 2049 }
  budget _ := { fileBytes := 0, filePeak := 0, fileLimit := uint64Max, exhausted := false }
  next := 1
  granted _ := true
  requests := 0
  clock _ := 0
  reads := 0
  sizeBits := 64

/-! ## Allocation and the clock -/

/-- One call of the allocator. -/
def allocate : KernelM Bool := do
  let w ← get
  set { w with requests := w.requests + 1 }
  pure (w.granted w.requests)

/-- An allocation that the caller answers with `ENOMEM` when it fails. -/
def allocateOr (e : Errno) : KernelM Unit := do
  unless ← allocate do throw e

/-- The number of a new object. -/
def fresh : KernelM Nat := do
  let w ← get
  set { w with next := w.next + 1 }
  pure w.next

/-- A reading of `clock_now`. -/
def clockNow (w : World) : Nat × World := (w.clock w.reads, { w with reads := w.reads + 1 })

end Waste.Kernel
