import Waste.Kernel.Signals

/-!
# Descriptors

The functions of `lib/kernel.c` that change descriptor tables: opening a pipe, closing,
duplicating, copying the kernel for a fork and destroying it.
-/

namespace Waste.Kernel

open StateExcept

/-! ## Descriptions and their counts -/

/-- A call whose answer the caller drops. -/
def attempt (c : KernelM Unit) : KernelM Unit := tryCatch c fun _ => pure ()

/-- `ofd_alloc`, with the status flags that the callers set next. -/
def ofdAlloc (kind : Description) (flags : BitVec 32) : KernelM Nat := do
  allocateOr .enomem
  allocateOr .enomem
  let status ← fresh
  let o ← fresh
  modify fun w => w.setStatus status fun _ => { refs := 1, flags }
  modify fun w => w.setOfd o fun _ =>
    { kind, refCount := 1, status, inputHandle := -1, outputHandle := -1, streamMode := 0 }
  return o

/-- A change of the endpoint count that belongs to a description. -/
def Description.countEnds (kind : Description) (delta : Int) (w : World) : World :=
  match kind with
  | .pipeRead p => w.setPipe p fun pipe => { pipe with readers := pipe.readers + delta }
  | .pipeWrite p => w.setPipe p fun pipe => { pipe with writers := pipe.writers + delta }
  | _ => w

def pipeCountDec (o : Nat) (w : World) : World := (w.ofd o).kind.countEnds (-1) w

def Pipe.empty : Pipe :=
  { buffer := [], capacity := 0, readers := 0, writers := 0, allocated := false }

def freePipe (p : Nat) (w : World) : World := w.setPipe p fun _ => .empty

/-- The object that a description refers to is given up with it. -/
def Description.release (kind : Description) (w : World) : World :=
  match kind with
  | .terminal _ => w
  | .stream _ => w
  | .regular r => fileRelease (some r.file) w
  | .null f _ _ => fileRelease (some f) w
  | .directory _ _ => w
  | .pipeRead p => if (w.pipe p).readers = 0 ∧ (w.pipe p).writers = 0 then freePipe p w else w
  | .pipeWrite p => if (w.pipe p).readers = 0 ∧ (w.pipe p).writers = 0 then freePipe p w else w

def ofdRelease (o : Nat) (w : World) : World :=
  let ofd := w.ofd o
  let w := w.setOfd o fun ofd => { ofd with refCount := ofd.refCount - 1 }
  if 0 < ofd.refCount - 1 then w
  else (ofd.kind.release w).setStatus ofd.status fun status =>
    { status with refs := status.refs - 1 }

/-- A further descriptor for a description. -/
def retainOfd (o : Nat) (w : World) : World :=
  let w := w.setOfd o fun ofd => { ofd with refCount := ofd.refCount + 1 }
  (w.ofd o).kind.countEnds 1 w

variable (k : Nat)

def setFd (fd : Fin fdMax) (entry : Option FdEntry) (w : World) : World :=
  w.setKernel k fun kernel => { kernel with fds := Function.update kernel.fds fd entry }

def kernelFindFreeFd (w : World) (k : Nat) (start : Nat) : Option (Fin fdMax) :=
  allFds.find? fun fd => start ≤ fd.val && ((w.kernel k).fds fd).isNone

/-! ## Calls -/

/-- The descriptor and the entry that a call names. -/
def openFd (fd : Int) : KernelM (Fin fdMax × FdEntry) :=
  match fdValid fd with
  | none => throw .einval
  | some i => do
    match ((← get).kernel k).fds i with
    | none => throw .ebadf
    | some entry => return (i, entry)

def newPipe : Pipe :=
  { buffer := [], capacity := pipeCapacity, readers := 1, writers := 1, allocated := true }

/-- The part of `posix_kernel_pipe` that allocates; the answers are the two
descriptions. -/
def pipeAlloc : KernelM (Nat × Nat) := do
  allocateOr .enomem
  allocateOr .enomem
  let p ← fresh
  modify fun w => w.setPipe p fun _ => newPipe
  let rofd ← tryCatch (ofdAlloc (.pipeRead p) 0) fun e => do
    modify (freePipe p)
    throw e
  let wofd ← tryCatch (ofdAlloc (.pipeWrite p) oWronly) fun e => do
    modify fun w => w.setPipe p fun pipe => { pipe with readers := 0, writers := 0 }
    modify (ofdRelease rofd)
    throw e
  return (rofd, wofd)

/-- `posix_kernel_pipe`. -/
def kernelPipe : KernelM (Fin fdMax × Fin fdMax) := do
  let w ← get
  match kernelFindFreeFd w k 0 with
  | none => throw .emfile
  | some rfd =>
    match kernelFindFreeFd w k (rfd + 1) with
    | none => throw .emfile
    | some wfd => do
      let (rofd, wofd) ← pipeAlloc
      modify (setFd k rfd (some { ofd := rofd, cloexec := false }))
      modify (setFd k wfd (some { ofd := wofd, cloexec := false }))
      return (rfd, wfd)

/-- The end of `posix_kernel_close`: the entry goes, with its share in the counts. -/
def dropFd (fd : Fin fdMax) (o : Nat) (w : World) : World :=
  ofdRelease o (pipeCountDec o (setFd k fd none w))

/-- Closing a descriptor of a file releases the locks of the process on it. -/
def releaseLocks (k o : Nat) (w : World) : World :=
  match (w.ofd o).kind with
  | .regular r => recordReleaseFile (w.kernel k).lockOwner r.file w
  | _ => w

/-- `posix_kernel_close`. -/
def kernelClose (fd : Int) : KernelM Unit := do
  let (i, entry) ← openFd k fd
  modify (releaseLocks k entry.ofd)
  modify (dropFd k i entry.ofd)

/-- `posix_kernel_dupfd`. -/
def kernelDupfd (oldfd minfd : Int) (cloexec : Bool) : KernelM (Fin fdMax) :=
  if minfd < 0 then throw .einval
  else do
    let (_, entry) ← openFd k oldfd
    match kernelFindFreeFd (← get) k minfd.toNat with
    | none => throw .emfile
    | some newfd => do
      modify (retainOfd entry.ofd)
      modify (setFd k newfd (some { ofd := entry.ofd, cloexec }))
      return newfd

/-- `posix_kernel_dup`. -/
def kernelDup (oldfd : Int) : KernelM (Fin fdMax) := kernelDupfd k oldfd 0 false

/-- `posix_kernel_dup2`. -/
def kernelDup2 (oldfd newfd : Int) : KernelM Unit :=
  match fdValid newfd with
  | none => throw .einval
  | some j => do
    let (i, entry) ← openFd k oldfd
    if i = j then return
    else do
      attempt (kernelClose k newfd)
      modify (retainOfd entry.ofd)
      modify (setFd k j (some { ofd := entry.ofd, cloexec := false }))

/-- `posix_kernel_set_cloexec`. -/
def kernelSetCloexec (fd : Int) (enabled : Int) : KernelM Unit := do
  match fdValid fd with
  | none => throw .ebadf
  | some i =>
    match ((← get).kernel k).fds i with
    | none => throw .ebadf
    | some entry =>
      if enabled ≠ 0 ∧ enabled ≠ 1 then throw .einval
      else modify (setFd k i (some { entry with cloexec := enabled ≠ 0 }))

/-- What `F_SETFL` may change. -/
def OfdStatus.setFlags (flags : BitVec 32) (status : OfdStatus) : OfdStatus :=
  { status with
    flags := (status.flags &&& ~~~(oAppend ||| oNonblock)) ||| (flags &&& (oAppend ||| oNonblock)) }

/-- `posix_kernel_set_status_flags`. -/
def kernelSetStatusFlags (fd : Int) (flags : BitVec 32) : KernelM Unit := do
  match (← get).entry k fd with
  | none => throw .ebadf
  | some entry => modify fun w => w.setStatus (w.ofd entry.ofd).status (.setFlags flags)

/-- Close the descriptors of a list that `which` picks. -/
def closeEach (k : Nat) (which : FdEntry → Bool) : List (Fin fdMax) → KernelM Unit
  | [] => pure ()
  | fd :: rest => do
    match ((← get).kernel k).fds fd with
    | none => closeEach k which rest
    | some entry =>
      if which entry then do
        attempt (kernelClose k fd)
        closeEach k which rest
      else closeEach k which rest

/-- `posix_kernel_close_on_exec`. -/
def kernelCloseOnExec : KernelM Unit := closeEach k (·.cloexec) allFds

/-- `posix_kernel_close_all_fds`, which a process calls when it exits. -/
def kernelCloseAllFds : KernelM Unit := do
  modify (cancelWait k)
  closeEach k (fun _ => true) allFds

/-! ## Kernels -/

/-- `posix_shm_namespace_release`. -/
def shmNamespaceRelease (n : Nat) (w : World) : World :=
  let shm := w.shm n
  if shm.refs = 0 then w
  else
    let w := w.setShm n fun shm => { shm with refs := shm.refs - 1 }
    if 0 < shm.refs - 1 then w
    else shm.objects.foldl (fun w object => fileRelease (some object.file) w) w

/-- One descriptor of `posix_kernel_destroy`, which releases no record. -/
def destroyFd (w : World) (fd : Fin fdMax) : World :=
  match (w.kernel k).fds fd with
  | none => w
  | some entry => dropFd k fd entry.ofd w

/-- `posix_kernel_destroy`. -/
def kernelDestroy (w : World) : World :=
  let w := cancelWait k w
  let w := allFds.foldl (destroyFd k) w
  let kernel := w.kernel k
  let w := kernel.pathNodes.foldl (fun w node => fileRelease node.file w) w
  let w := w.setInodes kernel.inodeSequence fun inodes => { inodes with refs := inodes.refs - 1 }
  let w := shmNamespaceRelease kernel.shmNamespace w
  let w := lockOwnerRelease kernel.lockOwner w
  w.setKernel k fun kernel => { kernel with live := false, pathNodes := [] }

/-- The entry of the pathname table that a description names. -/
def Description.node : Description → Option Nat
  | .regular r => r.node
  | .directory node _ => node
  | _ => none

/-- Descriptions that the copy of a kernel gets copies of. -/
def Description.copied : Description → Bool
  | .regular _ => true
  | .directory _ _ => true
  | _ => false

def Description.copiedFile : Description → Option Nat
  | .regular r => some r.file
  | _ => none

/-- The copy of a regular or directory description. -/
def copyOfd (o : Nat) : KernelM Nat := do
  let shared := (← get).ofd o
  if ((← get).status shared.status).refs = uint32Max then throw .enomem
  else do
    allocateOr .enomem
    let copy ← fresh
    modify fun w => w.setOfd copy fun _ => { shared with refCount := 1 }
    modify fun w => w.setStatus shared.status fun status => { status with refs := status.refs + 1 }
    modify (fileRetain shared.kind.copiedFile)
    return copy

/-- The entry of the pathname table that a description names must be there. -/
def nodeInTable (w : World) (source : Nat) (kind : Description) : Bool :=
  match kind.node with
  | none => true
  | some index => index < (w.kernel source).pathNodes.length

/-- The loop of `posix_kernel_clone` over the descriptors.  `copies` says which
descriptions have been copied already, and to which. -/
def cloneFds (source clone : Nat) : List (Fin fdMax) → List (Nat × Nat) → KernelM Unit
  | [], _ => pure ()
  | fd :: rest, copies => do
    let w ← get
    match (w.kernel source).fds fd with
    | none => cloneFds source clone rest copies
    | some entry =>
      let kind := (w.ofd entry.ofd).kind
      if !kind.copied then do
        modify (retainOfd entry.ofd)
        modify (setFd clone fd (some entry))
        cloneFds source clone rest copies
      else if !nodeInTable w source kind then throw .enomem
      else
        match copies.lookup entry.ofd with
        | some copy => do
          modify (retainOfd copy)
          modify (setFd clone fd (some { entry with ofd := copy }))
          cloneFds source clone rest copies
        | none => do
          let copy ← copyOfd entry.ofd
          modify (setFd clone fd (some { entry with ofd := copy }))
          cloneFds source clone rest ((entry.ofd, copy) :: copies)

/-- What `posix_kernel_clone` copies of a kernel before it comes to the
descriptors. -/
def PosixKernel.forClone (kernel : PosixKernel) : PosixKernel :=
  { kernel with
    fds := fun _ => none
    wait := { kernel.wait with active := false, readMinimum := 0, lockFile := none }
    pendingSignals := 0
    deliveredSignal := 0 }

/-- The counted objects that the copy of a kernel shares with it. -/
def retainShared (kernel : PosixKernel) (w : World) : World :=
  let w := w.setOwner kernel.lockOwner fun owner => { owner with refs := owner.refs + 1 }
  let w := w.setShm kernel.shmNamespace fun shm =>
    if shm.refs = uint32Max then shm else { shm with refs := shm.refs + 1 }
  let w := w.setInodes kernel.inodeSequence fun inodes => { inodes with refs := inodes.refs + 1 }
  kernel.pathNodes.foldl (fun w node => fileRetain node.file w) w

/-- `posix_kernel_clone`. -/
def kernelClone (source : Nat) : KernelM Nat := do
  let w ← get
  let kernel := w.kernel source
  if (w.owner kernel.lockOwner).refs = uint32Max then throw .enomem
  else do
    allocateOr .enomem
    let clone ← fresh
    modify fun w => w.setKernel clone fun _ => kernel.forClone
    modify (retainShared kernel)
    tryCatch (cloneFds source clone allFds []) fun e => do
      modify (kernelDestroy clone)
      throw e
    return clone

def replaceOwner (k old new : Nat) (pid : Int) (w : World) : World :=
  let w := w.setOwner new fun _ => { refs := 1, pid, records := [], waitingKernel := none }
  (lockOwnerRelease old (cancelWait k w)).setKernel k fun kernel => { kernel with lockOwner := new }

/-- `posix_kernel_set_lock_pid`. -/
def kernelSetLockPid (pid : Int) : KernelM Unit :=
  if pid ≤ 0 then throw .einval
  else do
    let w ← get
    let old := (w.kernel k).lockOwner
    if (w.owner old).pid = pid then return
    else do
      allocateOr .enomem
      let new ← fresh
      modify (replaceOwner k old new pid)

/-- The kernel side of `native_store_fork_process`. -/
def forkKernel (pid : Int) : KernelM Nat := do
  let child ← kernelClone k
  modify fun w => w.setKernel child fun kernel => { kernel with alarmActive := false }
  tryCatch (kernelSetLockPid child pid) fun _ => do
    modify (kernelDestroy child)
    throw .enomem
  return child

/-! ## Rules for the loops -/

variable {P : World → Prop}

theorem allocate_view {V : Type} {view : World → V}
    (h : ∀ w n, view { w with requests := n } = view w) : Fixes view allocate :=
  .get_set (fun w => h w _) fun _ => .pure _

theorem allocateOr_view {V : Type} {view : World → V}
    (h : ∀ w n, view { w with requests := n } = view w) {e : Errno} :
    Fixes view (allocateOr e) := by
  refine .bind (allocate_view h) fun granted => ?_
  cases granted
  · exact .throw e
  · exact .pure _

theorem openFd_keeps {k : Nat} {fd : Int} : Keeps P (openFd k fd) := by
  unfold openFd
  split
  · exact .throw _
  · refine .get_bind fun w _ => ?_
    split
    · exact .throw _
    · exact .pure _

theorem closeEach_keeps {k : Nat} (h : ∀ fd, Keeps P (kernelClose k fd)) {which : FdEntry → Bool}
    {l : List (Fin fdMax)} : Keeps P (closeEach k which l) := by
  induction l with
  | nil => exact .pure _
  | cons _ _ ih =>
    refine .get_bind fun w hw => ?_
    split
    · exact ih
    · exact .ite (fun _ => .bind (.tryCatch (h _) fun _ => .pure _) fun _ => ih) fun _ => ih

/-- The changes that the copy of a kernel gets its descriptors by. -/
structure Copying (P : World → Prop) (clone : Nat) : Prop where
  allocateOr : Keeps P (allocateOr .enomem)
  fresh : Keeps P fresh
  setOfd : ∀ o f w, P w → P (w.setOfd o f)
  setStatus : ∀ o f w, P w → P (w.setStatus o f)
  fileRetain : ∀ file w, P w → P (fileRetain file w)
  retainOfd : ∀ o w, P w → P (retainOfd o w)
  setFd : ∀ fd entry w, P w → P (setFd clone fd entry w)

theorem Copying.copyOfd {clone : Nat} (h : Copying P clone) (o : Nat) : Keeps P (copyOfd o) := by
  refine .get_bind fun w _ => .get_bind fun w' _ => ?_
  refine .ite (fun _ => .throw _) fun _ => ?_
  refine .bind h.allocateOr fun _ => .bind h.fresh fun copy => ?_
  refine .bind (.modify fun w hw => h.setOfd _ _ w hw) fun _ => ?_
  refine .bind (.modify fun w hw => h.setStatus _ _ w hw) fun _ => ?_
  exact .bind (.modify (h.fileRetain _)) fun _ => .pure _

theorem Copying.cloneFds {clone : Nat} (h : Copying P clone) (source : Nat) (l : List (Fin fdMax))
    (copies : List (Nat × Nat)) : Keeps P (cloneFds source clone l copies) := by
  induction l generalizing copies with
  | nil => exact .pure _
  | cons fd rest ih =>
    have hshare : ∀ o entry, Keeps P (do
        modify (Kernel.retainOfd o)
        modify (Kernel.setFd clone fd entry)
        Kernel.cloneFds source clone rest copies : KernelM Unit) := fun o entry =>
      .bind (.modify (h.retainOfd o)) fun _ =>
        .bind (.modify (h.setFd fd entry)) fun _ => ih copies
    refine .get_bind fun w _ => ?_
    split
    · exact ih copies
    refine .ite (fun _ => hshare _ _) fun _ => .ite (fun _ => .throw _) fun _ => ?_
    split
    · exact hshare _ _
    · exact .bind (h.copyOfd _) fun _ => .bind (.modify (h.setFd fd _)) fun _ => ih _

end Waste.Kernel
