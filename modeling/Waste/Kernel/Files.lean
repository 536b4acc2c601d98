import Waste.Lib.Coalesce
import Waste.Kernel.State

/-!
# File objects and record locks

The counted file objects of `lib/kernel.c` with their charge in the resource budget
(`lib/include/resource.h`), and the records of process-associated advisory locks that
live on them.

A record is in two lists of the source, the one of its file and the one of its owner,
so `recordRemove` takes it out of both.
-/

namespace Waste.Kernel

open StateExcept

/-! ## The budget -/

def Budget.refuse (budget : Budget) : Budget := { budget with exhausted := true }

def Budget.charge (amount : Nat) (budget : Budget) : Budget :=
  { budget with
    fileBytes := budget.fileBytes + amount
    filePeak := max budget.filePeak (budget.fileBytes + amount) }

def Budget.refund (amount : Nat) (budget : Budget) : Budget :=
  { budget with fileBytes := budget.fileBytes - amount }

/-- `waste_resource_reserve` for `WASTE_RESOURCE_FILESYSTEM`. -/
def resourceReserve (budget : Option Nat) (amount : Nat) (w : World) : Bool × World :=
  match budget with
  | none => (true, w)
  | some b =>
    let now := w.budget b
    if amount = 0 then (true, w)
    else if now.fileLimit < now.fileBytes ∨ now.fileLimit - now.fileBytes < amount then
      (false, w.setBudget b .refuse)
    else (true, w.setBudget b (.charge amount))

/-- `waste_resource_release` for `WASTE_RESOURCE_FILESYSTEM`. -/
def resourceRelease (budget : Option Nat) (amount : Nat) (w : World) : World :=
  match budget with
  | none => w
  | some b => w.setBudget b (.refund amount)

/-! ## File objects -/

/-- The byte after the target of a symbolic link. -/
def FileObject.extra (object : FileObject) : Nat :=
  if object.metadata.kind = .symlink then 1 else 0

/-- Bytes that are cut or padded with zeros. -/
def resized (data : List UInt8) (size : Nat) : List UInt8 :=
  data.take size ++ List.replicate (size - data.length) 0

def FileObject.store (size allocated : Nat) (object : FileObject) : FileObject :=
  { object with data := resized object.data size, resourceBytes := allocated }

/-- The end of `file_object_resize`, when there is room: what is no longer needed goes
back to the budget. -/
def fileObjectStore (f size : Nat) (w : World) : World :=
  let object := w.file f
  let allocated := size + object.extra
  (resourceRelease object.resources (object.resourceBytes - allocated) w).setFile f
    (.store size allocated)

/-- `file_object_resize`; the answer is whether it succeeded. -/
def fileObjectResize (f size : Nat) : KernelM Bool := do
  let w ← get
  let object := w.file f
  if 2 ^ w.sizeBits - 1 - object.extra < size then return false
  else do
    let added := size + object.extra - object.resourceBytes
    set (resourceReserve object.resources added w).2
    if !(resourceReserve object.resources added w).1 then return false
    else do
      let granted ← allocate
      if !granted ∧ size + object.extra ≠ 0 then do
        modify (resourceRelease object.resources added)
        return false
      else do
        modify (fileObjectStore f size)
        return true

/-- `posix_file_object_retain`. -/
def fileRetain (file : Option Nat) (w : World) : World :=
  match file with
  | none => w
  | some f =>
    if (w.file f).refs = uint32Max then w
    else w.setFile f fun object => { object with refs := object.refs + 1 }

/-- `posix_kernel_file_release`. -/
def fileRelease (file : Option Nat) (w : World) : World :=
  match file with
  | none => w
  | some f =>
    let object := w.file f
    if object.refs = 0 then w
    else
      let w := w.setFile f fun object => { object with refs := object.refs - 1 }
      if 0 < object.refs - 1 then w else resourceRelease object.resources object.resourceBytes w

/-! ## Records -/

def recordRemove (f : Nat) (record : RecordLock) (w : World) : World :=
  let w := w.setFile f fun object =>
    { object with locks := object.locks.erase record, lockCount := object.lockCount - 1 }
  let w := w.setOwner record.owner fun owner =>
    { owner with records := owner.records.erase (f, record) }
  fileRelease (some f) w

def lockOwnerRelease (o : Nat) (w : World) : World :=
  let w := w.setOwner o fun owner => { owner with refs := owner.refs - 1 }
  if (w.owner o).refs ≠ 0 then w
  else (w.owner o).records.foldl (fun w entry => recordRemove entry.1 entry.2 w) w

def recordReleaseFile (o f : Nat) (w : World) : World :=
  ((w.file f).locks.filter (·.owner = o)).foldl (fun w record => recordRemove f record w) w

def recordOverlap (first last : Nat) (record : RecordLock) : Bool :=
  first ≤ record.last && record.first ≤ last

/-- The test of `record_conflict`, which `record_wait_cycle` and the deadlock check
repeat. -/
def RecordLock.conflicts (record : RecordLock) (o : Nat) (type : LockType)
    (first last : Nat) : Bool :=
  record.owner ≠ o && recordOverlap first last record && (type = .wrlck || record.type = .wrlck)

def recordConflict (locks : List RecordLock) (o : Nat) (type : LockType)
    (first last : Nat) : Option RecordLock :=
  locks.find? (·.conflicts o type first last)

/-! ## Replacing the records of a range -/

/-- What the first loop of `record_replace` adds for one old record of the owner, in
the order in which it adds it. -/
def pieces (first last : Nat) (old : RecordLock) : List RecordLock :=
  if !recordOverlap first last old then [old]
  else
    (if old.first < first then [{ old with last := first - 1 }] else []) ++
      if last < old.last then [{ old with first := last + 1 }] else []

/-- The private list before coalescing.  `record_pending_add` puts a record in front. -/
def pendingRecords (locks : List RecordLock) (o : Nat) (type : LockType) (first last : Nat) :
    List RecordLock :=
  let kept := ((locks.filter (·.owner = o)).flatMap (pieces first last)).reverse
  if type = .unlck then kept else { owner := o, first, last, type } :: kept

/-- Two records of one type that overlap or are adjacent. -/
def RecordLock.touches (one two : RecordLock) : Bool :=
  one.type = two.type && (one.last = uint64Max || two.first ≤ one.last + 1) &&
    (two.last = uint64Max || one.first ≤ two.last + 1)

def RecordLock.join (one two : RecordLock) : RecordLock :=
  { one with first := min one.first two.first, last := max one.last two.last }

/-- The nested loop of the coalescing: a record takes in what it touches and starts again
behind itself after each one. -/
def coalesceRecords (pending : List RecordLock) : List RecordLock :=
  Coalesce.coalesce RecordLock.touches RecordLock.join pending.length pending

/-- Publish a prepared record: it goes to the front of both lists. -/
def recordPublish (f : Nat) (w : World) (record : RecordLock) : World :=
  let w := fileRetain (some f) w
  let w := w.setFile f fun object =>
    { object with locks := record :: object.locks, lockCount := object.lockCount + 1 }
  w.setOwner record.owner fun owner => { owner with records := (f, record) :: owner.records }

/-- One allocation for each record of the private list. -/
def allocateRecords : List RecordLock → KernelM Unit
  | [] => pure ()
  | _ :: rest => do
    allocateOr .enolck
    allocateRecords rest

def recordReplace (f o : Nat) (type : LockType) (first last : Nat) : KernelM Unit := do
  let object := (← get).file f
  let pending := pendingRecords object.locks o type first last
  allocateRecords pending
  let others := (object.locks.filter (·.owner ≠ o)).length
  let pending := coalesceRecords pending
  if recordLockMax < pending.length ∨ recordLockMax - pending.length < others ∨
      uint32Max - pending.length < object.refs then
    throw .enolck
  else do
    modify (recordReleaseFile o f)
    modify fun w => pending.foldl (recordPublish f) w

end Waste.Kernel
