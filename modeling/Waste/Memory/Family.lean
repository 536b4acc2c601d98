import Waste.Memory.Flat

/-!
# Families of processes

The memories of a process and of the processes forked from it.  Process `m` has the
memory `m` of the store; the processes are numbered from 1.  The memory half of
`exec_clone_engine` is `cloneMemory`, and `guest_posix_mmap` is `guestMmap` from the
point on where `native_process_capsule_mmap_range` has found the first page.

The pages that `native_store_shared_file_page` keeps are referenced from an array of
their own.  It is the page table of memory 0 here, which belongs to no process.

`anonymous` records history and is read by no function: the pages that are mapped
`MAP_SHARED` and were not given a file page.
-/

namespace Waste.Memory

open RangeMap StateExcept SharedPages

structure Family where
  store : Store
  count : Nat
  files : List (Nat × Nat)
  anonymous : Nat × Nat → Bool

def Family.Live (F : Family) (m : Nat) : Prop :=
  1 ≤ m ∧ m ≤ F.count

instance (F : Family) (m : Nat) : Decidable (F.Live m) :=
  inferInstanceAs (Decidable (_ ∧ _))

/-- A place of no process and of no kept file page. -/
def Family.Vacant (F : Family) (x : Nat × Nat) : Prop :=
  F.count < x.1 ∨ x.1 = 0 ∧ F.files.length ≤ x.2

theorem Family.Live.ne_vacant {F : Family} {m : Nat} (hm : F.Live m) (page : Nat) {x : Nat × Nat}
    (hx : F.Vacant x) : x ≠ (m, page) := by
  rintro rfl
  have hlive : 1 ≤ m ∧ m ≤ F.count := hm
  have hvacant : F.count < m ∨ m = 0 ∧ _ := hx
  omega

abbrev FamM (α : Type) := Comp Family ExecError α

/-- A program on the memories. -/
def onStore {α : Type} (c : MemM α) : FamM α := do
  let F ← get
  set { F with store := (exec c F.store).2 }
  require (exec c F.store).1

@[simp] theorem exec_onStore {α : Type} (c : MemM α) (F : Family) :
    exec (onStore c) F = ((exec c F.store).1, { F with store := (exec c F.store).2 }) := by
  simp only [onStore, exec_bind, exec_get, exec_set, exec_require]

/-! ## Fork -/

/-- The page tables, protections and mappings of memory `m` for memory `n`, with a
reference for every page. -/
def cloneMemory (m n : Nat) (s : Store) : Store :=
  let source := s.memory m
  let pages := (List.range source.pages).map source.pageData
  let s := pages.foldl (fun s page => pageRetain page s) s
  setMemory n (fun _ =>
    { source with pageData := fun p => if p < source.pages then source.pageData p else none }) s

/-- The memory part of a fork; the child is the next process. -/
def forkMemory (m : Nat) : FamM Unit := do
  onStore (allocateOr "engine clone allocation failed")
  modify fun F =>
    { F with
      store := cloneMemory m (F.count + 1) F.store
      count := F.count + 1
      anonymous := fun x => if x.1 = F.count + 1 then F.anonymous (m, x.2) else F.anonymous x }

/-! ## Mapping -/

def setAnonymous (m first count : Nat) (value : Bool) (F : Family) : Family :=
  { F with anonymous := fun x =>
      if Flat.inWindow m first (first + count) x then value else F.anonymous x }

def mapPages (m first count : Nat) (protection flags : UInt8) : FamM Unit := do
  onStore (memoryMapPages m first count protection flags)
  if flags &&& mappingShared ≠ 0 then modify (setAnonymous m first count true)

def unmapPages (m first count : Nat) : FamM Unit := do
  onStore (memoryUnmapPages m first count)
  modify (setAnonymous m first count false)

/-- `native_store_shared_file_page`: the place of a file page in the array of kept
pages.  A page that is not there yet gets the bytes that the file has. -/
def sharedFilePage (key : Nat × Nat) (bytes : Nat → UInt8) : FamM Nat := do
  let F ← get
  match F.files.findIdx? (· = key) with
  | some k => pure k
  | none =>
    onStore (allocateOr "shared file page table allocation failed")
    let page ← onStore pageAllocate
    modify fun F =>
      { F with
        store := setPageData 0 F.files.length (some page)
          (setPage page (fun p => { p with bytes := bytes }) F.store)
        files := F.files ++ [key] }
    pure F.files.length

/-- `exec_memory_bind_shared_page`. -/
def bindSharedPage (m pageIndex k : Nat) : FamM Unit := do
  let F ← get
  if pageIndex ≥ (F.store.memory m).pages then
    throw ⟨.trap, "shared memory page binding invalid", .none, 0, 0, 0⟩
  else
    let page := (F.store.memory 0).pageData k
    let s := markShared page (pageRetain page F.store)
    set { F with
      store := setPageData m pageIndex page (pageRelease ((s.memory m).pageData pageIndex) s)
      anonymous := fun x => if x = (m, pageIndex) then false else F.anonymous x }

/-- `exec_memory_mark_shared_pages`. -/
def markSharedPages (m first count : Nat) : MemM Unit := do
  let memory := (← get).memory m
  if outsidePages memory first count then execFail .trap "shared memory range invalid"
  else modify fun s =>
    ((List.range' first count).map memory.pageData).foldl (fun s page => markShared page s) s

def clearDirty : Option Nat → Store → Store
  | none => id
  | some id => setPage id fun page => { page with dirty := false }

/-- `exec_memory_clear_dirty_pages`. -/
def clearDirtyPages (m first count : Nat) : MemM Unit := do
  let memory := (← get).memory m
  if outsidePages memory first count then execFail .trap "dirty memory range invalid"
  else modify fun s =>
    ((List.range' first count).map memory.pageData).foldl (fun s page => clearDirty page s) s

/-- What is mapped. -/
inductive MapSource
  | anonymous (count : Nat) (shared : Bool)
  | file (pages : List (List UInt8))
  | sharedFile (pages : List ((Nat × Nat) × (Nat → UInt8)))

def MapSource.count : MapSource → Nat
  | .anonymous count _ => count
  | .file pages => pages.length
  | .sharedFile pages => pages.length

def MapSource.shared : MapSource → Bool
  | .anonymous _ shared => shared
  | .file _ => false
  | .sharedFile _ => true

def mapFlags (shared fixed : Bool) : UInt8 :=
  (if shared then mappingShared else 0) ||| (if fixed then mappingFixedNoreplace else 0)

/-- The pages of a private file mapping are written. -/
def loadPages (m : Nat) : Nat → List (List UInt8) → FamM Unit
  | _, [] => pure ()
  | page, bytes :: rest => do
    onStore (memoryWrite m (page * execPageSize) bytes)
    loadPages m (page + 1) rest

/-- The pages of a shared file mapping are bound to the kept pages. -/
def bindPages (m : Nat) : Nat → List ((Nat × Nat) × (Nat → UInt8)) → FamM Unit
  | _, [] => pure ()
  | page, (key, bytes) :: rest => do
    let k ← sharedFilePage key bytes
    bindSharedPage m page k
    bindPages m (page + 1) rest

/-- What `guest_posix_mmap` does with the pages it has mapped. -/
def fillMapping (m first : Nat) (protection : UInt8) : MapSource → FamM Unit
  | .anonymous count _ =>
    if protection ≠ (protRead ||| protWrite) then
      onStore (memorySetProtection m first count protection)
    else pure ()
  | .file pages => do
    loadPages m first pages
    onStore (memorySetProtection m first pages.length protection)
    onStore (clearDirtyPages m first pages.length)
  | .sharedFile pages => do
    bindPages m first pages
    onStore (memorySetProtection m first pages.length protection)
    onStore (markSharedPages m first pages.length)
    onStore (clearDirtyPages m first pages.length)

/-- `native_process_capsule_record_file_mapping`, as far as it may find no memory. -/
def recordMapping : MapSource → MemM Unit
  | .anonymous _ _ => pure ()
  | _ => allocateOr "file mapping allocation failed"

/-- `guest_posix_mmap`: map, fill and record, and unmap again if that fails.  Whether the last
step succeeds is not looked at. -/
def guestMmap (m first : Nat) (protection : UInt8) (fixed : Bool) (source : MapSource) :
    FamM Unit := do
  mapPages m first source.count (protection ||| protWrite) (mapFlags source.shared fixed)
  tryCatch (do fillMapping m first protection source; onStore (recordMapping source)) fun e => do
    tryCatch (unmapPages m first source.count) fun _ => pure ()
    throw e

/-! ## Runs -/

/-- What a process does. -/
inductive Call
  | access (op : GuestOp)
  | grow (add : Nat)
  | reserve (pages : Nat)
  | mmap (first : Nat) (protection : UInt8) (fixed : Bool) (source : MapSource)
  | munmap (first count : Nat)
  | mprotect (address length : Nat) (protection : UInt8)
  | fork

/-- The memory that an instruction reads from. -/
def GuestOp.origin : GuestOp → Nat
  | .copy _ _ src _ _ => src
  | op => op.target

/-- The instruction accesses no other memory. -/
def GuestOp.within (m : Nat) (op : GuestOp) : Bool :=
  op.target = m ∧ op.origin = m

def Call.comp (m : Nat) : Call → FamM (List UInt8)
  | .access op => onStore op.comp
  | .grow add => do let _ ← onStore (executeMemoryGrow m add); pure []
  | .reserve pages => do onStore (memoryReserveVirtualPages m pages); pure []
  | .mmap first protection fixed source => do guestMmap m first protection fixed source; pure []
  | .munmap first count => do unmapPages m first count; pure []
  | .mprotect address length protection => do
      let _ ← onStore (processCapsuleMprotectRange m address length protection); pure []
  | .fork => do forkMemory m; pure []

/-- The call accesses no other memory. -/
def Call.within (m : Nat) : Call → Bool
  | .access op => op.within m
  | _ => true

def Family.step (F : Family) (m : Nat) (call : Call) : Family :=
  if F.Live m ∧ call.within m then (exec (call.comp m) F).2 else F

def Family.run : List (Nat × Call) → Family → Family
  | [], F => F
  | (m, call) :: calls, F => Family.run calls (F.step m call)

/-- One process with a new memory that is bound to it. -/
structure Family.Initial (F : Family) : Prop where
  bound : ∃ s check, Fresh s ∧ F.store = Waste.Memory.step (.bind 1 check) s
  count : F.count = 1
  files : F.files = []
  anonymous : F.anonymous = fun _ => false

end Waste.Memory
