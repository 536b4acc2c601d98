import Waste.Lib.RangeMap
import Waste.Lib.StateExcept

/-!
# Process memories

The memory half of `op/execute_memory.c`, with
`native_process_capsule_mprotect_range` and
`native_process_bind_engine_memory` from `process.c` and
`wasm_instance_allocate_memory` from `instantiate.c`.

A memory has three views of its pages that have to agree: the sorted list of
mappings, the protection byte of every page, and the backing page of every
page.  A page without backing reads as zeros until the first write.  Backing
pages are objects with a reference count that several memories can share, so
they live in the store and a memory holds their numbers.

The arrays `page_data` and `page_protection` are functions here; only the
positions below `pages` have a meaning.  The three loops that rebuild the
mapping list (`exec_memory_unmap_pages`, `exec_memory_set_protection` and
`build_shared_mapping`) differ only in what they do with the part of an old
mapping inside the window, so each is `RangeMap.carve` with its own relabelling.

Every allocation asks the store's `granted`, so a statement about all stores
covers every pattern of allocation failures.
-/

namespace Waste.Memory

open Function RangeMap StateExcept

/-! ## Constants -/

def execPageSize : Nat := 65536
def execMem32MaxPages : Nat := 65536
def execMem64MaxPages : Nat := 0x1000000000000
def uint32Max : Nat := 2 ^ 32 - 1
def uint64Max : Nat := 2 ^ 64 - 1

/-- `SIZE_MAX` and `sizeof(void *)` of a 64-bit host. -/
def sizeMax : Nat := 2 ^ 64 - 1
def pointerSize : Nat := 8

def protRead : UInt8 := 1
def protWrite : UInt8 := 2
def protExec : UInt8 := 4
def mappingShared : UInt8 := 1
def mappingFixedNoreplace : UInt8 := 2

/-! ## Data -/

inductive ExecStatus
  | format | trap | resource
deriving DecidableEq, Repr

inductive FaultKind
  | none | outOfRange | unmapped | protection | fileTruncated
deriving DecidableEq, Repr

/-- The part of `exec_error` that the memory functions fill in. -/
structure ExecError where
  status : ExecStatus
  message : String
  memoryFault : FaultKind := .none
  memoryFaultAddress : Nat := 0
  memoryFaultLength : Nat := 0
  memoryFaultAccess : UInt8 := 0
deriving DecidableEq, Repr

/-- Protection and flags of an `exec_memory_mapping`. -/
structure Attributes where
  protection : UInt8
  flags : UInt8
deriving DecidableEq, Repr

abbrev Mapping := RangeMap.Range Attributes

structure MemoryPage where
  bytes : Nat → UInt8
  refs : Nat
  shared : Bool
  dirty : Bool

structure ExecMemory where
  pageData : Nat → Option Nat
  pageProtection : Nat → UInt8
  mappings : List Mapping
  pages : Nat
  linearPages : Nat
  maxPages : Nat
  virtualMaxPages : Nat
  hasMax : Bool
  is64 : Bool
  processVirtualMemory : Bool
  accessCheck : Option (Nat → Nat → UInt8 → Option ExecError)

structure Store where
  memory : Nat → ExecMemory
  page : Nat → MemoryPage
  nextPage : Nat
  granted : Nat → Bool
  requests : Nat

abbrev MemM (α : Type) := Comp Store ExecError α

def execFail {α : Type} (status : ExecStatus) (message : String) : MemM α :=
  throw { status, message }

def memoryFault (kind : FaultKind) (address length : Nat) (access : UInt8)
    (message : String) : ExecError :=
  { status := .trap, message, memoryFault := kind, memoryFaultAddress := address,
    memoryFaultLength := length, memoryFaultAccess := access }

/-! ## Allocation and backing pages -/

/-- One call of the allocator or of the resource budget. -/
def allocate : MemM Bool := do
  let s ← get
  set { s with requests := s.requests + 1 }
  pure (s.granted s.requests)

/-- Ask for metadata memory, or fail with `message`. -/
def allocateOr (message : String) : MemM Unit := do
  if ← allocate then pure () else execFail .resource message

def setMemory (m : Nat) (f : ExecMemory → ExecMemory) (s : Store) : Store :=
  { s with memory := update s.memory m (f (s.memory m)) }

def setPage (id : Nat) (f : MemoryPage → MemoryPage) (s : Store) : Store :=
  { s with page := update s.page id (f (s.page id)) }

def setPageData (m page : Nat) (data : Option Nat) : Store → Store :=
  setMemory m fun memory =>
    { memory with pageData := update memory.pageData page data }

/-- `memset` on a range of an array. -/
def fillRange {α : Type} (f : Nat → α) (first count : Nat) (value : α) : Nat → α :=
  fun p => if first ≤ p ∧ p < first + count then value else f p

/-- `exec_memory_page_allocate`: a zero-filled page with one reference. -/
def pageAllocate : MemM Nat := do
  if ← allocate then
    let s ← get
    let id := s.nextPage
    set { s with
      nextPage := id + 1
      page := update s.page id ⟨fun _ => 0, 1, false, false⟩ }
    pure id
  else
    execFail .resource "memory page allocation failed"

def pageRelease : Option Nat → Store → Store
  | none => id
  | some id => setPage id fun page => { page with refs := page.refs - 1 }

def pageRetain : Option Nat → Store → Store
  | none => id
  | some id => setPage id fun page =>
      if page.refs ≠ uint32Max then { page with refs := page.refs + 1 } else page

def markShared : Option Nat → Store → Store
  | none => id
  | some id => setPage id fun page => { page with shared := true }

/-- `detach_memory_page`: a private copy of a page that other memories hold
too and that is not meant to be shared. -/
def detachMemoryPage (m page : Nat) : MemM Unit := do
  let s ← get
  match (s.memory m).pageData page with
  | none => pure ()
  | some old =>
    if (s.page old).refs ≤ 1 ∨ (s.page old).shared then pure ()
    else
      let copy ← pageAllocate
      modify (setPage copy fun p => { p with bytes := (s.page old).bytes })
      modify (setPage old fun p => { p with refs := p.refs - 1 })
      modify (setPageData m page (some copy))

/-- The page a write goes to: allocate it if there is none, then detach it. -/
def ownPage (m page : Nat) : MemM Unit := do
  let s ← get
  match (s.memory m).pageData page with
  | some _ => pure ()
  | none =>
    let fresh ← pageAllocate
    modify (setPageData m page (some fresh))
  detachMemoryPage m page

/-- Change `count` bytes of the backing of a page and mark it dirty. -/
def pokePage (m page inPage count : Nat) (value : Nat → UInt8) (s : Store) : Store :=
  match (s.memory m).pageData page with
  | none => s
  | some id => setPage id (fun p =>
      { p with
        bytes := fun i =>
          if inPage ≤ i ∧ i < inPage + count then value (i - inPage) else p.bytes i
        dirty := true }) s

/-! ## Checks -/

variable (memory : ExecMemory)

/-- The pages an access may touch: a process memory sees its reservation, any
other memory its linear pages. -/
def visiblePages : Nat :=
  if memory.processVirtualMemory then memory.pages else memory.linearPages

def visibleSize : Nat :=
  if visiblePages memory ≤ uint64Max / execPageSize then
    visiblePages memory * execPageSize
  else 0

def memoryRange (offset length : Nat) : Except ExecError Unit :=
  if offset > visibleSize memory ∨ length > visibleSize memory - offset ∨ offset > sizeMax then
    .error (memoryFault .outOfRange offset length 0 "out of bounds memory access")
  else .ok ()

def runAccessCheck (offset length : Nat) (access : UInt8) : Except ExecError Unit :=
  match memory.accessCheck with
  | none => .ok ()
  | some check =>
    match check offset length access with
    | none => .ok ()
    | some error => .error error

def memoryPageIsMapped (page : Nat) : Bool :=
  if page ≥ memory.pages then false else scan memory.mappings page

/-- The pages from `offset` to `offset + length - 1`. -/
def touchedPages (offset length : Nat) : List Nat :=
  if length = 0 then []
  else
    let first := offset / execPageSize
    let last := (offset + length - 1) / execPageSize
    List.range' first (last + 1 - first)

def memoryPermissions (offset length : Nat) (required : UInt8) : Except ExecError Unit :=
  match (touchedPages offset length).find? fun page =>
      (memory.pageProtection page &&& required) ≠ required with
  | none => .ok ()
  | some page =>
    if memoryPageIsMapped memory page then
      .error (memoryFault .protection offset length required "memory protection violation")
    else
      .error (memoryFault .unmapped offset length required "unmapped memory access")

/-! ## Reading and writing -/

/-- The copy loop of `exec_memory_read`; the fuel is the length. -/
def readLoop (s : Store) (m : Nat) : Nat → Nat → Nat → List UInt8
  | 0, _, _ => []
  | fuel + 1, address, length =>
    if length = 0 then []
    else
      let page := address / execPageSize
      let inPage := address % execPageSize
      let chunk := min (execPageSize - inPage) length
      (match (s.memory m).pageData page with
        | some id => (List.range chunk).map fun i => (s.page id).bytes (inPage + i)
        | none => List.replicate chunk 0) ++
      readLoop s m fuel (address + chunk) (length - chunk)

def memoryRead (m offset length : Nat) : MemM (List UInt8) := do
  let s ← get
  require (memoryRange (s.memory m) offset length)
  require (runAccessCheck (s.memory m) offset length protRead)
  require (memoryPermissions (s.memory m) offset length protRead)
  pure (readLoop s m length offset length)

/-- The copy loop of `exec_memory_write`; the fuel is the length. -/
def writeLoop (m : Nat) : Nat → Nat → List UInt8 → MemM Unit
  | 0, _, _ => pure ()
  | fuel + 1, address, source =>
    if source.length = 0 then pure ()
    else do
      let page := address / execPageSize
      let inPage := address % execPageSize
      let chunk := min (execPageSize - inPage) source.length
      ownPage m page
      modify (pokePage m page inPage chunk fun i => source.getD i 0)
      writeLoop m fuel (address + chunk) (source.drop chunk)

def memoryWrite (m offset : Nat) (source : List UInt8) : MemM Unit := do
  let s ← get
  require (memoryRange (s.memory m) offset source.length)
  require (runAccessCheck (s.memory m) offset source.length protWrite)
  require (memoryPermissions (s.memory m) offset source.length protWrite)
  writeLoop m source.length offset source

/-- The fill loop of `exec_memory_fill`; the fuel is the length.  Zeros are not
written to a page without backing. -/
def fillLoop (m : Nat) (value : UInt8) : Nat → Nat → Nat → MemM Unit
  | 0, _, _ => pure ()
  | fuel + 1, address, length =>
    if length = 0 then pure ()
    else do
      let page := address / execPageSize
      let inPage := address % execPageSize
      let chunk := min (execPageSize - inPage) length
      let s ← get
      if value = 0 ∧ (s.memory m).pageData page = none then
        fillLoop m value fuel (address + chunk) (length - chunk)
      else
        ownPage m page
        modify (pokePage m page inPage chunk fun _ => value)
        fillLoop m value fuel (address + chunk) (length - chunk)

/-- `exec_memory_fill` checks the range and nothing else: neither the access
check nor the permissions of the pages. -/
def memoryFill (m offset : Nat) (value : UInt8) (length : Nat) : MemM Unit := do
  let s ← get
  require (memoryRange (s.memory m) offset length)
  fillLoop m value length offset length

/-- Size of the bounce buffer of `exec_memory_copy`. -/
def copyChunk : Nat := 256

def copyBackward (dst dstOffset src srcOffset : Nat) : Nat → Nat → MemM Unit
  | 0, _ => pure ()
  | fuel + 1, remaining =>
    if remaining = 0 then pure ()
    else do
      let part := if remaining > copyChunk then copyChunk else remaining
      let chunk ← memoryRead src (srcOffset + (remaining - part)) part
      memoryWrite dst (dstOffset + (remaining - part)) chunk
      copyBackward dst dstOffset src srcOffset fuel (remaining - part)

def copyForward (dst dstOffset src srcOffset length : Nat) : Nat → Nat → MemM Unit
  | 0, _ => pure ()
  | fuel + 1, done =>
    if done ≥ length then pure ()
    else do
      let part := if length - done > copyChunk then copyChunk else length - done
      let chunk ← memoryRead src (srcOffset + done) part
      memoryWrite dst (dstOffset + done) chunk
      copyForward dst dstOffset src srcOffset length fuel (done + part)

def memoryCopy (dst dstOffset src srcOffset length : Nat) : MemM Unit := do
  let s ← get
  require (memoryRange (s.memory dst) dstOffset length)
  require (memoryRange (s.memory src) srcOffset length)
  if length = 0 then pure ()
  else if dst = src ∧ dstOffset > srcOffset ∧ dstOffset - srcOffset < length then
    copyBackward dst dstOffset src srcOffset length length
  else
    copyForward dst dstOffset src srcOffset length length 0

/-! ## Mapping, unmapping, protecting, sharing -/

def validProtection (protection : UInt8) : Bool :=
  protection &&& ~~~(protRead ||| protWrite ||| protExec) = 0

def validFlags (flags : UInt8) : Bool :=
  flags &&& ~~~(mappingShared ||| mappingFixedNoreplace) = 0

def outsidePages (first count : Nat) : Prop :=
  first > memory.pages ∨ count > memory.pages - first

instance (memory : ExecMemory) (first count : Nat) : Decidable (outsidePages memory first count) :=
  inferInstanceAs (Decidable (_ ∨ _))

def mappingAllocationFailed : String := "memory mapping metadata allocation failed"
def mappingLimitExceeded : String := "memory mapping metadata limit exceeded"

/-- Replace the backing of consecutive pages and give up the old one: the last
loop of `exec_memory_share_pages`. -/
def installPages (m first : Nat) : List (Option Nat) → Store → Store
  | [], s => s
  | data :: rest, s =>
    installPages m (first + 1) rest
      (setPageData m first data (pageRelease ((s.memory m).pageData first) s))

/-- Give up the backing of every page of a range. -/
def releasePages (m first count : Nat) : Store → Store :=
  installPages m first (List.replicate count none)

def ExecMemory.unmapped (first count : Nat) (memory : ExecMemory) : ExecMemory :=
  { memory with
    pageProtection := fillRange memory.pageProtection first count 0
    mappings := carve (fun _ => none) first (first + count) memory.mappings }

def memoryUnmapPages (m first count : Nat) : MemM Unit := do
  let memory := (← get).memory m
  if outsidePages memory first count then
    execFail .trap "memory unmap range invalid"
  else if count = 0 then pure ()
  else if memory.mappings.length > (uint32Max - 1) / 2 then
    execFail .trap mappingLimitExceeded
  else
    allocateOr mappingAllocationFailed
    modify (releasePages m first count)
    modify (setMemory m (.unmapped first count))

def ExecMemory.mapped (first count : Nat) (protection flags : UInt8) (memory : ExecMemory) :
    ExecMemory :=
  { memory with
    pageProtection := fillRange memory.pageProtection first count protection
    mappings := RangeMap.insert ⟨first, count, ⟨protection, flags⟩⟩ memory.mappings }

def memoryMapPages (m first count : Nat) (protection flags : UInt8) : MemM Unit := do
  let memory := (← get).memory m
  if ¬validProtection protection ∨ ¬validFlags flags ∨ outsidePages memory first count then
    execFail .trap "memory map range invalid"
  else if count = 0 then pure ()
  else if (List.range' first count).any (memoryPageIsMapped memory) then
    execFail .trap "memory map range is already mapped"
  else if memory.mappings.length = uint32Max then
    execFail .trap mappingLimitExceeded
  else
    allocateOr mappingAllocationFailed
    modify (setMemory m (.mapped first count protection flags))

def ExecMemory.protected (first count : Nat) (protection : UInt8) (memory : ExecMemory) :
    ExecMemory :=
  { memory with
    pageProtection := fillRange memory.pageProtection first count protection
    mappings := carve (fun old => some { old with protection }) first (first + count)
      memory.mappings }

def memorySetProtection (m first count : Nat) (protection : UInt8) : MemM Unit := do
  let memory := (← get).memory m
  if ¬validProtection protection ∨ outsidePages memory first count then
    execFail .trap "memory protection range invalid"
  else if count = 0 then pure ()
  else if memory.mappings.length > (uint32Max - 1) / 3 then
    execFail .trap mappingLimitExceeded
  else
    allocateOr mappingAllocationFailed
    modify (setMemory m (.protected first count protection))

/-- `build_shared_mapping`: the replacement list, not yet installed. -/
def buildSharedMapping (first count : Nat) : MemM (List Mapping) := do
  if count = 0 ∨ memory.mappings.length = 0 then pure []
  else if memory.mappings.length > (uint32Max - 1) / 3 then
    execFail .trap mappingLimitExceeded
  else
    allocateOr mappingAllocationFailed
    pure (carve (fun old => some { old with flags := old.flags ||| mappingShared })
      first (first + count) memory.mappings)

def setMappings (m : Nat) (mappings : List Mapping) : Store → Store :=
  setMemory m fun memory => { memory with mappings }

/-- The part of `exec_memory_share_pages` behind its last check. -/
def commitShare (dst dstFirst src : Nat) (dstMappings srcMappings : List Mapping)
    (pages : List (Option Nat)) (s : Store) : Store :=
  let s := pages.foldl (fun s page => pageRetain page s) s
  let s := setMappings dst dstMappings s
  let s := if src ≠ dst then setMappings src srcMappings s else s
  let s := pages.foldl (fun s page => markShared page s) s
  installPages dst dstFirst pages s

def memorySharePages (dst dstFirst src srcFirst count : Nat) : MemM Unit := do
  let s ← get
  if outsidePages (s.memory dst) dstFirst count ∨ outsidePages (s.memory src) srcFirst count ∨
      count > sizeMax / pointerSize then
    execFail .trap "shared memory range invalid"
  else if count = 0 then pure ()
  else
    allocateOr "shared memory page map allocation failed"
    let dstMappings ← buildSharedMapping (s.memory dst) dstFirst count
    let srcMappings ←
      if src ≠ dst then buildSharedMapping (s.memory src) srcFirst count else pure []
    let pages := (List.range' srcFirst count).map (s.memory src).pageData
    modify (commitShare dst dstFirst src dstMappings srcMappings pages)

/-! ## Growing -/

/-- The mapping list after growth behind the last page: the last mapping is
extended when it ends there and is readable and writable, otherwise a mapping
is appended. -/
def growMappings (pages : Nat) : List Mapping :=
  let appended : Mapping := ⟨memory.pages, pages - memory.pages, ⟨protRead ||| protWrite, 0⟩⟩
  match memory.mappings.getLast? with
  | none => [appended]
  | some last =>
    if last.stop = memory.pages ∧ last.label.protection = (protRead ||| protWrite) then
      memory.mappings.dropLast ++ [{ last with count := last.count + (pages - memory.pages) }]
    else memory.mappings ++ [appended]

/-- Does growth extend the last mapping in place? -/
def growsInPlace : Bool :=
  memory.mappings.getLast?.any fun last =>
    last.stop = memory.pages ∧ last.label.protection = (protRead ||| protWrite)

/-- Growth behind the last page. -/
def ExecMemory.grown (pages : Nat) (memory : ExecMemory) : ExecMemory :=
  { memory with
    mappings := growMappings memory pages
    pageData := fillRange memory.pageData memory.pages (pages - memory.pages) none
    pageProtection := fillRange memory.pageProtection memory.pages (pages - memory.pages)
      (protRead ||| protWrite)
    pages := pages
    linearPages := pages }

def memoryResizePages (m pages : Nat) : MemM Unit := do
  let memory := (← get).memory m
  if pages < memory.linearPages ∨ pages > sizeMax / pointerSize then
    execFail .trap "memory page map too large"
  else if pages = memory.linearPages then pure ()
  else if memory.processVirtualMemory ∧
      (List.range' memory.linearPages (min pages memory.pages - memory.linearPages)).any
        (memoryPageIsMapped memory) then
    execFail .trap "linear growth overlaps a virtual mapping"
  else if pages ≤ memory.pages then
    memoryMapPages m memory.linearPages (pages - memory.linearPages) (protRead ||| protWrite) 0
    modify (setMemory m fun memory => { memory with linearPages := pages })
  else
    allocateOr "memory page map allocation failed"
    allocateOr "memory protection map allocation failed"
    if ¬growsInPlace memory then
      if memory.mappings.length = uint32Max then execFail .trap mappingLimitExceeded
      else allocateOr mappingAllocationFailed
    modify (setMemory m (.grown pages))

def ExecMemory.reserved (pages : Nat) (memory : ExecMemory) : ExecMemory :=
  { memory with
    pageData := fillRange memory.pageData memory.pages (pages - memory.pages) none
    pageProtection := fillRange memory.pageProtection memory.pages (pages - memory.pages) 0
    pages := pages }

def memoryReserveVirtualPages (m pages : Nat) : MemM Unit := do
  let memory := (← get).memory m
  let limit :=
    if memory.virtualMaxPages ≠ 0 then memory.virtualMaxPages
    else if memory.hasMax then memory.maxPages
    else if memory.is64 then execMem64MaxPages else execMem32MaxPages
  if pages < memory.pages ∨ pages > sizeMax / pointerSize then
    execFail .trap "virtual page reservation is invalid"
  else if pages > limit then
    execFail .trap "virtual page reservation exceeds memory maximum"
  else if pages = memory.pages then pure ()
  else
    allocateOr "virtual page table allocation failed"
    allocateOr "virtual protection table allocation failed"
    modify (setMemory m (.reserved pages))

/-! ## Processes -/

def posixEinval : Int := 22

/-- `native_process_capsule_page_range`. -/
def capsulePageRange (length : Nat) : Option Nat :=
  if length = 0 ∨ length > uint64Max - (execPageSize - 1) then none
  else some ((length + execPageSize - 1) / execPageSize)

/-- `native_process_capsule_mprotect_range` only changes the protection of
pages that are all mapped. -/
def processCapsuleMprotectRange (m address length : Nat) (protection : UInt8) : MemM Int := do
  let memory := (← get).memory m
  if address % execPageSize ≠ 0 then pure (-posixEinval)
  else
    match capsulePageRange length with
    | none => pure (-posixEinval)
    | some count =>
      let first := address / execPageSize
      if outsidePages memory first count then pure (-posixEinval)
      else if ¬(List.range' first count).all (memoryPageIsMapped memory) then pure (-posixEinval)
      else
        tryCatch (do memorySetProtection m first count protection; pure 0)
          fun _ => pure (-posixEinval)

def ExecMemory.bound (check : Nat → Nat → UInt8 → Option ExecError) (memory : ExecMemory) :
    ExecMemory :=
  { memory with
    accessCheck := some check
    virtualMaxPages := if memory.is64 then execMem64MaxPages else execMem32MaxPages
    processVirtualMemory := true }

/-- `native_process_bind_engine_memory` on a memory that the engine owns. -/
def processBindEngineMemory (m : Nat) (check : Nat → Nat → UInt8 → Option ExecError) : MemM Unit :=
  modify (setMemory m (.bound check))

/-- `wasm_instance_allocate_memory`, when its allocations succeed. -/
def instanceAllocateMemory (initial maximum : Nat) (hasMax is64 : Bool) : ExecMemory where
  pageData := fun _ => none
  pageProtection := fun _ => protRead ||| protWrite
  mappings := if initial = 0 then [] else [⟨0, initial, ⟨protRead ||| protWrite, 0⟩⟩]
  pages := initial
  linearPages := initial
  maxPages := maximum
  virtualMaxPages :=
    if hasMax then maximum else if is64 then execMem64MaxPages else execMem32MaxPages
  hasMax := hasMax
  is64 := is64
  processVirtualMemory := false
  accessCheck := none

/-! ## Instructions -/

def memoryAddress (base offset width : Nat) : Except ExecError Nat :=
  if base > uint64Max - offset then
    .error (memoryFault .outOfRange base width 0 "out of bounds memory access")
  else if base + offset > visibleSize memory ∨ width > visibleSize memory - (base + offset) ∨
      base + offset > sizeMax then
    .error (memoryFault .outOfRange (base + offset) width 0 "out of bounds memory access")
  else .ok (base + offset)

def loadLe : List UInt8 → Nat
  | [] => 0
  | byte :: rest => byte.toNat + 256 * loadLe rest

def storeLe (value : Nat) : Nat → List UInt8
  | 0 => []
  | width + 1 => UInt8.ofNat value :: storeLe (value / 256) width

/-- The bits a scalar load reads, before sign extension. -/
def executeLoad (m base offset width : Nat) : MemM Nat := do
  let s ← get
  let address ← require (memoryAddress (s.memory m) base offset width)
  let bytes ← memoryRead m address width
  pure (loadLe bytes)

def executeStore (m base offset width bits : Nat) : MemM Unit := do
  let s ← get
  let address ← require (memoryAddress (s.memory m) base offset width)
  memoryWrite m address (storeLe bits width)

/-- `memory.grow`: the old size in pages, or `none` for the answer `-1`. -/
def executeMemoryGrow (m add : Nat) : MemM (Option Nat) := do
  let memory := (← get).memory m
  let oldPages := memory.linearPages
  let limit := if memory.is64 then execMem64MaxPages else execMem32MaxPages
  if oldPages > uint64Max - add ∨ oldPages + add > limit ∨
      (memory.hasMax ∧ oldPages + add > memory.maxPages) ∨
      oldPages + add > sizeMax / execPageSize then
    pure none
  else
    tryCatch (do memoryResizePages m (oldPages + add); pure (some oldPages)) fun _ => pure none

/-- The size the bulk instructions compute; the product wraps around. -/
def bulkSize : Nat := visiblePages memory * execPageSize % 2 ^ 64

def outOfBounds {α : Type} : MemM α := execFail .trap "out of bounds memory access"

def executeMemoryCopy (dst dstOffset src srcOffset n : Nat) : MemM Unit := do
  let s ← get
  let dstSize := bulkSize (s.memory dst)
  let srcSize := bulkSize (s.memory src)
  if dstOffset > dstSize ∨ n > dstSize - dstOffset ∨ srcOffset > srcSize ∨
      n > srcSize - srcOffset ∨ n > sizeMax then outOfBounds
  else memoryCopy dst dstOffset src srcOffset n

def executeMemoryFill (m dst : Nat) (value : UInt8) (n : Nat) : MemM Unit := do
  let size := bulkSize ((← get).memory m)
  if dst > size ∨ n > size - dst ∨ n > sizeMax then outOfBounds
  else memoryFill m dst value n

/-- `memory.init` from a segment; a dropped segment is empty. -/
def executeMemoryInit (m dst src n : Nat) (segment : List UInt8) : MemM Unit := do
  let size := bulkSize ((← get).memory m)
  if dst > size ∨ n > size - dst ∨ src > segment.length ∨ n > segment.length - src then
    outOfBounds
  else memoryWrite m dst ((segment.drop src).take n)

/-! ## Runs -/

inductive MemoryOp
  | grow (m add : Nat)
  | reserve (m pages : Nat)
  | map (m first count : Nat) (protection flags : UInt8)
  | unmap (m first count : Nat)
  | protect (m address length : Nat) (protection : UInt8)
  | share (dst dstFirst src srcFirst count : Nat)
  | load (m base offset width : Nat)
  | store (m base offset width bits : Nat)
  | copy (dst dstOffset src srcOffset n : Nat)
  | fill (m dst : Nat) (value : UInt8) (n : Nat)
  | init (m dst src n : Nat) (segment : List UInt8)
  | bind (m : Nat) (check : Nat → Nat → UInt8 → Option ExecError)

/-- What the operation runs; results are dropped, errors are not. -/
def MemoryOp.comp : MemoryOp → MemM Unit
  | .grow m add => do let _ ← executeMemoryGrow m add
  | .reserve m pages => memoryReserveVirtualPages m pages
  | .map m first count protection flags => memoryMapPages m first count protection flags
  | .unmap m first count => memoryUnmapPages m first count
  | .protect m address length protection => do
      let _ ← processCapsuleMprotectRange m address length protection
  | .share dst dstFirst src srcFirst count => memorySharePages dst dstFirst src srcFirst count
  | .load m base offset width => do let _ ← executeLoad m base offset width
  | .store m base offset width bits => executeStore m base offset width bits
  | .copy dst dstOffset src srcOffset n => executeMemoryCopy dst dstOffset src srcOffset n
  | .fill m dst value n => executeMemoryFill m dst value n
  | .init m dst src n segment => executeMemoryInit m dst src n segment
  | .bind m check => processBindEngineMemory m check

/-- The store after one operation; a failing operation keeps what it changed
before it failed. -/
def step (op : MemoryOp) (s : Store) : Store := (exec op.comp s).2

def run : List MemoryOp → Store → Store
  | [], s => s
  | op :: ops, s => run ops (step op s)

end Waste.Memory
