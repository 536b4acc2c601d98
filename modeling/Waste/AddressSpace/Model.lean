import Waste.Memory.Family

/-!
# Address spaces of processes

What a `native_process_capsule` records about the address space of its process: the
regions, the file mappings and the loaded libraries, and the functions that change them
together with the memory.  `native_process_capsule_mmap_range` and
`native_process_capsule_munmap_range` are `mmapRange` and `munmapRange`; the functions
of `guest_posix.c` over them are `guestMmap`, `guestMunmap`, `guestMsync` and
`guestMprotect`.

Process `n` has the memory `n` of the family.  The descriptors are resolved: a call
names the file object, and whether the description is writable.  A library load is two
calls, because code of the library runs between the allocation of its pages and its
entry in the list.  An `-errno` result is an exception here, with what was changed
before it.
-/

namespace Waste.AddressSpace

open RangeMap StateExcept Memory

inductive Errno
  | eacces | eexist | efault | einval | eio | enomem
deriving DecidableEq, Repr

inductive RegionKind
  | module | stack | startup | brk | mapping | guard | library
deriving DecidableEq, Repr

abbrev Region := Range RegionKind

structure FileMapping where
  address : Nat
  length : Nat
  fileOffset : Nat
  fileObject : Nat
  shared : Bool
  writable : Bool
deriving DecidableEq, Repr

/-- A `native_loaded_library`; an unloaded one keeps its place and its base. -/
structure LoadedLibrary where
  path : String
  loaded : Bool
  memoryBase : Nat
  memorySize : Nat
  refCount : Nat
deriving DecidableEq, Repr

/-- `startup` is the startup block of the image, if there is an image with one. -/
structure Capsule where
  hasMemory : Bool
  regions : List Region
  regionCapacity : Nat
  fileMappings : List FileMapping
  fileMappingCapacity : Nat
  startup : Option (Nat × Nat)
  virtualPageLimit : Nat
  libraries : List LoadedLibrary

/-- The bytes of a `posix_file_object`; those from `size` on have no meaning. -/
structure FileObject where
  size : Nat
  byte : Nat → UInt8

structure Spaces where
  family : Family
  capsule : Nat → Capsule
  object : Nat → FileObject

abbrev SpaceM (α : Type) := Comp Spaces Errno α

def int32Max : Nat := 2 ^ 31 - 1
def loadedLibraryMax : Nat := 32

/-- A program on the memories; its errors become an errno. -/
def onFamily {α : Type} (errno : ExecError → Errno) (c : FamM α) : SpaceM α := do
  let A ← get
  set { A with family := (exec c A.family).2 }
  match (exec c A.family).1 with
  | .ok a => pure a
  | .error e => throw (errno e)

@[simp] theorem exec_onFamily {α : Type} (errno : ExecError → Errno) (c : FamM α) (A : Spaces) :
    exec (onFamily errno c) A =
      ((exec c A.family).1.mapError errno, { A with family := (exec c A.family).2 }) := by
  simp only [onFamily, exec_bind, exec_get, exec_set]
  rcases (exec c A.family).1 with e | a <;> rfl

def setCapsule (n : Nat) (f : Capsule → Capsule) (A : Spaces) : Spaces :=
  { A with capsule := Function.update A.capsule n (f (A.capsule n)) }

def memoryOf (A : Spaces) (n : Nat) : ExecMemory :=
  A.family.store.memory n

/-- Ask the allocator. -/
def granted : SpaceM Bool := do
  let A ← get
  let r := exec allocate A.family.store
  set { A with family := { A.family with store := r.2 } }
  pure (r.1.toOption.getD false)

/-- Ask the allocator, or fail. -/
def demand : SpaceM Unit := do
  if ← granted then pure () else throw .enomem

/-! ## Regions -/

def overlaps (first count : Nat) (r : Region) : Bool :=
  first < r.stop ∧ r.first < first + count

/-- `native_process_capsule_region_is_reserved`, with the kind of the first region
found. -/
def regionIsReserved (regions : List Region) (first count : Nat) : Option RegionKind :=
  if count = 0 ∨ first > uint64Max - count then none
  else (regions.find? (overlaps first count)).map (·.label)

/-- The capacity after an array is full, from `start` on; 32 bits. -/
def grownCapacity (start capacity : Nat) : Nat :=
  if capacity ≠ 0 then capacity * 2 % 2 ^ 32 else start

def reserveRegion (n first count : Nat) (kind : RegionKind) : SpaceM Unit := do
  let capsule := (← get).capsule n
  if count = 0 ∨ first > uint64Max - count ∨
      (regionIsReserved capsule.regions first count).isSome then throw .einval
  else
    if capsule.regions.length = capsule.regionCapacity then
      let capacity := grownCapacity 8 capsule.regionCapacity
      if capacity < capsule.regions.length then throw .enomem
      else
        demand
        modify (setCapsule n fun capsule => { capsule with regionCapacity := capacity })
    modify (setCapsule n fun capsule =>
      { capsule with regions := capsule.regions ++ [⟨first, count, kind⟩] })

/-- `native_process_capsule_build_mapping_release`. -/
def buildMappingRelease (regions : List Region) (first count : Nat) : List Region :=
  regions.flatMap fun r =>
    if r.label = .mapping then r.carve (fun _ => none) first (first + count) else [r]

/-- `native_process_capsule_remove_last_mapping_region`. -/
def removeLastMappingRegion (n first count : Nat) : Spaces → Spaces :=
  setCapsule n fun capsule =>
    if capsule.regions.getLast? = some ⟨first, count, .mapping⟩ then
      { capsule with regions := capsule.regions.dropLast }
    else capsule

/-! ## File mappings -/

/-- What `native_process_capsule_build_file_mapping_release` keeps of one file mapping. -/
def FileMapping.release (address stop : Nat) (old : FileMapping) : List FileMapping :=
  let oldEnd := old.address + old.length
  let overlapStart := max old.address address
  let overlapEnd := min oldEnd stop
  if overlapStart ≥ overlapEnd then [old]
  else
    (if old.address < overlapStart then [{ old with length := overlapStart - old.address }]
      else []) ++
    (if overlapEnd < oldEnd then
      [{ old with
          address := overlapEnd
          length := oldEnd - overlapEnd
          fileOffset := old.fileOffset + (overlapEnd - old.address) }]
      else [])

def recordFileMapping (n : Nat) (mapping : FileMapping) : SpaceM Unit := do
  let capsule := (← get).capsule n
  if mapping.length = 0 ∨ mapping.address % execPageSize ≠ 0 ∨
      mapping.address > uint64Max - mapping.length ∨
      mapping.fileOffset > uint64Max - mapping.length then throw .einval
  else
    if capsule.fileMappings.length = capsule.fileMappingCapacity then
      let capacity := grownCapacity 4 capsule.fileMappingCapacity
      if capacity < capsule.fileMappings.length then throw .enomem
      else
        demand
        modify (setCapsule n fun capsule => { capsule with fileMappingCapacity := capacity })
    modify (setCapsule n fun capsule =>
      { capsule with fileMappings := capsule.fileMappings ++ [mapping] })

/-! ## Mapping and unmapping ranges -/

def memoryLimit (memory : ExecMemory) : Nat :=
  if memory.virtualMaxPages ≠ 0 then memory.virtualMaxPages
  else if memory.is64 then execMem64MaxPages else execMem32MaxPages

/-- The first pages that are tried without an address: first the linear pages from
below, then from the limit of the mmap interface down to the linear pages. -/
def candidates (low high count : Nat) : List Nat :=
  (if count ≤ low then List.range (low - count + 1) else []) ++
    (if count ≤ high then (List.range' low (high - count + 1 - low)).reverse else [])

/-- Neither a region nor a mapped page is in the way. -/
def isFree (capsule : Capsule) (memory : ExecMemory) (count candidate : Nat) : Bool :=
  (regionIsReserved capsule.regions candidate count).isNone ∧
    ¬(List.range' candidate (min (candidate + count) memory.pages - candidate)).any
      (memoryPageIsMapped memory)

/-- The first page of a new mapping. -/
def chooseFirst (capsule : Capsule) (memory : ExecMemory) (address count : Nat) :
    Except Errno Nat :=
  let limit := memoryLimit memory
  if address ≠ 0 then
    let first := address / execPageSize
    if address % execPageSize ≠ 0 ∨ first > limit then .error .einval
    else if count > limit - first then .error .enomem
    else if (regionIsReserved capsule.regions first count).isSome then .error .eexist
    else .ok first
  else
    let low := min memory.linearPages limit
    let high := min ((int32Max + 1) / execPageSize) limit
    match (candidates low high count).find? (isFree capsule memory count) with
    | some first => .ok first
    | none => .error .enomem

/-- The pages exist, or are reserved now. -/
def reservePages (n first count : Nat) : SpaceM Unit := do
  if outsidePages (memoryOf (← get) n) first count then
    onFamily (fun _ => .enomem) (onStore (memoryReserveVirtualPages n (first + count)))

/-- Map the pages of a region that was just reserved, or give the region back. -/
def mapRegion (n address first count : Nat) (protection flags : UInt8) : SpaceM Unit := do
  let memory := memoryOf (← get) n
  if flags &&& mappingFixedNoreplace ≠ 0 ∧ address ≠ 0 ∧
      (List.range' first count).any (memoryPageIsMapped memory) then
    modify (removeLastMappingRegion n first count)
    throw .eexist
  else
    tryCatch (onFamily (fun _ => .einval) (mapPages n first count protection flags)) fun e => do
      modify (removeLastMappingRegion n first count)
      throw e

/-- `native_process_capsule_mmap_range`. -/
def mmapRange (n address length : Nat) (protection flags : UInt8) : SpaceM Nat := do
  let A ← get
  if ¬(A.capsule n).hasMemory then throw .einval
  else
    match capsulePageRange length with
    | none => throw .einval
    | some count =>
      let first ← require (chooseFirst (A.capsule n) (memoryOf A n) address count)
      reservePages n first count
      tryCatch (reserveRegion n first count .mapping) fun _ => throw .enomem
      mapRegion n address first count protection flags
      pure (first * execPageSize)

/-- The block that the process was started with lies in the range. -/
def touchesStartup (capsule : Capsule) (address length : Nat) : Bool :=
  match capsule.startup with
  | none => false
  | some (pointer, size) =>
    address + length > uint64Max ∨ (address < pointer + size ∧ pointer < address + length)

/-- The last part of `native_process_capsule_munmap_range`. -/
def commitMunmap (n first count : Nat) : SpaceM Unit := do
  let capsule := (← get).capsule n
  if ¬capsule.hasMemory then throw .einval
  else
    onFamily (fun _ => .einval) (unmapPages n first count)
    let regions := buildMappingRelease capsule.regions first count
    let files := capsule.fileMappings.flatMap
      (FileMapping.release (first * execPageSize) ((first + count) * execPageSize))
    modify (setCapsule n fun capsule =>
      { capsule with
        regions := regions
        regionCapacity := regions.length
        fileMappings := files
        fileMappingCapacity := files.length })

def munmapRange (n address length : Nat) : SpaceM Unit := do
  let capsule := (← get).capsule n
  if address % execPageSize ≠ 0 then throw .einval
  else
    match capsulePageRange length with
    | none => throw .einval
    | some count =>
      let first := address / execPageSize
      if regionIsReserved capsule.regions first count = some .startup then throw .einval
      else if touchesStartup capsule address length then throw .einval
      else
        let regionSpace ← granted
        let fileSpace ← if capsule.fileMappings = [] then pure true else granted
        if ¬regionSpace then throw .enomem
        else if first + count > uint64Max then throw .einval
        else if ¬fileSpace then throw .enomem
        else if (first + count) * execPageSize > uint64Max then throw .einval
        else commitMunmap n first count

/-- `native_process_capsule_mprotect_range`. -/
def mprotectRange (n address length : Nat) (protection : UInt8) : SpaceM Unit := do
  if ¬((← get).capsule n).hasMemory then throw .einval
  else
    let status ← onFamily (fun _ => .einval)
      (onStore (processCapsuleMprotectRange n address length protection))
    if status = 0 then pure () else throw .einval

/-! ## File objects -/

def setObject (file : Nat) (f : FileObject → FileObject) (A : Spaces) : Spaces :=
  { A with object := Function.update A.object file (f (A.object file)) }

/-- `file_object_resize`: bytes behind the old end are zero. -/
def fileObjectResize (file size : Nat) : SpaceM Unit := do
  demand
  modify (setObject file fun o =>
    { size, byte := fun i => if i < o.size then o.byte i else 0 })

/-- `posix_kernel_file_write_object`; a `write` to a descriptor of the file does the same
to the object, at the offset of the description or at the end. -/
def fileWriteObject (file offset : Nat) (source : List UInt8) : SpaceM Unit := do
  if offset + source.length > uint64Max then throw .einval
  else
    if offset + source.length > ((← get).object file).size then
      fileObjectResize file (offset + source.length)
    modify (setObject file fun o =>
      { o with
        byte := fun i =>
          if offset ≤ i ∧ i < offset + source.length then source.getD (i - offset) 0
          else o.byte i })

/-- `posix_kernel_ftruncate`. -/
def ftruncate (file size : Nat) : SpaceM Unit := do
  if size = ((← get).object file).size then pure () else fileObjectResize file size

/-! ## System calls -/

/-- `native_process_validate_memory_access`: the bytes behind the end of a file that was
made shorter cannot be accessed through a mapping. -/
def validateMemoryAccess (A : Spaces) (n offset length : Nat) (access : UInt8) : Option ExecError :=
  if length = 0 then none
  else
    let stop := min (offset + length) uint64Max
    if (A.capsule n).fileMappings.any fun mapping =>
        offset < mapping.address + mapping.length ∧ mapping.address < stop ∧
          (mapping.fileOffset > (A.object mapping.fileObject).size ∨
            mapping.length > (A.object mapping.fileObject).size - mapping.fileOffset) then
      some (memoryFault .fileTruncated offset length access "access past truncated file mapping")
    else none

/-- The check that the memory has from its process, for the records there are now. -/
def bindCheck (n : Nat) : SpaceM Unit :=
  modify fun A =>
    { A with family := { A.family with store := setMemory n (fun memory =>
        { memory with accessCheck := some (validateMemoryAccess A n) }) A.family.store } }

/-- The bytes of a file for one page, with zeros behind the end. -/
def FileObject.pageBytes (o : FileObject) (offset : Nat) (i : Nat) : UInt8 :=
  if offset + i < o.size then o.byte (offset + i) else 0

def pageCount (length : Nat) : Nat :=
  (length + execPageSize - 1) / execPageSize

/-- What `guest_posix_mmap` maps; a file is given with its writability. -/
def mapSource (A : Spaces) (length : Nat) (shared : Bool) (file : Option (Nat × Bool))
    (offset : Nat) : MapSource :=
  match file with
  | none => .anonymous (pageCount length) shared
  | some (object, _) =>
    let offsets := (List.range (pageCount length)).map fun i => offset + i * execPageSize
    if shared then
      .sharedFile (offsets.map fun o => ((object, o), (A.object object).pageBytes o))
    else
      .file (offsets.map fun o => (List.range execPageSize).map ((A.object object).pageBytes o))

def fillErrno (shared : Bool) (e : ExecError) : Errno :=
  if shared ∧ e.status = .resource ∧ e.message ≠ mappingAllocationFailed then .enomem else .einval

/-- The checks of `guest_posix_mmap` on the file. -/
def checkFile (A : Spaces) (length : Nat) (protection : UInt8) (shared : Bool)
    (file : Option (Nat × Bool)) (offset : Nat) : Except Errno Unit :=
  match file with
  | none => .ok ()
  | some (object, writable) =>
    if offset > (A.object object).size ∨ length > (A.object object).size - offset then
      .error .einval
    else if shared ∧ protection &&& protWrite ≠ 0 ∧ ¬writable then .error .eacces
    else .ok ()

/-- The pages get their contents and their protection, and the file mapping is
recorded. -/
def fillRegion (n address length : Nat) (protection : UInt8) (shared : Bool)
    (file : Option (Nat × Bool)) (offset : Nat) : SpaceM Unit := do
  let A ← get
  onFamily (fillErrno (shared ∧ file.isSome))
    (fillMapping n (address / execPageSize) protection (mapSource A length shared file offset))
  match file with
  | none => pure ()
  | some (object, writable) =>
    tryCatch (recordFileMapping n ⟨address, length, offset, object, shared, writable⟩)
      fun _ => throw .enomem

/-- `guest_posix_mmap`.  When something fails behind the mapping of the pages they are
unmapped again, and whether that succeeds is not looked at. -/
def guestMmap (n address length : Nat) (protection : UInt8) (shared fixed : Bool)
    (file : Option (Nat × Bool)) (offset : Nat) : SpaceM Nat := do
  if length = 0 ∨ length > int32Max ∨ address > int32Max ∨ offset % execPageSize ≠ 0 then
    throw .einval
  else
    require (checkFile (← get) length protection shared file offset)
    bindCheck n
    let mapped ← mmapRange n address length (protection ||| protWrite) (mapFlags shared fixed)
    if mapped > int32Max then throw .enomem
    else
      tryCatch (fillRegion n mapped length protection shared file offset) fun e => do
        tryCatch (munmapRange n mapped length) fun _ => pure ()
        throw e
      pure mapped

/-- Every byte of the range is in a file mapping: the first loop of
`guest_posix_sync_file_range`. -/
def coversRange (mappings : List FileMapping) (stop : Nat) : Nat → Nat → Bool
  | 0, cursor => stop ≤ cursor
  | fuel + 1, cursor =>
    if stop ≤ cursor then true
    else
      match mappings.find? fun mapping =>
          mapping.address ≤ cursor ∧ cursor < mapping.address + mapping.length with
      | none => false
      | some covering => coversRange mappings stop fuel
        (min (covering.address + covering.length) stop)

def memoryPageIsDirty (s : Store) (m page : Nat) : Bool :=
  page < (s.memory m).pages ∧ ((s.memory m).pageData page).any fun id => (s.page id).dirty

/-- `exec_memory_read_backing`. -/
def memoryReadBacking (m offset length : Nat) : MemM (List UInt8) := do
  let s ← get
  require (memoryRange (s.memory m) offset length)
  pure (readLoop s m length offset length)

/-- The chunks of one file mapping, one page at a time. -/
def syncChunks (n : Nat) (mapping : FileMapping) (stop : Nat) : Nat → Nat → SpaceM Unit
  | 0, _ => pure ()
  | fuel + 1, cursor =>
    if cursor ≥ stop then pure ()
    else do
      let page := cursor / execPageSize
      let inPage := cursor % execPageSize
      let chunk := min (execPageSize - inPage) (stop - cursor)
      if memoryPageIsDirty (← get).family.store n page then
        let bytes ← onFamily (fun _ => .efault) (onStore (memoryReadBacking n cursor chunk))
        if ¬mapping.writable then throw .eacces
        else
          fileWriteObject mapping.fileObject (mapping.fileOffset + (cursor - mapping.address)) bytes
          if inPage = 0 ∧ chunk = execPageSize then
            onFamily (fun _ => .efault) (onStore (clearDirtyPages n page 1))
      syncChunks n mapping stop fuel (cursor + chunk)

/-- The shared file mappings of the list, one after another. -/
def syncMappings (n address stop : Nat) : List FileMapping → SpaceM Unit
  | [] => pure ()
  | mapping :: rest => do
    let size := ((← get).object mapping.fileObject).size
    let cursor := max mapping.address address
    let overlapEnd := min (mapping.address + mapping.length) stop
    if mapping.shared ∧ cursor < overlapEnd then
      if mapping.fileOffset > size ∨ mapping.length > size - mapping.fileOffset then throw .eio
      else syncChunks n mapping overlapEnd (overlapEnd - cursor) cursor
    syncMappings n address stop rest

/-- `guest_posix_sync_file_range`. -/
def syncFileRange (n address length : Nat) (requireCoverage : Bool) : SpaceM Unit := do
  let capsule := (← get).capsule n
  if ¬capsule.hasMemory ∨ length = 0 ∨ address > uint64Max - length then throw .efault
  else if requireCoverage ∧
      ¬coversRange capsule.fileMappings (address + length) length address then throw .enomem
  else syncMappings n address (address + length) capsule.fileMappings

/-- `guest_posix_munmap`. -/
def guestMunmap (n address length : Nat) : SpaceM Unit := do
  if address > int32Max ∨ length = 0 ∨ length > int32Max ∨ address % execPageSize ≠ 0 then
    throw .einval
  else
    syncFileRange n address (pageCount length * execPageSize) false
    munmapRange n address (pageCount length * execPageSize)

/-- `guest_posix_msync` with `MS_SYNC`. -/
def guestMsync (n address length : Nat) : SpaceM Unit := do
  if address > int32Max ∨ length = 0 ∨ length > int32Max ∨ address % execPageSize ≠ 0 then
    throw .einval
  else syncFileRange n address length true

/-- `guest_posix_mprotect`. -/
def guestMprotect (n address length : Nat) (protection : UInt8) : SpaceM Unit := do
  let capsule := (← get).capsule n
  if address > int32Max ∨ length = 0 ∨ length > int32Max then throw .einval
  else if protection &&& protWrite ≠ 0 ∧ capsule.fileMappings.any fun mapping =>
      mapping.shared ∧ ¬mapping.writable ∧ mapping.address < address + length ∧
        address < mapping.address + mapping.length then throw .eacces
  else mprotectRange n address length protection

/-! ## Libraries -/

/-- `native_store_allocate_library_region`. -/
def allocateLibraryRegion (n count : Nat) : SpaceM Nat := do
  let capsule := (← get).capsule n
  let limit := if capsule.virtualPageLimit ≠ 0 then capsule.virtualPageLimit else execMem32MaxPages
  if count = 0 then throw .einval
  else if limit ≤ 17 ∨ count > limit - 17 then throw .enomem
  else
    match (List.range (limit - 17 - count + 1)).reverse.find? fun candidate =>
        (regionIsReserved capsule.regions candidate count).isNone with
    | none => throw .enomem
    | some first =>
      reserveRegion n first count .library
      pure first

/-- The base of a library behind `first` pages, in 32 bits. -/
def libraryBase (first alignment : Nat) : Nat :=
  let base := first * execPageSize % 2 ^ 32
  if alignment = 0 then base
  else
    let align := 2 ^ (alignment % 32)
    if base % align = 0 then base else (base + (align - base % align)) % 2 ^ 32

/-- `native_store_load_library_sync` until the code of the library can run: the library
is counted if it is loaded already, otherwise it gets its pages.  The result is the base
of new pages. -/
def loadLibrary (n : Nat) (path : String) (memorySize alignment : Nat) : SpaceM Nat := do
  let capsule := (← get).capsule n
  match capsule.libraries.findIdx? fun library => library.loaded ∧ library.path = path with
  | some index =>
    modify (setCapsule n fun capsule =>
      { capsule with libraries := capsule.libraries.modify index fun library =>
          { library with refCount := library.refCount + 1 } })
    pure 0
  | none =>
    if capsule.libraries.length ≥ loadedLibraryMax then throw .enomem
    else if memorySize = 0 then pure 0
    else
      let count := max 1 ((memorySize + 65535) % 2 ^ 32 / 65536)
      if ¬capsule.hasMemory then throw .enomem
      else
        let first ← tryCatch (allocateLibraryRegion n count) fun _ => throw .enomem
        if first + count > (memoryOf (← get) n).pages then
          onFamily (fun _ => .enomem) (onStore (memoryReserveVirtualPages n (first + count)))
        onFamily (fun _ => .enomem)
          (onStore (memoryMapPages n first count (protRead ||| protWrite) 0))
        pure (libraryBase first alignment)

/-- The end of `native_store_load_library_sync`: the library is entered in the list. -/
def recordLibrary (n : Nat) (path : String) (memoryBase memorySize : Nat) : SpaceM Unit :=
  modify (setCapsule n fun capsule =>
    { capsule with libraries := capsule.libraries ++ [⟨path, true, memoryBase, memorySize, 1⟩] })

/-- `native_store_unload_library`: "regions remain allocated". -/
def unloadLibrary (n index : Nat) : SpaceM Unit := do
  match ((← get).capsule n).libraries[index]? with
  | none => throw .einval
  | some library =>
    if ¬library.loaded ∨ library.refCount = 0 then throw .einval
    else
      let left := if library.refCount > 1 then { library with refCount := library.refCount - 1 }
        else { library with refCount := 0, loaded := false, path := "" }
      modify (setCapsule n fun capsule =>
        { capsule with libraries := capsule.libraries.set index left })

/-! ## Exec and fork -/

/-- A `native_process_image`.  `ready` is the first test of
`native_store_commit_process_image`; `ownsMemory` says that the engine of the image does
not import its memory. -/
structure Image where
  ready : Bool
  memory : Option ExecMemory
  ownsMemory : Bool
  startupPtr : Nat
  startupSize : Nat

/-- The memory of the image, bound to the process if the engine owns it. -/
def Image.boundMemory (image : Image) (memory : ExecMemory) : ExecMemory :=
  if image.ownsMemory then
    { memory with
      virtualMaxPages := if memory.is64 then execMem64MaxPages else execMem32MaxPages
      processVirtualMemory := true }
  else memory

/-- The pages of the startup block, or nothing behind the pages of the module. -/
def Image.startupPages (image : Image) (modulePages : Nat) : Nat × Nat :=
  if image.startupSize = 0 then (modulePages, modulePages)
  else (image.startupPtr / execPageSize, pageCount (image.startupPtr + image.startupSize))

/-- The regions of the loaded libraries are entered again. -/
def reserveLibraries (n : Nat) : List LoadedLibrary → SpaceM Unit
  | [] => pure ()
  | library :: rest => do
    if library.memorySize ≠ 0 then
      let first := library.memoryBase / execPageSize
      let last := pageCount (library.memoryBase + library.memorySize)
      if last ≤ first then throw .enomem
      else reserveRegion n first (last - first) .library
    reserveLibraries n rest

/-- The regions of a new image. -/
def reserveImage (n : Nat) (image : Image) (modulePages : Nat) : SpaceM Unit := do
  let capsule := (← get).capsule n
  let (startupFirst, startupLast) := image.startupPages modulePages
  let stackFirst := capsule.virtualPageLimit - 17
  if startupFirst > modulePages ∨ startupLast < startupFirst ∨ startupLast > modulePages ∨
      startupLast ≥ stackFirst then throw .enomem
  else
    if startupFirst ≠ 0 then reserveRegion n 0 startupFirst .module
    if startupLast > startupFirst then
      reserveRegion n startupFirst (startupLast - startupFirst) .startup
    reserveRegion n startupLast 1 .brk
    reserveRegion n stackFirst 1 .guard
    reserveRegion n (stackFirst + 1) 16 .stack
    reserveLibraries n capsule.libraries

/-- `native_store_commit_process_image`. -/
def commitProcessImage (n : Nat) (image : Image) : SpaceM Unit := do
  if ¬image.ready then throw .einval
  else
    let memory := image.memory.map image.boundMemory
    modify (setCapsule n fun capsule =>
      { capsule with
        regions := []
        regionCapacity := 0
        virtualPageLimit :=
          if memory.any (·.is64) then execMem64MaxPages else execMem32MaxPages })
    match memory with
    | some memory =>
      if memory.linearPages ≠ 0 then
        tryCatch (reserveImage n image memory.linearPages) fun _ => throw .enomem
    | none => pure ()
    modify (setCapsule n fun capsule =>
      { capsule with
        hasMemory := memory.isSome
        startup := if image.startupSize = 0 then none else some
          (image.startupPtr, image.startupSize) })
    match memory with
    | some memory =>
      modify fun A => { A with family := { A.family with
        store := setMemory n (fun _ => memory) A.family.store } }
    | none => pure ()

/-- `native_process_capsule_clone`, in `native_store_fork_process`.  A copy that cannot be
finished is taken down again, so the lists are asked for first. -/
def forkProcess (n : Nat) : SpaceM Unit := do
  let capsule := (← get).capsule n
  if capsule.fileMappings ≠ [] then demand
  if capsule.regions ≠ [] then demand
  if capsule.libraries ≠ [] then demand
  onFamily (fun _ => .enomem) (forkMemory n)
  modify fun A => setCapsule A.family.count (fun _ =>
    { capsule with
      regionCapacity := capsule.regions.length
      fileMappingCapacity := capsule.fileMappings.length
      startup := none }) A

/-! ## Runs -/

/-- What a process does. -/
inductive Syscall
  | access (op : GuestOp)
  | grow (add : Nat)
  | mmap (address length : Nat) (protection : UInt8) (shared fixed : Bool)
      (file : Option (Nat × Bool)) (offset : Nat)
  | munmap (address length : Nat)
  | msync (address length : Nat)
  | mprotect (address length : Nat) (protection : UInt8)
  | write (file offset : Nat) (source : List UInt8)
  | ftruncate (file size : Nat)
  | loadLibrary (path : String) (memorySize alignment : Nat)
  | recordLibrary (path : String) (memoryBase memorySize : Nat)
  | unloadLibrary (index : Nat)
  | exec (image : Image)
  | fork

/-- What the call runs; results are dropped, errors are not. -/
def Syscall.comp (n : Nat) : Syscall → SpaceM Unit
  | .access op => do bindCheck n; let _ ← onFamily (fun _ => .efault) (onStore op.comp)
  | .grow add => do let _ ← onFamily (fun _ => .enomem) (onStore (executeMemoryGrow n add))
  | .mmap address length protection shared fixed file offset => do
      let _ ← guestMmap n address length protection shared fixed file offset
  | .munmap address length => guestMunmap n address length
  | .msync address length => guestMsync n address length
  | .mprotect address length protection => guestMprotect n address length protection
  | .write file offset source => fileWriteObject file offset source
  | .ftruncate file size => AddressSpace.ftruncate file size
  | .loadLibrary path memorySize alignment => do
      let _ ← AddressSpace.loadLibrary n path memorySize alignment
  | .recordLibrary path memoryBase memorySize =>
      AddressSpace.recordLibrary n path memoryBase memorySize
  | .unloadLibrary index => AddressSpace.unloadLibrary n index
  | .exec image => commitProcessImage n image
  | .fork => forkProcess n

/-- The call accesses no other memory. -/
def Syscall.within (n : Nat) : Syscall → Bool
  | .access op => op.within n
  | _ => true

def Spaces.step (A : Spaces) (n : Nat) (call : Syscall) : Spaces :=
  if A.family.Live n ∧ call.within n then (StateExcept.exec (call.comp n) A).2 else A

def Spaces.run : List (Nat × Syscall) → Spaces → Spaces
  | [], A => A
  | (n, call) :: calls, A => Spaces.run calls (A.step n call)

/-- One process, whose capsule has no regions and no file mappings. -/
structure Spaces.Initial (A : Spaces) : Prop where
  family : A.family.Initial
  regions : (A.capsule 1).regions = []
  fileMappings : (A.capsule 1).fileMappings = []

end Waste.AddressSpace
