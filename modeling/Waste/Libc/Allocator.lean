import Waste.Lib.DoublyLinked

/-!
# The allocator of the guest's libc

The functions of `aux/libc/allocator.c`.  A block has a header of 16 bytes, whose first word
is the tag (the size, with the lowest bit set while the block is in use) and whose second and
third words link the free blocks, and it ends with a copy of the tag.

A pointer and an `i32` are the number that its 32 bits spell; `signed` is its value as an
`i32`.  `granted` says which calls of `memory.grow` succeed.
-/

namespace Waste.Libc

open ByteMemory

def einval : Nat := 22
def enomem : Nat := 12

def pageSize : Nat := 65536

/-- The globals of the allocator, the memory, and the calls of `memory.grow` that it made. -/
structure Allocator where
  mem : Bytes
  pages : Nat
  granted : Nat → Bool
  requests : Nat
  initialized : Bool
  errnoAddress : Nat
  heapBase : Nat
  programBreak : Nat
  freeHead : Nat
  growCalls : Nat

/-! ## Arithmetic of 32 bits -/

def i32 (n : Nat) : Nat := n % 2 ^ 32

def signed (n : Nat) : Int := if n < 2 ^ 31 then n else n - 2 ^ 32

def add32 (a b : Nat) : Nat := i32 (a + b)

@[irreducible] def sub32 (a b : Nat) : Nat := i32 (a + 2 ^ 32 - b)

def align16 (value : Nat) : Nat := add32 value 15 / 16 * 16

/-- The tag without its lowest bit. -/
def tagSize (tag : Nat) : Nat := tag / 2 * 2

/-! ## Memory management -/

namespace Allocator

def setErrno (value : Nat) (s : Allocator) : Allocator :=
  if s.errnoAddress = 0 then s else { s with mem := store s.errnoAddress value s.mem }

/-- `n` more pages, one at a time. -/
def growPages : Nat → Allocator → Bool × Allocator
  | 0, s => (true, s)
  | n + 1, s =>
    if s.granted s.requests then
      growPages n { s with
        requests := s.requests + 1, pages := s.pages + 1, growCalls := add32 s.growCalls 1 }
    else (false, setErrno enomem { s with requests := s.requests + 1 })

/-- `ensure_capacity`: the loop asks for a page while the memory ends before `last`. -/
def ensureCapacity (last : Nat) (s : Allocator) : Bool × Allocator :=
  growPages ((last + (pageSize - 1)) / pageSize - s.pages) s

/-- `waste_allocator_init`. -/
def init (base : Nat) (s : Allocator) : Bool × Allocator :=
  let err := add32 base 3 / 4 * 4
  let first := align16 (add32 err 4)
  if signed first < signed base then (false, s)
  else
    match s.ensureCapacity first with
    | (false, s) => (false, s)
    | (true, s) =>
      (true, { s with
        errnoAddress := err, heapBase := first, programBreak := first, freeHead := 0, growCalls := 0
        mem := store err 0 s.mem
        initialized := true })

/-- `sbrk`: the break from before, or none. -/
def sbrk (increment : Nat) (s : Allocator) : Option Nat × Allocator :=
  if !s.initialized then (none, s.setErrno einval)
  else
    let next : Int := s.programBreak + signed increment
    if next < s.heapBase then (none, s.setErrno enomem)
    else if 0x7fffffff < next then (none, s.setErrno enomem)
    else
      match s.ensureCapacity next.toNat with
      | (false, s) => (none, s)
      | (true, s) => (some s.programBreak, { s with programBreak := next.toNat })

/-! ## Blocks -/

def writeBlock (block size allocated : Nat) (s : Allocator) : Allocator :=
  let tag := size ||| allocated
  { s with mem := store (sub32 (add32 block size) 4) tag (store block tag s.mem) }

def removeFree (block : Nat) (s : Allocator) : Allocator :=
  let prev := load s.mem (add32 block 4)
  let next := load s.mem (add32 block 8)
  let s :=
    if prev ≠ 0 then { s with mem := store (add32 prev 8) next s.mem }
      else { s with freeHead := next }
  if next ≠ 0 then { s with mem := store (add32 next 4) prev s.mem } else s

def insertFree (block : Nat) (s : Allocator) : Allocator :=
  let mem := store (add32 block 8) s.freeHead (store (add32 block 4) 0 s.mem)
  let mem := if s.freeHead ≠ 0 then store (add32 s.freeHead 4) block mem else mem
  { s with mem, freeHead := block }

/-- The first half of `release_block`: a free block after this one joins it.  The answer is
the size. -/
def joinNext (block : Nat) (s : Allocator) : Nat × Allocator :=
  let size := tagSize (load s.mem block)
  let next := add32 block size
  if next < s.programBreak then
    if load s.mem next % 2 = 0 then
      let s := s.removeFree next
      (add32 size (tagSize (load s.mem next)), s)
    else (size, s)
  else (size, s)

/-- The second half: this block joins a free one before it.  The answer is the block and its
size. -/
def joinPrev (block size : Nat) (s : Allocator) : Nat × Nat × Allocator :=
  if s.heapBase < block then
    let prevSize := tagSize (load s.mem (sub32 block 4))
    if 32 ≤ signed prevSize then
      let prev := sub32 block prevSize
      if s.heapBase ≤ prev then
        if load s.mem prev % 2 = 0 then (prev, add32 size prevSize, s.removeFree prev)
        else (block, size, s)
      else (block, size, s)
    else (block, size, s)
  else (block, size, s)

def releaseBlock (block : Nat) (s : Allocator) : Allocator :=
  let (size, s) := s.joinNext block
  let (block, size, s) := s.joinPrev block size
  (s.writeBlock block size 0).insertFree block

/-! ## The interface

A pointer is 0 when a function returns `NULL`.  The functions that search the free list
return nothing when the search does not end. -/

/-- The size of the block for a request. -/
def totalFor (requested : Nat) : Nat := ((if requested ≠ 0 then requested else 1) + 35) / 16 * 16

/-- The search of `malloc`, from a node of the free list: the first block that is large
enough, or 0. -/
def findFit (mem : Bytes) (total : Nat) : Nat → Nat → Option Nat
  | 0, _ => none
  | fuel + 1, block =>
    if block = 0 then some 0
    else if signed total ≤ signed (tagSize (load mem block)) then some block
    else findFit mem total fuel (load mem (add32 block 8))

/-- `malloc` with a free block: what is left of it becomes a block when it is large enough. -/
def takeFree (block total : Nat) (s : Allocator) : Nat × Allocator :=
  let blockSize := tagSize (load s.mem block)
  let s := s.removeFree block
  let remaining := sub32 blockSize total
  if 32 ≤ signed remaining then
    (add32 block 16,
      ((s.writeBlock block total 1).writeBlock (add32 block total) remaining 0).insertFree
        (add32 block total))
  else (add32 block 16, s.writeBlock block blockSize 1)

/-- `malloc` at the end of the heap. -/
def extendHeap (total : Nat) (s : Allocator) : Nat × Allocator :=
  if 0x7fffffff < s.programBreak + 15 + total then (0, s.setErrno enomem)
  else
    let alignedBreak := align16 s.programBreak
    match s.sbrk (add32 (sub32 alignedBreak s.programBreak) total) with
    | (none, s) => (0, s)
    | (some _, s) => (add32 alignedBreak 16, s.writeBlock alignedBreak total 1)

def malloc (requested : Nat) (s : Allocator) : Option (Nat × Allocator) :=
  if !s.initialized then some (0, s.setErrno einval)
  else
    let total := totalFor requested
    if 0x7ffffff0 < total then some (0, s.setErrno enomem)
    else
      match findFit s.mem total (s.programBreak + 1) s.freeHead with
      | none => none
      | some block => some (if block = 0 then s.extendHeap total else s.takeFree block total)

/-- The last part of `allocate_aligned`: the block at `raw` is cut to size. -/
def cutAligned (alignment size raw : Nat) (s : Allocator) : Nat × Allocator :=
  let block := sub32 raw 16
  let originalSize := tagSize (load s.mem block)
  let nearest := (raw + alignment - 1) / alignment * alignment
  let gap := i32 (nearest - raw)
  let tooSmall := gap ≠ 0 ∧ signed gap < 32
  let pointer := if tooSmall then nearest + alignment else nearest
  let padding := if tooSmall then add32 gap alignment else gap
  let alignedBlock := add32 block padding
  let tail := sub32 (sub32 originalSize padding) (totalFor size)
  let total := if signed tail < 32 then add32 (totalFor size) tail else totalFor size
  let tail := if signed tail < 32 then 0 else tail
  let s := s.writeBlock alignedBlock total 1
  let s :=
    if tail ≠ 0 then (s.writeBlock (add32 alignedBlock total) tail 1).releaseBlock
      (add32 alignedBlock total)
    else s
  let s := if padding ≠ 0 then (s.writeBlock block padding 1).releaseBlock block else s
  (i32 pointer, s)

def allocateAligned (alignment size : Nat) (s : Allocator) : Option (Nat × Allocator) :=
  if alignment ≤ 16 then s.malloc size
  else if 0x7ffffff0 - 35 < size + alignment + 32 then some (0, s.setErrno enomem)
  else
    match s.malloc (size + alignment + 32) with
    | none => none
    | some (raw, s) => some (if raw = 0 then (0, s) else s.cutAligned alignment size raw)

/-- Not a power of two. -/
def crooked (alignment : Nat) : Bool := alignment &&& (alignment - 1) ≠ 0

def alignedAlloc (alignment size : Nat) (s : Allocator) : Option (Nat × Allocator) :=
  if alignment = 0 ∨ crooked alignment ∨ size % alignment ≠ 0 then some (0, s.setErrno einval)
  else s.allocateAligned alignment size

/-- `posix_memalign` with a place for the result: the answer is the pointer, or 0 with the
error number that is returned. -/
def posixMemalign (alignment size : Nat) (s : Allocator) : Option (Except Nat Nat × Allocator) :=
  if alignment < 4 ∨ crooked alignment then some (.error einval, s)
  else
    let savedErrno := if s.errnoAddress ≠ 0 then load s.mem s.errnoAddress else 0
    match s.allocateAligned alignment size with
    | none => none
    | some (memory, s) =>
      let s := s.setErrno savedErrno
      some (if memory = 0 then (.error enomem, s) else (.ok memory, s))

def free (pointer : Nat) (s : Allocator) : Allocator :=
  if pointer = 0 then s
  else
    let block := sub32 pointer 16
    if block < s.heapBase then s.setErrno einval
    else if s.programBreak ≤ block then s.setErrno einval
    else if load s.mem block % 2 = 0 then s.setErrno einval
    else s.releaseBlock block

def calloc (count size : Nat) (s : Allocator) : Option (Nat × Allocator) :=
  if 0xffffffff < count * size then some (0, s.setErrno enomem)
  else
    match s.malloc (count * size) with
    | none => none
    | some (pointer, s) =>
      some (pointer, if pointer ≠ 0 then { s with mem := fill pointer (count * size) 0 s.mem }
        else s)

def realloc (pointer requested : Nat) (s : Allocator) : Option (Nat × Allocator) :=
  if pointer = 0 then s.malloc requested
  else if requested = 0 then some (0, s.free pointer)
  else
    let block := sub32 pointer 16
    let oldCapacity := sub32 (tagSize (load s.mem block)) 20
    match s.malloc requested with
    | none => none
    | some (replacement, s) =>
      if replacement = 0 then some (0, s)
      else
        let copySize := if signed oldCapacity < signed requested then oldCapacity else requested
        some (replacement, { s with mem := copy replacement pointer copySize s.mem }.free pointer)

/-- `waste_malloc_usable_size`. -/
def usableSize (pointer : Nat) (s : Allocator) : Nat :=
  if pointer = 0 then 0 else sub32 (tagSize (load s.mem (sub32 pointer 16))) 20

end Allocator

end Waste.Libc
