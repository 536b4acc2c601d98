import Waste.Memory.Protection

/-!
# What a family of processes should see

The abstract memory of a family of processes.  Every process has bytes of its own for
each of its pages.  A page that is mapped shared is linked to an object instead, and
the bytes are those of the object.  There are no reference counts and no pages that are
copied when they are written: fork copies the bytes and the links of all pages.

A place is a page of a process.  The places of process 0 stand for the file pages that
the system keeps.

The calls of a process are sequences of steps any of which can fail.  `Sequence` is such
a sequence: the steps up to the first failure take effect.
-/

namespace Waste.Memory

open Function List

variable {x : Nat × Nat}

/-- What the places of a shared mapping have in common. -/
inductive Object
  | file (key : Nat × Nat)
  | anonymous (serial : Nat) (place : Nat × Nat)
deriving DecidableEq

structure Flat where
  own : Nat × Nat → Nat → UInt8
  link : Nat × Nat → Option Object
  object : Object → Nat → UInt8
  files : List (Nat × Nat)
  serial : Nat

namespace Flat

variable (w : Flat)

/-- The bytes of a place. -/
def read (x : Nat × Nat) : Nat → UInt8 :=
  match w.link x with
  | none => w.own x
  | some o => w.object o

/-- The places that have the bytes of `x`. -/
def Linked (x y : Nat × Nat) : Prop :=
  y = x ∨ (w.link x ≠ none ∧ w.link y = w.link x)

/-- Is the place one of the pages `lo` to `hi - 1` of `m`? -/
def inWindow (m lo hi : Nat) (x : Nat × Nat) : Bool :=
  x.1 = m ∧ lo ≤ x.2 ∧ x.2 < hi

/-- A write: to the bytes of the place, or to the object it is linked to. -/
def put (x : Nat × Nat) (f : (Nat → UInt8) → Nat → UInt8) : Flat :=
  match w.link x with
  | none => { w with own := update w.own x (f (w.own x)) }
  | some o => { w with object := update w.object o (f (w.object o)) }

/-- Pages that are new or given up: zeros, linked to nothing. -/
def clear (m lo hi : Nat) : Flat :=
  { w with
    own := fun x => if inWindow m lo hi x then zeroPage else w.own x
    link := fun x => if inWindow m lo hi x then none else w.link x }

/-- The child has the bytes and the links of the parent. -/
def fork (m n pages : Nat) : Flat :=
  { w with
    own := fun x => if x.1 = n then (if x.2 < pages then w.own (m, x.2) else zeroPage) else w.own x
    link := fun x => if x.1 = n then (if x.2 < pages then w.link (m, x.2) else none) else w.link x }

/-- Pages mapped `MAP_SHARED`: a new object for each that has none. -/
def openAnonymous (m lo hi : Nat) : Flat :=
  { w with
    link := fun x =>
      if inWindow m lo hi x ∧ w.link x = none then some (.anonymous w.serial x) else w.link x
    object := fun o =>
      match o with
      | .file key => w.object (.file key)
      | .anonymous serial x => if serial = w.serial then w.read x else w.object o
    serial := w.serial + 1 }

/-- The object of a file page, with the bytes of the file if it is new. -/
def openFile (key : Nat × Nat) (bytes : Nat → UInt8) : Flat :=
  if key ∈ w.files then w
  else
    { w with
      link := update w.link (0, w.files.length) (some (.file key))
      object := update w.object (.file key) bytes
      files := w.files ++ [key] }

/-- A place mapped `MAP_SHARED` on a file page. -/
def join (x key : Nat × Nat) (bytes : Nat → UInt8) : Flat :=
  { w.openFile key bytes with
    link := update (w.openFile key bytes).link x (some (.file key)) }

def bytesAt (m address length : Nat) : List UInt8 :=
  (List.range length).map fun i =>
    w.read (m, (address + i) / execPageSize) ((address + i) % execPageSize)

/-! ## Sequences of steps that can fail -/

inductive Sequence {ι : Type} (step : ι → Bool → Flat → Flat → Prop) :
    List ι → Bool → Flat → Flat → Prop
  | nil (w : Flat) : Sequence step [] true w w
  | cons {i : ι} {is : List ι} {done : Bool} {w v u : Flat} (hstep : step i true w v)
      (hrest : Sequence step is done v u) : Sequence step (i :: is) done w u
  | failed {i : ι} {w v : Flat} (is : List ι) (hstep : step i false w v) :
      Sequence step (i :: is) false w v
  | stopped (is : List ι) (w : Flat) : Sequence step is false w w

/-! ## Accesses -/

/-- A write inside one page. -/
structure Put where
  page : Nat
  inPage : Nat
  count : Nat
  value : Nat → UInt8

/-- The writes that an access to a range is made of, page by page. -/
def puts : Nat → Nat → Nat → (Nat → UInt8) → List Put
  | 0, _, _, _ => []
  | fuel + 1, address, length, value =>
    if length = 0 then []
    else
      let chunk := min (execPageSize - address % execPageSize) length
      ⟨address / execPageSize, address % execPageSize, chunk, value⟩ ::
        puts fuel (address + chunk) (length - chunk) fun i => value (chunk + i)

def PutStep (m : Nat) (p : Put) (done : Bool) (w v : Flat) : Prop :=
  v = if done then w.put (m, p.page) (writtenBytes p.inPage p.count p.value) else w

/-- `length` bytes from `address` on become `value`. -/
def Assigns (m address length : Nat) (value : Nat → UInt8) : Bool → Flat → Flat → Prop :=
  Sequence (PutStep m) (puts length address length value)

/-- The bytes are written from `address` on. -/
def Writes (m address : Nat) (source : List UInt8) : Bool → Flat → Flat → Prop :=
  Assigns m address source.length fun i => source.getD i 0

/-- The parts of a copy: offset in both ranges and length. -/
def forwardParts (length : Nat) : Nat → Nat → List (Nat × Nat)
  | 0, _ => []
  | fuel + 1, done =>
    if done ≥ length then []
    else
      let part := if length - done > copyChunk then copyChunk else length - done
      (done, part) :: forwardParts length fuel (done + part)

def backwardParts : Nat → Nat → List (Nat × Nat)
  | 0, _ => []
  | fuel + 1, remaining =>
    if remaining = 0 then []
    else
      let part := if remaining > copyChunk then copyChunk else remaining
      (remaining - part, part) :: backwardParts fuel (remaining - part)

/-- The end of a range is copied first when it would be overwritten otherwise. -/
def copyParts (dst dstOffset src srcOffset length : Nat) : List (Nat × Nat) :=
  if dst = src ∧ dstOffset > srcOffset ∧ dstOffset - srcOffset < length then
    backwardParts length length
  else forwardParts length length 0

/-- Each part is read and then written. -/
def Copies (dst dstOffset src srcOffset length : Nat) : Bool → Flat → Flat → Prop :=
  Sequence (fun part done w v => Writes dst (dstOffset + part.1)
      (w.bytesAt src (srcOffset + part.1) part.2) done w v)
    (copyParts dst dstOffset src srcOffset length)

/-! ## Mappings -/

def numbered {α : Type} : Nat → List α → List (Nat × α)
  | _, [] => []
  | n, a :: rest => (n, a) :: numbered (n + 1) rest

/-- A page of a shared file mapping. -/
def JoinStep (m : Nat) (p : Nat × (Nat × Nat) × (Nat → UInt8)) (done : Bool) (w v : Flat) : Prop :=
  v = if done then w.join (m, p.1) p.2.1 p.2.2 else w

/-- A page of a private file mapping. -/
def LoadStep (m : Nat) (p : Nat × List UInt8) (done : Bool) (w v : Flat) : Prop :=
  Writes m (p.1 * execPageSize) p.2 done w v

end Flat

/-- What an instruction does to the abstract memory, and what it answers. -/
def GuestOp.Flatly (r : Except ExecError (List UInt8)) (w v : Flat) : GuestOp → Prop
  | .load m base offset width =>
    v = w ∧ ∀ bytes, r = .ok bytes → bytes = w.bytesAt m (base + offset) width
  | .vectorLoad m base offset width =>
    v = w ∧ ∀ bytes, r = .ok bytes → bytes = w.bytesAt m (base + offset) width
  | .vectorLoadExtend m base offset sourceWidth =>
    v = w ∧ ∀ bytes, r = .ok bytes →
      bytes = (List.range (16 / (sourceWidth * 2))).flatMap fun lane =>
        w.bytesAt m (base + offset + lane * sourceWidth) sourceWidth
  | .store m base offset width bits =>
    Flat.Writes m (base + offset) (storeLe bits width) r.toBool w v
  | .vectorStore m base offset bytes => Flat.Writes m (base + offset) bytes r.toBool w v
  | .copy dst dstOffset src srcOffset n =>
    Flat.Copies dst dstOffset src srcOffset n r.toBool w v
  | .fill m dst value n => Flat.Assigns m dst n (fun _ => value) r.toBool w v
  | .init m dst src n segment =>
    Flat.Writes m dst ((segment.drop src).take n) r.toBool w v

namespace Flat

variable {w : Flat}

/-! ## What the operations change -/

theorem read_of_link {o : Object} (hx : w.link x = some o) : w.read x = w.object o := by
  rw [read, hx]

theorem read_congr {v : Flat} (hlink : v.link x = w.link x)
    (hown : v.own x = w.own x) (hobject : ∀ o, w.link x = some o → v.object o = w.object o) :
    v.read x = w.read x := by
  unfold read
  rw [hlink]
  cases hx : w.link x with
  | none => exact hown
  | some o => exact hobject o hx

theorem put_read (x : Nat × Nat) (f : (Nat → UInt8) → Nat → UInt8) (y : Nat × Nat) :
    (w.Linked x y → (w.put x f).read y = f (w.read x)) ∧
      (¬ w.Linked x y → (w.put x f).read y = w.read y) := by
  cases hx : w.link x with
  | none =>
    have hput : w.put x f = { w with own := update w.own x (f (w.own x)) } := by
      simp only [put, hx]
    have hreadx : w.read x = w.own x := by simp only [read, hx]
    rw [hput, hreadx]
    constructor
    · rintro (rfl | ⟨hsome, -⟩)
      · simp only [read, hx, update_self]
      · exact absurd hx hsome
    · intro hno
      have hne : y ≠ x := fun h => hno (.inl h)
      simp only [read, update_of_ne hne]
  | some o =>
    have hput : w.put x f = { w with object := update w.object o (f (w.object o)) } := by
      simp only [put, hx]
    have hreadx : w.read x = w.object o := by simp only [read, hx]
    rw [hput, hreadx]
    constructor
    · intro hlinked
      have hy : w.link y = some o := by
        rcases hlinked with rfl | ⟨-, hsame⟩
        · exact hx
        · rw [hsame, hx]
      simp only [read, hy, update_self]
    · intro hno
      have hy : w.link y ≠ some o := by
        intro hy
        apply hno
        refine .inr ⟨?_, ?_⟩
        · rw [hx]
          exact Option.some_ne_none o
        · rw [hy, hx]
      cases hlink : w.link y with
      | none => simp only [read, hlink]
      | some o' =>
        have hne : o' ≠ o := by
          intro heq
          rw [heq] at hlink
          exact hy hlink
        simp only [read, hlink, update_of_ne hne]

@[simp] theorem put_link (x : Nat × Nat) (f : (Nat → UInt8) → Nat → UInt8) :
    (w.put x f).link = w.link := by
  unfold put
  split <;> rfl

theorem join_openFile (x key : Nat × Nat) (bytes : Nat → UInt8) :
    (w.openFile key bytes).join x key bytes = w.join x key bytes := by
  have hagain : (w.openFile key bytes).openFile key bytes = w.openFile key bytes := by
    have hmem : key ∈ (w.openFile key bytes).files := by
      unfold openFile
      split_ifs with hkey
      · exact hkey
      · exact mem_append_right _ mem_cons_self
    rw [openFile, if_pos hmem]
  rw [join, join, hagain]

theorem clear_read (m lo hi : Nat) (x : Nat × Nat) :
    (w.clear m lo hi).read x = if inWindow m lo hi x then zeroPage else w.read x := by
  cases hx : inWindow m lo hi x with
  | true | false => simp [read, clear, hx]

theorem fork_read (m n pages : Nat) (x : Nat × Nat) : (w.fork m n pages).read x =
      if x.1 = n then (if x.2 < pages then w.read (m, x.2) else zeroPage) else w.read x := by
  by_cases hn : x.1 = n
  · by_cases hp : x.2 < pages
    · simp [read, fork, hn, hp]
    · simp [read, fork, hn, hp]
  · simp [read, fork, hn]

/-- Objects of earlier mappings are not those of a new one. -/
def SerialsBelow (w : Flat) : Prop :=
  ∀ x serial y, w.link x = some (.anonymous serial y) → serial < w.serial

theorem openAnonymous_read (hw : w.SerialsBelow) (m lo hi : Nat) (x : Nat × Nat) :
    (w.openAnonymous m lo hi).read x = w.read x := by
  by_cases hx : inWindow m lo hi x ∧ w.link x = none
  · have hlink : (w.openAnonymous m lo hi).link x = some (.anonymous w.serial x) := if_pos hx
    rw [read, hlink]
    show (if w.serial = w.serial then w.read x else _) = _
    rw [if_pos rfl]
  have hlink : (w.openAnonymous m lo hi).link x = w.link x := if_neg hx
  rw [read, hlink]
  cases hl : w.link x with
  | none => simp [read, hl, openAnonymous]
  | some o =>
    cases o with
    | file _ => simp [read, hl, openAnonymous]
    | anonymous serial y =>
      have hne : serial ≠ w.serial := (hw x serial y hl).ne
      simp [read, hl, openAnonymous, hne]

end Flat

end Waste.Memory
