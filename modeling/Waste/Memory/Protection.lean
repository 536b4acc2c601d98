import Waste.Memory.Runs
import Waste.Memory.Backing

/-!
# Page protection

Which pages an instruction can read and change.  An instruction goes through
`exec_memory_read` and `exec_memory_write`, which test the range, the access check
and the protection of every page they touch.  `exec_memory_fill` tests the range
and nothing else.

Three properties say that protection is enforced.  A page without write permission
keeps its bytes, unless it holds a page that is marked shared and that the
instruction may write through another page.  The bytes of a page that nobody may
read have no influence on what the instruction answers or leaves in readable pages.
And an access to a page that lacks the permission ends in a trap.

All three hold for every instruction but `memory.fill`, and for `memory.fill` when
the pages it touches have write permission.
-/

namespace Waste.Memory

open RangeMap StateExcept SharedPages List

variable {width base : Nat}

/-! ## Vector instructions -/

/-- The read of `v128.load`, of the splat, zero and lane loads. -/
def executeVectorLoad (m base offset width : Nat) : MemM (List UInt8) := do
  let s ← get
  let address ← require (memoryAddress (s.memory m) base offset width)
  memoryRead m address width

/-- The reads of an extending load, one for each lane. -/
def readLanes (m address sourceWidth : Nat) : List Nat → MemM (List UInt8)
  | [] => pure []
  | lane :: rest => do
    let bytes ← memoryRead m (address + lane * sourceWidth) sourceWidth
    let others ← readLanes m address sourceWidth rest
    pure (bytes ++ others)

/-- `v128.load8x8_s` to `v128.load32x2_u`: eight bytes, `sourceWidth` at a time. -/
def executeVectorLoadExtend (m base offset sourceWidth : Nat) : MemM (List UInt8) := do
  let s ← get
  let address ← require (memoryAddress (s.memory m) base offset 8)
  readLanes m address sourceWidth (List.range (16 / (sourceWidth * 2)))

/-- `v128.store` and the lane stores: all bytes of the vector or those of a lane. -/
def executeVectorStore (m base offset : Nat) (bytes : List UInt8) : MemM Unit := do
  let s ← get
  let address ← require (memoryAddress (s.memory m) base offset bytes.length)
  memoryWrite m address bytes

/-- The instructions that access memory. -/
inductive GuestOp
  | load (m base offset width : Nat)
  | vectorLoad (m base offset width : Nat)
  | vectorLoadExtend (m base offset sourceWidth : Nat)
  | store (m base offset width bits : Nat)
  | vectorStore (m base offset : Nat) (bytes : List UInt8)
  | copy (dst dstOffset src srcOffset n : Nat)
  | fill (m dst : Nat) (value : UInt8) (n : Nat)
  | init (m dst src n : Nat) (segment : List UInt8)

/-- The instruction, with the bytes that it hands to the guest. -/
def GuestOp.comp : GuestOp → MemM (List UInt8)
  | .load m base offset width => do
    let bits ← executeLoad m base offset width
    pure (storeLe bits width)
  | .vectorLoad m base offset width => executeVectorLoad m base offset width
  | .vectorLoadExtend m base offset sourceWidth => executeVectorLoadExtend m base offset sourceWidth
  | .store m base offset width bits => do
    executeStore m base offset width bits
    pure []
  | .vectorStore m base offset bytes => do
    executeVectorStore m base offset bytes
    pure []
  | .copy dst dstOffset src srcOffset n => do
    executeMemoryCopy dst dstOffset src srcOffset n
    pure []
  | .fill m dst value n => do
    executeMemoryFill m dst value n
    pure []
  | .init m dst src n segment => do
    executeMemoryInit m dst src n segment
    pure []

/-! ## Permissions -/

/-- The page is mapped and its protection has every bit of `access`. -/
def Allows (memory : ExecMemory) (p : Nat) (access : UInt8) : Prop :=
  p < memory.pages ∧ Covered memory p ∧ memory.pageProtection p &&& access = access

instance (memory : ExecMemory) (p : Nat) (access : UInt8) : Decidable (Allows memory p access) :=
  inferInstanceAs (Decidable (_ ∧ _ ∧ _))

def Permits (s : Store) (m offset length : Nat) (access : UInt8) : Prop :=
  ∀ a, offset ≤ a → a < offset + length → Allows (s.memory m) (a / execPageSize) access

/-- The mapping list of every memory and its protection bytes agree. -/
def Described (s : Store) : Prop :=
  ∀ m, MapInv (bare (s.memory m))

variable {s t : Store}

theorem SameLayout.described (h : SameLayout s t) (hs : Described s) : Described t := by
  intro m
  rw [h m]
  exact hs m

variable {m offset length dst dstOffset src srcOffset : Nat} {access : UInt8} {memory : ExecMemory}
  {e : ExecError}

theorem SameLayout.allows (h : SameLayout s t) {p : Nat} :
    Allows (t.memory m) p access ↔ Allows (s.memory m) p access := by
  show Allows (bare (t.memory m)) p access ↔ Allows (bare (s.memory m)) p access
  rw [h m]

theorem SameLayout.permits (h : SameLayout s t) :
    Permits t m offset length access ↔ Permits s m offset length access :=
  forall_congr' fun _ => forall_congr' fun _ => forall_congr' fun _ => h.allows

/-- The tests of `exec_memory_read` and `exec_memory_write` let through what every
page of the range allows. -/
theorem Described.permits (hs : Described s) (haccess : access ≠ 0)
    (hrange : memoryRange (s.memory m) offset length = .ok ())
    (hperm : memoryPermissions (s.memory m) offset length access = .ok ()) :
    Permits s m offset length access := by
  intro a hlo hhi
  have hprot := protection_of_memoryPermissions hperm hlo hhi
  have hpage : a / execPageSize < (bare (s.memory m)).pages :=
    page_lt_of_memoryRange (hs m) hrange hhi
  have hne : (s.memory m).pageProtection (a / execPageSize) ≠ 0 := by
    intro hzero
    rw [hzero] at hprot
    apply haccess
    rw [← hprot]
    exact UInt8.zero_and
  exact ⟨hpage, (hs m).covered_of_protection hpage hne, hprot⟩

/-- The access check of a process answers with a trap, as
`native_process_validate_memory_access` does. -/
def ChecksTrap (s : Store) : Prop :=
  ∀ m check, (s.memory m).accessCheck = some check →
    ∀ offset length access e, check offset length access = some e → e.status = .trap

theorem SameLayout.checksTrap (h : SameLayout s t) (hs : ChecksTrap s) : ChecksTrap t := by
  intro m check hcheck
  have hbare : (bare (t.memory m)).accessCheck = some check := hcheck
  rw [h m] at hbare
  exact hs m check hbare

/-- What holds in every state of a process: see `proper_run`. -/
structure Proper (s : Store) : Prop where
  described : Described s
  sound : (heap s).Sound
  checks : ChecksTrap s

theorem Proper.of_steady (hs : Proper s) (h : Steady s t) : Proper t :=
  ⟨h.layout.described hs.described, h.sound, h.layout.checksTrap hs.checks⟩

/-! ## Accesses -/

theorem memoryRange_trap (h : memoryRange memory offset length = .error e) : e.status = .trap := by
  rw [memoryRange] at h
  split at h
  · cases h
    rfl
  · cases h

theorem memoryPermissions_trap (h : memoryPermissions memory offset length access = .error e) :
    e.status = .trap := by
  rw [memoryPermissions] at h
  split at h
  · cases h
  · split at h
    · cases h
      rfl
    · cases h
      rfl

/-- The address of an access is checked before anything else. -/
abbrev addressed {α : Type} (m base offset width : Nat) (c : Nat → MemM α) : MemM α := do
  let s ← get
  let address ← require (memoryAddress (s.memory m) base offset width)
  c address

theorem exec_addressed {α : Type} (m base offset width : Nat) (c : Nat → MemM α) (s : Store) :
    (∃ e, e.status = .trap ∧ exec (addressed m base offset width c) s = (.error e, s)) ∨
      exec (addressed m base offset width c) s = exec (c (base + offset)) s := by
  simp only [exec_bind, exec_get, exec_require, memoryAddress]
  split_ifs
  · exact .inl ⟨_, rfl, rfl⟩
  · exact .inl ⟨_, rfl, rfl⟩
  · exact .inr rfl

theorem ChecksTrap.runAccessCheck_trap (hs : ChecksTrap s)
    (h : runAccessCheck (s.memory m) offset length access = .error e) : e.status = .trap := by
  rw [runAccessCheck] at h
  split at h
  · exact nomatch h
  rename_i check hcheck
  split at h
  · exact nomatch h
  · rename_i error herror
    cases h
    exact hs m check hcheck _ _ _ _ herror

/-- The end of an access: it writes in `X`; it fails with a trap, unless the
allocator refuses a page; and where it does not fail, `P` holds. -/
structure Guarded {α : Type} (X : Nat × Nat → Prop) (P : Prop) (s : Store)
    (r : Except ExecError α × Store) : Prop where
  effects : Effects X s r.2
  failed : ∀ e, r.1 = .error e → e.status = .trap ∨ e.status = .resource ∧ Refused s
  allowed : ∀ a, r.1 = .ok a → P

section Rules

variable {α β : Type} {X : Nat × Nat → Prop} {P Q : Prop}

theorem Guarded.value (hs : Proper s) (hP : P) (a : α) : Guarded X P s (exec (pure a) s) :=
  ⟨.refl hs.sound, fun _ h => (nomatch h), fun _ _ => hP⟩

theorem Guarded.trap (hs : Proper s) (he : e.status = .trap) :
    Guarded (α := α) X P s (.error e, s) := by
  refine ⟨.refl hs.sound, fun e' h => ?_, nofun⟩
  cases h
  exact .inl he

theorem Guarded.mono {r : Except ExecError α × Store} (h : Guarded X P s r) (hPQ : P → Q) :
    Guarded X Q s r :=
  ⟨h.effects, h.failed, fun a ha => hPQ (h.allowed a ha)⟩

theorem Guarded.bind {c : MemM α} {f : α → MemM β} (hc : Guarded X P s (exec c s))
    (hf : ∀ a t, exec c s = (.ok a, t) → Steady s t → P → Guarded X Q t (exec (f a) t)) :
    Guarded X Q s (exec (c >>= f) s) := by
  rw [exec_bind]
  cases hrun : exec c s with
  | mk r t =>
    rw [hrun] at hc
    have hsteady := hc.effects.steady
    cases r with
    | error e =>
      refine ⟨hc.effects, fun e' h => ?_, nofun⟩
      cases h
      exact hc.failed e rfl
    | ok a =>
      have hrest := hf a t hrun hsteady (hc.allowed a rfl)
      refine ⟨hc.effects.trans hrest.effects, fun e h => ?_, hrest.allowed⟩
      refine (hrest.failed e h).imp id fun hresource => ?_
      exact ⟨hresource.1, hresource.2.of_later hsteady.later⟩

theorem Loops.guarded {r : Except ExecError PUnit × Store} (h : Loops X s r) (hP : P) :
    Guarded X P s r :=
  ⟨h.effects, fun e he => .inr (h.failed e he), fun _ _ => hP⟩

/-- The three tests in front of a read or a write. -/
theorem Guarded.checked (hs : Proper s) (haccess : access ≠ 0) {c : MemM α}
    (hc : Permits s m offset length access → Guarded X P s (exec c s)) :
    Guarded X P s (exec (do
      require (memoryRange (s.memory m) offset length)
      require (runAccessCheck (s.memory m) offset length access)
      require (memoryPermissions (s.memory m) offset length access)
      c) s) := by
  cases hrange : memoryRange (s.memory m) offset length with
  | error e => exact .trap hs (memoryRange_trap hrange)
  | ok _ =>
    cases hcheck : runAccessCheck (s.memory m) offset length access with
    | error e => exact .trap hs (hs.checks.runAccessCheck_trap hcheck)
    | ok _ =>
      cases hperm : memoryPermissions (s.memory m) offset length access with
      | error e => exact .trap hs (memoryPermissions_trap hperm)
      | ok _ => exact hc (hs.described.permits haccess hrange hperm)

theorem Guarded.addressed (hs : Proper s) {c : Nat → MemM α}
    (hc : Guarded X P s (exec (c (base + offset)) s)) :
    Guarded X P s (exec (addressed m base offset width c) s) := by
  rcases exec_addressed m base offset width c s with ⟨e, htrap, hrun⟩ | hrun <;> rw [hrun]
  · exact .trap hs htrap
  · exact hc

end Rules

variable {X : Nat × Nat → Prop}

theorem memoryRead_guarded (hs : Proper s) :
    Guarded X (Permits s m offset length protRead) s (exec (memoryRead m offset length) s) := by
  exact .checked hs (by decide) fun hpermits => .value hs hpermits _

/-- Every page of the memory that allows a write is in `X`. -/
def Writable (s : Store) (m : Nat) (X : Nat × Nat → Prop) : Prop :=
  ∀ p, Allows (s.memory m) p protWrite → X (m, p)

theorem SameLayout.writable (h : SameLayout s t) (hX : Writable s m X) : Writable t m X :=
  fun p hp => hX p (h.allows.mp hp)

theorem memoryWrite_guarded (hs : Proper s) (hX : Writable s m X) (offset : Nat)
    (source : List UInt8) : Guarded X (Permits s m offset source.length protWrite) s
      (exec (memoryWrite m offset source) s) := by
  apply Guarded.checked hs (by decide)
  intro hpermits
  have hloops : Loops X s (exec (writeLoop m source.length offset source) s) :=
    writeLoop_loops hs.sound _ _ _ fun a hlo hhi => hX _ (hpermits a hlo hhi)
  exact hloops.guarded hpermits

theorem readLanes_guarded (hs : Proper s) (m : Nat) {address : Nat} {sourceWidth : Nat}
    (lanes : List Nat) : Guarded X (∀ lane ∈ lanes, Permits s m (address + lane * sourceWidth)
      sourceWidth protRead) s (exec (readLanes m address sourceWidth lanes) s) := by
  induction lanes generalizing s with
  | nil => exact .value hs nofun _
  | cons _ _ ih =>
    apply Guarded.bind (memoryRead_guarded hs)
    intro bytes t _ ht hlane
    apply Guarded.bind (ih (hs.of_steady ht))
    intro others u _ hu hrest
    apply Guarded.value ((hs.of_steady ht).of_steady hu)
    intro k hk
    cases hk with
    | head => exact hlane
    | tail _ hk => exact ht.layout.permits.mp (hrest k hk)

/-! ## Copies -/

theorem readLoop_length (s : Store) (m fuel address length : Nat) (hfuel : length ≤ fuel) :
    (readLoop s m fuel address length).length = length := by
  induction fuel generalizing address length with
  | zero =>
    rw [readLoop]
    simp only [length_nil]
    omega
  | succ fuel ih =>
    rw [readLoop]
    split_ifs with hlength
    · exact hlength.symm
    have hchunk := chunk_pos address hlength
    rw [length_append, ih _ _ (by omega)]
    split
    · rw [length_map, length_range]
      omega
    · rw [length_replicate]
      omega

theorem memoryRead_cases (s : Store) (m offset length : Nat) :
    (∃ e, exec (memoryRead m offset length) s = (.error e, s)) ∨
      exec (memoryRead m offset length) s = (.ok (readLoop s m length offset length), s) := by
  simp only [memoryRead, exec_bind, exec_get, exec_require, exec_pure]
  cases memoryRange (s.memory m) offset length with
  | error e => exact .inl ⟨e, rfl⟩
  | ok _ =>
    cases runAccessCheck (s.memory m) offset length protRead with
    | error e => exact .inl ⟨e, rfl⟩
    | ok _ =>
      cases memoryPermissions (s.memory m) offset length protRead with
      | error e => exact .inl ⟨e, rfl⟩
      | ok _ => exact .inr rfl

theorem memoryRead_ok {bytes : List UInt8}
    (h : exec (memoryRead m offset length) s = (.ok bytes, t)) :
    t = s ∧ bytes = readLoop s m length offset length := by
  rcases memoryRead_cases s m offset length with ⟨e, he⟩ | hok
  · rw [he] at h
    exact nomatch congrArg Prod.fst h
  · rw [hok] at h
    cases h
    exact ⟨rfl, rfl⟩

/-- Both ranges of a copy allow it. -/
def CopyPermits (s : Store) (dst dstOffset src srcOffset length : Nat) : Prop :=
  Permits s dst dstOffset length protWrite ∧ Permits s src srcOffset length protRead

theorem SameLayout.copyPermits (h : SameLayout s t) :
    CopyPermits t dst dstOffset src srcOffset length ↔
      CopyPermits s dst dstOffset src srcOffset length :=
  and_congr h.permits h.permits

theorem Permits.append {more : Nat} (h : Permits s m offset length access)
    (h' : Permits s m (offset + length) more access) :
    Permits s m offset (length + more) access := by
  intro a hlo hhi
  by_cases ha : a < offset + length
  · exact h a hlo ha
  · exact h' a (by omega) (by omega)

theorem CopyPermits.append {more : Nat} (h : CopyPermits s dst dstOffset src srcOffset length)
    (h' : CopyPermits s dst (dstOffset + length) src (srcOffset + length) more) :
    CopyPermits s dst dstOffset src srcOffset (length + more) :=
  ⟨h.1.append h'.1, h.2.append h'.2⟩

theorem CopyPermits.empty (s : Store) (dst dstOffset src srcOffset : Nat) :
    CopyPermits s dst dstOffset src srcOffset 0 :=
  ⟨fun _ hlo hhi => by omega, fun _ hlo hhi => by omega⟩

theorem Guarded.copied (hs : Proper s) (hX : Writable s dst X) {part : Nat} {P : Prop}
    {rest : MemM PUnit}
    (hrest : ∀ t, Steady s t → CopyPermits s dst dstOffset src srcOffset part →
      Guarded X P t (exec rest t)) :
    Guarded X P s (exec (do
      let chunk ← memoryRead src srcOffset part
      memoryWrite dst dstOffset chunk
      rest) s) := by
  apply bind (memoryRead_guarded hs)
  intro chunk t hread _ hpermits
  obtain ⟨rfl, rfl⟩ := memoryRead_ok hread
  apply bind (memoryWrite_guarded hs hX dstOffset _)
  intro _ u _ hu hwrite
  rw [readLoop_length _ _ _ _ _ (le_refl _)] at hwrite
  exact hrest u hu ⟨hwrite, hpermits⟩

theorem copyForward_guarded (hs : Proper s) (hX : Writable s dst X)
    (dstOffset src srcOffset length fuel done : Nat) (hfuel : length ≤ done + fuel) :
    Guarded X (CopyPermits s dst (dstOffset + done) src (srcOffset + done) (length - done)) s
      (exec (copyForward dst dstOffset src srcOffset length fuel done) s) := by
  induction fuel generalizing s done with
  | zero =>
    apply Guarded.value hs
    rw [show length - done = 0 by omega]
    exact .empty ..
  | succ fuel ih =>
    rw [copyForward]
    by_cases hdone : done ≥ length
    · rw [if_pos hdone]
      apply Guarded.value hs
      rw [show length - done = 0 by omega]
      exact .empty ..
    rw [if_neg hdone]
    have hpart : 0 < (if length - done > copyChunk then copyChunk else length - done) ∧
        (if length - done > copyChunk then copyChunk else length - done) ≤ length - done := by
      have : copyChunk = 256 := rfl
      split <;> omega
    generalize (if length - done > copyChunk then copyChunk else length - done) = part at hpart ⊢
    apply Guarded.copied hs hX
    intro t ht hfirst
    apply (ih (hs.of_steady ht) (ht.layout.writable hX) (done + part) (by omega)).mono
    intro hrest
    have hjoin := hfirst.append (ht.layout.copyPermits.mp (by
      rw [← add_assoc, ← add_assoc] at hrest
      exact hrest))
    rw [show part + (length - (done + part)) = length - done by omega] at hjoin
    exact hjoin

theorem copyBackward_guarded (hs : Proper s) (hX : Writable s dst X)
    (dstOffset src srcOffset fuel remaining : Nat) (hfuel : remaining ≤ fuel) :
    Guarded X (CopyPermits s dst dstOffset src srcOffset remaining) s
      (exec (copyBackward dst dstOffset src srcOffset fuel remaining) s) := by
  induction fuel generalizing s remaining with
  | zero =>
    apply Guarded.value hs
    rw [show remaining = 0 by omega]
    exact .empty ..
  | succ fuel ih =>
    rw [copyBackward]
    by_cases hzero : remaining = 0
    · rw [if_pos hzero]
      apply Guarded.value hs
      rw [hzero]
      exact .empty ..
    rw [if_neg hzero]
    have hpart : 0 < (if remaining > copyChunk then copyChunk else remaining) ∧
        (if remaining > copyChunk then copyChunk else remaining) ≤ remaining := by
      have : copyChunk = 256 := rfl
      split <;> omega
    generalize (if remaining > copyChunk then copyChunk else remaining) = part at hpart ⊢
    apply Guarded.copied hs hX
    intro t ht hlast
    apply (ih (hs.of_steady ht) (ht.layout.writable hX) (remaining - part) (by omega)).mono
    intro hrest
    have hjoin := (ht.layout.copyPermits.mp hrest).append hlast
    rw [show remaining - part + part = remaining by omega] at hjoin
    exact hjoin

theorem memoryCopy_guarded (hs : Proper s) (hX : Writable s dst X)
    (dstOffset src srcOffset length : Nat) :
    Guarded X (CopyPermits s dst dstOffset src srcOffset length) s
      (exec (memoryCopy dst dstOffset src srcOffset length) s) := by
  simp only [memoryCopy, exec_bind, exec_get, exec_require]
  cases hdst : memoryRange (s.memory dst) dstOffset length with
  | error e => exact .trap hs (memoryRange_trap hdst)
  | ok _ =>
    cases hsrc : memoryRange (s.memory src) srcOffset length with
    | error e => exact .trap hs (memoryRange_trap hsrc)
    | ok _ =>
      split_ifs with hzero hoverlap
      · apply Guarded.value hs
        rw [hzero]
        exact .empty ..
      · exact copyBackward_guarded hs hX dstOffset src srcOffset length length (le_refl _)
      · exact copyForward_guarded hs hX dstOffset src srcOffset length length 0 (by omega)

/-! ## Instructions -/

/-- The memory that an instruction writes to. -/
def GuestOp.target : GuestOp → Nat
  | .load m _ _ _ => m
  | .vectorLoad m _ _ _ => m
  | .vectorLoadExtend m _ _ _ => m
  | .store m _ _ _ _ => m
  | .vectorStore m _ _ _ => m
  | .copy dst _ _ _ _ => dst
  | .fill m _ _ _ => m
  | .init m _ _ _ _ => m

/-- Every page that the instruction reads allows a read and every page that it writes
allows a write. -/
def GuestOp.Allowed (s : Store) : GuestOp → Prop
  | .load m base offset width => Permits s m (base + offset) width protRead
  | .vectorLoad m base offset width => Permits s m (base + offset) width protRead
  | .vectorLoadExtend m base offset sourceWidth =>
    ∀ lane ∈ List.range (16 / (sourceWidth * 2)),
      Permits s m (base + offset + lane * sourceWidth) sourceWidth protRead
  | .store m base offset width _ => Permits s m (base + offset) width protWrite
  | .vectorStore m base offset bytes => Permits s m (base + offset) bytes.length protWrite
  | .copy dst dstOffset src srcOffset n => CopyPermits s dst dstOffset src srcOffset n
  | .fill m dst _ n => Permits s m dst n protWrite
  | .init m dst _ n _ => Permits s m dst n protWrite

/-- A `memory.fill` inside the memory that touches a page without write permission. -/
def GuestOp.FillsProtected (s : Store) : GuestOp → Prop
  | .fill m dst _ n => memoryRange (s.memory m) dst n = .ok () ∧ ¬ Permits s m dst n protWrite
  | _ => False

theorem storeLe_length (value width : Nat) : (storeLe value width).length = width := by
  induction width generalizing value with
  | zero => rfl
  | succ width ih =>
    show (storeLe (value / 256) width).length + 1 = width + 1
    rw [ih]

section Ops

variable {P : Prop}

theorem Guarded.silent {c : MemM PUnit} (hs : Proper s) (hc : Guarded X P s (exec c s)) :
    Guarded X P s (exec (do c; pure ([] : List UInt8)) s) :=
  hc.bind fun _ _ _ ht hP => .value (hs.of_steady ht) hP _

theorem executeStore_guarded (hs : Proper s) (hX : Writable s m X) (base offset width bits : Nat) :
    Guarded X (Permits s m (base + offset) width protWrite) s
      (exec (executeStore m base offset width bits) s) := by
  have hwrite := memoryWrite_guarded hs hX (base + offset) (storeLe bits width)
  rw [storeLe_length] at hwrite
  exact .addressed hs hwrite

theorem executeMemoryCopy_guarded (hs : Proper s) (hX : Writable s dst X)
    (dstOffset src srcOffset n : Nat) : Guarded X (CopyPermits s dst dstOffset src srcOffset n) s
      (exec (executeMemoryCopy dst dstOffset src srcOffset n) s) := by
  simp only [executeMemoryCopy, exec_bind, exec_get]
  split_ifs with hbounds
  · exact .trap hs rfl
  · exact memoryCopy_guarded hs hX dstOffset src srcOffset n

theorem executeMemoryInit_guarded (hs : Proper s) (hX : Writable s m X)
    (dst src n : Nat) {segment : List UInt8} :
    Guarded X (Permits s m dst n protWrite) s (exec (executeMemoryInit m dst src n segment) s) := by
  simp only [executeMemoryInit, exec_bind, exec_get]
  split_ifs with hbounds
  · exact .trap hs rfl
  · have hwrite := memoryWrite_guarded hs hX dst ((segment.drop src).take n)
    rw [length_take, length_drop, min_eq_left (by omega)] at hwrite
    exact hwrite

theorem executeMemoryFill_guarded (hs : Proper s) (hX : Writable s m X) {value : UInt8} (n : Nat)
    (hallowed : memoryRange (s.memory m) dst n = .ok () → Permits s m dst n protWrite) :
    Guarded X (Permits s m dst n protWrite) s (exec (executeMemoryFill m dst value n) s) := by
  simp only [executeMemoryFill, exec_bind, exec_get]
  split_ifs with hbounds
  · exact .trap hs rfl
  simp only [memoryFill, exec_bind, exec_get, exec_require]
  cases hrange : memoryRange (s.memory m) dst n with
  | error e => exact .trap hs (memoryRange_trap hrange)
  | ok _ =>
    have hpermits := hallowed hrange
    have hloops : Loops X s (exec (fillLoop m value n dst n) s) :=
      fillLoop_loops hs.sound _ _ _ fun a hlo hhi => hX _ (hpermits a hlo hhi)
    exact hloops.guarded hpermits

end Ops

/-- Every instruction but a fill of protected pages is guarded. -/
theorem GuestOp.guarded (hs : Proper s) {op : GuestOp} (hX : Writable s op.target X)
    (hfill : ¬ op.FillsProtected s) : Guarded X (op.Allowed s) s (exec op.comp s) := by
  cases op with
  | load m base offset width =>
    have hload : Guarded X (Permits s m (base + offset) width protRead) s
        (exec (executeLoad m base offset width) s) := by
      apply Guarded.addressed hs
      apply Guarded.bind (memoryRead_guarded hs)
      intro bytes t _ ht hpermits
      exact .value (hs.of_steady ht) hpermits _
    exact hload.bind fun bits t _ ht hpermits => .value (hs.of_steady ht) hpermits _
  | vectorLoad m base offset width =>
    exact .addressed hs (memoryRead_guarded hs)
  | vectorLoadExtend m base offset sourceWidth =>
    exact .addressed hs (readLanes_guarded hs m _)
  | store m base offset width bits =>
    exact .silent hs (executeStore_guarded hs hX base offset width bits)
  | vectorStore m base offset bytes =>
    exact .silent hs (.addressed hs (memoryWrite_guarded hs hX (base + offset) bytes))
  | copy dst dstOffset src srcOffset n =>
    exact .silent hs (executeMemoryCopy_guarded hs hX dstOffset src srcOffset n)
  | fill m dst value n =>
    have hallowed : memoryRange (s.memory m) dst n = .ok () → Permits s m dst n protWrite :=
      fun hrange => by_contra fun hno => hfill ⟨hrange, hno⟩
    exact .silent hs (executeMemoryFill_guarded hs hX n hallowed)
  | init m dst src n segment =>
    exact .silent hs (executeMemoryInit_guarded hs hX dst src n)

theorem bulk_bounds {n : Nat} (hn : n ≠ 0) (hrange : memoryRange memory dst n = .ok ()) :
    ¬ (dst > bulkSize memory ∨ n > bulkSize memory - dst ∨ n > sizeMax) := by
  rw [memoryRange] at hrange
  split at hrange
  · cases hrange
  rename_i hin
  have hvisible : visiblePages memory ≤ uint64Max / execPageSize := by
    by_contra hlarge
    rw [visibleSize, if_neg hlarge] at hin
    omega
  rw [visibleSize, if_pos hvisible] at hin
  have hsize : visiblePages memory * execPageSize ≤ uint64Max := by
    have := Nat.mul_le_of_le_div _ _ _ hvisible
    exact this
  have hlimit : uint64Max < 2 ^ 64 := by decide
  have hmax : sizeMax = uint64Max := rfl
  rw [bulkSize, Nat.mod_eq_of_lt (by omega)]
  omega

/-- A fill inside the memory does not fail, whatever the protection of its pages. -/
theorem GuestOp.FillsProtected.succeeds (hs : Proper s) {op : GuestOp} (h : op.FillsProtected s)
    (hgranted : ¬ Refused s) : (exec op.comp s).1 = .ok [] := by
  cases op with
  | fill m dst value n =>
    obtain ⟨hrange, hno⟩ := h
    have hn : n ≠ 0 := by
      intro hzero
      apply hno
      intro a hlo hhi
      omega
    have hloops : Loops (fun _ => True) s (exec (fillLoop m value n dst n) s) :=
      fillLoop_loops hs.sound _ _ _ fun _ _ _ => trivial
    have hfill : (exec (executeMemoryFill m dst value n) s).1 = .ok ⟨⟩ := by
      simp only [executeMemoryFill, exec_bind, exec_get]
      rw [if_neg (bulk_bounds hn hrange)]
      simp only [memoryFill, exec_bind, exec_get, exec_require, hrange]
      cases hr : (exec (fillLoop m value n dst n) s).1 with
      | ok _ => rfl
      | error e => exact absurd (hloops.failed e hr).2 hgranted
    rw [comp, exec_bind]
    revert hfill
    rcases exec (executeMemoryFill m dst value n) s with ⟨r, t⟩
    intro hfill
    cases hfill
    rfl
  | _ => exact False.elim h

end Waste.Memory
