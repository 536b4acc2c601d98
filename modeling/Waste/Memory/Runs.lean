import Waste.Memory.Map

/-!
# Runs of memory operations

`Inv` is carried through every operation of `MemoryOp` and from there, by
induction, through every run.  `MemoryOp.Ok` is the condition on one operation
in the state it starts from; only `memory.fill` and sharing need one.

`inv_run` is the result about runs, and `read_after_map` says what it is good
for: a page that was just mapped reads as zeros.
-/

namespace Waste.Memory

open RangeMap StateExcept List

variable {ops : List MemoryOp} {protection required flags : UInt8} {dstFirst srcFirst : Nat}

/-! ## Sharing -/

def shareAttributes (old : Attributes) : Attributes :=
  { old with flags := old.flags ||| mappingShared }

/-- The list that `build_shared_mapping` answers. -/
def sharedMappings (memory : ExecMemory) (first count : Nat) : List Mapping :=
  carve (fun old => some (shareAttributes old)) first (first + count) memory.mappings

variable {count dst m first offset length stop : Nat} {s : Store} {memory : ExecMemory} {src : Nat}

theorem buildSharedMapping_ends (memory : ExecMemory) (first : Nat) (hcount : count ≠ 0) (s : Store)
    (k : Nat) :
    (∃ e r, exec (buildSharedMapping memory first count) (s.asked k) = (.error e, s.asked r)) ∨
      ∃ r, exec (buildSharedMapping memory first count) (s.asked k) =
        (.ok (sharedMappings memory first count), s.asked r) := by
  unfold buildSharedMapping
  split_ifs with hempty
  · have hnil : memory.mappings = [] := by
      rw [← length_eq_zero_iff]
      omega
    exact .inr ⟨k, by rw [sharedMappings, hnil, carve_nil]; rfl⟩
  · exact .inl ⟨_, k, rfl⟩
  · rw [exec_bind, exec_allocateOr]
    cases s.granted k
    · exact .inl ⟨_, _, rfl⟩
    · exact .inr ⟨_, rfl⟩

/-- The ends of `exec_memory_share_pages`. -/
inductive Shares (dst dstFirst src srcFirst count : Nat) (s : Store) :
    Except ExecError Unit × Store → Prop
  | failed (e : ExecError) (r : Nat) : Shares dst dstFirst src srcFirst count s
    (.error e, s.asked r)
  | nothing : Shares dst dstFirst src srcFirst count s (.ok ⟨⟩, s)
  | pages (r : Nat) (srcMappings : List Mapping)
      (hsrc : src ≠ dst → srcMappings = sharedMappings (s.memory src) srcFirst count) :
      Shares dst dstFirst src srcFirst count s (.ok ⟨⟩, commitShare dst dstFirst src
        (sharedMappings (s.memory dst) dstFirst count) srcMappings
        ((List.range' srcFirst count).map (s.memory src).pageData) (s.asked r))

theorem memorySharePages_ends (dst dstFirst src srcFirst count : Nat) (s : Store) :
    Shares dst dstFirst src srcFirst count s
      (exec (memorySharePages dst dstFirst src srcFirst count) s) := by
  simp only [memorySharePages, exec_bind, exec_get]
  split
  · exact .failed _ s.requests
  split
  · exact .nothing
  rename_i _ hcount
  have hask := exec_allocateOr "shared memory page map allocation failed" s s.requests
  rw [show s.asked s.requests = s from rfl] at hask
  rw [exec_bind, hask]
  cases s.granted s.requests
  · exact .failed _ _
  simp only [if_true, exec_bind]
  rcases buildSharedMapping_ends (s.memory dst) dstFirst hcount s (s.requests + 1) with
    ⟨e, r, hdst⟩ | ⟨r, hdst⟩
  · rw [hdst]
    exact .failed e r
  rw [hdst]
  dsimp only
  split_ifs with hsrc
  · rw [exec_bind]
    rcases buildSharedMapping_ends (s.memory src) srcFirst hcount s r with ⟨e, r, hsrc⟩ | ⟨r, hsrc⟩
    · rw [hsrc]
      exact .failed e r
    · rw [hsrc]
      exact .pages r _ fun _ => rfl
  · exact .pages r _ fun hne => absurd hne hsrc

theorem Shares.after {P : Store → Prop} {run : Except ExecError Unit × Store}
    (h : Shares dst dstFirst src srcFirst count s run) (hs : ∀ r, P (s.asked r))
    (hpages : ∀ r srcMappings,
      (src ≠ dst → srcMappings = sharedMappings (s.memory src) srcFirst count) →
      P (commitShare dst dstFirst src (sharedMappings (s.memory dst) dstFirst count) srcMappings
        ((range' srcFirst count).map (s.memory src).pageData) (s.asked r))) : P run.2 := by
  cases h with
  | failed e r => exact hs r
  | nothing => exact hs s.requests
  | pages r srcMappings hsrc => exact hpages r srcMappings hsrc

/-- Wherever the source page has a backing, the destination page is covered. -/
def ShareOk (dst dstFirst src srcFirst count : Nat) (s : Store) : Prop :=
  ∀ i < count, (s.memory src).pageData (srcFirst + i) = none ∨ Covered (s.memory dst) (dstFirst + i)

/-- The backing of the destination after sharing is covered. -/
theorem ShareOk.uncovered (hok : ShareOk dst dstFirst src srcFirst count s) (hs : Inv s) :
    ∀ p < (s.memory dst).pages, ¬Covered (s.memory dst) p → (if dstFirst ≤ p ∧ p < dstFirst +
          ((range' srcFirst count).map (s.memory src).pageData).length
        then ((range' srcFirst count).map (s.memory src).pageData).getD (p - dstFirst) none
        else (s.memory dst).pageData p) = none := by
  intro p hp hfree
  rw [length_map, length_range']
  split
  · obtain ⟨i, rfl⟩ : ∃ i, p = dstFirst + i := ⟨p - dstFirst, by omega⟩
    have hi : i < count := by omega
    have hnone := (hok i hi).resolve_right hfree
    rw [Nat.add_sub_cancel_left, getD_eq_getElem?_getD, getElem?_map, getElem?_range' hi]
    simpa using hnone
  · exact (hs dst).uncovered p hp hfree

/-- Which memories the commit changes, and how. -/
theorem commitShare_memory (dst dstFirst src : Nat) (dstMappings srcMappings : List Mapping)
    (pages : List (Option Nat)) (s : Store) (n : Nat) :
    (commitShare dst dstFirst src dstMappings srcMappings pages s).memory n =
      if n = dst then
        { s.memory dst with
          mappings := dstMappings
          pageData := fun p =>
            if dstFirst ≤ p ∧ p < dstFirst + pages.length then pages.getD (p - dstFirst) none
            else (s.memory dst).pageData p }
      else if n = src then { s.memory src with mappings := srcMappings }
      else s.memory n := by
  have hretain := foldl_view (fun s data => pageRetain_memory data s) pages
  have hshared := foldl_view (fun s data => markShared_memory data s) pages
  simp only [commitShare, installPages_memory, setMemory]
  by_cases hsrc : src = dst
  · subst hsrc
    by_cases hn : n = src
    · subst hn
      simp [hshared, hretain, setMappings, setMemory]
    · simp [hshared, hretain, setMappings, setMemory, hn]
  · by_cases hn : n = dst
    · subst hn
      simp [hshared, hretain, setMappings, setMemory, hsrc, Function.update_of_ne (symm hsrc)]
    · by_cases hn' : n = src
      · subst hn'
        simp [hshared, hretain, setMappings, setMemory, hn]
      · simp [hshared, hretain, setMappings, setMemory, hn, hn', hsrc]

theorem memorySharePages_inv (hs : Inv s) (hok : ShareOk dst dstFirst src srcFirst count s) :
    Inv (exec (memorySharePages dst dstFirst src srcFirst count) s).2 := by
  refine (memorySharePages_ends dst dstFirst src srcFirst count s).after (fun _ => hs)
    fun r srcMappings hsrc n => ?_
  rw [commitShare_memory]
  by_cases hdst : n = dst
  · rw [if_pos hdst]
    exact (hs dst).share shareAttributes (fun _ => rfl) _ (hok.uncovered hs)
  rw [if_neg hdst]
  by_cases hn : n = src
  · subst hn
    rw [if_pos rfl, hsrc hdst]
    exact (hs n).share shareAttributes (fun _ => rfl) _ (hs n).uncovered
  · rw [if_neg hn]
    exact hs n

/-! ## Every operation -/

theorem processBindEngineMemory_keeps (m : Nat) {check : Nat → Nat → UInt8 → Option ExecError} :
    Keeps Inv (processBindEngineMemory m check) :=
  .modify fun _ hs => hs.setMemory
    ⟨(hs m).within, (hs m).protection, (hs m).uncovered, (hs m).linear⟩

theorem executeLoad_keeps (m base : Nat) {width : Nat} :
    Keeps Inv (executeLoad m base offset width) :=
  .get_bind fun _ _ => (Keeps.require _).bind fun _ =>
    (memoryRead_keeps _ _ _).bind fun _ => .pure _

theorem executeStore_keeps (m base offset width bits : Nat) :
    Keeps Inv (executeStore m base offset width bits) :=
  .get_bind fun _ _ => (Keeps.require _).bind fun _ => memoryWrite_keeps _ _

theorem executeMemoryCopy_keeps {dstOffset : Nat} {srcOffset : Nat} {n : Nat} :
    Keeps Inv (executeMemoryCopy dst dstOffset src srcOffset n) :=
  .get_bind fun _ _ => .ite (fun _ => .throw _) fun _ =>
    memoryCopy_keeps dst dstOffset src srcOffset n

theorem executeMemoryInit_keeps (m dst src n : Nat) {segment : List UInt8} :
    Keeps Inv (executeMemoryInit m dst src n segment) :=
  .get_bind fun _ _ => .ite (fun _ => .throw _) fun _ => memoryWrite_keeps _ _

theorem executeMemoryFill_inv {value : UInt8} {n : Nat} (hs : Inv s)
    (hok : FillOk m dst value n s) : Inv (exec (executeMemoryFill m dst value n) s).2 := by
  simp only [executeMemoryFill, exec_bind, exec_get]
  split
  · exact hs
  · exact memoryFill_inv hs hok

/-- The condition under which an operation keeps the invariant, in the state
it starts from. -/
def MemoryOp.Ok (s : Store) : MemoryOp → Prop
  | .fill m dst value n => FillOk m dst value n s
  | .share dst dstFirst src srcFirst count => ShareOk dst dstFirst src srcFirst count s
  | _ => True

theorem inv_step {op : MemoryOp} (hs : Inv s) (hok : op.Ok s) : Inv (step op s) := by
  have hunit : ∀ {α : Type} {c : MemM α}, Keeps Inv c → Inv (exec (do let _ ← c) s).2 :=
    fun hc => (hc.bind fun _ => .pure _).exec_snd hs
  cases op with
  | grow m add => exact hunit (executeMemoryGrow_keeps m add)
  | reserve m pages => exact (memoryReserveVirtualPages_keeps m pages).exec_snd hs
  | map m first count protection flags =>
    exact (memoryMapPages_keeps m first count protection flags).exec_snd hs
  | unmap m first count => exact (memoryUnmapPages_keeps m first count).exec_snd hs
  | protect m address length protection =>
    exact hunit (processCapsuleMprotectRange_keeps m address length)
  | share dst _ src _ count =>
    exact memorySharePages_inv hs hok
  | load m base offset width => exact hunit (executeLoad_keeps m base)
  | store m base offset width bits =>
    exact (executeStore_keeps m base offset width bits).exec_snd hs
  | copy dst dstOffset src srcOffset n =>
    exact executeMemoryCopy_keeps.exec_snd hs
  | fill m dst _ n => exact executeMemoryFill_inv hs hok
  | init m dst src n segment => exact (executeMemoryInit_keeps m dst src n).exec_snd hs
  | bind m check => exact (processBindEngineMemory_keeps m).exec_snd hs

/-- Every operation of the run is harmless in the state it starts from. -/
def RunOk : List MemoryOp → Store → Prop
  | [], _ => True
  | op :: ops, s => op.Ok s ∧ RunOk ops (step op s)

theorem RunOk.take (h : RunOk ops s) (k : Nat) : RunOk (ops.take k) s := by
  induction ops generalizing s k with
  | nil => simpa using h
  | cons _ ops ih =>
    cases k with
    | zero => trivial
    | succ k => exact ⟨h.1, ih h.2 k⟩

theorem inv_run (hs : Inv s) (hok : RunOk ops s) : Inv (run ops s) := by
  induction ops generalizing s with
  | nil => exact hs
  | cons _ ops ih => exact ih (inv_step hs hok.1) hok.2

/-! ## Freshly mapped pages -/

theorem MapInv.mapped_window (h : MapInv memory) (hin : first + count ≤ memory.pages)
    (hfree : Unoccupied memory first (first + count)) (flags : UInt8) {p : Nat}
    (hlo : first ≤ p) (hhi : p < first + count) :
    (memory.mapped first count protection flags).pageData p = none ∧
      (memory.mapped first count protection flags).pageProtection p = protection :=
  ⟨h.uncovered p (by omega) (h.not_covered hfree hlo hhi), if_pos ⟨hlo, hhi⟩⟩

theorem memoryMapPages_ok {s' : Store} (hs : Inv s)
    (hmap : exec (memoryMapPages m first count protection flags) s = (.ok (), s')) (p : Nat)
    (hlo : first ≤ p) (hhi : p < first + count) :
    (s'.memory m).pageData p = none ∧ (s'.memory m).pageProtection p = protection := by
  have hends := memoryMapPages_rebuilds m first count protection flags s
  rw [hmap] at hends
  obtain ⟨⟩ | ⟨_, r, f, hf⟩ := hends
  rw [setMemory_self]
  cases hf with
  | nothing _ => omega
  | pages _ hin hfree => exact (hs m).mapped_window hin hfree flags hlo hhi

/-- Pages without backing read as zeros. -/
theorem readLoop_zero (fuel address length : Nat) (hfuel : length ≤ fuel)
    (hnone : ∀ a, address ≤ a → a < address + length →
      (s.memory m).pageData (a / execPageSize) = none) :
    readLoop s m fuel address length = replicate length 0 := by
  induction fuel generalizing address length with
  | zero =>
    obtain rfl : length = 0 := by omega
    rfl
  | succ fuel ih =>
    rw [readLoop]
    split
    · rename_i hzero
      rw [hzero, replicate_zero]
    rename_i hlength
    have hchunk := chunk_pos address hlength
    simp only [hnone address (Nat.le_refl _) (by omega)]
    rw [ih _ _ (by omega) fun a hlo hhi => hnone a (by omega) (by omega), ← replicate_add]
    congr 1
    omega

section

variable (hlo : first * execPageSize ≤ offset) (hhi : offset + length ≤ stop * execPageSize)

include hlo hhi

theorem page_mem_window {a : Nat} (ha : offset ≤ a) (ha' : a < offset + length) :
    first ≤ a / execPageSize ∧ a / execPageSize < stop :=
  ⟨(Nat.le_div_iff_mul_le (by decide)).2 (by omega),
    (Nat.div_lt_iff_lt_mul (by decide)).2 (by omega)⟩

theorem memoryPermissions_window
    (h : ∀ p, first ≤ p → p < stop → memory.pageProtection p &&& required = required) :
    memoryPermissions memory offset length required = .ok () := by
  have hpage : ∀ page ∈ touchedPages offset length,
      memory.pageProtection page &&& required = required := by
    intro page hin
    rw [touchedPages] at hin
    split at hin
    · cases hin
    · rw [mem_range'_1] at hin
      have h1 := (page_mem_window hlo hhi (Nat.le_refl _) (by omega)).1
      have h2 := (page_mem_window hlo hhi (a := offset + length - 1) (by omega) (by omega)).2
      exact h page (by omega) (by omega)
  rw [memoryPermissions, find?_eq_none.2 (by simpa using hpage)]

/-- A read of readable pages without backing fails only by the range check or by the access
check, and otherwise returns zeros. -/
theorem exec_memoryRead_zeros (hnone : ∀ p, first ≤ p → p < stop → (s.memory m).pageData p = none)
    (hread : ∀ p, first ≤ p → p < stop → (s.memory m).pageProtection p &&& protRead = protRead) :
    exec (memoryRead m offset length) s =
      (do memoryRange (s.memory m) offset length
          runAccessCheck (s.memory m) offset length protRead
          pure (replicate length 0), s) := by
  have hperm := memoryPermissions_window hlo hhi hread
  have hzero : readLoop s m length offset length = replicate length 0 :=
    readLoop_zero length offset length (Nat.le_refl _) fun a h1 h2 =>
      have hin := page_mem_window hlo hhi h1 h2
      hnone _ hin.1 hin.2
  simp only [memoryRead, exec_bind, exec_get, exec_require, hperm, hzero, exec_pure]
  cases memoryRange (s.memory m) offset length with
  | error e => rfl
  | ok _ => cases runAccessCheck (s.memory m) offset length protRead <;> rfl

end

/-- A read inside a range that was just mapped readable fails only by the range
check or by the access check, and otherwise returns zeros. -/
theorem read_after_map {s' : Store} (hs : Inv s)
    (hmap : exec (memoryMapPages m first count protection flags) s = (.ok (), s'))
    (hread : protection &&& protRead = protRead) (hlo : first * execPageSize ≤ offset)
    (hhi : offset + length ≤ (first + count) * execPageSize) :
    exec (memoryRead m offset length) s' =
      (do memoryRange (s'.memory m) offset length
          runAccessCheck (s'.memory m) offset length protRead
          pure (replicate length 0), s') := by
  have hwindow := memoryMapPages_ok hs hmap
  refine exec_memoryRead_zeros hlo hhi (fun p hlo hhi => (hwindow p hlo hhi).1) fun p hlo hhi => ?_
  rw [(hwindow p hlo hhi).2, hread]

/-! ## Runs from new memories -/

/-- Every memory of the store is as `wasm_instance_allocate_memory` leaves it. -/
def Fresh (s : Store) : Prop :=
  ∀ m, ∃ initial maximum hasMax is64,
    s.memory m = instanceAllocateMemory initial maximum hasMax is64

theorem inv_of_fresh (h : Fresh s) : Inv s := by
  intro m
  obtain ⟨initial, maximum, hasMax, is64, hmem⟩ := h m
  rw [hmem]
  by_cases hzero : initial = 0
  · subst hzero
    exact ⟨by simp [instanceAllocateMemory], fun p hp => absurd hp (Nat.not_lt_zero p),
      fun _ _ _ => rfl, Nat.le_refl _⟩
  refine ⟨?_, fun p hp => ?_, fun _ _ _ => rfl, Nat.le_refl _⟩
  · simp [instanceAllocateMemory, hzero, Range.stop]
    omega
  · have hp : p < initial := hp
    have hcov : (⟨0, initial, ⟨protRead ||| protWrite, 0⟩⟩ : Mapping).Covers p :=
      ⟨Nat.zero_le _, by simpa [Range.stop] using hp⟩
    simp [mappedProtection, instanceAllocateMemory, hzero, lookup_cons, hcov]

/-- In every state of a run of harmless operations from new memories the
mapping list, the protection bytes and the backing of every memory agree, and
a page mapped in such a state reads as zeros. -/
theorem mapInv_of_run {s : Store} (hfresh : Fresh s) {ops : List MemoryOp} (hok : RunOk ops s)
    (k : Nat) :
    (∀ m, MapInv ((run (ops.take k) s).memory m)) ∧
      ∀ m first count protection flags s',
        exec (memoryMapPages m first count protection flags) (run (ops.take k) s) =
          (.ok (), s') →
        protection &&& protRead = protRead →
        ∀ offset length, first * execPageSize ≤ offset →
          offset + length ≤ (first + count) * execPageSize →
          exec (memoryRead m offset length) s' =
            (do memoryRange (s'.memory m) offset length
                runAccessCheck (s'.memory m) offset length protRead
                pure (replicate length 0), s') := by
  have hinv : Inv (run (ops.take k) s) := inv_run (inv_of_fresh hfresh) (hok.take k)
  exact ⟨hinv, fun m first count protection flags s' hmap hread offset length hlo hhi =>
    read_after_map hinv hmap hread hlo hhi⟩

/-- A store whose memories have one page each and whose allocations succeed. -/
def onePageStore : Store where
  memory := fun _ => instanceAllocateMemory 1 0 false false
  page := fun _ => ⟨fun _ => 0, 0, false, false⟩
  nextPage := 0
  granted := fun _ => true
  requests := 0

theorem onePageStore_fresh : Fresh onePageStore := fun _ => ⟨1, 0, false, false, rfl⟩

/-- Reserve a second page, map it, and fill a byte of it. -/
theorem mapInv_of_run_filled :
    MapInv ((run [.bind 0 fun _ _ _ => none, .reserve 0 2, .map 0 1 1 3 0,
      .fill 0 65536 255 1] onePageStore).memory 0) :=
  have hok : RunOk [.bind 0 fun _ _ _ => none, .reserve 0 2, .map 0 1 1 3 0, .fill 0 65536 255 1]
      onePageStore := ⟨trivial, trivial, trivial, .inr (by decide), trivial⟩
  (mapInv_of_run onePageStore_fresh hok 4).1 0

/-- Without the condition the invariant fails: a fill of a page that is only
reserved backs it, and when the page is mapped later its first byte is not
zero. -/
theorem fill_backs_reserved_page :
    Fresh onePageStore ∧
      (let s := run [.bind 0 fun _ _ _ => none, .reserve 0 2, .fill 0 65536 255 1] onePageStore
       1 < (s.memory 0).pages ∧ ¬Covered (s.memory 0) 1 ∧ (s.memory 0).pageData 1 = some 0 ∧
         (exec (memoryMapPages 0 1 1 3 0) s).1 = .ok () ∧
         (exec (memoryRead 0 65536 1) (step (.map 0 1 1 3 0) s)).1 = .ok [255]) :=
  ⟨onePageStore_fresh, by decide⟩

end Waste.Memory
