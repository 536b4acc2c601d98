import Waste.Memory.Layout

/-!
# The memory map invariant

`MapInv` says that the three views of a memory agree: the mapping list is
sorted, disjoint and inside the memory, the protection byte of a page is the
protection of the mapping that covers it, and a page that no mapping covers
has no backing.

The first half of the file is about one memory and one change of its fields
(`MapInv.unmap`, `MapInv.map`, `MapInv.protect`, `MapInv.share`,
`MapInv.grow`, `MapInv.reserve`).  The second half carries these facts through
the programs of `Waste.Memory.Model`, with their checks and their failing
allocations.

Two operations can break the invariant.  `memory.fill` checks the range of an
access but not the permissions of its pages, so a fill with a nonzero byte
backs a reserved page that no mapping covers.  `exec_memory_share_pages`
installs the pages of the source without asking whether the destination pages
are covered.  `MemoryOp.Ok` is the condition under which both are harmless.
-/

namespace Waste.Memory

open Function RangeMap StateExcept List Option Nat

variable {pages p : Nat} {f : ExecMemory → ExecMemory} {value : UInt8}

/-- The protection of the mapping that covers a page, and `0` without one. -/
def mappedProtection (memory : ExecMemory) (p : Nat) : UInt8 :=
  match lookup memory.mappings p with
  | none => 0
  | some attributes => attributes.protection

/-- Some mapping covers the page. -/
def Covered (memory : ExecMemory) (p : Nat) : Prop := lookup memory.mappings p ≠ none

instance (memory : ExecMemory) (p : Nat) : Decidable (Covered memory p) :=
  inferInstanceAs (Decidable (_ ≠ _))

/-- The mapping list, the protection bytes and the backing of a memory agree. -/
structure MapInv (memory : ExecMemory) : Prop where
  within : Within 0 memory.pages memory.mappings
  protection : ∀ p < memory.pages, memory.pageProtection p = mappedProtection memory p
  uncovered : ∀ p < memory.pages, ¬Covered memory p → memory.pageData p = none
  linear : memory.linearPages ≤ memory.pages

/-! ## One change of one memory -/

section OneMemory

variable {memory : ExecMemory} {first count : Nat}

section

variable (h : MapInv memory)
include h

theorem MapInv.covered_lt (hp : Covered memory p) : p < memory.pages := by
  by_contra hout
  exact hp (h.within.lookup_eq_none (.inr (by omega)))

theorem MapInv.pageIsMapped_iff (p : Nat) :
    memoryPageIsMapped memory p = true ↔ Covered memory p := by
  rw [memoryPageIsMapped]
  split
  · simp only [Bool.false_eq_true, false_iff]
    exact fun hp => absurd (h.covered_lt hp) (by omega)
  · rw [h.within.scan_eq, isSome_iff_ne_none, Covered]

theorem MapInv.covered_of_protection (hp : p < memory.pages)
    (hprot : memory.pageProtection p ≠ 0) : Covered memory p := by
  intro hnone
  apply hprot
  rw [h.protection p hp, mappedProtection, hnone]

omit h in
/-- What the window `[first, first + count)` of a list of positions means. -/
theorem fillRange_apply {α : Type} (f : Nat → α) (first count : Nat) (value : α) (p : Nat) :
    fillRange f first count value p =
      if first ≤ p ∧ p < first + count then value else f p := rfl

omit h in
theorem MapInv.unmap (first count : Nat) (h : MapInv memory) :
    MapInv { memory.unmapped first count with
      pageData := fillRange memory.pageData first count none } := by
  unfold ExecMemory.unmapped
  have hlookup := lookup_carve (fun _ : Attributes => none) first (first + count) h.within
  refine ⟨carve_within _ _ _ h.within, fun p hp => ?_, fun p hp hfree => ?_, h.linear⟩
  · simp only [fillRange_apply, mappedProtection, hlookup]
    split
    · cases lookup memory.mappings p <;> rfl
    · exact h.protection p hp
  simp only [Covered, hlookup] at hfree
  simp only [fillRange_apply]
  split
  · rfl
  · rename_i hout
    rw [if_neg hout] at hfree
    exact h.uncovered p hp hfree

theorem MapInv.not_covered {stop : Nat} (hfree : Unoccupied memory first stop) (hlo : first ≤ p)
    (hhi : p < stop) : ¬Covered memory p := by
  rw [← h.pageIsMapped_iff, hfree p hlo hhi]
  exact Bool.false_ne_true

theorem MapInv.map (hcount : 0 < count) (hin : first + count ≤ memory.pages)
    (hfree : Unoccupied memory first (first + count)) (protection flags : UInt8) :
    MapInv (memory.mapped first count protection flags) := by
  unfold ExecMemory.mapped
  have hfree' : ∀ p, (⟨first, count, ⟨protection, flags⟩⟩ : Mapping).Covers p →
      lookup memory.mappings p = none := fun p hp => not_not.1 (h.not_covered hfree hp.1 hp.2)
  have hlookup := lookup_insert hfree'
  refine ⟨insert_within h.within (zero_le _) hcount hin hfree', fun p hp => ?_,
    fun p hp hno => ?_, h.linear⟩
  · simp only [fillRange_apply, mappedProtection, hlookup]
    by_cases hp' : (⟨first, count, ⟨protection, flags⟩⟩ : Mapping).Covers p
    · rw [if_pos hp', if_pos ⟨hp'.1, hp'.2⟩]
    · rw [if_neg hp', if_neg fun hin => hp' ⟨hin.1, hin.2⟩]
      exact h.protection p hp
  · simp only [Covered, hlookup] at hno
    apply h.uncovered p hp
    intro hcov
    apply hno
    split
    · simp
    · exact hcov

/-- Changing the protection of a range of which every page is covered. -/
theorem MapInv.protect (hcov : ∀ p, first ≤ p → p < first + count → Covered memory p)
    (protection : UInt8) : MapInv (memory.protected first count protection) := by
  unfold ExecMemory.protected
  have hlookup := lookup_carve (fun old : Attributes => some { old with protection })
    first (first + count) h.within
  refine ⟨carve_within _ _ _ h.within, fun p hp => ?_, fun p hp hfree => ?_, h.linear⟩
  · simp only [fillRange_apply, mappedProtection, hlookup]
    split
    · rename_i hp'
      obtain ⟨attributes, hattr⟩ := ne_none_iff_exists'.1 (hcov p hp'.1 hp'.2)
      rw [hattr]
      rfl
    · exact h.protection p hp
  · refine h.uncovered p hp fun hcov' => hfree ?_
    obtain ⟨attributes, hattr⟩ := ne_none_iff_exists'.1 hcov'
    simp only [Covered, hlookup, hattr]
    split <;> simp

/-- Flags do not matter to the invariant, and new backing is fine where it is
covered. -/
theorem MapInv.share (g : Attributes → Attributes)
    (hg : ∀ attributes, (g attributes).protection = attributes.protection)
    (pageData : Nat → Option Nat)
    (hdata : ∀ p < memory.pages, ¬Covered memory p → pageData p = none) :
    MapInv { memory with
      pageData := pageData
      mappings := carve (fun old => some (g old)) first (first + count) memory.mappings } := by
  have hlookup := lookup_carve (fun old : Attributes => some (g old))
    first (first + count) h.within
  refine ⟨carve_within _ _ _ h.within, fun p hp => ?_, fun p hp hfree => ?_, h.linear⟩
  · simp only [mappedProtection, hlookup, h.protection p hp]
    cases lookup memory.mappings p with
    | none => simp
    | some attributes =>
      by_cases hin : first ≤ p ∧ p < first + count
      · simp [hin, hg]
      · simp [hin]
  · refine hdata p hp fun hcov => hfree ?_
    obtain ⟨attributes, hattr⟩ := ne_none_iff_exists'.1 hcov
    simp only [Covered, hlookup, hattr]
    split <;> simp

theorem MapInv.setPageData {page : Nat} (hcov : Covered memory page) (data : Option Nat) :
    MapInv { memory with pageData := update memory.pageData page data } := by
  refine { h with uncovered := fun p hp hfree => ?_ }
  have hne : p ≠ page := by
    rintro rfl
    exact hfree hcov
  simp only [update_of_ne hne]
  exact h.uncovered p hp hfree

theorem MapInv.reserve (hpages : memory.pages < pages) : MapInv (memory.reserved pages) := by
  unfold ExecMemory.reserved
  have hlinear := h.linear
  refine ⟨h.within.mono (Nat.le_refl _) (Nat.le_of_lt hpages),
    fun p hp => ?_, fun p hp hfree => ?_, ?_⟩
  · have hp : p < pages := hp
    simp only [fillRange_apply, mappedProtection]
    split
    · rw [h.within.lookup_eq_none (by omega)]
    · exact h.protection p (by omega)
  · have hp : p < pages := hp
    simp only [fillRange_apply]
    split
    · rfl
    · exact h.uncovered p (by omega) hfree
  · show memory.linearPages ≤ pages
    omega

/-! The list that `exec_memory_resize_pages` builds covers the new pages and
nothing else. -/

theorem growMappings_within (hpages : memory.pages < pages) :
    Within 0 pages (growMappings memory pages) := by
  have happend : Within 0 pages
      (memory.mappings ++ [⟨memory.pages, pages - memory.pages, ⟨protRead ||| protWrite, 0⟩⟩]) :=
    h.within.append (zero_le _) (by omega) (by simp [Range.stop]; omega)
  rw [growMappings]
  split
  · rename_i hnone
    rw [getLast?_eq_none_iff] at hnone
    simpa [hnone] using happend
  rename_i last hlast
  split
  · have hsplit := (dropLast_append_getLast? last hlast).symm
    have hwithin := h.within
    rw [hsplit] at hwithin
    have hstop : last.stop = last.first + last.count := rfl
    have hmid : 0 ≤ last.first := zero_le _
    refine .append hmid (by omega)
      ⟨fun r hr => ?_, (pairwise_append.1 hwithin.disjoint).1⟩ ?_
    · obtain ⟨h1, h2, -⟩ := hwithin.bounds r (by simp [hr])
      exact ⟨h1, h2, (pairwise_append.1 hwithin.disjoint).2.2 r hr last (by simp)⟩
    · simp [Range.stop]; omega
  · exact happend

theorem lookup_growMappings (hpages : memory.pages < pages) (p : Nat) :
    (p < memory.pages → lookup (growMappings memory pages) p = lookup memory.mappings p) ∧
      (memory.pages ≤ p → p < pages →
        ∃ flags, lookup (growMappings memory pages) p = some ⟨protRead ||| protWrite, flags⟩) := by
  have happend : (p < memory.pages → lookup (memory.mappings ++
        [⟨memory.pages, pages - memory.pages, ⟨protRead ||| protWrite, 0⟩⟩]) p =
          lookup memory.mappings p) ∧
      (memory.pages ≤ p → p < pages → ∃ flags, lookup (memory.mappings ++
        [⟨memory.pages, pages - memory.pages, ⟨protRead ||| protWrite, 0⟩⟩]) p =
          some ⟨protRead ||| protWrite, flags⟩) := by
    constructor
    · intro hp
      rw [lookup_append, lookup_cons, lookup_nil,
        if_neg (fun hc => by have := hc.1; simp at this; omega), or_none]
    · intro hlo hhi
      refine ⟨0, ?_⟩
      rw [lookup_append, h.within.lookup_eq_none (.inr hlo), none_or, lookup_cons,
        if_pos ⟨hlo, by simp [Range.stop]; omega⟩]
  rw [growMappings]
  split
  · rename_i hnone
    rw [getLast?_eq_none_iff] at hnone
    simpa [hnone] using happend
  rename_i last hlast
  split
  · rename_i hend
    have hsplit := (dropLast_append_getLast? last hlast).symm
    have hwithin := h.within
    have hstop : last.stop = last.first + last.count := rfl
    constructor
    · intro hp
      rw [lookup_append]
      conv_rhs => rw [hsplit, lookup_append]
      congr 1
      simp only [lookup_cons, lookup_nil]
      by_cases hc : last.Covers p
      · have h1 := hc.1
        rw [if_pos hc, if_pos ⟨h1, by simp [Range.stop]; omega⟩]
      · rw [if_neg hc, if_neg fun hc' => hc ⟨hc'.1, by omega⟩]
    · intro hlo hhi
      have hinit : lookup memory.mappings.dropLast p = none := by
        have := hwithin.lookup_eq_none (.inr hlo)
        rw [hsplit, lookup_append, or_eq_none_iff] at this
        exact this.1
      refine ⟨last.label.flags, ?_⟩
      rw [lookup_append, hinit, none_or, lookup_cons,
        if_pos ⟨by simp only; omega, by simp only [Range.stop]; omega⟩, ← hend.2]
  · exact happend

theorem MapInv.grow (hpages : memory.pages < pages) : MapInv (memory.grown pages) := by
  unfold ExecMemory.grown
  refine ⟨growMappings_within h hpages, fun p hp => ?_, fun p hp hfree => ?_, Nat.le_refl _⟩
  · have hp : p < pages := hp
    obtain ⟨hold, hnew⟩ := lookup_growMappings h hpages p
    simp only [fillRange_apply, mappedProtection]
    split
    · rename_i hin
      obtain ⟨flags, hlookup⟩ := hnew hin.1 hp
      rw [hlookup]
    · rw [hold (by omega)]
      exact h.protection p (by omega)
  · have hp : p < pages := hp
    obtain ⟨hold, hnew⟩ := lookup_growMappings h hpages p
    simp only [fillRange_apply]
    split
    · rfl
    · refine h.uncovered p (by omega) fun hcov => hfree ?_
      rw [Covered, hold (by omega)]
      exact hcov

end

end OneMemory

/-! ## What the helpers of the programs leave alone -/

/-- Every memory of the store keeps its map invariant. -/
def Inv (s : Store) : Prop := ∀ m, MapInv (s.memory m)

variable {s : Store} {m page length offset a : Nat} {v : Nat → List Mapping × Nat}
  {memory : ExecMemory}
variable (data : Option Nat)

theorem Inv.setMemory (h : Inv s) (hf : MapInv (f (s.memory m))) : Inv (setMemory m f s) := by
  intro n
  by_cases hn : n = m
  · subst hn
    simpa [setMemory] using hf
  · simpa [Memory.setMemory, update_of_ne hn] using h n

@[simp] theorem pageRelease_memory (s : Store) : (pageRelease data s).memory = s.memory := by
  cases data <;> rfl

@[simp] theorem pageRetain_memory (s : Store) : (pageRetain data s).memory = s.memory := by
  cases data <;> rfl

@[simp] theorem markShared_memory (s : Store) : (markShared data s).memory = s.memory := by
  cases data <;> rfl

theorem pageRetain_nextPage (s : Store) : (pageRetain data s).nextPage = s.nextPage := by
  cases data <;> rfl

theorem markShared_nextPage (s : Store) : (markShared data s).nextPage = s.nextPage := by
  cases data <;> rfl

@[simp] theorem pokePage_memory (m page inPage count : Nat) (value : Nat → UInt8) (s : Store) :
    (pokePage m page inPage count value s).memory = s.memory := by
  rw [pokePage]
  split <;> rfl

theorem installPages_memory (m first : Nat) (pages : List (Option Nat)) (s : Store) :
    (installPages m first pages s).memory = (setMemory m (fun memory =>
        { memory with
          pageData := fun p =>
            if first ≤ p ∧ p < first + pages.length then pages.getD (p - first) none
            else memory.pageData p }) s).memory := by
  induction pages generalizing first s with
  | nil =>
    have hempty : ∀ p, ¬(first ≤ p ∧ p < first) := fun p => by omega
    simp [installPages, setMemory, hempty]
  | cons _ rest ih =>
    rw [installPages, ih]
    simp only [setMemory, setPageData, pageRelease_memory, update_self, update_idem]
    congr 2
    funext p
    simp only [length_cons]
    rcases Nat.lt_trichotomy p first with hp | rfl | hp
    · rw [if_neg (by omega), if_neg (by omega), update_of_ne (by omega)]
    · rw [if_neg (by omega), if_pos (by omega), update_self]
      simp
    rw [update_of_ne (by omega)]
    by_cases hin : p < first + 1 + rest.length
    · obtain ⟨k, rfl⟩ : ∃ k, p = first + 1 + k := ⟨p - (first + 1), by omega⟩
      rw [if_pos (by omega), if_pos (by omega),
        show first + 1 + k - (first + 1) = k by omega,
        show first + 1 + k - first = k + 1 by omega, getD_cons_succ]
    · rw [if_neg (by omega), if_neg (by omega)]

theorem releasePages_memory (m first count : Nat) (s : Store) :
    (releasePages m first count s).memory = (setMemory m (fun memory =>
        { memory with pageData := fillRange memory.pageData first count none }) s).memory := by
  have hwindow : ∀ f : Nat → Option Nat, (fun p => if first ≤ p ∧ p < first + count then
      (replicate count none).getD (p - first) none else f p) =
        fillRange f first count none := fun f => by
    funext p
    rw [fillRange]
    split
    · rw [getD_eq_getElem?_getD, getElem?_replicate]
      split <;> rfl
    · rfl
  simp only [releasePages, installPages_memory, length_replicate, hwindow]

/-! A program that asks for metadata leaves the memories alone. -/

section Frame

variable {M : (Nat → ExecMemory) → Prop}

theorem allocate_frame : Keeps (fun s => M s.memory) allocate := by
  exact .get_bind fun s hs => .bind (.set fun _ _ => hs) fun _ => Keeps.pure _

theorem pageAllocate_frame : Keeps (fun s => M s.memory) pageAllocate := by
  refine allocate_frame.bind fun _ => .ite (fun _ => ?_) fun _ => .throw _
  exact .get_bind fun s hs => .bind (.set fun _ _ => hs) fun _ => Keeps.pure _

end Frame

/-! ## Writing -/

/-- The mappings and the number of pages of every memory.  Writing changes
neither, so a page that is covered when a write starts stays covered. -/
def layout (s : Store) (m : Nat) : List Mapping × Nat :=
  ((s.memory m).mappings, (s.memory m).pages)

/-- The invariant, with a fixed layout. -/
def InvAt (v : Nat → List Mapping × Nat) (s : Store) : Prop := Inv s ∧ layout s = v

theorem InvAt.covered (h : InvAt v s) : Covered (s.memory m) p ↔ lookup (v m).1 p ≠ none := by
  rw [← h.2]
  rfl

theorem invAt_modify_page {f : Store → Store} (hf : ∀ s, (f s).memory = s.memory) :
    Keeps (ε := ExecError) (InvAt v) (modify f) :=
  .modify fun s hs => by
    have hmem := hf s
    refine ⟨fun n => ?_, ?_⟩
    · rw [hmem]
      exact hs.1 n
    · rw [← hs.2]
      funext n
      simp only [layout, hmem]

theorem invAt_setPageData {id : Nat} (hcov : lookup (v m).1 page ≠ none) :
    Keeps (ε := ExecError) (InvAt v) (modify (setPageData m page (some id))) :=
  .modify fun s hs => by
    refine ⟨hs.1.setMemory ((hs.1 m).setPageData (hs.covered.2 hcov) _), ?_⟩
    rw [← hs.2]
    exact funext (update_field (fun M : ExecMemory => (M.mappings, M.pages)) rfl)

theorem pageAllocate_invAt : Keeps (InvAt v) pageAllocate :=
  pageAllocate_frame (M := fun memory =>
    (∀ m, MapInv (memory m)) ∧ (fun m => ((memory m).mappings, (memory m).pages)) = v)

theorem detachMemoryPage_invAt (hcov : lookup (v m).1 page ≠ none) :
    Keeps (InvAt v) (detachMemoryPage m page) := by
  refine .get_bind fun s hs => ?_
  split
  · exact .pure _
  · refine .ite (fun _ => .pure _) fun _ => ?_
    refine pageAllocate_invAt.bind fun copy => ?_
    refine (invAt_modify_page fun _ => by rfl).bind fun _ => ?_
    exact (invAt_modify_page fun _ => by rfl).bind fun _ => invAt_setPageData hcov

theorem ownPage_invAt (hcov : lookup (v m).1 page ≠ none) : Keeps (InvAt v) (ownPage m page) := by
  refine .get_bind fun s hs => ?_
  split
  · exact detachMemoryPage_invAt hcov
  · exact pageAllocate_invAt.bind fun _ =>
      (invAt_setPageData hcov).bind fun _ => detachMemoryPage_invAt hcov

/-- The first byte of a chunk and the chunk itself lie in one page. -/
theorem chunk_pos (address : Nat) (hlength : length ≠ 0) :
    0 < min (execPageSize - address % execPageSize) length := by
  have : address % execPageSize < execPageSize := mod_lt _ (by decide)
  omega

theorem writeLoop_invAt (fuel address : Nat) (source : List UInt8)
    (hcov : ∀ a, address ≤ a → a < address + source.length →
      lookup (v m).1 (a / execPageSize) ≠ none) :
    Keeps (InvAt v) (writeLoop m fuel address source) := by
  induction fuel generalizing address source with
  | zero => exact .pure _
  | succ fuel ih =>
    refine .ite (fun _ => .pure _) fun hlength => ?_
    refine (ownPage_invAt (hcov address (Nat.le_refl _) (by omega))).bind fun _ => ?_
    refine (invAt_modify_page fun _ => pokePage_memory ..).bind fun _ => ?_
    refine ih _ _ fun a hlo hhi => hcov a (by omega) ?_
    rw [length_drop] at hhi
    omega

/-- A fill is harmless where every page is covered, and a fill with zeros is
harmless inside the memory: it skips the pages that have no backing, and the
uncovered ones have none. -/
theorem fillLoop_invAt (fuel address length : Nat) (hcov : ∀ a, address ≤ a → a < address + length →
      a / execPageSize < (v m).2 ∧ (value = 0 ∨ lookup (v m).1 (a / execPageSize) ≠ none)) :
    Keeps (InvAt v) (fillLoop m value fuel address length) := by
  induction fuel generalizing address length with
  | zero => exact .pure _
  | succ fuel ih =>
    refine .ite (fun _ => .pure _) fun hlength => ?_
    have hrest := ih (address + min (execPageSize - address % execPageSize) length)
      (length - min (execPageSize - address % execPageSize) length)
      fun a hlo hhi => hcov a (by omega) (by omega)
    obtain ⟨hin, hzero⟩ := hcov address (Nat.le_refl _) (by omega)
    refine .get_bind fun s hs => ?_
    refine .ite (fun _ => hrest) fun hwrite => ?_
    have hcovered : lookup (v m).1 (address / execPageSize) ≠ none := by
      rcases hzero with hzero | hzero
      · rw [← hs.covered]
        by_contra hno
        refine hwrite ⟨hzero, (hs.1 m).uncovered _ ?_ hno⟩
        have : (s.memory m).pages = (v m).2 := by rw [← hs.2]; rfl
        omega
      · exact hzero
    exact (ownPage_invAt hcovered).bind fun _ =>
      (invAt_modify_page fun _ => pokePage_memory ..).bind fun _ => hrest

/-! ## The programs keep the invariant -/

/-- Bytes inside the visible part of a memory lie in its pages. -/
theorem page_lt_of_memoryRange (h : MapInv memory)
    (hrange : memoryRange memory offset length = .ok ()) (hhi : a < offset + length) :
    a / execPageSize < memory.pages := by
  have hsize : visibleSize memory ≤ memory.pages * execPageSize := by
    have hvisible : visiblePages memory ≤ memory.pages := by
      have := h.linear
      rw [visiblePages]
      split <;> omega
    rw [visibleSize]
    split
    · exact mul_le_mul_right _ hvisible
    · exact zero_le _
  rw [memoryRange] at hrange
  split at hrange
  · simp at hrange
  · exact Nat.div_lt_of_lt_mul (by rw [Nat.mul_comm]; omega)

/-- The page of a byte of an access is one of the pages the permission check
looks at. -/
theorem mem_touchedPages (hlo : offset ≤ a) (hhi : a < offset + length) :
    a / execPageSize ∈ touchedPages offset length := by
  have h1 : offset / execPageSize ≤ a / execPageSize := Nat.div_le_div_right hlo
  have h2 : a / execPageSize ≤ (offset + length - 1) / execPageSize :=
    Nat.div_le_div_right (by omega)
  rw [touchedPages, if_neg (by omega), mem_range'_1]
  omega

theorem protection_of_memoryPermissions {required : UInt8}
    (hperm : memoryPermissions memory offset length required = .ok ()) (hlo : offset ≤ a)
    (hhi : a < offset + length) :
    memory.pageProtection (a / execPageSize) &&& required = required := by
  rw [memoryPermissions] at hperm
  split at hperm
  · rename_i hfind
    simpa using find?_eq_none.1 hfind _ (mem_touchedPages hlo hhi)
  · split at hperm <;> simp at hperm

theorem memoryWrite_keeps (m offset : Nat) {source : List UInt8} :
    Keeps Inv (memoryWrite m offset source) := by
  intro s hs
  rw [memoryWrite]
  simp only [exec_bind, exec_get, exec_require]
  cases hrange : memoryRange (s.memory m) offset source.length with
  | error e => simp [hs]
  | ok _ =>
    cases haccess : runAccessCheck (s.memory m) offset source.length protWrite with
    | error e => simp [hs]
    | ok _ =>
      cases hperm : memoryPermissions (s.memory m) offset source.length protWrite with
      | error e => simp [hs]
      | ok _ =>
        have hcov : ∀ a, offset ≤ a → a < offset + source.length →
            lookup (layout s m).1 (a / execPageSize) ≠ none := fun a hlo hhi => by
          have hgrant := protection_of_memoryPermissions hperm hlo hhi
          refine (hs m).covered_of_protection (page_lt_of_memoryRange (hs m) hrange hhi) ?_
          intro hzero
          rw [hzero] at hgrant
          exact absurd hgrant (by decide)
        have hloop := writeLoop_invAt source.length offset source hcov
        exact (hloop.conseq (fun s' (hs' : InvAt (layout s) s') => hs') (fun _ _ h => h.1)
          fun _ _ h => h.1) s ⟨hs, rfl⟩

theorem memoryRead_keeps (m offset length : Nat) : Keeps Inv (memoryRead m offset length) :=
  .get_bind fun _ _ => (Keeps.require _).bind fun _ => (Keeps.require _).bind fun _ =>
    (Keeps.require _).bind fun _ => .pure _

/-- Both loops of a copy read a part, write it and go on. -/
theorem copyLoops_rule {dst dstOffset src srcOffset : Nat} {motive : MemM Unit → Prop}
    (hdone : motive (pure ()))
    (hpart : ∀ start part rest, motive rest → motive (do
      let chunk ← memoryRead src (srcOffset + start) part
      memoryWrite dst (dstOffset + start) chunk
      rest)) (length : Nat) :
    motive (if length = 0 then pure ()
      else if dst = src ∧ dstOffset > srcOffset ∧ dstOffset - srcOffset < length then
        copyBackward dst dstOffset src srcOffset length length
      else copyForward dst dstOffset src srcOffset length length 0) := by
  have hbackward (fuel remaining : Nat) :
      motive (copyBackward dst dstOffset src srcOffset fuel remaining) := by
    induction fuel generalizing remaining with
    | zero => exact hdone
    | succ fuel ih =>
      rw [copyBackward]
      split
      · exact hdone
      · exact hpart _ _ _ (ih _)
  have hforward (fuel done : Nat) :
      motive (copyForward dst dstOffset src srcOffset length fuel done) := by
    induction fuel generalizing done with
    | zero => exact hdone
    | succ fuel ih =>
      rw [copyForward]
      split
      · exact hdone
      · exact hpart _ _ _ (ih _)
  split_ifs
  · exact hdone
  · exact hbackward length length
  · exact hforward length 0

theorem memoryCopy_keeps (dst dstOffset src srcOffset length : Nat) :
    Keeps Inv (memoryCopy dst dstOffset src srcOffset length) :=
  .get_bind fun _ _ => (Keeps.require _).bind fun _ => (Keeps.require _).bind fun _ =>
    copyLoops_rule (.pure _) (fun _ _ _ hrest => (memoryRead_keeps _ _ _).bind fun _ =>
      (memoryWrite_keeps _ _).bind fun _ => hrest) length

/-- The pages a fill touches are covered, or the fill writes zeros. -/
def FillOk (m offset : Nat) (value : UInt8) (length : Nat) (s : Store) : Prop :=
  value = 0 ∨ ∀ page ∈ touchedPages offset length,
    page < (s.memory m).pages → Covered (s.memory m) page

theorem memoryFill_inv (hs : Inv s) (hok : FillOk m offset value length s) :
    Inv (exec (memoryFill m offset value length) s).2 := by
  rw [memoryFill]
  simp only [exec_bind, exec_get, exec_require]
  cases hrange : memoryRange (s.memory m) offset length with
  | error e => exact hs
  | ok _ =>
    have hcov : ∀ a, offset ≤ a → a < offset + length → a / execPageSize < (layout s m).2 ∧
        (value = 0 ∨ lookup (layout s m).1 (a / execPageSize) ≠ none) := fun a hlo hhi => by
      have hlt := page_lt_of_memoryRange (hs m) hrange hhi
      exact ⟨hlt, hok.imp id fun h => h _ (mem_touchedPages hlo hhi) hlt⟩
    have hloop := fillLoop_invAt length offset length hcov
    exact (hloop.exec_snd ⟨hs, rfl⟩).1

/-! ### Mapping operations -/

theorem memoryMapPages_keeps (m first count : Nat) (protection flags : UInt8) :
    Keeps Inv (memoryMapPages m first count protection flags) := by
  refine Rebuilds.keeps (memoryMapPages_rebuilds m first count protection flags) (fun _ _ h => h)
    fun s _ f hs hf => ?_
  cases hf with
  | nothing => rwa [setMemory_id]
  | pages hcount hin hfree => exact hs.setMemory ((hs m).map hcount hin hfree protection flags)

theorem processCapsuleMprotectRange_keeps (m address length : Nat) {protection : UInt8} :
    Keeps Inv (processCapsuleMprotectRange m address length protection) := by
  refine Rebuilds.keeps processCapsuleMprotectRange_rebuilds
    (fun _ _ h => h) fun s _ f hs hf => ?_
  rcases hf with rfl | ⟨first, count, ⟨⟩ | ⟨⟩, hmapped⟩
  · rwa [setMemory_id]
  · rwa [setMemory_id]
  · exact hs.setMemory ((hs m).protect
      (fun p hlo hhi => ((hs m).pageIsMapped_iff p).1 (hmapped p hlo hhi)) protection)

theorem memoryUnmapPages_keeps (m first count : Nat) :
    Keeps Inv (memoryUnmapPages m first count) := by
  refine .of_exec_snd fun s hs => ?_
  refine (memoryUnmapPages_ends m first count s).after (fun _ => hs) fun r n => ?_
  have hmemory := releasePages_memory m first count (s.asked r)
  by_cases hn : n = m
  · rw [hn, setMemory_self, hmemory, setMemory_self]
    exact (hs m).unmap first count
  · rw [setMemory_ne hn, hmemory, setMemory_ne hn]
    exact hs n

theorem memoryReserveVirtualPages_keeps (m pages : Nat) :
    Keeps Inv (memoryReserveVirtualPages m pages) := by
  refine Rebuilds.keeps (memoryReserveVirtualPages_rebuilds m pages) (fun _ _ h => h)
    fun s _ f hs hf => ?_
  cases hf with
  | nothing => rwa [setMemory_id]
  | pages hpages => exact hs.setMemory ((hs m).reserve hpages)

theorem MapInv.resize (h : MapInv memory) (hf : Resizes pages memory f) : MapInv (f memory) := by
  cases hf with
  | nothing => exact h
  | into hpages hin hfree =>
    rw [← Nat.add_sub_cancel' (Nat.le_of_lt hpages)] at hfree
    have hmap := h.map (by omega) (by omega) hfree (protRead ||| protWrite) 0
    exact { hmap with linear := hin }
  | behind _ hpages _ => exact h.grow hpages

theorem executeMemoryGrow_keeps (m add : Nat) : Keeps Inv (executeMemoryGrow m add) := by
  refine Rebuilds.keeps (executeMemoryGrow_rebuilds m add) (fun _ _ h => h) fun s _ f hs hf => ?_
  cases hf with
  | refused => rwa [setMemory_id]
  | grown _ hf => exact hs.setMemory ((hs m).resize hf)

end Waste.Memory
