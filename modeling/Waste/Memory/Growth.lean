import Waste.Memory.Enforcement

/-!
# Growing a memory

`exec_memory_resize_pages` has three cases: the linear pages end where the page table
ends, the new pages lie in the reservation of a process, or they go past its end.  In the
first two every new page is mapped and reads as zeros.  In the third the pages between
the linear end and the end of the reservation are not mapped, although the size that
`memory.grow` announces counts them.
-/

namespace Waste.Memory

open RangeMap StateExcept Nat List

/-! ## Sizes -/

/-- The most pages whose bytes have 64-bit addresses. -/
def addressablePages : Nat := sizeMax / execPageSize

/-- Only a process has pages behind the linear ones, and they have addresses. -/
def Sized (memory : ExecMemory) : Prop :=
  memory.linearPages = memory.pages ∨
    memory.processVirtualMemory = true ∧ memory.pages ≤ addressablePages

/-- `mmap` and library loading reserve pages for a process, below the last page of a
64-bit memory. -/
def Act.Places (s : Store) : Act → Prop
  | .memory (.reserve m pages) =>
    (s.memory m).processVirtualMemory = true ∧ pages ≤ addressablePages
  | _ => True

def AllSized (s : Store) : Prop := ∀ m, Sized (s.memory m)

variable {s : Store} {m : Nat} {add : Nat} {f : ExecMemory → ExecMemory}

theorem AllSized.setMemory (h : AllSized s)
    (hf : Sized (f (s.memory m))) : AllSized (setMemory m f s) := by
  intro n
  by_cases hn : n = m
  · rw [hn, setMemory_self]
    exact hf
  · rw [setMemory_ne hn]
    exact h n

theorem Rebuilds.allSized {α : Type} {F : ExecMemory → α → (ExecMemory → ExecMemory) → Prop}
    {run : Except ExecError α × Store} (h : Rebuilds m F s run) (hs : AllSized s)
    (hF : ∀ a f, F (s.memory m) a f → Sized (f (s.memory m))) : AllSized run.2 := by
  cases h with
  | failed e r => exact hs
  | done a r f hf => exact .setMemory hs (hF a f hf)

theorem Sized.resize {memory : ExecMemory} (h : Sized memory) {pages : Nat}
    (hf : Resizes pages memory f) : Sized (f memory) := by
  cases hf with
  | nothing => exact h
  | into _ _ => exact .inr (h.resolve_left (by omega))
  | behind => exact .inl rfl

theorem AllSized.guest (hs : AllSized s) (hkept : Kept s) {op : GuestOp}
    (hfill : ¬op.FillsProtected s) : AllSized (exec op.comp s).2 := by
  have hguarded : Guarded (fun _ => True) (op.Allowed s) s (exec op.comp s) :=
    GuestOp.guarded hkept.proper (fun _ _ => trivial) hfill
  intro n
  have hbare : Sized (bare (s.memory n)) := hs n
  rw [← hguarded.effects.steady.layout n] at hbare
  exact hbare

theorem AllSized.step (hs : AllSized s) (hkept : Kept s) {act : Act} (hmeets : act.Meets s)
    (hplaces : act.Places s) : AllSized (act.apply s) := by
  cases act with
  | guest op => exact hs.guest hkept hmeets
  | memory op =>
    cases hguest : op.guest? with
    | some g =>
      show AllSized (Memory.step op s)
      rw [op.step_guest hguest]
      exact hs.guest hkept (op.meets_guest hguest hmeets)
    | none =>
    cases op with
    | grow m add =>
      show AllSized (exec (do let _ ← executeMemoryGrow m add) s).2
      rw [exec_bind_pure]
      refine (executeMemoryGrow_rebuilds m add s).allSized hs fun _ f hf => ?_
      cases hf with
      | refused => exact hs m
      | grown _ hf => exact (hs m).resize hf
    | reserve m pages =>
      refine (memoryReserveVirtualPages_rebuilds m pages s).allSized hs fun _ f hf => ?_
      cases hf with
      | nothing => exact hs m
      | pages => exact .inr hplaces
    | map m first count protection flags =>
      refine (memoryMapPages_rebuilds m first count protection flags s).allSized hs fun _ f hf => ?_
      cases hf <;> exact hs m
    | protect m address length protection =>
      show AllSized (exec (do let _ ← processCapsuleMprotectRange m address length protection) s).2
      rw [exec_bind_pure]
      refine (processCapsuleMprotectRange_rebuilds s).allSized hs fun _ f hf => ?_
      rcases hf with rfl | ⟨_, _, ⟨⟩ | ⟨⟩, _⟩ <;> exact hs m
    | unmap m first count =>
      refine (memoryUnmapPages_ends m first count s).after (fun _ => hs) fun r => ?_
      have hreleased : AllSized (releasePages m first count (s.asked r)) := fun n => by
        rw [releasePages_memory]
        exact setMemory (s := s.asked r) hs (hs m) n
      exact hreleased.setMemory (hreleased m)
    | share dst dstFirst src srcFirst count =>
      refine (memorySharePages_ends dst dstFirst src srcFirst count s).after (fun _ => hs)
        fun r _ _ n => ?_
      rw [commitShare_memory]
      split_ifs
      · exact hs dst
      · exact hs src
      · exact hs n
    | bind m check =>
      show AllSized (Memory.setMemory m (.bound check) s)
      exact hs.setMemory ((hs m).imp id fun h => ⟨rfl, h.2⟩)
    | _ => exact nomatch hguest

section Resized

variable {memory : ExecMemory} {pages : Nat} {f : ExecMemory → ExecMemory}

theorem Resizes.linearPages (h : Resizes pages memory f) : (f memory).linearPages = pages := by
  cases h with
  | nothing hpages => exact hpages.symm
  | into | behind => rfl

/-- Growth leaves the linear pages and the mapped ones alone. -/
theorem Resizes.same (h : Resizes pages memory f) (hinv : MapInv memory) {p : Nat}
    (hp : p < memory.linearPages ∨ Covered memory p) : (f memory).pageData p = memory.pageData p ∧
      lookup (f memory).mappings p = lookup memory.mappings p ∧
      (f memory).pageProtection p = memory.pageProtection p := by
  have hlt : p < memory.pages := hp.elim (fun h => h.trans_le hinv.linear) hinv.covered_lt
  cases h with
  | nothing => exact ⟨rfl, rfl, rfl⟩
  | into hpages _ hfree =>
    have hout : ¬(memory.linearPages ≤ p ∧ p < memory.linearPages +
        (pages - memory.linearPages)) := by
      rintro ⟨hlo, hhi⟩
      exact hinv.not_covered hfree hlo (by omega) (hp.resolve_left (by omega))
    refine ⟨rfl, ?_, if_neg hout⟩
    have hvacant : ∀ q, (⟨memory.linearPages, pages - memory.linearPages,
        ⟨protRead ||| protWrite, 0⟩⟩ : Mapping).Covers q → lookup memory.mappings q = none :=
      fun q hq => not_not.1
        (hinv.not_covered hfree hq.1 (by have := hq.2; simp [Range.stop] at this; omega))
    exact (lookup_insert hvacant p).trans (if_neg hout)
  | behind _ hpages _ =>
    exact ⟨if_neg (by omega), (lookup_growMappings hinv hpages p).1 hlt, if_neg (by omega)⟩

/-- The new pages are mapped and have no backing, unless growth jumps over reserved ones. -/
theorem Resizes.fresh (h : Resizes pages memory f) (hinv : MapInv memory)
    (hole : ¬(memory.linearPages < memory.pages ∧ memory.pages < pages)) {p : Nat}
    (hlo : memory.linearPages ≤ p) (hhi : p < pages) :
    (f memory).pageData p = none ∧ (f memory).pageProtection p = protRead ||| protWrite := by
  cases h with
  | nothing hpages => omega
  | into hpages _ hfree =>
    rw [← Nat.add_sub_cancel' hpages.le] at hfree
    exact hinv.mapped_window (by omega) hfree 0 hlo (by omega)
  | behind _ hpages _ => exact ⟨if_pos (by omega), if_pos (by omega)⟩

end Resized

end Waste.Memory
