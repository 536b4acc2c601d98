import Waste.AddressSpace.Regions
import Waste.Memory.Chunks
import Waste.Memory.Enforcement

/-!
# Covered pages stay covered

The functions on the memory of a process change no mapping list but its own, and every
page that its list covered is covered afterwards.  Only unmapping takes pages out, and
only those of its window: `K` stands for the pages that are to stay.
-/

namespace Waste.AddressSpace

open Function RangeMap StateExcept Memory

variable {f : ExecMemory → ExecMemory}

def mappingsOf (s : Store) (j : Nat) : List Mapping :=
  (s.memory j).mappings

/-- Only the mapping list of memory `n` differs from `v`, and it covers the pages in `K`
that it covered. -/
structure Extends (n : Nat) (K : Nat → Prop) (v : Nat → List Mapping) (s : Store) : Prop where
  others : ∀ j, j ≠ n → mappingsOf s j = v j
  kept : ∀ p, K p → lookup (v n) p ≠ none → lookup (mappingsOf s n) p ≠ none

variable {n : Nat} {K : Nat → Prop} {v : Nat → List Mapping} {s t : Store}
variable (page m first count : Nat) (protection flags : UInt8) {memory : ExecMemory}

theorem Extends.refl (s : Store) : Extends n K (mappingsOf s) s :=
  ⟨fun _ _ => rfl, fun _ _ h => h⟩

theorem Extends.of_eq (h : Extends n K v s) (heq : mappingsOf t = mappingsOf s) :
    Extends n K v t := by
  refine ⟨fun j hj => ?_, fun p hK hp => ?_⟩
  · rw [heq]
    exact h.others j hj
  · rw [heq]
    exact h.kept p hK hp

theorem mappingsOf_setMemory (hf : (f (s.memory m)).mappings = (s.memory m).mappings) :
    mappingsOf (setMemory m f s) = mappingsOf s :=
  funext (update_field ExecMemory.mappings hf)

theorem Extends.setMemory (h : Extends n K v s)
    (hf : ∀ p, K p → lookup (s.memory n).mappings p ≠ none →
      lookup (f (s.memory n)).mappings p ≠ none) : Extends n K v (setMemory n f s) where
  others j hj := by
    show (update s.memory n _ j).mappings = v j
    rw [update_of_ne hj]
    exact h.others j hj
  kept p hK hp := by
    show lookup (update s.memory n _ n).mappings p ≠ none
    rw [update_self]
    exact hf p hK (h.kept p hK hp)

/-! ## Writing -/

theorem chunkwise_mappings (M : (Nat → List Mapping) → Prop) :
    Chunkwise m fun s => M (mappingsOf s) := by
  have hallocate : Keeps (fun s => M (mappingsOf s)) pageAllocate :=
    pageAllocate_frame (M := fun memory => M fun j => (memory j).mappings)
  have hdata : ∀ page data, Keeps (ε := ExecError) (fun s => M (mappingsOf s))
      (modify (setPageData m page data)) := by
    intro page data
    apply Keeps.modify
    intro s hs
    rw [setPageData, mappingsOf_setMemory m rfl]
    exact hs
  refine ⟨fun page => ?_, fun page inPage count value s hs => ?_⟩
  · apply Keeps.get_bind
    intro s _
    have hdetach : Keeps (fun s => M (mappingsOf s)) (detachMemoryPage m page) := by
      apply Keeps.get_bind
      intro t _
      split
      · exact .pure _
      · refine .ite (fun _ => .pure _) fun _ => hallocate.bind fun _ => ?_
        refine (Keeps.modify fun _ h => by exact h).bind fun _ => ?_
        exact (Keeps.modify fun _ h => by exact h).bind fun _ => hdata _ _
    split
    · exact hdetach
    · exact hallocate.bind fun _ => (hdata _ _).bind fun _ => hdetach
  · have hsame : mappingsOf (pokePage m page inPage count value s) = mappingsOf s := by
      funext j
      show ((pokePage m page inPage count value s).memory j).mappings = _
      rw [(pokePage_frame s m page inPage count value).1]
      rfl
    rw [hsame]
    exact hs

/-! ## Mapping, protecting, growing -/

/-- The mapping list of the memory covers what it covered. -/
def Covers (memory : ExecMemory) (f : ExecMemory → ExecMemory) : Prop :=
  ∀ p, lookup memory.mappings p ≠ none → lookup (f memory).mappings p ≠ none

theorem covers_mapped : Covers memory (.mapped first count protection flags) := by
  intro p hp
  obtain ⟨r, hr, hcovers⟩ := lookup_ne_none.mp hp
  exact lookup_ne_none.mpr ⟨r, mem_insert.mpr (.inr hr), hcovers⟩

theorem protects_covers {first count : Nat} {protection : UInt8}
    (h : Protects first count protection f) : Covers memory f := by
  intro p hp
  cases h with
  | nothing => exact hp
  | pages =>
    obtain ⟨r, hr, hcovers⟩ := lookup_ne_none.mp hp
    exact (carve_covers _ _ _).mpr ⟨r, hr, hcovers, fun _ _ => Option.some_ne_none _⟩

theorem growMappings_covers {pages p : Nat}
    (hp : lookup memory.mappings p ≠ none) : lookup (growMappings memory pages) p ≠ none := by
  obtain ⟨r, hr, hcovers⟩ := lookup_ne_none.mp hp
  rw [lookup_ne_none, growMappings]
  split
  · rename_i hnone
    rw [List.getLast?_eq_none_iff.mp hnone] at hr
    cases hr
  rename_i last hlast
  split
  · -- the last mapping is longer now
    have hsplit : memory.mappings = memory.mappings.dropLast ++ [last] :=
      (List.dropLast_append_getLast? last hlast).symm
    rw [hsplit] at hr
    rcases List.mem_append.mp hr with hold | hend
    · exact ⟨r, List.mem_append.mpr (.inl hold), hcovers⟩
    · rw [List.mem_singleton.mp hend] at hcovers
      refine ⟨_, List.mem_append.mpr (.inr (List.mem_singleton.mpr rfl)), hcovers.1, ?_⟩
      have hstop : p < last.first + last.count := hcovers.2
      show p < last.first + (last.count + (pages - memory.pages))
      omega
  · exact ⟨r, List.mem_append.mpr (.inl hr), hcovers⟩

theorem Extends.rebuilds {α : Type} {F : ExecMemory → α → (ExecMemory → ExecMemory) → Prop}
    {c : MemM α} (h : ∀ s, Rebuilds n F s (exec c s))
    (hF : ∀ memory a f, F memory a f → Covers memory f) : Keeps (Extends n K v) c :=
  Rebuilds.keeps h (fun _ _ h => h.of_eq rfl) fun _ a f hs hf =>
    hs.setMemory fun p _ hp => hF _ a f hf p hp

theorem memoryMapPages_extends :
    Keeps (Extends n K v) (memoryMapPages n first count protection flags) := by
  refine Extends.rebuilds (memoryMapPages_rebuilds n first count protection flags)
    fun memory _ f hf => ?_
  cases hf with
  | nothing => exact fun _ hp => hp
  | pages => exact covers_mapped _ _ _ _

theorem memorySetProtection_extends :
    Keeps (Extends n K v) (memorySetProtection n first count protection) :=
  Extends.rebuilds (memorySetProtection_rebuilds n first count protection)
    fun _ _ _ hf => protects_covers hf

theorem processCapsuleMprotectRange_extends (address length : Nat) (protection : UInt8) :
    Keeps (Extends n K v) (processCapsuleMprotectRange n address length protection) := by
  refine Extends.rebuilds processCapsuleMprotectRange_rebuilds fun memory _ f hf => ?_
  rcases hf with rfl | ⟨_, _, hf, _⟩
  · exact fun _ hp => hp
  · exact protects_covers hf

theorem memoryReserveVirtualPages_extends (pages : Nat) :
    Keeps (Extends n K v) (memoryReserveVirtualPages n pages) :=
  Extends.rebuilds (memoryReserveVirtualPages_rebuilds n pages)
    fun _ _ _ hf _ hp => by cases hf <;> exact hp

theorem executeMemoryGrow_extends (add : Nat) :
    Keeps (Extends n K v) (executeMemoryGrow n add) := by
  refine Extends.rebuilds (executeMemoryGrow_rebuilds n add) fun memory _ f hf => ?_
  rcases hf with _ | ⟨_, _ | _ | _⟩
  · exact fun _ hp => hp
  · exact fun _ hp => hp
  · exact covers_mapped _ _ _ _
  · exact fun _ hp => growMappings_covers hp

/-! ## Unmapping -/

theorem installPages_mappings (pages : List (Option Nat)) (s : Store) :
    mappingsOf (installPages m first pages s) = mappingsOf s := by
  induction pages generalizing first s with
  | nil => rfl
  | cons _ _ ih =>
    rw [installPages, ih, setPageData, mappingsOf_setMemory m rfl]
    funext j
    rw [mappingsOf, pageRelease_memory]
    rfl

/-! ## Families -/

/-- The same for a family, which keeps its number of processes. -/
structure FamilyExtends (n : Nat) (K : Nat → Prop) (v : Nat → List Mapping) (k : Nat)
    (F : Family) : Prop extends Extends n K v F.store where
  count : F.count = k

variable {k : Nat}

theorem onStore_extends {α : Type} {c : MemM α} (h : Keeps (Extends n K v) c) :
    Keeps (FamilyExtends n K v k) (onStore c) := by
  apply Keeps.of_exec_snd
  intro F hF
  rw [exec_onStore]
  exact ⟨h.exec_snd hF.toExtends, hF.count⟩

theorem pageAllocate_extends (s : Store) : Keeps (Extends n K v) pageAllocate := by
  apply (pageAllocate_frame (M := fun memory => Extends n K v { s with memory := memory })).conseq
  · intro t ht
    exact ht.of_eq rfl
  · intro a t ht
    exact ht.of_eq rfl
  · intro e t ht
    exact ht.of_eq rfl

theorem sharedFilePage_extends (key : Nat × Nat) (bytes : Nat → UInt8) :
    Keeps (FamilyExtends n K v k) (sharedFilePage key bytes) := by
  apply Keeps.get_bind
  intro F _
  split
  · exact .pure _
  · refine (onStore_extends (allocateOr_keeps fun _ _ h => h.of_eq rfl)).bind fun _ =>
      (onStore_extends (pageAllocate_extends F.store)).bind fun _ => ?_
    refine (Keeps.modify fun F' hF => ⟨hF.toExtends.of_eq ?_, hF.count⟩).bind fun _ => .pure _
    rw [setPageData, mappingsOf_setMemory 0 rfl]
    rfl

theorem bindSharedPage_extends (page i : Nat) :
    Keeps (FamilyExtends n K v k) (bindSharedPage n page i) := by
  apply Keeps.of_exec_snd
  intro F hF
  unfold bindSharedPage
  simp only [exec_bind, exec_get]
  split_ifs
  · exact hF
  refine ⟨hF.toExtends.of_eq ?_, hF.count⟩
  show mappingsOf (setPageData n page _ _) = _
  rw [setPageData, mappingsOf_setMemory n rfl]
  funext j
  rw [mappingsOf, pageRelease_memory, markShared_memory, pageRetain_memory]
  rfl

theorem bindPages_extends (pages : List ((Nat × Nat) × (Nat → UInt8))) :
    Keeps (FamilyExtends n K v k) (bindPages n page pages) := by
  induction pages generalizing page with
  | nil => exact .pure _
  | cons _ _ ih =>
    exact (sharedFilePage_extends _ _).bind fun _ => (bindSharedPage_extends _ _).bind fun _ => ih _

theorem loadPages_extends (pages : List (List UInt8)) :
    Keeps (FamilyExtends n K v k) (loadPages n page pages) := by
  induction pages generalizing page with
  | nil => exact .pure _
  | cons _ _ ih =>
    refine (onStore_extends ?_).bind fun _ => ih _
    have hquiet := chunkwise_mappings n fun mappings =>
      (∀ j, j ≠ n → mappings j = v j) ∧
        ∀ p, K p → lookup (v n) p ≠ none → lookup (mappings n) p ≠ none
    exact (hquiet.memoryWrite _ _).conseq (fun _ h => ⟨h.others, h.kept⟩)
      (fun _ _ h => ⟨h.1, h.2⟩) fun _ _ h => ⟨h.1, h.2⟩

theorem foldl_page_extends {f : Option Nat → Store → Store}
    (hf : ∀ data s, (f data s).memory = s.memory) {pages : List (Option Nat)} :
    Keeps (ε := ExecError) (Extends n K v)
      (modify fun s => pages.foldl (fun s page => f page s) s) := by
  apply Keeps.modify
  intro s hs
  refine hs.of_eq ?_
  funext j
  rw [mappingsOf, foldl_view fun s data => hf data s]
  rfl

theorem markSharedPages_extends : Keeps (Extends n K v) (markSharedPages n first count) :=
  .get_bind fun _ _ => .ite (fun _ => .throw _) fun _ =>
    foldl_page_extends markShared_memory

theorem clearDirtyPages_extends : Keeps (Extends n K v) (clearDirtyPages m first count) :=
  .get_bind fun _ _ => .ite (fun _ => .throw _) fun _ =>
    foldl_page_extends fun data _ => by cases data <;> rfl

theorem fillMapping_extends {source : MapSource} :
    Keeps (FamilyExtends n K v k) (fillMapping n first protection source) := by
  cases source with
  | anonymous _ _ =>
    exact .ite (fun _ => onStore_extends (memorySetProtection_extends _ _ _)) fun _ => .pure _
  | file pages =>
    exact (loadPages_extends _ _).bind fun _ =>
      (onStore_extends (memorySetProtection_extends _ _ _)).bind fun _ =>
      onStore_extends (clearDirtyPages_extends _ _ _)
  | sharedFile pages =>
    exact (bindPages_extends _ _).bind fun _ =>
      (onStore_extends (memorySetProtection_extends _ _ _)).bind fun _ =>
      (onStore_extends (markSharedPages_extends _ _)).bind fun _ =>
      onStore_extends (clearDirtyPages_extends _ _ _)

end Waste.AddressSpace
