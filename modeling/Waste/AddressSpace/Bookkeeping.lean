import Waste.AddressSpace.Ranges
import Waste.Memory.Isolation

/-!
# The lists agree along every run

Every call of a process leaves the lists of its address space in order and does not touch
those of the other processes.  The one exception is an exec of a process that has file
mappings: `native_store_commit_process_image` clears the regions and keeps the records.
-/

namespace Waste.AddressSpace

open Function RangeMap StateExcept Memory

variable {errno : ExecError → Errno} {f : Capsule → Capsule} {regions : List Region}
  {kind : RegionKind}

/-- The lists of process `n` are in order. -/
def Spaces.InOrder (A : Spaces) (n : Nat) : Prop :=
  Bookkept (A.capsule n).regions (A.capsule n).fileMappings (mappingsOf A.family.store n)

/-- `A` and `B` agree on the other processes than `n`. -/
structure Elsewhere (n : Nat) (A B : Spaces) : Prop where
  count : B.family.count = A.family.count
  capsules : ∀ j, j ≠ n → B.capsule j = A.capsule j
  mappings : ∀ j, j ≠ n → mappingsOf B.family.store j = mappingsOf A.family.store j

/-- A state in a call of process `n` that was made in `A`. -/
structure Serving (n : Nat) (A B : Spaces) : Prop extends Elsewhere n A B where
  inOrder : B.InOrder n

variable {n : Nat} {A B C : Spaces}
variable (first : Nat) (image : Image) (count file size address length : Nat) (protection : UInt8)

theorem Elsewhere.trans (h : Elsewhere n A B) (h' : Elsewhere n B C) : Elsewhere n A C :=
  ⟨h'.count.trans h.count, fun j hj => (h'.capsules j hj).trans (h.capsules j hj),
    fun j hj => (h'.mappings j hj).trans (h.mappings j hj)⟩

theorem setCapsule_elsewhere (n : Nat) (f : Capsule → Capsule) (A : Spaces) :
    Elsewhere n A (setCapsule n f A) :=
  ⟨rfl, fun _ hj => setCapsule_ne hj _ _, fun _ _ => rfl⟩

theorem Modulo.elsewhere (h : Modulo n regions A B) : Elsewhere n A B :=
  { h with mappings := fun j _ => congrFun h.mappings j }

theorem Serving.refl (h : A.InOrder n) : Serving n A A :=
  ⟨⟨rfl, fun _ _ => rfl, fun _ _ => rfl⟩, h⟩

theorem Serving.asked (h : Serving n A B) (r : Nat) : Serving n A { B with family := { B.family with
      store := { B.family.store with requests := r } } } :=
  { h with }

theorem Serving.setStore (h : Serving n A B) {t : Store}
    (hsame : mappingsOf t = mappingsOf B.family.store) :
    Serving n A { B with family := { B.family with store := t } } := by
  refine ⟨⟨h.count, h.capsules, fun j hj => ?_⟩, ?_⟩
  · rw [← h.mappings j hj, ← hsame]
  · unfold Spaces.InOrder
    rw [hsame]
    exact h.inOrder

theorem Serving.setCapsule (h : Serving n A B)
    (hf : Bookkept (f (B.capsule n)).regions (f (B.capsule n)).fileMappings
      (mappingsOf B.family.store n)) : Serving n A (setCapsule n f B) := by
  refine ⟨h.toElsewhere.trans (setCapsule_elsewhere n f B), ?_⟩
  unfold Spaces.InOrder
  rw [setCapsule_self]
  exact hf

theorem onFamily_serving {α : Type} {c : FamM α}
    (hc : ∀ v k, Keeps (FamilyExtends n (fun _ => True) v k) c) :
    Keeps (Serving n A) (onFamily errno c) := by
  apply Keeps.of_exec_snd
  intro B hB
  rw [exec_onFamily]
  have hend := (hc (mappingsOf B.family.store) B.family.count).exec_snd ⟨.refl B.family.store, rfl⟩
  refine ⟨⟨hend.count.trans hB.count, hB.capsules, fun j hj => ?_⟩, ?_⟩
  · rw [← hB.mappings j hj]
    exact hend.others j hj
  · exact { hB.inOrder with
      covered := fun p hp => hend.kept p trivial (hB.inOrder.covered p hp) }

theorem onStore_serving {α : Type} {c : MemM α} (hc : ∀ v, Keeps (Extends n (fun _ => True) v) c) :
    Keeps (Serving n A) (onFamily errno (onStore c)) :=
  onFamily_serving fun v _ => onStore_extends (hc v)

/-! ## Ranges -/

theorem Serving.trans (h : Serving n A B) (h' : Serving n B C) : Serving n A C :=
  ⟨h.toElsewhere.trans h'.toElsewhere, h'.inOrder⟩

theorem Modulo.serving (h : Modulo n regions A B)
    (hbook : Bookkept regions (A.capsule n).fileMappings (mappingsOf A.family.store n)) :
    Serving n A B := by
  refine ⟨h.elsewhere, ?_⟩
  unfold Spaces.InOrder
  rw [h.regions, h.fileMappings, h.mappings]
  exact hbook

theorem Mapped.serving {first count : Nat} (h : Mapped n first count A B) (hA : A.InOrder n) :
    Serving n A B where
  count := h.families
  capsules := h.capsules
  mappings := h.others
  inOrder := by
    have hmore : Bookkept (A.capsule n).regions (A.capsule n).fileMappings
        (mappingsOf B.family.store n) :=
      { hA with covered := fun p hp => h.kept p trivial (hA.covered p hp) }
    unfold Spaces.InOrder
    rw [h.regions, h.fileMappings]
    exact hmore.reserve h.positive h.bounded h.free fun _ => h.window

theorem Unmapped.serving {first count : Nat} (h : Unmapped n first count A B) (hA : A.InOrder n) :
    Serving n A B where
  count := h.families
  capsules := h.capsules
  mappings := h.others
  inOrder := by
    unfold Spaces.InOrder
    rw [h.regions, h.fileMappings]
    exact .release hA h.kept

theorem mmapRange_serving (protection flags : UInt8) :
    Triple (Serving n A) (mmapRange n address length protection flags)
      (fun mapped B => Serving n A B ∧ ∃ first count, mapped = first * execPageSize ∧
        capsulePageRange length = some count ∧ ⟨first, count, .mapping⟩ ∈ (B.capsule n).regions)
      fun _ => Serving n A := by
  intro B hB
  have hspec := mmapRange_spec (n := n) address length protection flags B rfl
  refine ⟨fun mapped C hrun => ?_, fun e C hrun => ?_⟩
  · obtain ⟨first, count, hfirst, hcount, hmapped⟩ := hspec.1 mapped C hrun
    refine ⟨hB.trans (hmapped.serving hB.inOrder), first, count, hfirst, hcount, ?_⟩
    rw [hmapped.regions]
    exact List.mem_append.mpr (.inr (List.mem_singleton.mpr rfl))
  · exact hB.trans ((hspec.2 e C hrun).serving hB.inOrder)

theorem munmapRange_serving : Keeps (Serving n A) (munmapRange n address length) := by
  intro B hB
  have hspec := munmapRange_spec (n := n) address length B rfl
  refine ⟨fun a C hrun => ?_, fun e C hrun => ?_⟩
  · obtain ⟨first, count, _, _, hunmapped⟩ := hspec.1 a C hrun
    exact hB.trans (hunmapped.serving hB.inOrder)
  · exact hB.trans ((hspec.2 e C hrun).unchanged.serving hB.inOrder)

/-- A region that is no mapping agrees with every mapping list. -/
theorem reserveRegion_keeps {I : Spaces → Prop} (hkind : kind ≠ .mapping)
    (hI : ∀ B C regions, I B → Modulo n regions B C →
      (∀ files mappings, Bookkept (B.capsule n).regions files mappings →
        Bookkept regions files mappings) → I C) :
    Keeps I (reserveRegion n first count kind) := by
  intro B hB
  have hspec := reserveRegion_spec (n := n) first count kind B (Unchanged.refl B)
  refine ⟨fun a C hrun => ?_, fun e C hrun => hI B C _ hB (hspec.2 e C hrun) fun _ _ h => h⟩
  obtain ⟨hmodulo, hcount, hbound, hfree⟩ := hspec.1 a C hrun
  exact hI B C _ hB hmodulo fun _ _ h =>
    h.reserve hcount hbound hfree fun heq => absurd heq hkind

theorem reserveRegion_serving (hkind : kind ≠ .mapping) :
    Keeps (Serving n A) (reserveRegion n first count kind) :=
  reserveRegion_keeps _ _ hkind fun _ _ _ hB hmodulo hbook =>
    hB.trans (hmodulo.serving (hbook _ _ hB.inOrder))

/-! ## Mmap and its relatives -/

theorem recordFileMapping_serving {f : FileMapping} :
    Triple (fun B => Serving n A B ∧ ∀ a, f.Covers a → InMapping (B.capsule n).regions
        (a / execPageSize))
      (recordFileMapping n f) (fun _ => Serving n A) fun _ => Serving n A := by
  refine .read_bind fun B hB => .ite (fun _ => .throw fun _ h => h.1) fun _ => ?_
  have happend : Triple (fun B => Serving n A B ∧ ∀ a, f.Covers a →
        InMapping (B.capsule n).regions (a / execPageSize))
      (modify (setCapsule n fun capsule =>
        { capsule with fileMappings := capsule.fileMappings ++ [f] }) : SpaceM PUnit)
      (fun _ => Serving n A) fun _ => Serving n A :=
    .modify fun C hC => hC.1.setCapsule (.record hC.1.inOrder hC.2)
  refine .ite (fun _ => .ite (fun _ => ?_) fun _ => ?_) fun _ => happend
  · exact .bind (Q := fun _ _ => False) (.throw fun _ h => h.1) fun _ _ hC => hC.elim
  refine .bind ((demand_keeps fun _ r h => ⟨h.1.asked r, h.2⟩).conseq (fun _ h => h)
    (fun _ _ h => h) fun _ _ h => h.1) fun _ => ?_
  refine .bind (.modify fun C hC => ?_) fun _ => happend
  refine ⟨hC.1.setCapsule hC.1.inOrder, ?_⟩
  rw [setCapsule_self]
  exact hC.2

theorem covers_page {first count length a : Nat} (hcount : capsulePageRange length = some count)
    (hlo : first * execPageSize ≤ a) (hhi : a < first * execPageSize + length) :
    first ≤ a / execPageSize ∧ a / execPageSize < first + count := by
  unfold capsulePageRange at hcount
  split_ifs at hcount
  cases hcount
  unfold execPageSize at hlo hhi ⊢
  omega

theorem fillRegion_serving {first count length : Nat}
    (hcount : capsulePageRange length = some count) {protection : UInt8} {shared : Bool}
    {file : Option (Nat × Bool)} {offset : Nat} :
    Triple (fun B => Serving n A B ∧ ⟨first, count, .mapping⟩ ∈ (B.capsule n).regions)
      (fillRegion n (first * execPageSize) length protection shared file offset)
      (fun _ => Serving n A) fun _ => Serving n A := by
  refine .get_bind fun B hB => ?_
  have hfill : Keeps (Serving n A) (onFamily (fillErrno (shared ∧ file.isSome))
      (fillMapping n (first * execPageSize / execPageSize) protection
        (mapSource B length shared file offset))) := onFamily_serving
    fun v k => fillMapping_extends (first * execPageSize / execPageSize) protection
  refine .bind (Q := fun _ C => Serving n A C ∧
    ⟨first, count, .mapping⟩ ∈ (C.capsule n).regions) ?_ fun _ => ?_
  · intro C hC
    rw [hC]
    refine ⟨fun a D hrun => ⟨(hfill B hB.1).1 a D hrun, ?_⟩,
      fun e D hrun => (hfill B hB.1).2 e D hrun⟩
    rw [exec_onFamily] at hrun
    have hD : _ = D := congrArg Prod.snd hrun
    rw [← hD]
    exact hB.2
  · cases file with
    | none => exact .pure fun _ h => h.1
    | some f =>
      refine .tryCatch ?_ fun _ => .throw fun _ h => h
      refine recordFileMapping_serving.pre (fun C hC => ⟨hC.1, fun a ha => ?_⟩)
      exact ⟨_, hC.2, rfl, covers_page hcount ha.1 ha.2⟩

theorem bindCheck_serving : Keeps (Serving n A) (bindCheck n) :=
  .modify fun _ hB => hB.setStore (mappingsOf_setMemory n rfl)

theorem guestMmap_serving (shared fixed : Bool) (file : Option (Nat × Bool)) (offset : Nat) :
    Keeps (Serving n A) (guestMmap n address length protection shared fixed file offset) := by
  refine .ite (fun _ => .throw _) fun _ => .get_bind fun _ _ =>
    (Keeps.require _).bind fun _ => bindCheck_serving.bind fun _ => ?_
  refine Triple.bind (mmapRange_serving _ _ _ _) fun mapped => ?_
  refine .ite (fun _ => .throw fun _ h => h.1) fun _ => ?_
  refine .bind ?_ fun _ => Keeps.pure _
  refine .tryCatch (E := fun _ => Serving n A) ?_ fun e => ?_
  · rintro B ⟨hserving, first, count, hfirst, hcount, hmem⟩
    rw [hfirst]
    exact fillRegion_serving hcount B ⟨hserving, hmem⟩
  · exact (Keeps.tryCatch (munmapRange_serving _ _) fun _ => .pure _).bind fun _ => .throw _

/-! ## Files -/

theorem setObject_serving {file : Nat} {f : FileObject → FileObject} :
    Keeps (ε := Errno) (Serving n A) (modify (setObject file f)) :=
  .modify fun _ h => { h with }

theorem fileObjectResize_serving : Keeps (Serving n A) (fileObjectResize file size) :=
  .bind (demand_keeps fun _ r h => h.asked r) fun _ => setObject_serving

theorem fileWriteObject_serving (file offset : Nat) {source : List UInt8} :
    Keeps (Serving n A) (fileWriteObject file offset source) := by
  refine .ite (fun _ => .throw _) fun _ => .get_bind fun _ _ => ?_
  exact .ite (fun _ => (fileObjectResize_serving _ _).bind fun _ => setObject_serving)
    fun _ => setObject_serving

theorem ftruncate_serving : Keeps (Serving n A) (ftruncate file size) :=
  .get_bind fun _ _ => .ite (fun _ => .pure _) fun _ => fileObjectResize_serving _ _

theorem syncChunks_serving (mapping : FileMapping) (stop fuel cursor : Nat) :
    Keeps (Serving n A) (syncChunks n mapping stop fuel cursor) := by
  induction fuel generalizing cursor with
  | zero => exact .pure _
  | succ fuel ih =>
    refine .ite (fun _ => .pure _) fun _ => .get_bind fun _ _ => ?_
    refine .ite (fun _ => ?_) fun _ => ih _
    refine (onStore_serving fun _ => .get_bind fun _ _ => (Keeps.require _).bind fun _ =>
      .pure _).bind fun bytes => ?_
    refine .ite (fun _ => (Keeps.throw _).bind fun _ => ih _) fun _ => ?_
    refine (fileWriteObject_serving _ _).bind fun _ => ?_
    refine .ite (fun _ => ?_) fun _ => ih _
    exact (onStore_serving fun _ => clearDirtyPages_extends _ _ _).bind fun _ => ih _

theorem syncMappings_serving (address stop : Nat) (mappings : List FileMapping) :
    Keeps (Serving n A) (syncMappings n address stop mappings) := by
  induction mappings with
  | nil => exact .pure _
  | cons _ _ ih =>
    refine .get_bind fun _ _ => .ite (fun _ => ?_) fun _ => ih
    refine .ite (fun _ => (Keeps.throw _).bind fun _ => ih) fun _ => ?_
    exact (syncChunks_serving _ _ _ _).bind fun _ => ih

theorem syncFileRange_serving {coverage : Bool} :
    Keeps (Serving n A) (syncFileRange n address length coverage) :=
  .get_bind fun _ _ => .ite (fun _ => .throw _) fun _ =>
    .ite (fun _ => .throw _) fun _ => syncMappings_serving _ _ _

theorem guestMunmap_serving : Keeps (Serving n A) (guestMunmap n address length) :=
  .ite (fun _ => .throw _) fun _ =>
    (syncFileRange_serving _ _).bind fun _ => munmapRange_serving _ _

theorem guestMsync_serving : Keeps (Serving n A) (guestMsync n address length) :=
  .ite (fun _ => .throw _) fun _ => syncFileRange_serving _ _

theorem guestMprotect_serving :
    Keeps (Serving n A) (guestMprotect n address length protection) := by
  refine .get_bind fun _ _ => .ite (fun _ => .throw _) fun _ => .ite (fun _ => .throw _) fun _ => ?_
  refine .get_bind fun _ _ => .ite (fun _ => .throw _) fun _ => ?_
  exact (onStore_serving fun _ => processCapsuleMprotectRange_extends _ _ _).bind fun _ =>
    .ite (fun _ => .pure _) fun _ => .throw _

/-! ## Libraries -/

theorem setLibraries_serving (f : List LoadedLibrary → List LoadedLibrary) :
    Keeps (ε := Errno) (Serving n A) (modify (setCapsule n fun capsule =>
      { capsule with libraries := f capsule.libraries })) :=
  .modify fun _ h => h.setCapsule h.inOrder

theorem allocateLibraryRegion_serving : Keeps (Serving n A) (allocateLibraryRegion n count) := by
  refine .get_bind fun _ _ => .ite (fun _ => .throw _) fun _ => .ite (fun _ => .throw _) fun _ => ?_
  split
  · exact .throw _
  · exact (reserveRegion_serving _ _ (by decide)).bind fun _ => .pure _

theorem loadLibrary_serving (path : String) (memorySize alignment : Nat) :
    Keeps (Serving n A) (loadLibrary n path memorySize alignment) := by
  refine .get_bind fun _ _ => ?_
  dsimp only
  split
  · exact (setLibraries_serving fun libraries => libraries.modify _ fun library =>
      { library with refCount := library.refCount + 1 }).bind fun _ => .pure _
  refine .ite (fun _ => .throw _) fun _ => .ite (fun _ => .pure _) fun _ =>
    .ite (fun _ => .throw _) fun _ => ?_
  refine (Keeps.tryCatch (allocateLibraryRegion_serving _) fun _ => .throw _).bind
    fun first => .get_bind fun _ _ => ?_
  have hmap : ∀ count, Keeps (Serving n A) (do
      onFamily (fun _ => .enomem)
        (onStore (memoryMapPages n first count (protRead ||| protWrite) 0))
      pure (libraryBase first alignment)) := fun count =>
    (onStore_serving fun _ => memoryMapPages_extends _ _ _ _).bind fun _ => .pure _
  refine .ite (fun _ => ?_) fun _ => hmap _
  exact (onStore_serving fun _ => memoryReserveVirtualPages_extends _).bind fun _ => hmap _

theorem unloadLibrary_serving (index : Nat) : Keeps (Serving n A) (unloadLibrary n index) := by
  refine .get_bind fun _ _ => ?_
  split
  · exact .throw _
  · exact .ite (fun _ => .throw _) fun _ =>
      setLibraries_serving fun libraries => libraries.set index _

/-! ## Exec -/

/-- The lists of `n` are in order whatever its mapping list is: no region is a mapping
and there are no records. -/
structure Rebuilt (n : Nat) (A B : Spaces) : Prop extends Elsewhere n A B where
  always : ∀ mappings, Bookkept (B.capsule n).regions (B.capsule n).fileMappings mappings

theorem reserveRegion_rebuilt (hkind : kind ≠ .mapping) :
    Keeps (Rebuilt n A) (reserveRegion n first count kind) := by
  refine reserveRegion_keeps _ _ hkind fun B C _ hB hmodulo hbook => ?_
  refine ⟨hB.toElsewhere.trans hmodulo.elsewhere, fun mappings => ?_⟩
  rw [hmodulo.regions, hmodulo.fileMappings]
  exact hbook _ _ (hB.always mappings)

theorem reserveLibraries_rebuilt (libraries : List LoadedLibrary) :
    Keeps (Rebuilt n A) (reserveLibraries n libraries) := by
  induction libraries with
  | nil => exact .pure _
  | cons _ _ ih =>
    refine .ite (fun _ => .ite (fun _ => (Keeps.throw _).bind fun _ => ih) fun _ => ?_)
      fun _ => ih
    exact (reserveRegion_rebuilt _ _ (by decide)).bind fun _ => ih

theorem reserveImage_rebuilt (modulePages : Nat) :
    Keeps (Rebuilt n A) (reserveImage n image modulePages) := by
  refine .get_bind fun B _ => ?_
  refine .ite (fun _ => .throw _) fun _ => ?_
  refine .optional (fun _ => reserveRegion_rebuilt _ _ (by decide)) (fun _ => rfl) ?_
  refine .optional (fun _ => reserveRegion_rebuilt _ _ (by decide)) (fun _ => rfl) ?_
  exact (reserveRegion_rebuilt _ _ (by decide)).bind fun _ =>
    (reserveRegion_rebuilt _ _ (by decide)).bind fun _ =>
    (reserveRegion_rebuilt _ _ (by decide)).bind fun _ => reserveLibraries_rebuilt _

theorem Rebuilt.setCapsule (h : Rebuilt n A B)
    (hf : ∀ mappings, Bookkept (f (B.capsule n)).regions (f (B.capsule n)).fileMappings mappings) :
    Rebuilt n A (setCapsule n f B) := by
  refine ⟨h.toElsewhere.trans (setCapsule_elsewhere n f B), fun mappings => ?_⟩
  rw [setCapsule_self]
  exact hf mappings

theorem Rebuilt.setMemory (h : Rebuilt n A B) (memory : ExecMemory) :
    Rebuilt n A { B with family := { B.family with
      store := setMemory n (fun _ => memory) B.family.store } } := by
  refine { h with mappings := fun j hj => ?_ }
  rw [← h.mappings j hj]
  exact congrArg ExecMemory.mappings (update_of_ne hj _ _)

/-- An exec without file mappings leaves the lists in order, also when it fails. -/
theorem commitProcessImage_serving (hA : A.InOrder n)
    (hfiles : image.ready → (A.capsule n).fileMappings = []) :
    Serving n A (exec (commitProcessImage n image) A).2 := by
  by_cases hready : image.ready
  · have hclear : Triple (· = A) (modify (setCapsule n fun capsule =>
        { capsule with
          regions := []
          regionCapacity := 0
          virtualPageLimit := if (image.memory.map image.boundMemory).any (·.is64)
            then execMem64MaxPages else execMem32MaxPages }) : SpaceM PUnit)
        (fun _ => Rebuilt n A) fun _ => Rebuilt n A := by
      refine .modify fun B hB => ?_
      rw [hB]
      refine ⟨setCapsule_elsewhere _ _ _, fun mappings => ?_⟩
      rw [setCapsule_self, hfiles hready]
      exact .nil mappings
    have hspec : Triple (· = A) (commitProcessImage n image) (fun _ => Rebuilt n A)
        fun _ => Rebuilt n A := by
      unfold commitProcessImage
      rw [if_neg (not_not.mpr hready)]
      refine .bind hclear fun _ => ?_
      cases hmemory : image.memory.map image.boundMemory with
      | none => exact .modify fun B hB => hB.setCapsule hB.always
      | some memory =>
        refine .optional (fun _ => ?_) (fun _ => rfl) ?_
        · exact Keeps.tryCatch (reserveImage_rebuilt _ _) fun _ => .throw _
        · exact (Keeps.modify fun B hB => hB.setCapsule hB.always).bind fun _ =>
            .modify fun B hB => hB.setMemory memory
    have h := Triple.exec_snd hspec rfl
    exact { h with inOrder := h.always _ }
  · have hstay : (exec (commitProcessImage n image) A).2 = A := by
      unfold commitProcessImage
      rw [if_pos hready]
      rfl
    rw [hstay]
    exact .refl hA

/-! ## Fork -/

/-- All processes are in order. -/
def Spaces.Kept (A : Spaces) : Prop :=
  ∀ n, A.family.Live n → A.InOrder n

theorem Serving.kept (h : Serving n A B) (hA : A.Kept) : B.Kept := by
  intro j hj
  by_cases hn : j = n
  · rw [hn]
    exact h.inOrder
  have hlive : A.family.Live j := by
    unfold Family.Live at hj ⊢
    rw [h.count] at hj
    exact hj
  unfold Spaces.InOrder
  rw [h.capsules j hn, h.mappings j hn]
  exact hA j hlive

theorem cloneMemory_mappings (m : Nat) {child : Nat} (s : Store) (j : Nat) :
    mappingsOf (cloneMemory m child s) j =
      if j = child then mappingsOf s m else mappingsOf s j := by
  show (update (List.foldl _ s _).memory child _ j).mappings = _
  rw [foldl_view fun s data => pageRetain_memory data s, update_apply]
  split_ifs <;> rfl

/-- The memory part of a fork: one more process with the mapping list of `n`, or only a
refused request. -/
theorem forkMemory_spec (n : Nat) (F : Family) :
    Triple (fun G => ∃ r, G = { F with store := F.store.asked r }) (forkMemory n)
      (fun _ G => G.count = F.count + 1 ∧ ∀ j, mappingsOf G.store j =
        if j = F.count + 1 then mappingsOf F.store n else mappingsOf F.store j)
      fun _ G => ∃ r, G = { F with store := F.store.asked r } := by
  refine .bind (Q := fun _ G => ∃ r, G = { F with store := F.store.asked r })
    ?_ fun _ => .modify fun G hG => ?_
  · apply Keeps.of_exec_snd
    rintro _ ⟨r, rfl⟩
    obtain ⟨r', hr⟩ := allocateOr_asks "engine clone allocation failed" (F.store.asked r)
    exact ⟨r', by rw [exec_onStore, hr]; rfl⟩
  · obtain ⟨r, rfl⟩ := hG
    exact ⟨rfl, fun j => cloneMemory_mappings n _ j⟩

theorem forkProcess_kept (hA : A.Kept) (hlive : A.family.Live n) :
    (exec (forkProcess n) A).2.Kept := by
  have hask : Keeps (OnlyAsked A) demand := demand_keeps fun _ r h => h.asked r
  have hkept : ∀ B, OnlyAsked A B → B.Kept := fun B hB =>
    (hB.unchanged.serving (hA n hlive)).kept hA
  have hrefuse : Triple (OnlyAsked A) demand (fun _ => OnlyAsked A) fun _ => Spaces.Kept :=
    hask.conseq (fun _ h => h) (fun _ _ h => h) fun _ B hB => hkept B hB
  refine Triple.exec_snd (P := (· = A)) (.get_bind fun A' hA' => ?_) rfl
  obtain rfl := hA'
  refine .pre (P := OnlyAsked A') ?_ fun B hB => by rw [hB]; exact .refl A'
  refine .optional (fun _ => hrefuse) (fun _ => rfl) ?_
  refine .optional (fun _ => hrefuse) (fun _ => rfl) ?_
  refine .optional (fun _ => hrefuse) (fun _ => rfl) ?_
  have hmemory := onFamily_triple (fun _ => .enomem) (forkMemory_spec n A'.family) A'.capsule
  refine .bind (hmemory.conseq (fun B hB => ?_) (fun _ _ h => h) fun _ B hB => ?_)
    fun _ => .modify fun B hB => ?_
  · obtain ⟨r, hB⟩ := hB
    exact ⟨⟨r, by rw [hB]; rfl⟩, by rw [hB]⟩
  · -- nothing was done
    obtain ⟨⟨r, hF⟩, hcapsule⟩ := hB
    intro j hj
    have hfamily : mappingsOf B.family.store j = mappingsOf A'.family.store j := by
      rw [hF]
      rfl
    have hj' : A'.family.Live j := by
      rw [hF] at hj
      exact hj
    unfold Spaces.InOrder
    rw [hcapsule, hfamily]
    exact hA j hj'
  · obtain ⟨⟨hcount, hmappings⟩, hcapsule⟩ := hB
    intro j hj
    have hbounds : 1 ≤ j ∧ j ≤ A'.family.count + 1 := by
      rw [← hcount]
      exact hj
    show Bookkept ((setCapsule _ _ B).capsule j).regions ((setCapsule _ _ B).capsule j).fileMappings
      (mappingsOf B.family.store j)
    rw [hmappings]
    split_ifs with hchild
    · rw [hchild, ← hcount, setCapsule_self]
      exact hA n hlive
    · rw [setCapsule_ne (by omega), hcapsule]
      exact hA j ⟨hbounds.1, by omega⟩

/-! ## Runs -/

/-- The call is not an exec of a process with file mappings. -/
def Spaces.Meets (A : Spaces) (n : Nat) : Syscall → Prop
  | .exec image => image.ready → (A.capsule n).fileMappings = []
  | _ => True

theorem Spaces.Kept.step (hA : A.Kept) {call : Syscall} (hmeets : A.Meets n call) :
    (A.step n call).Kept := by
  unfold Spaces.step
  split_ifs with hvalid
  swap
  · exact hA
  have hstart : Serving n A A := .refl (hA n hvalid.1)
  have hserves : ∀ {α : Type} {c : SpaceM α}, Keeps (Serving n A) c → (exec c A).2.Kept :=
    fun hc => (hc.exec_snd hstart).kept hA
  have hunit : ∀ {α : Type} {c : SpaceM α}, Keeps (Serving n A) c →
      (exec (do let _ ← c) A).2.Kept := fun hc => hserves (hc.bind fun _ => .pure _)
  cases call with
  | access op =>
    have hop : ∀ v, Keeps (Extends n (fun _ => True) v) op.comp := fun v =>
      (op.comp_keeps (chunkwise_mappings op.target fun mappings =>
        (∀ j, j ≠ n → mappings j = v j) ∧
          ∀ p, True → lookup (v n) p ≠ none → lookup (mappings n) p ≠ none)).conseq
        (fun _ h => ⟨h.others, h.kept⟩) (fun _ _ h => ⟨h.1, h.2⟩) fun _ _ h => ⟨h.1, h.2⟩
    have hcomp : Keeps (Serving n A) (Syscall.comp n (.access op)) :=
      bindCheck_serving.bind fun _ => (onStore_serving hop).bind fun _ => .pure _
    exact hserves hcomp
  | grow _ => exact hunit (onStore_serving fun _ => executeMemoryGrow_extends _)
  | mmap address length protection _ _ file offset =>
    exact hunit (guestMmap_serving _ _ _ _ _ _ _)
  | munmap address length => exact hserves (guestMunmap_serving _ _)
  | msync address length => exact hserves (guestMsync_serving _ _)
  | mprotect address length protection => exact hserves (guestMprotect_serving _ _ _)
  | write file offset _ => exact hserves (fileWriteObject_serving _ _)
  | ftruncate file _ => exact hserves (ftruncate_serving _ _)
  | loadLibrary path memorySize _ => exact hunit (loadLibrary_serving _ _ _)
  | recordLibrary path memoryBase memorySize =>
    exact hserves (setLibraries_serving fun libraries =>
      libraries ++ [⟨path, true, memoryBase, memorySize, 1⟩])
  | unloadLibrary _ => exact hserves (unloadLibrary_serving _)
  | exec image => exact (commitProcessImage_serving image (hA n hvalid.1) hmeets).kept hA
  | fork => exact forkProcess_kept hA hvalid.1

/-- Every call of the run meets the condition in the state it is made in. -/
def MeetsCalls : List (Nat × Syscall) → Spaces → Prop
  | [], _ => True
  | (n, call) :: calls, A => A.Meets n call ∧ MeetsCalls calls (A.step n call)

theorem Spaces.Kept.run {calls : List (Nat × Syscall)} (hA : A.Kept) (hmeets : MeetsCalls calls A) :
    (A.run calls).Kept := by
  induction calls generalizing A with
  | nil => exact hA
  | cons _ calls ih => exact ih (hA.step hmeets.1) hmeets.2

theorem Spaces.Initial.kept (h : A.Initial) : A.Kept := by
  intro n hn
  have hone : n = 1 := by
    unfold Family.Live at hn
    rw [h.family.count] at hn
    omega
  unfold InOrder
  rw [hone, h.regions, h.fileMappings]
  exact .nil _

/-- Along every run in which no process with file mappings commits a new image, the
regions of every process are disjoint, the pages of its mapping regions are in the
mapping list of its memory and its file mappings lie in mapping regions; and in every
state a failing `mmapRange` or `munmapRange` leaves the lists and the contents of the
pages as they are. -/
theorem spaces_bookkept (hinit : A.Initial) {calls : List (Nat × Syscall)}
    (hmeets : MeetsCalls calls A) :
    (A.run calls).Kept ∧
      (∀ B n address length protection flags e C,
        exec (mmapRange n address length protection flags) B = (.error e, C) → Unchanged n B C) ∧
      ∀ B n address length e C,
        exec (munmapRange n address length) B = (.error e, C) → Unchanged n B C := by
  refine ⟨hinit.kept.run hmeets, ?_, ?_⟩
  · intro B n address length protection flags e C hrun
    exact (mmapRange_spec address length protection flags B rfl).2 e C hrun
  · intro B n address length e C hrun
    exact ((munmapRange_spec address length B rfl).2 e C hrun).unchanged

/-- A process with one page, and a file with one page. -/
def oneFile : Spaces where
  family := oneProcess
  capsule := fun _ =>
    { hasMemory := true
      regions := []
      regionCapacity := 0
      fileMappings := []
      fileMappingCapacity := 0
      startup := none
      virtualPageLimit := 0
      libraries := [] }
  object := fun _ => ⟨65536, fun _ => 0⟩

theorem oneFile_initial : oneFile.Initial :=
  ⟨oneProcess_initial, rfl, rfl⟩

/-- The second page is mapped to the file. -/
def mapFile : Nat × Syscall :=
  (1, .mmap 65536 65536 3 true false (some (0, true)) 0)

/-- An image with one page and no startup block. -/
def smallImage : Image where
  ready := true
  memory := some (instanceAllocateMemory 1 0 false false)
  ownsMemory := true
  startupPtr := 0
  startupSize := 0

theorem spaces_bookkept_exec :
    (oneFile.run [mapFile, (1, .munmap 65536 65536), (1, .exec smallImage)]).Kept := by
  have hmeets : MeetsCalls [mapFile, (1, .munmap 65536 65536), (1, .exec smallImage)] oneFile :=
    ⟨trivial, trivial, fun _ => by decide, trivial⟩
  exact (spaces_bookkept oneFile_initial hmeets).1

/-- The exec clears the regions and keeps the record of the file mapping. -/
theorem exec_keeps_file_mapping : let A := oneFile.run [mapFile, (1, .exec smallImage)]
    oneFile.Initial ∧ A.family.Live 1 ∧
      (A.capsule 1).fileMappings = [⟨65536, 65536, 0, 0, true, true⟩] ∧
      (A.capsule 1).regions = [⟨0, 1, .module⟩, ⟨1, 1, .brk⟩, ⟨65519, 1, .guard⟩,
        ⟨65520, 16, .stack⟩] ∧ ¬ A.Kept := by
  have hlive : (oneFile.run [mapFile, (1, .exec smallImage)]).family.Live 1 := by decide
  have hfiles : ((oneFile.run [mapFile, (1, .exec smallImage)]).capsule 1).fileMappings =
      [⟨65536, 65536, 0, 0, true, true⟩] := by decide
  have hregions : ((oneFile.run [mapFile, (1, .exec smallImage)]).capsule 1).regions =
      [⟨0, 1, .module⟩, ⟨1, 1, .brk⟩, ⟨65519, 1, .guard⟩, ⟨65520, 16, .stack⟩] := by decide
  refine ⟨oneFile_initial, hlive, hfiles, hregions, fun hkept => ?_⟩
  have hrecorded := (hkept 1 hlive).recorded
  rw [hfiles, hregions] at hrecorded
  obtain ⟨r, hr, hlabel, _⟩ := hrecorded _ (List.mem_singleton.mpr rfl) 65536
    ⟨le_refl _, by decide⟩
  simp only [List.mem_cons, List.not_mem_nil, or_false] at hr
  rcases hr with hr | hr | hr | hr <;> rw [hr] at hlabel <;> exact nomatch hlabel

end Waste.AddressSpace
