import Waste.AddressSpace.Covering

/-!
# Mapping and unmapping a range

`mmapRange` and `munmapRange` change the lists of the capsule and the memory together or
not at all.  `Modulo n regions A B` says that a call of process `n` has done nothing since
`A` but given the capsule the regions `regions`, asked the allocator, and reserved pages
that have no backing.  With the regions of `A` it is `Unchanged`.
-/

namespace Waste.AddressSpace

open RangeMap StateExcept Memory

variable {P : Spaces → Prop} {α : Type}

/-- The memory `n` has at most more pages than before. -/
structure Grown (n : Nat) (s t : Store) : Prop where
  mappings : mappingsOf t = mappingsOf s
  pages : (s.memory n).pages ≤ (t.memory n).pages
  backing : ∀ p, p < (s.memory n).pages → (t.memory n).pageData p = (s.memory n).pageData p
  fresh : ∀ p, (s.memory n).pages ≤ p → p < (t.memory n).pages → (t.memory n).pageData p = none
  contents : t.page = s.page

structure Modulo (n : Nat) (regions : List Region) (A B : Spaces) : Prop
    extends Grown n A.family.store B.family.store where
  count : B.family.count = A.family.count
  regions : (B.capsule n).regions = regions
  fileMappings : (B.capsule n).fileMappings = (A.capsule n).fileMappings
  capsules : ∀ j, j ≠ n → B.capsule j = A.capsule j

/-- The regions, the file mappings, the mapping lists and the contents of the pages are
those of `A`. -/
def Unchanged (n : Nat) (A B : Spaces) : Prop :=
  Modulo n (A.capsule n).regions A B

variable {n : Nat} {A B : Spaces} {s t : Store} {regions : List Region}
variable (address length : Nat) (protection flags : UInt8) (first count : Nat)

theorem Grown.refl (s : Store) : Grown n s s where
  mappings := rfl
  pages := le_refl _
  backing := fun _ _ => rfl
  fresh := fun _ hlo hhi => absurd hhi (not_lt.mpr hlo)
  contents := rfl

theorem Unchanged.refl (A : Spaces) : Unchanged n A A :=
  { Grown.refl A.family.store with
    count := rfl
    regions := rfl
    fileMappings := rfl
    capsules := fun _ _ => rfl }

/-! ## Asking the allocator -/

theorem granted_keeps (hP : ∀ A r, P A → P { A with family := { A.family with
      store := { A.family.store with requests := r } } }) : Keeps P granted := by
  apply Keeps.of_exec_snd
  intro A hA
  exact hP A _ hA

theorem demand_keeps (hP : ∀ A r, P A → P { A with family := { A.family with
      store := { A.family.store with requests := r } } }) : Keeps P demand :=
  (granted_keeps hP).bind fun _ => .ite (fun _ => .pure _) fun _ => .throw _

theorem Grown.asked (h : Grown n s t) (r : Nat) : Grown n s { t with requests := r } :=
  { h with }

theorem Modulo.asked (h : Modulo n regions A B) (r : Nat) :
    Modulo n regions A { B with family := { B.family with
      store := { B.family.store with requests := r } } } :=
  { h with toGrown := h.toGrown.asked r }

theorem setCapsule_self (n : Nat) (f : Capsule → Capsule) (A : Spaces) :
    (setCapsule n f A).capsule n = f (A.capsule n) :=
  Function.update_self ..

theorem setCapsule_ne {j : Nat} (hj : j ≠ n) (f : Capsule → Capsule) (A : Spaces) :
    (setCapsule n f A).capsule j = A.capsule j :=
  Function.update_of_ne hj ..

theorem Modulo.setCapsule (h : Modulo n regions A B) {f : Capsule → Capsule}
    {regions' : List Region} (hregions : (f (B.capsule n)).regions = regions')
    (hfiles : (f (B.capsule n)).fileMappings = (B.capsule n).fileMappings) :
    Modulo n regions' A (setCapsule n f B) :=
  { h with
    regions := by
      rw [setCapsule_self]
      exact hregions
    fileMappings := by
      rw [setCapsule_self, hfiles]
      exact h.fileMappings
    capsules := fun j hj => by
      rw [setCapsule_ne hj]
      exact h.capsules j hj }

/-! ## Reserving -/

theorem Grown.reserve (h : Grown n s t) {pages : Nat} (hpages : (t.memory n).pages < pages) :
    Grown n s (setMemory n (.reserved pages) t) := by
  have hgrows := h.pages
  refine ⟨?_, ?_, fun p hp => ?_, fun p hlo hhi => ?_, h.contents⟩
  · rw [mappingsOf_setMemory n rfl]
    exact h.mappings
  · rw [setMemory_self]
    exact hgrows.trans hpages.le
  · rw [setMemory_self]
    show fillRange _ _ _ _ p = _
    rw [fillRange_apply, if_neg (by omega)]
    exact h.backing p hp
  rw [setMemory_self] at hhi ⊢
  show fillRange _ _ _ _ p = none
  have hbound : p < pages := hhi
  rw [fillRange_apply]
  split_ifs
  · rfl
  · exact h.fresh p hlo (by omega)

theorem memoryReserveVirtualPages_grown (pages : Nat) :
    Keeps (Grown n s) (memoryReserveVirtualPages n pages) := by
  refine Rebuilds.keeps (memoryReserveVirtualPages_rebuilds n pages) (fun _ r h => h.asked r)
    fun t _ f ht hf => ?_
  cases hf with
  | nothing => rwa [setMemory_id]
  | pages hpages => exact ht.reserve hpages

theorem onFamily_modulo {errno : ExecError → Errno} {c : MemM α} (hc : ∀ s, Keeps (Grown n s) c) :
    Keeps (Modulo n regions A) (onFamily errno (onStore c)) := by
  apply Keeps.of_exec_snd
  intro B hB
  simp only [exec_onFamily, exec_onStore]
  exact { hB with toGrown := (hc _).exec_snd hB.toGrown }

theorem reservePages_modulo : Keeps (Modulo n regions A) (reservePages n first count) :=
  .get_bind fun _ _ => .ite
    (fun _ => onFamily_modulo fun _ => memoryReserveVirtualPages_grown _) fun _ => .pure _

/-- A region is appended where none was, or the capsule stays as it is. -/
theorem reserveRegion_spec (kind : RegionKind) :
    Triple (Modulo n regions A) (reserveRegion n first count kind)
      (fun _ B => Modulo n (regions ++ [⟨first, count, kind⟩]) A B ∧ 0 < count ∧
        first ≤ uint64Max - count ∧ regionIsReserved regions first count = none)
      fun _ => Modulo n regions A := by
  refine .read_bind fun B hB => .ite (fun _ => .throw fun _ h => h) fun hvalid => ?_
  have happend : Triple (Modulo n regions A) (modify (setCapsule n fun capsule =>
      { capsule with regions := capsule.regions ++ [⟨first, count, kind⟩] }) : SpaceM PUnit)
      (fun _ B => Modulo n (regions ++ [⟨first, count, kind⟩]) A B ∧ 0 < count ∧
        first ≤ uint64Max - count ∧ regionIsReserved regions first count = none)
      fun _ => Modulo n regions A := by
    refine .modify fun C hC => ⟨hC.setCapsule ?_ rfl, by omega, by omega, ?_⟩
    · rw [hC.regions]
    · have hnone : ¬(regionIsReserved (B.capsule n).regions first count).isSome := by tauto
      rw [hB.regions] at hnone
      exact Option.not_isSome_iff_eq_none.mp hnone
  refine .ite (fun _ => ?_) fun _ => happend
  refine .ite (fun _ => ?_) fun _ => ?_
  · exact .bind (.throw fun _ h => h) fun _ => happend
  · refine .bind (demand_keeps fun _ r h => h.asked r) fun _ => ?_
    refine .bind (.modify fun C hC => ?_) fun _ => happend
    exact hC.setCapsule hC.regions rfl

/-! ## Programs on the memories -/

theorem onStore_triple {c : MemM α} {P : Store → Prop} {Q : α → Store → Prop}
    {R : ExecError → Store → Prop} (h : Triple P c Q R) (k : Nat) :
    Triple (fun F => P F.store ∧ F.count = k) (onStore c) (fun a F => Q a F.store ∧ F.count = k)
      fun e F => R e F.store ∧ F.count = k := by
  intro F hF
  rw [exec_onStore]
  rcases hrun : exec c F.store with ⟨e | a, t⟩
  · exact ends_error ⟨(h _ hF.1).2 e t hrun, hF.2⟩
  · exact ends_ok ⟨(h _ hF.1).1 a t hrun, hF.2⟩

theorem onFamily_triple {c : FamM α} {P : Family → Prop} {Q : α → Family → Prop}
    {R : Family → Prop} (errno : ExecError → Errno) (h : Triple P c Q fun _ => R)
    (C : Nat → Capsule) :
    Triple (fun A => P A.family ∧ A.capsule = C) (onFamily errno c)
      (fun a A => Q a A.family ∧ A.capsule = C) fun _ A => R A.family ∧ A.capsule = C := by
  intro A hA
  rw [exec_onFamily]
  rcases hrun : exec c A.family with ⟨e | a, F⟩
  · exact ends_error ⟨(h _ hA.1).2 e F hrun, hA.2⟩
  · exact ends_ok ⟨(h _ hA.1).1 a F hrun, hA.2⟩

/-! ## Mapping the pages of a region -/

/-- The mapping list of `n` covers what it covered in `s`, and the window. -/
structure CoversAlso (n first count : Nat) (s t : Store) : Prop
    extends Extends n (fun _ => True) (mappingsOf s) t where
  window : ∀ p, first ≤ p → p < first + count → lookup (mappingsOf t n) p ≠ none

theorem Grown.insert (h : Grown n s t) {first count : Nat} (protection flags : UInt8) :
    CoversAlso n first count s (setMemory n (.mapped first count protection flags) t) where
  toExtends := by
    have hextends : Extends n (fun _ => True) (mappingsOf s) t := (Extends.refl s).of_eq h.mappings
    exact hextends.setMemory fun p _ hp => covers_mapped _ _ _ _ p hp
  window p hlo hhi := by
    show lookup ((setMemory n _ t).memory n).mappings p ≠ none
    rw [setMemory_self]
    exact lookup_ne_none.mpr ⟨_, mem_insert.mpr (.inl rfl), hlo, hhi⟩

theorem memoryMapPages_spec {first count : Nat} (hcount : 0 < count) (protection flags : UInt8) :
    Triple (Grown n s) (memoryMapPages n first count protection flags)
      (fun _ => CoversAlso n first count s) fun _ => Grown n s := by
  refine Rebuilds.triple (memoryMapPages_rebuilds n first count protection flags)
    (fun _ _ r ht => ht.asked r) fun t _ f r ht hf => ?_
  cases hf with
  | nothing _ => omega
  | pages => exact (ht.asked r).insert _ _

theorem mapPages_spec {count : Nat} (hcount : 0 < count) (protection flags : UInt8) (k : Nat) :
    Triple (fun F => Grown n s F.store ∧ F.count = k) (mapPages n first count protection flags)
      (fun _ F => CoversAlso n first count s F.store ∧ F.count = k)
      fun _ F => Grown n s F.store ∧ F.count = k :=
  .bind (onStore_triple (memoryMapPages_spec hcount protection flags) k) fun _ =>
    .ite (fun _ => .modify fun _ h => h) fun _ => .pure fun _ h => h

/-- What a successful `mmapRange` has done since `A`. -/
structure Mapped (n first count : Nat) (A B : Spaces) : Prop
    extends CoversAlso n first count A.family.store B.family.store where
  families : B.family.count = A.family.count
  regions : (B.capsule n).regions = (A.capsule n).regions ++ [⟨first, count, .mapping⟩]
  fileMappings : (B.capsule n).fileMappings = (A.capsule n).fileMappings
  capsules : ∀ j, j ≠ n → B.capsule j = A.capsule j
  positive : 0 < count
  bounded : first ≤ uint64Max - count
  free : regionIsReserved (A.capsule n).regions first count = none

theorem removeLastMappingRegion_unchanged {first count : Nat}
    (h : Modulo n (regions ++ [⟨first, count, .mapping⟩]) A B) :
    Modulo n regions A (removeLastMappingRegion n first count B) := by
  have hlast : (B.capsule n).regions.getLast? = some ⟨first, count, .mapping⟩ := by
    rw [h.regions, List.getLast?_append_cons]
    rfl
  refine h.setCapsule ?_ ?_
  · rw [if_pos hlast, h.regions]
    exact List.dropLast_concat
  · rw [if_pos hlast]

theorem mapRegion_spec {first count : Nat} (hcount : 0 < count) (hbound : first ≤ uint64Max - count)
    (hfree : regionIsReserved (A.capsule n).regions first count = none) :
    Triple (Modulo n ((A.capsule n).regions ++ [⟨first, count, .mapping⟩]) A)
      (mapRegion n address first count protection flags)
      (fun _ => Mapped n first count A) fun _ => Unchanged n A := by
  refine .get_bind fun B hB => ?_
  have hback : ∀ (e : Errno), Triple
      (Modulo n ((A.capsule n).regions ++ [⟨first, count, .mapping⟩]) A)
      (do modify (removeLastMappingRegion n first count); throw e : SpaceM Unit)
      (fun _ => Mapped n first count A) fun _ => Unchanged n A := fun e =>
    .bind (.modify fun C hC => removeLastMappingRegion_unchanged hC) fun _ => .throw fun _ h => h
  refine .ite (fun _ => ?_) fun _ => ?_
  · exact (hback .eexist).pre (fun _ hC => hC ▸ hB)
  refine .tryCatch ?_ hback
  have hmap := onFamily_triple (fun _ => .einval)
    (mapPages_spec (n := n) (s := A.family.store) first hcount protection flags
      A.family.count) B.capsule
  refine hmap.conseq (fun C hC => ?_) (fun _ C hC => ?_) fun _ C hC => ?_
  · rw [hC]
    exact ⟨⟨hB.toGrown, hB.count⟩, rfl⟩
  · obtain ⟨⟨hcovers, hk⟩, hcapsule⟩ := hC
    exact { hcovers with
        families := hk
        regions := by rw [hcapsule]; exact hB.regions
        fileMappings := by rw [hcapsule]; exact hB.fileMappings
        capsules := fun j hj => by rw [hcapsule]; exact hB.capsules j hj
        positive := hcount
        bounded := hbound
        free := hfree }
  · obtain ⟨⟨hgrown, hk⟩, hcapsule⟩ := hC
    exact { hgrown with
        count := hk
        regions := by rw [hcapsule]; exact hB.regions
        fileMappings := by rw [hcapsule]; exact hB.fileMappings
        capsules := fun j hj => by rw [hcapsule]; exact hB.capsules j hj }

/-- `native_process_capsule_mmap_range` maps one new region, or it changes neither the
lists nor the contents of the pages. -/
theorem mmapRange_spec : Triple (· = A) (mmapRange n address length protection flags)
      (fun mapped B => ∃ first count, mapped = first * execPageSize ∧
        capsulePageRange length = some count ∧ Mapped n first count A B)
      fun _ => Unchanged n A := by
  refine .get_bind fun A hA => ?_
  subst hA
  have hstay : ∀ B, B = A → Unchanged n A B := by
    intro B hB
    rw [hB]
    exact .refl A
  refine .ite (fun _ => .throw hstay) fun _ => ?_
  cases hrange : capsulePageRange length with
  | none => exact .throw hstay
  | some count =>
    refine .pre ?_ hstay
    refine .bind (Keeps.require _) fun first => ?_
    refine .bind (reservePages_modulo first count) fun _ => ?_
    have hreserve := Triple.tryCatch (reserveRegion_spec first count .mapping)
      fun _ => .throw (e := .enomem) (R := fun _ => Unchanged n A) fun _ h => h
    refine .bind hreserve fun _ => ?_
    intro B hB
    refine Triple.bind (mapRegion_spec address protection flags hB.2.1 hB.2.2.1 hB.2.2.2)
      (fun _ => .pure fun C hC => ?_) B hB.1
    exact ⟨first, count, rfl, rfl, hC⟩

/-! ## Unmapping -/

/-- Nothing but the allocator was asked. -/
def OnlyAsked (A B : Spaces) : Prop :=
  ∃ r, B = { A with family := { A.family with store := { A.family.store with requests := r } } }

theorem OnlyAsked.refl (A : Spaces) : OnlyAsked A A :=
  ⟨A.family.store.requests, rfl⟩

theorem OnlyAsked.asked (h : OnlyAsked A B) (r : Nat) :
    OnlyAsked A { B with family := { B.family with
      store := { B.family.store with requests := r } } } := by
  obtain ⟨r', hB⟩ := h
  exact ⟨r, by rw [hB]⟩

theorem OnlyAsked.unchanged (h : OnlyAsked A B) : Unchanged n A B := by
  obtain ⟨r, hB⟩ := h
  rw [hB]
  exact (Unchanged.refl A).asked r

theorem memoryUnmapPages_spec :
    Triple (fun t => ∃ r, t = s.asked r) (memoryUnmapPages n first count)
      (fun _ => Extends n (fun p => ¬(first ≤ p ∧ p < first + count)) (mappingsOf s))
      fun _ t => ∃ r, t = s.asked r := by
  rintro _ ⟨r, rfl⟩
  have hends := memoryUnmapPages_ends n first count (s.asked r)
  generalize exec (memoryUnmapPages n first count) (s.asked r) = run at hends ⊢
  rcases hends with ⟨e, r'⟩ | _ | ⟨r'⟩
  · exact ends_error ⟨r', rfl⟩
  · exact ends_ok ((Extends.refl s).of_eq rfl)
  refine ends_ok ?_
  have hreleased : mappingsOf (releasePages n first count (s.asked r')) = mappingsOf s :=
    installPages_mappings n first _ (s.asked r')
  refine ((Extends.refl s).of_eq hreleased).setMemory fun p hp hcovered => ?_
  obtain ⟨q, hq, hcovers⟩ := lookup_ne_none.mp hcovered
  exact (carve_covers _ _ _).mpr ⟨q, hq, hcovers, fun h h' => absurd ⟨h, h'⟩ hp⟩

/-- What a successful `munmapRange` has done since `A`. -/
structure Unmapped (n first count : Nat) (A B : Spaces) : Prop
    extends Extends n (fun p => ¬(first ≤ p ∧ p < first + count)) (mappingsOf A.family.store)
      B.family.store where
  families : B.family.count = A.family.count
  regions : (B.capsule n).regions = buildMappingRelease (A.capsule n).regions first count
  fileMappings : (B.capsule n).fileMappings = (A.capsule n).fileMappings.flatMap
    (FileMapping.release (first * execPageSize) ((first + count) * execPageSize))
  capsules : ∀ j, j ≠ n → B.capsule j = A.capsule j

theorem unmapPages_spec (A : Spaces) :
    Triple (OnlyAsked A) (onFamily (fun _ => .einval) (unmapPages n first count))
      (fun _ B => Extends n (fun p => ¬(first ≤ p ∧ p < first + count))
        (mappingsOf A.family.store) B.family.store ∧ B.family.count = A.family.count ∧
        B.capsule = A.capsule) fun _ => OnlyAsked A := by
  intro B hB
  rw [exec_onFamily, unmapPages, exec_bind, exec_onStore]
  obtain ⟨r, hB⟩ := hB
  have hspec := memoryUnmapPages_spec (n := n) first count B.family.store ⟨r, by rw [hB]; rfl⟩
  rcases hrun : exec (memoryUnmapPages n first count) B.family.store with ⟨e | a, t⟩
  · obtain ⟨r', ht⟩ := hspec.2 e t hrun
    exact ends_error ⟨r', by rw [hB, ht]; rfl⟩
  · have hcount : B.family.count = A.family.count := by rw [hB]
    have hcapsule : B.capsule = A.capsule := by rw [hB]
    exact ends_ok ⟨hspec.1 a t hrun, hcount, hcapsule⟩

theorem commitMunmap_spec (A : Spaces) :
    Triple (OnlyAsked A) (commitMunmap n first count) (fun _ => Unmapped n first count A)
      fun _ => OnlyAsked A := by
  refine .read_bind fun B hB => ?_
  have hcapsule : B.capsule = A.capsule := by
    obtain ⟨r, hB⟩ := hB
    rw [hB]
  refine .ite (fun _ => .throw fun _ h => h) fun _ => ?_
  refine .bind (unmapPages_spec first count A) fun _ => .modify fun C hC => ?_
  obtain ⟨hextends, hcount, hsame⟩ := hC
  exact { hextends with
      families := hcount
      regions := by
        rw [setCapsule_self, hcapsule]
      fileMappings := by
        rw [setCapsule_self, hcapsule]
      capsules := fun j hj => by
        rw [setCapsule_ne hj, hsame] }

/-- `native_process_capsule_munmap_range` releases the window in all lists, or it has
done nothing. -/
theorem munmapRange_spec : Triple (· = A) (munmapRange n address length)
      (fun _ B => ∃ first count, address = first * execPageSize ∧
        capsulePageRange length = some count ∧ Unmapped n first count A B)
      fun _ => OnlyAsked A := by
  refine .get_bind fun A hA => ?_
  subst hA
  have hstay : ∀ B, B = A → OnlyAsked A B := by
    intro B hB
    rw [hB]
    exact .refl A
  refine .ite (fun _ => .throw hstay) fun haligned => ?_
  cases hrange : capsulePageRange length with
  | none => exact .throw hstay
  | some count =>
    refine .ite (fun _ => .throw hstay) fun _ => .ite (fun _ => .throw hstay) fun _ => ?_
    refine .pre ?_ hstay
    have hask : Keeps (OnlyAsked A) granted := granted_keeps fun _ r h => h.asked r
    refine .bind hask fun regionSpace => ?_
    refine .join (fun _ => Keeps.pure true) (fun _ => hask) fun fileSpace => ?_
    refine .ite (fun _ => .throw fun _ h => h) fun _ =>
      .ite (fun _ => .throw fun _ h => h) fun _ =>
      .ite (fun _ => .throw fun _ h => h) fun _ =>
      .ite (fun _ => .throw fun _ h => h) fun _ => ?_
    refine (commitMunmap_spec _ count A).conseq (fun _ h => h) (fun _ B hB => ?_) fun _ _ h => h
    refine ⟨address / execPageSize, count, ?_, rfl, hB⟩
    exact (Nat.div_mul_cancel (Nat.dvd_of_mod_eq_zero (not_not.mp haligned))).symm

end Waste.AddressSpace
