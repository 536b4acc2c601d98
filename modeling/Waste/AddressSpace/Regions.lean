import Waste.AddressSpace.Model

/-!
# The lists of an address space

`Bookkept` relates the three lists that describe the address space of a process: the
regions and the file mappings of its capsule, and the mapping list of its memory.  The
lemmas say how it survives what the functions do to the lists: a region is appended, a
window is released in all of them, a file mapping is recorded, the mapping list covers
more.
-/

namespace Waste.AddressSpace

open RangeMap StateExcept Memory List

variable {r piece : Region}

/-- Two regions have no page in common. -/
def Region.Apart (a b : Region) : Prop :=
  a.stop ≤ b.first ∨ b.stop ≤ a.first

def FileMapping.Covers (f : FileMapping) (a : Nat) : Prop :=
  f.address ≤ a ∧ a < f.address + f.length

/-- The page is in a region of kind `MAPPING`. -/
def InMapping (regions : List Region) (p : Nat) : Prop :=
  ∃ r ∈ regions, r.label = .mapping ∧ r.Covers p

structure Bookkept (regions : List Region) (files : List FileMapping)
    (mappings : List Mapping) : Prop where
  nonempty : ∀ r ∈ regions, 0 < r.count
  disjoint : regions.Pairwise Region.Apart
  covered : ∀ p, InMapping regions p → lookup mappings p ≠ none
  recorded : ∀ f ∈ files, ∀ a, f.Covers a → InMapping regions (a / execPageSize)

variable {regions : List Region} {files : List FileMapping} {mappings mappings' : List Mapping}
variable {first count : Nat}

theorem Bookkept.nil (mappings : List Mapping) : Bookkept [] [] mappings where
  nonempty := nofun
  disjoint := Pairwise.nil
  covered := fun _ ⟨_, h, _⟩ => nomatch h
  recorded := nofun

/-! ## A new region -/

theorem apart_of_not_reserved (hcount : 0 < count) (hbound : first ≤ uint64Max - count)
    (hfree : regionIsReserved regions first count = none) :
    ∀ r ∈ regions, 0 < r.count → r.Apart ⟨first, count, .mapping⟩ := by
  intro r hr hpos
  have hnone : regions.find? (overlaps first count) = none := by
    unfold regionIsReserved at hfree
    rw [if_neg (by omega)] at hfree
    exact Option.map_eq_none_iff.mp hfree
  have hover := find?_eq_none.mp hnone r hr
  have hmeet : ¬(first < r.stop ∧ r.first < first + count) := by
    simpa [overlaps] using hover
  show r.stop ≤ first ∨ first + count ≤ r.first
  omega

theorem inMapping_append {p : Nat} :
    InMapping (regions ++ [r]) p ↔ InMapping regions p ∨ (r.label = .mapping ∧ r.Covers p) := by
  simp [InMapping, or_and_right, exists_or]

theorem Bookkept.reserve (h : Bookkept regions files mappings) {kind : RegionKind}
    (hcount : 0 < count) (hbound : first ≤ uint64Max - count)
    (hfree : regionIsReserved regions first count = none)
    (hkind : kind = .mapping → ∀ p, first ≤ p → p < first + count → lookup mappings p ≠ none) :
    Bookkept (regions ++ [⟨first, count, kind⟩]) files mappings where
  nonempty r hr := by
    rcases mem_append.mp hr with hold | hnew
    · exact h.nonempty r hold
    · rw [mem_singleton.mp hnew]
      exact hcount
  disjoint := by
    refine pairwise_append.mpr ⟨h.disjoint, pairwise_singleton _ _, ?_⟩
    intro r hr new hnew
    rw [mem_singleton.mp hnew]
    exact apart_of_not_reserved hcount hbound hfree r hr (h.nonempty r hr)
  covered p hp := by
    rcases inMapping_append.mp hp with hold | ⟨hlabel, hcovers⟩
    · exact h.covered p hold
    · exact hkind hlabel p hcovers.1 hcovers.2
  recorded f hf a ha := inMapping_append.mpr (.inl (h.recorded f hf a ha))

/-! ## A released window -/

theorem release_mem_inside (hr : 0 < r.count) (hpiece : piece ∈ (if r.label = .mapping then
      r.carve (fun _ => none) first (first + count) else [r])) :
    r.first ≤ piece.first ∧ 0 < piece.count ∧ piece.stop ≤ r.stop := by
  split_ifs at hpiece
  · exact (Range.carve_within _ _ _ hr).bounds piece hpiece
  · rw [mem_singleton.mp hpiece]
    exact ⟨le_refl _, hr, le_refl _⟩

theorem carve_label {lo hi : Nat}
    (h : piece ∈ r.carve (fun _ => none) lo hi) : piece.label = r.label := by
  unfold Range.carve at h
  simp only [append_nil] at h
  split_ifs at h <;> simp at h
  · rw [h]
  · rcases h with h | h <;> rw [h]
  · rw [h]
  · rw [h]

/-- The pages in mapping regions are those from before that are not in the window. -/
theorem inMapping_release {p : Nat} : InMapping (buildMappingRelease regions first count) p ↔
      InMapping regions p ∧ ¬(first ≤ p ∧ p < first + count) := by
  constructor
  · intro ⟨piece, hpiece, hlabel, hcovers⟩
    obtain ⟨r, hr, hin⟩ := mem_flatMap.mp hpiece
    split_ifs at hin with hmap
    · have hboth := (Range.carve_covers _ _ _).mp ⟨piece, hin, hcovers⟩
      exact ⟨⟨r, hr, hmap, hboth.1⟩, fun hwindow => hboth.2 hwindow.1 hwindow.2 rfl⟩
    · rw [mem_singleton] at hin
      rw [hin] at hlabel
      exact absurd hlabel hmap
  · intro ⟨⟨r, hr, hmap, hcovers⟩, hout⟩
    obtain ⟨piece, hin, hpiece⟩ := (Range.carve_covers (fun _ => none) first (first + count)).mpr
      ⟨hcovers, fun h h' => absurd ⟨h, h'⟩ hout⟩
    refine ⟨piece, mem_flatMap.mpr ⟨r, hr, ?_⟩, ?_, hpiece⟩
    · rw [if_pos hmap]
      exact hin
    · rw [carve_label hin]
      exact hmap

/-- What is kept of a file mapping are its addresses outside the window, each for the
same byte of the file. -/
theorem FileMapping.release_covers {old piece : FileMapping} {address stop a : Nat}
    (h : piece ∈ old.release address stop) (ha : piece.Covers a) :
    old.Covers a ∧ ¬(address ≤ a ∧ a < stop) ∧
      piece.fileOffset + (a - piece.address) = old.fileOffset + (a - old.address) ∧
      piece.fileObject = old.fileObject ∧ piece.shared = old.shared ∧
      piece.writable = old.writable := by
  unfold release at h
  unfold Covers at ha ⊢
  dsimp only at h
  split_ifs at h with hnone hleft hright hright
  · rw [mem_singleton.mp h] at ha ⊢
    exact ⟨ha, by omega, rfl, rfl, rfl, rfl⟩
  · rcases mem_append.mp h with h | h <;> rw [mem_singleton.mp h] at ha ⊢ <;>
      dsimp only at ha ⊢ <;> exact ⟨by omega, by omega, by omega, rfl, rfl, rfl⟩
  · rw [append_nil, mem_singleton] at h
    rw [h] at ha ⊢
    dsimp only at ha ⊢
    exact ⟨by omega, by omega, by omega, rfl, rfl, rfl⟩
  · rw [nil_append, mem_singleton] at h
    rw [h] at ha ⊢
    dsimp only at ha ⊢
    exact ⟨by omega, by omega, by omega, rfl, rfl, rfl⟩
  · exact nomatch h

theorem Bookkept.release (h : Bookkept regions files mappings)
    (hmore : ∀ p, ¬(first ≤ p ∧ p < first + count) → lookup mappings p ≠ none →
      lookup mappings' p ≠ none) : Bookkept (buildMappingRelease regions first count)
      (files.flatMap (FileMapping.release (first * execPageSize) ((first + count) * execPageSize)))
      mappings' where
  nonempty piece hpiece := by
    obtain ⟨r, hr, hin⟩ := List.mem_flatMap.mp hpiece
    exact (release_mem_inside (h.nonempty r hr) hin).2.1
  disjoint := by
    refine pairwise_flatMap.mpr ⟨fun r hr => ?_, ?_⟩
    · split_ifs
      · exact (Range.carve_within _ _ _ (h.nonempty r hr)).disjoint.imp .inl
      · exact pairwise_singleton _ _
    -- pieces of two regions are as far apart as the regions
    refine h.disjoint.imp_of_mem fun {a b} ha hb hapart x hx y hy => ?_
    have hxin := release_mem_inside (h.nonempty a ha) hx
    have hyin := release_mem_inside (h.nonempty b hb) hy
    rcases hapart with hab | hba
    · exact .inl (by omega)
    · exact .inr (by omega)
  covered p hp := by
    have hboth := inMapping_release.mp hp
    exact hmore p hboth.2 (h.covered p hboth.1)
  recorded piece hpiece a ha := by
    obtain ⟨f, hf, hin⟩ := mem_flatMap.mp hpiece
    have hkept := FileMapping.release_covers hin ha
    refine inMapping_release.mpr ⟨h.recorded f hf a hkept.1, fun hwindow => hkept.2.1 ?_⟩
    -- the window ends at page borders
    have hdiv := Nat.div_mul_le_self a execPageSize
    have hmod := Nat.lt_div_mul_add (a := a) (b := execPageSize) (by unfold execPageSize; omega)
    unfold execPageSize at hdiv hmod hwindow ⊢
    omega

/-! ## A new file mapping -/

theorem Bookkept.record (h : Bookkept regions files mappings) {f : FileMapping}
    (hf : ∀ a, f.Covers a → InMapping regions (a / execPageSize)) :
    Bookkept regions (files ++ [f]) mappings := by
  refine { h with recorded := fun g hg a ha => ?_ }
  rcases mem_append.mp hg with hold | hnew
  · exact h.recorded g hold a ha
  · rw [mem_singleton.mp hnew] at ha
    exact hf a ha

end Waste.AddressSpace
