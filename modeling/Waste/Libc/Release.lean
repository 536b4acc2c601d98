import Waste.Libc.Blocks

/-!
# Releasing a block

`release_block` joins the block with a free block after it and a free block before it, and
puts the result into the free list.
-/

namespace Waste.Libc

open ByteMemory DoublyLinked List

variable {s s' : Allocator} {pre post pre' post' blocks : List Block} {b c : Block} {a size : Nat}

def TakenFront (post post' : List Block) : Prop :=
  post' = post ∨ ∃ q, q.kind = .free ∧ post = q :: post'

def TakenBack (pre pre' : List Block) : Prop := pre' = pre ∨ ∃ p, p.kind = .free ∧ pre = pre' ++ [p]

theorem TakenFront.subset (h : TakenFront post post') : post' ⊆ post := by
  rcases h with rfl | ⟨q, -, rfl⟩
  · exact Subset.refl _
  · exact subset_cons_self q _

theorem TakenBack.subset (h : TakenBack pre pre') : pre' ⊆ pre := by
  rcases h with rfl | ⟨p, -, rfl⟩
  · exact Subset.refl _
  · exact subset_append_left _ _

theorem Heap.tags (h : Heap s blocks) (hb : b ∈ blocks) (hkind : b.kind ≠ .raw) :
    tagSize (load s.mem b.addr) = b.size ∧ tagSize (load s.mem (b.stop - 4)) = b.size ∧
      load s.mem b.addr % 2 = if b.kind = .used then 1 else 0 := by
  obtain ⟨hheader, hfooter⟩ := h.tagged b hb hkind
  obtain ⟨hsize, hflag⟩ := (h.sound b hb).tagSize_tag
  rw [hheader, hfooter]
  exact ⟨hsize, hsize, hflag⟩

theorem joinNext_eq (hsize : tagSize (load s.mem b.addr) = b.size)
    (hwrap : b.addr + b.size < 2 ^ 32) : s.joinNext b.addr =
      if b.stop < s.programBreak then
        if load s.mem b.stop % 2 = 0 then
          (add32 b.size (tagSize (load (s.removeFree b.stop).mem b.stop)), s.removeFree b.stop)
        else (b.size, s)
      else (b.size, s) := by
  unfold Allocator.joinNext
  dsimp only
  rw [hsize, add32_eq hwrap]
  rfl

theorem Heap.joinNext (h : Heap s (pre ++ b :: post)) (hb : b.kind = .used)
    (hpost : ∀ q ∈ post.head?, q.kind ≠ .raw) : ∃ post', b.size ≤ (s.joinNext b.addr).1 ∧
      Heap (s.joinNext b.addr).2 (pre ++ ⟨b.addr, (s.joinNext b.addr).1, .raw⟩ :: post') ∧
      Spared s (s.joinNext b.addr).2 (pre ++ post') ∧ TakenFront post post' ∧
      ∀ q ∈ post'.head?, q.kind ≠ .free := by
  have hused : b.kind ≠ .raw ∧ b.kind ≠ .free := by simp [hb]
  obtain ⟨hsize, -, -⟩ := h.tags (by simp) hused.1
  obtain ⟨-, hwrap⟩ := h.no_wrap (b := b) (by simp)
  rw [joinNext_eq hsize (by omega)]
  cases post with
  | nil =>
    have hend : b.stop = s.programBreak := h.tiled.split.2
    rw [if_neg (by omega)]
    exact ⟨[], le_refl _, h.forget hused.2, .refl s _, .inl rfl, nofun⟩
  | cons q rest =>
    have hqmem : q ∈ pre ++ b :: q :: rest := by simp
    have hq : q.kind ≠ .raw := hpost q rfl
    have hnext : q.addr = b.stop := h.tiled.split.2.1
    have hbelow : b.stop < s.programBreak := by
      have hqpos := (h.sound q hqmem).pos
      have hqstop := (h.bounds hqmem).2.1
      unfold Block.stop at hqstop
      omega
    obtain ⟨hqsize, -, hflag⟩ := h.tags hqmem hq
    rw [if_pos hbelow, ← hnext, hflag]
    by_cases hfree : q.kind = .free
    · rw [if_pos (by simp [hfree])]
      obtain ⟨hdetached, hspared⟩ := detach (append_cons pre b _ ▸ h) hfree
      have hread : tagSize (load (s.removeFree q.addr).mem q.addr) = q.size := by
        have hkept := hspared.kept q.toRaw (by simp)
        have hheader : load (s.removeFree q.addr).mem q.addr = load s.mem q.addr :=
          hkept.header.load (le_refl _) (le_refl _)
        rw [hheader]
        exact hqsize
      have hsum : add32 b.size q.size = b.size + q.size := by
        obtain ⟨-, hqwrap⟩ := h.no_wrap hqmem
        exact add32_eq (by omega)
      rw [hread, hsum]
      -- both pieces are raw now, and are joined
      rw [← append_cons] at hdetached hspared
      have hraw := hdetached.forget hused.2
      have hqraw : q.toRaw = ⟨b.addr + b.size, q.size, .raw⟩ := by
        rw [show b.addr + b.size = q.addr from hnext.symm]
        rfl
      rw [hqraw] at hraw
      refine ⟨rest, Nat.le_add_right _ _, hraw.merge,
        hspared.mono fun c hc => mem_around (mem_around hc), .inr ⟨q, hfree, rfl⟩, ?_⟩
      obtain ⟨-, hchain, -⟩ := isChain_middle.mp h.separate
      intro r hr hrfree
      exact (isChain_cons.mp hchain).1 r hr ⟨hfree, hrfree⟩
    · have hqused : q.kind = .used := Kind.eq_used hq hfree
      rw [if_neg (by simp [hqused])]
      refine ⟨q :: rest, le_refl _, h.forget hused.2, .refl s _, .inl rfl, ?_⟩
      intro r hr
      obtain rfl : q = r := by simpa using hr
      exact hfree

theorem joinPrev_eq (hstop : c.stop = a) (hsize : tagSize (load s.mem (c.stop - 4)) = c.size)
    (hmin : 32 ≤ c.size) (hbase : s.heapBase ≤ c.addr) (hwrap : c.addr + c.size < 2 ^ 31) :
    s.joinPrev a size =
      if load s.mem c.addr % 2 = 0 then (c.addr, add32 size c.size, s.removeFree c.addr)
        else (a, size, s) := by
  subst hstop
  have hfooter : sub32 c.stop 4 = c.stop - 4 :=
    sub32_eq (by unfold Block.stop; omega) (by unfold Block.stop; omega)
  have hstart : sub32 c.stop c.size = c.addr := by
    rw [sub32_eq (by unfold Block.stop; omega) (by unfold Block.stop; omega)]
    exact Nat.add_sub_cancel _ _
  unfold Allocator.joinPrev
  dsimp only
  rw [if_pos (show s.heapBase < c.stop by unfold Block.stop; omega), hfooter, hsize,
    signed_eq (by omega), if_pos (by omega), hstart, if_pos hbase]

/-- The second half of `release_block`, up to the new tags. -/
theorem Heap.joinPrev (h : Heap s (pre ++ ⟨a, size, .raw⟩ :: post))
    (hpre : ∀ p ∈ pre.getLast?, p.kind ≠ .raw) : ∃ pre', size ≤ (s.joinPrev a size).2.1 ∧
      Heap (s.joinPrev a size).2.2
        (pre' ++ ⟨(s.joinPrev a size).1, (s.joinPrev a size).2.1, .raw⟩ :: post) ∧
      Spared s (s.joinPrev a size).2.2 (pre' ++ post) ∧ TakenBack pre pre' ∧
      ∀ p ∈ pre'.getLast?, p.kind ≠ .free := by
  rcases eq_nil_or_concat pre with rfl | ⟨init, p, rfl⟩
  · have hfirst : s.heapBase = a := h.tiled.1.symm
    rw [Allocator.joinPrev, if_neg (by omega)]
    exact ⟨[], le_refl _, h, Spared.refl s _, .inl rfl, nofun⟩
  rw [concat_eq_append] at h hpre ⊢
  have hmem : p ∈ init ++ [p] ++ ⟨a, size, .raw⟩ :: post := by simp
  have hp : p.kind ≠ .raw := hpre p (by simp)
  have hstop : p.stop = a := h.tiled.split.1.split.2
  obtain ⟨-, hfooter, hflag⟩ := h.tags hmem hp
  obtain ⟨-, hwrap⟩ := h.no_wrap hmem
  rw [joinPrev_eq hstop hfooter ((h.sound p hmem).min hp) (h.bounds hmem).1 hwrap, hflag]
  by_cases hfree : p.kind = .free
  · rw [if_pos (by simp [hfree])]
    rw [← append_cons] at h
    obtain ⟨hdetached, hspared⟩ := h.detach hfree
    have hsum : add32 size p.size = p.size + size := by
      obtain ⟨-, hawrap⟩ := h.no_wrap (b := ⟨a, size, .raw⟩) (by simp)
      dsimp only at hawrap
      rw [Nat.add_comm p.size]
      exact add32_eq (by omega)
    have hraw : (⟨a, size, .raw⟩ : Block) = ⟨p.addr + p.size, size, .raw⟩ := by
      rw [show p.addr + p.size = a from hstop]
    rw [hsum]
    rw [hraw] at hdetached
    refine ⟨init, Nat.le_add_left _ _, hdetached.merge,
      hspared.mono fun c hc => mem_around (mem_around hc), .inr ⟨p, hfree, rfl⟩, ?_⟩
    obtain ⟨-, -, halone⟩ := isChain_middle.mp h.separate
    exact (halone hfree).1
  · have hused : p.kind = .used := Kind.eq_used hp hfree
    rw [if_neg (by simp [hused])]
    refine ⟨init ++ [p], le_refl _, h, .refl s _, .inl rfl, ?_⟩
    intro r hr
    obtain rfl : p = r := by simpa using hr
    exact hfree

theorem Heap.release (h : Heap s (pre ++ b :: post)) (hb : b.kind = .used)
    (hpre : ∀ p ∈ pre.getLast?, p.kind ≠ .raw) (hpost : ∀ q ∈ post.head?, q.kind ≠ .raw) :
    ∃ pre' c post', Heap (s.releaseBlock b.addr) (pre' ++ c :: post') ∧ c.kind = .free ∧
      Spared s (s.releaseBlock b.addr) (pre' ++ post') ∧ TakenBack pre pre' ∧
        TakenFront post post' := by
  obtain ⟨post', hsize, hnext, hspared, hfront, hfirst⟩ := h.joinNext hb hpost
  obtain ⟨pre', hsize', hprev, hspared', hback, hlast⟩ := hnext.joinPrev hpre
  have hmin : 32 ≤ b.size := (h.sound b (by simp)).min (by simp [hb])
  obtain ⟨hgiven, hspared''⟩ := hprev.give (by omega) ⟨hlast, hfirst⟩
  exact ⟨pre', _, post', hgiven, rfl,
    (hspared.mono (append_subset_append hback.subset (Subset.refl _))).trans
      (hspared'.trans hspared''), hback, hfront⟩

end Waste.Libc
