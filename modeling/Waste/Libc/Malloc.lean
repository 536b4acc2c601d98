import Waste.Libc.Release

/-!
# `malloc`

A call that fails changes the word of `errno` and the pages that `memory.grow` added before
it refused one (`Failed`).  A call that succeeds has one more block in use, and leaves the
bytes of the other blocks in use alone (`Placed`).
-/

namespace Waste.Libc

open Allocator (totalFor)
open ByteMemory DoublyLinked List Nat

variable {s s' s'' : Allocator} {pre post blocks blocks' : List Block} {b c : Block} {m m' : Bytes}
  {a x n total size requested p : Nat}

/-! ## Changes that are not the allocator's business -/

/-- The bytes and the pages of the memory may differ, and what the allocator asked for. -/
def SameGlobals (s s' : Allocator) : Prop :=
  ∃ m pages requests growCalls,
    s' = { s with mem := m, pages := pages, requests := requests, growCalls := growCalls }

theorem SameGlobals.refl (s : Allocator) : SameGlobals s s := ⟨_, _, _, _, rfl⟩

theorem SameGlobals.trans (h : SameGlobals s s') (h' : SameGlobals s' s'') : SameGlobals s s'' := by
  obtain ⟨_, _, _, _, rfl⟩ := h
  obtain ⟨_, _, _, _, rfl⟩ := h'
  exact ⟨_, _, _, _, rfl⟩

/-- The bytes of a block in use that belong to the guest. -/
def Block.Data (b : Block) (x : Nat) : Prop := b.addr + 16 ≤ x ∧ x < b.stop - 4

theorem Tiled.unique {lo hi : Nat} (h : Tiled lo blocks hi) (hb : b ∈ blocks) (hc : c ∈ blocks)
    (hx : b.addr ≤ x ∧ x < b.stop) (hx' : c.addr ≤ x ∧ x < c.stop) : c = b := by
  obtain ⟨pre, post, rfl⟩ := append_of_mem hb
  by_cases hmem : c ∈ pre ++ post
  · have hbeside := h.beside hmem
    omega
  · simp only [mem_append, mem_cons] at hc hmem
    tauto

/-- Bytes of the heap that are the data of no block in use. -/
def Fixed (s : Allocator) (blocks : List Block) (m' : Bytes) : Prop :=
  ∀ x, s.heapBase ≤ x → x < s.programBreak → (∀ c ∈ blocks, c.kind = .used → ¬c.Data x) →
    m' x = s.mem x

/-- A part of a block that is not the guest's is fixed. -/
theorem Heap.fixed_sameOn {lo hi : Nat} (h : Heap s blocks) (hfixed : Fixed s blocks m')
    (hb : b ∈ blocks) (hlo : b.addr ≤ lo) (hhi : hi ≤ b.stop)
    (hown : b.kind = .used → hi ≤ b.addr + 16 ∨ b.stop - 4 ≤ lo) : SameOn s.mem m' lo hi := by
  intro x hx hx'
  obtain ⟨hbase, hbreak, -⟩ := h.bounds hb
  refine hfixed x (by omega) (by omega) fun c hc hused hdata => ?_
  unfold Block.Data at hdata
  obtain rfl := h.tiled.unique (x := x) hb hc ⟨by omega, by omega⟩ ⟨by omega, by omega⟩
  have hpart := hown hused
  omega

/-- The guest, or anybody else, writes into data of blocks in use, or outside the heap. -/
theorem Heap.rewrite (h : Heap s blocks) (hsame : SameGlobals s s') (hpages : s.pages ≤ s'.pages)
    (hfixed : Fixed s blocks s'.mem) : Heap s' blocks := by
  have hmin : ∀ b ∈ blocks, b.kind ≠ .raw → b.addr + 32 ≤ b.stop := by
    intro b hb hkind
    have hsize := (h.sound b hb).min hkind
    unfold Block.stop
    omega
  obtain ⟨m, _, _, _, rfl⟩ := hsame
  refine ⟨h.initialized, h.base, h.tiled, h.sound, h.small,
    le_trans h.fits (mul_le_mul_right pageSize hpages), ?_, h.separate, ?_, h.errno⟩
  · intro b hb hkind
    have hsize := hmin b hb hkind
    have hheader : SameOn s.mem m b.addr (b.addr + 4) :=
      h.fixed_sameOn hfixed hb (by omega) (by omega) fun _ => by omega
    have hfooter : SameOn s.mem m (b.stop - 4) b.stop :=
      h.fixed_sameOn hfixed hb (by omega) (by omega) fun _ => by omega
    rw [hheader.load (by omega) (by omega), hfooter.load (by omega) (by omega)]
    exact h.tagged b hb hkind
  · obtain ⟨l, hl, hperm⟩ := h.listed
    refine ⟨l, hl.congr fun n hn => ?_, hperm⟩
    obtain ⟨b, hb, hfree, rfl⟩ := mem_frees.mp (hperm.mem_iff.mp hn)
    have hsize := hmin b hb (by simp [hfree])
    refine h.fixed_sameOn hfixed hb (le_add_right _ _) ?_ (by simp [hfree])
    show b.addr + 8 + 4 ≤ b.stop
    omega

/-! ## Failure -/

/-- The word of `errno` changed, and there may be more pages. -/
structure Failed (s s' : Allocator) : Prop where
  globals : SameGlobals s s'
  pages : s.pages ≤ s'.pages
  mem : ∀ x, x < s.errnoAddress ∨ s.errnoAddress + 4 ≤ x → s'.mem x = s.mem x

theorem Failed.refl (s : Allocator) : Failed s s := ⟨.refl s, le_refl _, fun _ _ => rfl⟩

theorem Failed.trans (h : Failed s s') (h' : Failed s' s'') : Failed s s'' := by
  refine ⟨h.globals.trans h'.globals, le_trans h.pages h'.pages, fun x hx => ?_⟩
  have hx' : x < s'.errnoAddress ∨ s'.errnoAddress + 4 ≤ x := by
    obtain ⟨_, _, _, _, rfl⟩ := h.globals
    exact hx
  rw [h'.mem x hx', h.mem x hx]

theorem Heap.failed (h : Heap s blocks) (hfailed : Failed s s') : Heap s' blocks := by
  have herrno := h.errno
  exact h.rewrite hfailed.globals hfailed.pages fun x hx _ _ => hfailed.mem x (by omega)

theorem setErrno_failed (s : Allocator) (value : Nat) : Failed s (s.setErrno value) := by
  unfold Allocator.setErrno
  split
  · exact .refl s
  · refine ⟨⟨_, _, _, _, rfl⟩, le_refl _, fun x hx => ?_⟩
    show store s.errnoAddress value s.mem x = s.mem x
    unfold store
    rw [if_neg (by omega)]

/-- Pages were added, and nothing else changed. -/
structure Grown (s s' : Allocator) (n : Nat) : Prop where
  globals : SameGlobals s s'
  pages : s'.pages = s.pages + n
  mem : s'.mem = s.mem

theorem Grown.trans {n' : Nat} (h : Grown s s' n') (h' : Grown s' s'' n) :
    Grown s s'' (n + n') := by
  refine ⟨h.globals.trans h'.globals, ?_, h'.mem.trans h.mem⟩
  rw [h'.pages, h.pages]
  omega

theorem Grown.failed (h : Grown s s' n) : Failed s s' := by
  refine ⟨h.globals, ?_, fun x _ => congrFun h.mem x⟩
  rw [h.pages]
  exact le_add_right _ _

theorem growPages_spec (n : Nat) (s : Allocator) :
    (∃ t, s.growPages n = (true, t) ∧ Grown s t n) ∨
      ∃ t, s.growPages n = (false, t) ∧ Failed s t := by
  induction n generalizing s with
  | zero => exact .inl ⟨s, rfl, .refl s, rfl, rfl⟩
  | succ n ih =>
    unfold Allocator.growPages
    split
    · set s1 : Allocator := { s with
        requests := s.requests + 1
        pages := s.pages + 1
        growCalls := add32 s.growCalls 1 }
      have hone : Grown s s1 1 := ⟨⟨_, _, _, _, rfl⟩, rfl, rfl⟩
      rcases ih s1 with ⟨t, hrun, hgrown⟩ | ⟨t, hrun, hfailed⟩
      · exact .inl ⟨t, hrun, hone.trans hgrown⟩
      · exact .inr ⟨t, hrun, hone.failed.trans hfailed⟩
    · have hasked : Grown s { s with requests := s.requests + 1 } 0 := ⟨⟨_, _, _, _, rfl⟩, rfl, rfl⟩
      exact .inr ⟨_, rfl, hasked.failed.trans (setErrno_failed _ enomem)⟩

theorem ensureCapacity_spec (last : Nat) (s : Allocator) :
    (∃ t n, s.ensureCapacity last = (true, t) ∧ Grown s t n ∧ last ≤ t.pages * pageSize) ∨
      ∃ t, s.ensureCapacity last = (false, t) ∧ Failed s t := by
  unfold Allocator.ensureCapacity
  rcases growPages_spec ((last + (pageSize - 1)) / pageSize - s.pages) s
    with ⟨t, hrun, hgrown⟩ | hfailed
  · refine .inl ⟨t, _, hrun, hgrown, ?_⟩
    rw [hgrown.pages]
    unfold pageSize
    omega
  · exact .inr hfailed

/-! ## At the end of the heap -/

theorem Heap.extend (h : Heap s blocks) (hsize : 16 ∣ size) (hpos : 0 < size)
    (hsmall : s.programBreak + size < 2 ^ 31) (hroom : s.programBreak + size ≤ s.pages * pageSize) :
    Heap { s with programBreak := s.programBreak + size }
      (blocks ++ [⟨s.programBreak, size, .raw⟩]) := by
  obtain ⟨l, hl, hperm⟩ := h.listed
  refine ⟨h.initialized, h.base, ?_, ?_, fun _ => hsmall, hroom, ?_, ?_, ⟨l, hl, ?_⟩, h.errno⟩
  · exact tiled_append.mpr ⟨s.programBreak, h.tiled, rfl, rfl⟩
  · intro c hc
    rcases mem_append.mp hc with hc | hc
    · exact h.sound c hc
    · obtain rfl := mem_singleton.mp hc
      exact ⟨hsize, hpos, fun hkind => absurd rfl hkind⟩
  · intro c hc
    rcases mem_append.mp hc with hc | hc
    · exact h.tagged c hc
    · obtain rfl := mem_singleton.mp hc
      exact fun hkind => absurd rfl hkind
  · exact isChain_middle.mpr ⟨h.separate, IsChain.nil, nofun⟩
  · rw [frees_append]
    exact hperm.trans (Perm.of_eq (append_nil _).symm)

theorem Heap.sbrk (h : Heap s blocks) (hsize : 16 ∣ size) (hpos : 0 < size)
    (hfits : s.programBreak + size ≤ 0x7fffffff) : (∃ t, s.sbrk size = (none, t) ∧ Failed s t) ∨
      ∃ t, s.sbrk size = (some s.programBreak, t) ∧ t.mem = s.mem ∧
        Heap t (blocks ++ [⟨s.programBreak, size, .raw⟩]) := by
  have hnext : (s.programBreak : Int) + signed size = (s.programBreak + size : Nat) := by
    rw [signed_eq (by omega)]
    rfl
  have hbase : s.heapBase ≤ s.programBreak := h.tiled.le
  unfold Allocator.sbrk
  rw [if_neg (by simp [h.initialized])]
  rw [hnext, if_neg (by omega), if_neg (by omega), Int.toNat_natCast]
  rcases ensureCapacity_spec (s.programBreak + size) s with ⟨t, n, hrun, hgrown, hroom⟩ |
    ⟨t, hrun, hfailed⟩
  · have hheap := h.failed hgrown.failed
    obtain ⟨⟨_, _, _, _, rfl⟩, -, hmem⟩ := hgrown
    rw [hrun]
    exact .inr ⟨_, rfl, hmem, hheap.extend hsize hpos (by dsimp only; omega) hroom⟩
  · rw [hrun]
    exact .inl ⟨t, rfl, hfailed⟩

theorem align16_eq (h : 16 ∣ x) (hwrap : x + 15 < 2 ^ 32) : align16 x = x := by
  unfold align16
  rw [add32_eq hwrap]
  omega

theorem Heap.extendHeap (h : Heap s blocks) (hsize : 16 ∣ total) (hmin : 32 ≤ total) :
    ((s.extendHeap total).1 = 0 ∧ Failed s (s.extendHeap total).2) ∨
      ((s.extendHeap total).1 = s.programBreak + 16 ∧
        Heap (s.extendHeap total).2 (blocks ++ [⟨s.programBreak, total, .used⟩]) ∧
        ∀ c ∈ blocks, Kept s.mem (s.extendHeap total).2.mem c) := by
  unfold Allocator.extendHeap
  split
  · exact .inl ⟨rfl, setErrno_failed s enomem⟩
  have haligned : align16 s.programBreak = s.programBreak :=
    align16_eq (h.tiled.aligned h.base.2 h.sound).1 (by omega)
  have hamount : add32 (sub32 s.programBreak s.programBreak) total = total := by
    rw [sub32_eq (le_refl _) (by omega), Nat.sub_self, add32_eq (by omega), Nat.zero_add]
  dsimp only
  rw [haligned, hamount]
  rcases h.sbrk hsize (by omega) (by omega) with ⟨t, hrun, hfailed⟩ | ⟨t, hrun, hmem, hextended⟩
  · rw [hrun]
    exact .inl ⟨rfl, hfailed⟩
  rw [hrun]
  obtain ⟨hmarked, hspared⟩ := hextended.mark hmin
  refine .inr ⟨add32_eq (by omega), hmarked, fun c hc => ?_⟩
  rw [← hmem]
  exact hspared.kept c (mem_append_left _ hc)

/-! ## In a free block -/

theorem takeFree_eq (hheader : tagSize (load s.mem a) = size) (hwrap : a + size < 2 ^ 31)
    (hsize : 16 ≤ size) (hfits : total ≤ size) :
    s.takeFree a total =
      if 32 ≤ size - total then
        (a + 16, (((s.removeFree a).writeBlock a total 1).writeBlock (a + total)
        (size - total) 0).insertFree
          (a + total))
      else (a + 16, (s.removeFree a).writeBlock a size 1) := by
  have hleft : sub32 size total = size - total := sub32_eq hfits (by omega)
  have hsigned : 32 ≤ signed (size - total) ↔ 32 ≤ size - total := by
    rw [signed_eq (by omega)]
    omega
  unfold Allocator.takeFree
  dsimp only
  rw [hheader, hleft, add32_eq (show a + 16 < 2 ^ 32 by omega),
    add32_eq (show a + total < 2 ^ 32 by omega)]
  simp only [hsigned]

theorem Heap.takeFree (h : Heap s (pre ++ b :: post)) (hb : b.kind = .free) (hsize : 16 ∣ total)
    (hmin : 32 ≤ total) (hfits : total ≤ b.size) :
    ∃ size rest, (s.takeFree b.addr total).1 = b.addr + 16 ∧ total ≤ size ∧
      Heap (s.takeFree b.addr total).2 (pre ++ ⟨b.addr, size, .used⟩ :: (rest ++ post)) ∧
      (∀ c ∈ rest, c.kind = .free) ∧ Spared s (s.takeFree b.addr total).2 (pre ++ post) := by
  obtain ⟨hheader, -, -⟩ := h.tags (b := b) (by simp) (by simp [hb])
  obtain ⟨-, hwrap⟩ := h.no_wrap (b := b) (by simp)
  obtain ⟨-, -, halone⟩ := isChain_middle.mp h.separate
  obtain ⟨hdetached, hspared⟩ := h.detach hb
  have hspared : Spared s (s.removeFree b.addr) (pre ++ post) := hspared.mono fun c => mem_around
  rw [takeFree_eq hheader hwrap (by omega) hfits]
  split
  · -- the rest is a free block of its own
    have hcut := cut
      (by rw [Nat.add_sub_cancel' hfits]; exact hdetached) hsize (by omega) (by omega)
    obtain ⟨hmarked, hspared'⟩ := hcut.mark hmin
    rw [append_cons] at hmarked
    have hbeside : Alone (pre ++ [⟨b.addr, total, .used⟩]) post := by
      refine ⟨fun c hc => ?_, (halone hb).2⟩
      obtain rfl : (⟨b.addr, total, .used⟩ : Block) = c := by simpa using hc
      exact nofun
    obtain ⟨hgiven, hspared''⟩ := hmarked.give (by omega) hbeside
    refine ⟨total, [⟨b.addr + total, b.size - total, .free⟩], rfl, le_refl _, ?_, ?_, ?_⟩
    · simpa using hgiven
    · intro c hc
      obtain rfl := mem_singleton.mp hc
      rfl
    · refine hspared.trans ((hspared'.mono fun c => mem_around).trans
        (hspared''.mono fun c hc => ?_))
      rw [← append_cons]
      exact mem_around hc
  · obtain ⟨hmarked, hspared'⟩ := mark hdetached (show 32 ≤ b.size by omega)
    exact ⟨b.size, [], rfl, hfits, hmarked, nofun, hspared.trans hspared'⟩

/-- The search ends, and finds a free block that is large enough if it finds one. -/
theorem findFit_spec {prev : Nat} {l : List Nat} (hseg : Seg links m prev l 0)
    (hfree : ∀ n ∈ l, ∃ b ∈ blocks, b.kind = .free ∧ b.addr = n ∧ 0 < n ∧ n < 2 ^ 31 ∧
      b.size < 2 ^ 31 ∧ tagSize (load m n) = b.size) (htotal : total < 2 ^ 31) {fuel : Nat}
    (hfuel : l.length < fuel) : ∃ block, Allocator.findFit m total fuel (headOr l 0) = some block ∧
      (block = 0 ∨ ∃ b ∈ blocks, b.kind = .free ∧ b.addr = block ∧ block ≠ 0 ∧ total ≤ b.size) := by
  induction l generalizing prev fuel with
  | nil =>
    obtain ⟨fuel, rfl⟩ : ∃ k, fuel = k + 1 := ⟨fuel - 1, by simp at hfuel; omega⟩
    exact ⟨0, rfl, .inl rfl⟩
  | cons n l ih =>
    obtain ⟨fuel, rfl⟩ : ∃ k, fuel = k + 1 := ⟨fuel - 1, by omega⟩
    obtain ⟨-, hforth, hrest⟩ := hseg
    obtain ⟨b, hb, hkind, haddr, hpos, hn, hbsize, htag⟩ := hfree n mem_cons_self
    rw [headOr_cons]
    unfold Allocator.findFit
    rw [if_neg (by omega), htag, signed_eq htotal, signed_eq hbsize]
    split
    · exact ⟨n, rfl, .inr ⟨b, hb, hkind, haddr, by omega, by omega⟩⟩
    · rw [add32_eq (by omega)]
      rw [show load m (n + 8) = headOr l 0 from hforth]
      exact ih hrest (fun k hk => hfree k (mem_cons_of_mem n hk)) (by simpa using hfuel)

/-- Every piece of the heap has its tags. -/
def Clean (blocks : List Block) : Prop := ∀ b ∈ blocks, b.kind ≠ .raw

theorem clean_append : Clean (pre ++ post) ↔ Clean pre ∧ Clean post := forall_mem_append

theorem clean_cons : Clean (b :: post) ↔ b.kind ≠ .raw ∧ Clean post := forall_mem_cons

theorem Heap.findFit (h : Heap s blocks) (hclean : Clean blocks) (htotal : total < 2 ^ 31) :
    ∃ block, Allocator.findFit s.mem total (s.programBreak + 1) s.freeHead = some block ∧
      (block = 0 ∨ ∃ b ∈ blocks, b.kind = .free ∧ b.addr = block ∧ block ≠ 0 ∧ total ≤ b.size) := by
  obtain ⟨l, hl, hperm⟩ := h.listed
  have hlength : l.length < s.programBreak + 1 := by
    have hle := h.tiled.length_le fun b hb => (h.sound b hb).pos
    have hfrees : (frees blocks).length ≤ blocks.length := by
      unfold frees
      rw [length_map]
      exact length_filter_le _ _
    rw [hperm.length_eq]
    omega
  rw [hl.head]
  refine findFit_spec hl.seg (fun n hn => ?_) htotal hlength
  obtain ⟨b, hb, hfree, rfl⟩ := mem_frees.mp (hperm.mem_iff.mp hn)
  obtain ⟨hpos, hwrap⟩ := h.no_wrap hb
  exact ⟨b, hb, hfree, rfl, hpos, by omega, by omega, (h.tags hb (hclean b hb)).1⟩

/-! ## The blocks in use -/

def useds (blocks : List Block) : List Block := blocks.filter (·.kind = .used)

theorem mem_useds : b ∈ useds blocks ↔ b ∈ blocks ∧ b.kind = .used := by
  simp [useds]

theorem useds_append (xs ys : List Block) : useds (xs ++ ys) = useds xs ++ useds ys := by
  simp [useds]

theorem useds_cons_used (hb : b.kind = .used) (l : List Block) : useds (b :: l) = b :: useds l := by
  simp [useds, hb]

theorem useds_cons_other (hb : b.kind ≠ .used) (l : List Block) : useds (b :: l) = useds l := by
  simp [useds, hb]

theorem useds_of_frees {rest : List Block} (h : ∀ c ∈ rest, c.kind = .free) : useds rest = [] := by
  unfold useds
  rw [filter_eq_nil_iff]
  intro c hc
  simp [h c hc]

/-- The heap between two calls: every piece is a block. -/
structure Whole (s : Allocator) (blocks : List Block) : Prop where
  heap : Heap s blocks
  clean : Clean blocks

theorem Whole.around (h : Whole s (pre ++ b :: post)) : Clean pre ∧ Clean post := by
  obtain ⟨hpre, hrest⟩ := clean_append.mp h.clean
  exact ⟨hpre, (clean_cons.mp hrest).2⟩

/-- The call returned `p`: the block `b` is in use now, with a size of at least `total`. -/
structure Placed (s : Allocator) (blocks : List Block) (total p : Nat) (s' : Allocator)
    (blocks' : List Block) (b : Block) : Prop where
  whole : Whole s' blocks'
  pointer : p = b.addr + 16
  room : total ≤ b.size
  perm : (useds blocks').Perm (b :: useds blocks)
  untouched : ∀ c ∈ useds blocks, SameOn s.mem s'.mem c.addr c.stop

/-- A call that returns a pointer to a new block and more, or fails with 0. -/
def Allocates (s : Allocator) (blocks : List Block) (requested : Nat) (Q : Nat → Allocator → Prop)
    (answer : Option (Nat × Allocator)) : Prop :=
  ∃ p s', answer = some (p, s') ∧ ((p = 0 ∧ Failed s s') ∨
    ∃ blocks' b, Placed s blocks (totalFor requested) p s' blocks' b ∧ Q p s')

theorem Placed.mem (h : Placed s blocks total p s' blocks' b) : b ∈ blocks' ∧ b.kind = .used :=
  mem_useds.mp (h.perm.mem_iff.mpr mem_cons_self)

theorem kept_useds (h : ∀ c ∈ blocks, c.kind = .used → Kept m m' c) :
    ∀ c ∈ useds blocks, SameOn m m' c.addr c.stop := by
  intro c hc
  obtain ⟨hmem, hused⟩ := mem_useds.mp hc
  exact (h c hmem hused).all (by simp [hused])

theorem totalFor_spec (requested : Nat) : 16 ∣ totalFor requested ∧ 32 ≤ totalFor requested ∧
      requested + 20 ≤ totalFor requested := by
  unfold totalFor
  split <;> omega

theorem Whole.extendHeap (h : Whole s blocks) (hsize : 16 ∣ total) (hmin : 32 ≤ total) :
    ((s.extendHeap total).1 = 0 ∧ Failed s (s.extendHeap total).2) ∨
      ∃ blocks' b, Placed s blocks total (s.extendHeap total).1
        (s.extendHeap total).2 blocks' b := by
  rcases h.heap.extendHeap hsize hmin with hfailed | ⟨hp, hheap, hkept⟩
  · exact .inl hfailed
  refine .inr ⟨_, ⟨s.programBreak, total, .used⟩, ⟨hheap, ?_⟩, hp, le_refl _, ?_,
    kept_useds fun c hc _ => hkept c hc⟩
  · exact clean_append.mpr ⟨h.clean, clean_cons.mpr ⟨nofun, nofun⟩⟩
  · rw [useds_append, useds_cons_used rfl]
    exact perm_append_comm

theorem Whole.takeFree (h : Whole s blocks) (hb : b ∈ blocks) (hfree : b.kind = .free)
    (hsize : 16 ∣ total) (hmin : 32 ≤ total) (hfits : total ≤ b.size) :
    ∃ blocks' c, Placed s blocks total (s.takeFree b.addr total).1
      (s.takeFree b.addr total).2 blocks' c := by
  obtain ⟨pre, post, rfl⟩ := append_of_mem hb
  obtain ⟨size, rest, hp, hroom, hheap, hrest, hspared⟩ := h.heap.takeFree hfree hsize hmin hfits
  obtain ⟨hpre, hpost⟩ := h.around
  refine ⟨_, ⟨b.addr, size, .used⟩, ⟨hheap, ?_⟩, hp, hroom, ?_, ?_⟩
  · refine clean_append.mpr ⟨hpre, clean_cons.mpr ⟨nofun, clean_append.mpr ⟨fun c hc => ?_, hpost⟩⟩⟩
    simp [hrest c hc]
  · rw [useds_append, useds_append, useds_cons_used rfl, useds_append, useds_of_frees hrest,
      useds_cons_other (by simp [hfree])]
    exact perm_middle
  · refine kept_useds fun c hc hused => hspared.kept c ?_
    simp only [mem_append, mem_cons] at hc ⊢
    rcases hc with hc | rfl | hc
    · exact .inl hc
    · exact absurd (hfree.symm.trans hused) (by decide)
    · exact .inr hc

theorem some_pair {r : Nat × Allocator} : some r = some (r.1, r.2) := rfl

theorem Whole.malloc (h : Whole s blocks) (requested : Nat) :
    ∃ p s', s.malloc requested = some (p, s') ∧ ((p = 0 ∧ Failed s s') ∨
        ∃ blocks' b, Placed s blocks (totalFor requested) p s' blocks' b) := by
  obtain ⟨hsize, hmin, -⟩ := totalFor_spec requested
  unfold Allocator.malloc
  rw [if_neg (by simp [h.heap.initialized])]
  dsimp only
  split
  · exact ⟨0, _, rfl, .inl ⟨rfl, setErrno_failed s enomem⟩⟩
  obtain ⟨block, hfound, hblock⟩ :=
    h.heap.findFit h.clean (show totalFor requested < 2 ^ 31 by omega)
  rw [hfound]
  dsimp only
  rcases hblock with rfl | ⟨b, hb, hfree, rfl, hpos, hfits⟩
  · rw [if_pos rfl]
    exact ⟨_, _, some_pair, h.extendHeap hsize hmin⟩
  · rw [if_neg hpos]
    exact ⟨_, _, some_pair, .inr (h.takeFree hb hfree hsize hmin hfits)⟩

end Waste.Libc
