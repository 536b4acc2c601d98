import Waste.Libc.Allocator

/-!
# The blocks of the heap

`Heap s blocks` says that the blocks tile the heap of `s` from its base to the program
break, that header and footer of each block agree with its size and state, that no two
neighbours are free, and that the free list has exactly the free blocks.  A block that is
`raw` is a piece of the heap whose tags are not known: the functions of the allocator take
blocks out of the list, join and cut the pieces, and write new tags.  Each step is a lemma
here, and each says which bytes stay (`Kept`).
-/

namespace Waste.Libc

open ByteMemory DoublyLinked List Nat

variable {l : List Nat} {mid' : List Block} {s'' : Allocator}

inductive Kind
  | free | used | raw
deriving DecidableEq, Repr

theorem Kind.eq_used {k : Kind} (hraw : k ≠ .raw) (hfree : k ≠ .free) : k = .used := by
  cases k with
  | free => exact absurd rfl hfree
  | used => rfl
  | raw => exact absurd rfl hraw

structure Block where
  addr : Nat
  size : Nat
  kind : Kind

namespace Block

def stop (b : Block) : Nat := b.addr + b.size

def tag (b : Block) : Nat := if b.kind = .used then b.size + 1 else b.size

def toRaw (b : Block) : Block := { b with kind := .raw }

structure Sound (b : Block) : Prop where
  size : 16 ∣ b.size
  pos : 0 < b.size
  min : b.kind ≠ .raw → 32 ≤ b.size

/-- Header and footer are there, and agree. -/
def Tagged (m : Bytes) (b : Block) : Prop :=
  b.kind ≠ .raw → load m b.addr = b.tag ∧ load m (b.stop - 4) = b.tag

end Block

/-- The blocks follow each other from `lo` to `hi`. -/
def Tiled : Nat → List Block → Nat → Prop
  | lo, [], hi => lo = hi
  | lo, b :: rest, hi => b.addr = lo ∧ Tiled b.stop rest hi

def frees (blocks : List Block) : List Nat := (blocks.filter (·.kind = .free)).map Block.addr

/-- The words of a block header that link the free blocks. -/
def links : Layout where
  back := 4
  forth := 8
  width := 12
  fields := by decide
  fits := by decide

def Separate (a b : Block) : Prop := ¬(a.kind = .free ∧ b.kind = .free)

structure Heap (s : Allocator) (blocks : List Block) : Prop where
  initialized : s.initialized = true
  base : 0 < s.heapBase ∧ 16 ∣ s.heapBase
  tiled : Tiled s.heapBase blocks s.programBreak
  sound : ∀ b ∈ blocks, b.Sound
  small : blocks ≠ [] → s.programBreak < 2 ^ 31
  fits : s.programBreak ≤ s.pages * pageSize
  tagged : ∀ b ∈ blocks, b.Tagged s.mem
  separate : blocks.IsChain Separate
  listed : ∃ l, Listed links s.mem s.freeHead l ∧ l.Perm (frees blocks)
  errno : s.errnoAddress + 4 ≤ s.heapBase

variable {s s' : Allocator} {pre mid post blocks : List Block} {b c : Block} {m m' m'' : Bytes}
  {lo hi a x y size : Nat}

/-! ## Tilings -/

theorem tiled_append {xs ys : List Block} :
    Tiled lo (xs ++ ys) hi ↔ ∃ mid, Tiled lo xs mid ∧ Tiled mid ys hi := by
  induction xs generalizing lo with
  | nil => simp [Tiled]
  | cons x xs ih => simp [Tiled, ih, and_assoc]

theorem Tiled.le (h : Tiled lo blocks hi) : lo ≤ hi := by
  induction blocks generalizing lo with
  | nil => exact le_of_eq h
  | cons b _ ih =>
    obtain ⟨rfl, hrest⟩ := h
    exact le_trans (le_add_right _ _) (ih hrest)

theorem Tiled.bounds (h : Tiled lo blocks hi) (hb : b ∈ blocks) : lo ≤ b.addr ∧ b.stop ≤ hi := by
  obtain ⟨xs, ys, rfl⟩ := append_of_mem hb
  obtain ⟨-, hxs, rfl, hys⟩ := tiled_append.mp h
  exact ⟨hxs.le, hys.le⟩

theorem Tiled.pairwise (h : Tiled lo blocks hi) : blocks.Pairwise fun a b => a.stop ≤ b.addr := by
  induction blocks generalizing lo with
  | nil => exact Pairwise.nil
  | cons b _ ih =>
    obtain ⟨rfl, hrest⟩ := h
    exact Pairwise.cons (fun c hc => (hrest.bounds hc).1) (ih hrest)

/-- Two places of a tiling: the first block ends where the second begins, or before. -/
theorem Tiled.split (h : Tiled lo (pre ++ b :: post) hi) :
    Tiled lo pre b.addr ∧ Tiled b.stop post hi := by
  obtain ⟨-, hpre, rfl, hpost⟩ := tiled_append.mp h
  exact ⟨hpre, hpost⟩

theorem append_subset_append {pre' post' : List Block} (hpre : pre' ⊆ pre) (hpost : post' ⊆ post) :
    pre' ++ post' ⊆ pre ++ post :=
  append_subset_of_subset_of_subset (subset_append_of_subset_left _ hpre)
    (subset_append_of_subset_right _ hpost)

theorem mem_around (hc : c ∈ pre ++ post) : c ∈ pre ++ b :: post := by
  simp only [mem_append, mem_cons] at hc ⊢
  tauto

theorem Tiled.beside (h : Tiled lo (pre ++ b :: post) hi) (hc : c ∈ pre ++ post) :
    c.stop ≤ b.addr ∨ b.stop ≤ c.addr := by
  obtain ⟨hpre, hpost⟩ := h.split
  rcases mem_append.mp hc with hc | hc
  · exact .inl (hpre.bounds hc).2
  · exact .inr (hpost.bounds hc).1

theorem Tiled.length_le (h : Tiled lo blocks hi) (hpos : ∀ b ∈ blocks, 0 < b.size) :
    lo + blocks.length ≤ hi := by
  induction blocks generalizing lo with
  | nil => exact le_of_eq h
  | cons b _ ih =>
    obtain ⟨rfl, hrest⟩ := h
    have hb := hpos b mem_cons_self
    have hle := ih hrest fun c hc => hpos c (mem_cons_of_mem b hc)
    unfold Block.stop at hle
    simp only [length_cons]
    omega

theorem Tiled.aligned (h : Tiled lo blocks hi) (hlo : 16 ∣ lo) (hsound : ∀ b ∈ blocks, b.Sound) :
    16 ∣ hi ∧ ∀ b ∈ blocks, 16 ∣ b.addr := by
  induction blocks generalizing lo with
  | nil =>
    obtain rfl := h
    exact ⟨hlo, nofun⟩
  | cons b _ ih =>
    obtain ⟨rfl, hrest⟩ := h
    have hstop : 16 ∣ b.stop := Nat.dvd_add hlo (hsound b mem_cons_self).size
    obtain ⟨hhi, hblocks⟩ := ih hrest hstop fun c hc => hsound c (mem_cons_of_mem b hc)
    refine ⟨hhi, fun c hc => ?_⟩
    rcases mem_cons.mp hc with rfl | hc
    · exact hlo
    · exact hblocks c hc

/-! ## Bytes that stay -/

/-- Of a free block the link words may change, of any other nothing. -/
structure Kept (m m' : Bytes) (b : Block) : Prop where
  header : SameOn m m' b.addr (b.addr + 4)
  rest : SameOn m m' (b.addr + 12) b.stop
  all : b.kind ≠ .free → SameOn m m' b.addr b.stop

theorem Kept.refl (m : Bytes) (b : Block) : Kept m m b :=
  ⟨.refl m _ _, .refl m _ _, fun _ => .refl m _ _⟩

theorem Kept.trans (h : Kept m m' b) (h' : Kept m' m'' b) : Kept m m'' b :=
  ⟨h.header.trans h'.header, h.rest.trans h'.rest, fun hb => (h.all hb).trans (h'.all hb)⟩

theorem Kept.of_sameOn (hb : b.Sound) (h : SameOn m m' b.addr b.stop) : Kept m m' b := by
  have hmin : 16 ≤ b.size := le_of_dvd hb.pos hb.size
  refine ⟨h.mono (le_refl _) ?_, h.mono (le_add_right _ _) (le_refl _), fun _ => h⟩
  unfold Block.stop
  omega

theorem Block.Tagged.kept (h : b.Tagged m) (hb : b.Sound) (hkept : Kept m m' b) : b.Tagged m' := by
  intro hkind
  obtain ⟨hheader, hfooter⟩ := h hkind
  have hmin := hb.min hkind
  refine ⟨?_, ?_⟩
  · rw [hkept.header.load (le_refl _) (le_refl _)]
    exact hheader
  · have hrest : b.addr + 12 ≤ b.stop - 4 ∧ b.stop - 4 + 4 ≤ b.stop := by
      unfold stop
      omega
    rw [hkept.rest.load hrest.1 hrest.2]
    exact hfooter

/-! ## The free blocks -/

theorem frees_append (xs ys : List Block) : frees (xs ++ ys) = frees xs ++ frees ys := by
  simp [frees]

theorem frees_cons (b : Block) (l : List Block) :
    frees (b :: l) = if b.kind = .free then b.addr :: frees l else frees l := by
  unfold frees
  split <;> simp_all

theorem mem_frees : a ∈ frees blocks ↔ ∃ b ∈ blocks, b.kind = .free ∧ b.addr = a := by
  simp [frees, and_assoc]

/-- A place of a block avoids the link words of the free blocks, if it avoids its own. -/
theorem avoids_of_block (htiled : Tiled lo blocks hi) (hsound : ∀ b ∈ blocks, b.Sound)
    (hb : b ∈ blocks) (hx : b.addr ≤ x) (hy : y ≤ b.stop) (hown : b.kind = .free → y ≤ b.addr + 4 ∨
      b.addr + 12 ≤ x) :
    Avoids links (frees blocks) x y := by
  intro n hn
  obtain ⟨c, hc, hfree, rfl⟩ := mem_frees.mp hn
  have hmin := (hsound c hc).min (by rw [hfree]; decide)
  show c.addr + 8 + 4 ≤ x ∨ y ≤ c.addr + 4
  obtain ⟨xs, ys, hsplit⟩ := append_of_mem hb
  subst hsplit
  rcases mem_append.mp hc with hc' | hc'
  · have hbeside := htiled.beside (mem_append_left ys hc')
    unfold Block.stop at *
    omega
  rcases mem_cons.mp hc' with rfl | hc'
  · have hself := hown hfree
    omega
  · have hbeside := htiled.beside (mem_append_right xs hc')
    unfold Block.stop at *
    omega

/-- What avoids the link words of the free blocks keeps the blocks. -/
theorem kept_of_avoids (htiled : Tiled lo blocks hi) (hsound : ∀ b ∈ blocks, b.Sound)
    (hb : b ∈ blocks) (h : ∀ x y, Avoids links (frees blocks) x y → SameOn m m' x y) :
    Kept m m' b := by
  have hpos := (hsound b hb).pos
  have hsize := (hsound b hb).size
  have hstop : b.addr + 12 ≤ b.stop ∧ b.addr + 4 ≤ b.stop := by
    unfold Block.stop
    omega
  refine ⟨h _ _ ?_, h _ _ ?_, fun hkind => h _ _ ?_⟩
  · exact avoids_of_block htiled hsound hb (le_refl _) hstop.2 fun _ => .inl (le_refl _)
  · exact avoids_of_block htiled hsound hb (le_add_right _ _) (le_refl _) fun _ => .inr (le_refl _)
  · exact avoids_of_block htiled hsound hb (le_refl _) (le_refl _) fun hfree => absurd hfree hkind

theorem avoids_perm {l' : List Nat} (h : Avoids links l x y) (hperm : l'.Perm l) :
    Avoids links l' x y :=
  fun b hb => h b (hperm.mem_iff.mp hb)

/-! ## Arithmetic that does not wrap -/

theorem add32_eq (h : x + y < 2 ^ 32) : add32 x y = x + y := mod_eq_of_lt h

theorem sub32_eq (h : y ≤ x) (hx : x < 2 ^ 32) : sub32 x y = x - y := by
  unfold sub32 i32
  have hsum : x + 2 ^ 32 - y = (x - y) + 2 ^ 32 := by omega
  rw [hsum, add_mod_right]
  exact mod_eq_of_lt (by omega)

/-- From the data of a block to its header. -/
theorem sub32_header (h : x + 16 < 2 ^ 32) : sub32 (x + 16) 16 = x :=
  (sub32_eq (le_add_left _ _) h).trans (Nat.add_sub_cancel _ _)

theorem signed_eq (h : x < 2 ^ 31) : signed x = x := if_pos h

theorem even_or_one (h : 16 ∣ size) : size ||| 1 = size + 1 := by
  obtain ⟨k, rfl⟩ := h
  have hor := two_pow_add_eq_or_of_lt (i := 1) (b := 1) (by decide) (8 * k)
  rw [show 16 * k = 2 ^ 1 * (8 * k) by omega, ← hor]

theorem Block.Sound.tagSize_tag (h : b.Sound) :
    tagSize b.tag = b.size ∧ b.tag % 2 = if b.kind = .used then 1 else 0 := by
  obtain ⟨k, hk⟩ := h.size
  unfold tagSize tag
  split <;> omega

/-! ## Changing one block -/

def Alone (pre post : List Block) : Prop :=
  (∀ c ∈ pre.getLast?, c.kind ≠ .free) ∧ ∀ c ∈ post.head?, c.kind ≠ .free

theorem isChain_middle : (pre ++ b :: post).IsChain Separate ↔
    pre.IsChain Separate ∧ post.IsChain Separate ∧ (b.kind = .free → Alone pre post) := by
  rw [isChain_append, isChain_cons]
  constructor
  · rintro ⟨hpre, ⟨hnext, hpost⟩, hprev⟩
    refine ⟨hpre, hpost, fun hfree => ⟨fun c hc hcfree => ?_, fun c hc hcfree => ?_⟩⟩
    · exact hprev c hc b (by simp) ⟨hcfree, hfree⟩
    · exact hnext c hc ⟨hfree, hcfree⟩
  · rintro ⟨hpre, hpost, halone⟩
    refine ⟨hpre, ⟨fun c hc hboth => ?_, hpost⟩, fun c hc d hd hboth => ?_⟩
    · exact (halone hboth.1).2 c hc hboth.2
    · obtain rfl : b = d := by simpa using hd
      exact (halone hboth.2).1 c hc hboth.1

/-- The bytes of the heap and the head of the free list may differ, and nothing else. -/
def SameHeap (s s' : Allocator) : Prop := ∃ m head, s' = { s with mem := m, freeHead := head }

theorem SameHeap.refl (s : Allocator) : SameHeap s s := ⟨_, _, rfl⟩

theorem SameHeap.trans (h : SameHeap s s') (h' : SameHeap s' s'') : SameHeap s s'' := by
  obtain ⟨_, _, rfl⟩ := h
  obtain ⟨_, _, rfl⟩ := h'
  exact ⟨_, _, rfl⟩

theorem sameHeap_of_mem (s : Allocator) (m : Bytes) (head : Nat) :
    SameHeap s { s with mem := m, freeHead := head } := ⟨_, _, rfl⟩

theorem writeBlock_sameHeap (s : Allocator) (a size allocated : Nat) :
    SameHeap s (s.writeBlock a size allocated) := ⟨_, _, rfl⟩

theorem removeFree_sameHeap (s : Allocator) (a : Nat) : SameHeap s (s.removeFree a) := by
  unfold Allocator.removeFree
  dsimp only
  split_ifs <;> exact ⟨_, _, rfl⟩

theorem writeBlock_freeHead (s : Allocator) (a size allocated : Nat) :
    (s.writeBlock a size allocated).freeHead = s.freeHead := by
  unfold Allocator.writeBlock
  rfl

/-- A step inside the heap that keeps these blocks. -/
structure Spared (s s' : Allocator) (blocks : List Block) : Prop where
  same : SameHeap s s'
  kept : ∀ c ∈ blocks, Kept s.mem s'.mem c

theorem Spared.refl (s : Allocator) (blocks : List Block) : Spared s s blocks :=
  ⟨.refl s, fun c _ => .refl s.mem c⟩

theorem Spared.trans (h : Spared s s' blocks) (h' : Spared s' s'' blocks) : Spared s s'' blocks :=
  ⟨h.same.trans h'.same, fun c hc => (h.kept c hc).trans (h'.kept c hc)⟩

theorem Spared.mono {blocks' : List Block} (h : Spared s s' blocks) (hsub : blocks' ⊆ blocks) :
    Spared s s' blocks' :=
  ⟨h.same, fun c hc => h.kept c (hsub hc)⟩

theorem Heap.bounds (h : Heap s blocks) (hb : b ∈ blocks) :
    s.heapBase ≤ b.addr ∧ b.stop ≤ s.programBreak ∧ s.programBreak < 2 ^ 31 := by
  obtain ⟨hlo, hhi⟩ := h.tiled.bounds hb
  exact ⟨hlo, hhi, h.small (ne_nil_of_mem hb)⟩

theorem Heap.no_wrap (h : Heap s blocks) (hb : b ∈ blocks) :
    0 < b.addr ∧ b.addr + b.size < 2 ^ 31 := by
  obtain ⟨hlo, hhi, hbreak⟩ := h.bounds hb
  exact ⟨lt_of_lt_of_le h.base.1 hlo, lt_of_le_of_lt hhi hbreak⟩

theorem Heap.aligned (h : Heap s blocks) (hb : b ∈ blocks) : 16 ∣ b.addr :=
  (h.tiled.aligned h.base.2 h.sound).2 b hb

/-- The middle of the heap is tiled anew, the other blocks are kept. -/
theorem Heap.retile (h : Heap s (pre ++ mid ++ post)) (hsame : SameHeap s s')
    (htiled : ∀ lo hi, Tiled lo mid hi → Tiled lo mid' hi) (hmid : mid ≠ [])
    (hsound : ∀ b ∈ mid', b.Sound) (hkept : ∀ c ∈ pre ++ post, Kept s.mem s'.mem c)
    (htagged : ∀ b ∈ mid', b.Tagged s'.mem) (hseparate : (pre ++ mid' ++ post).IsChain Separate)
    (hlisted : ∃ l, Listed links s'.mem s'.freeHead l ∧ l.Perm (frees (pre ++ mid' ++ post))) :
    Heap s' (pre ++ mid' ++ post) := by
  obtain ⟨hi, hleft, hpost⟩ := tiled_append.mp h.tiled
  obtain ⟨lo, hpre, hmiddle⟩ := tiled_append.mp hleft
  obtain ⟨_, _, rfl⟩ := hsame
  refine ⟨h.initialized, h.base, ?_, ?_, fun _ => h.small (by simp [hmid]), h.fits, ?_, hseparate,
    hlisted, h.errno⟩
  · exact tiled_append.mpr ⟨hi, tiled_append.mpr ⟨lo, hpre, htiled lo hi hmiddle⟩, hpost⟩
  · intro b hb
    rcases mem_append.mp hb with hb | hb
    · rcases mem_append.mp hb with hb | hb
      · exact h.sound b (mem_append_left _ (mem_append_left _ hb))
      · exact hsound b hb
    · exact h.sound b (mem_append_right _ hb)
  · intro b hb
    rcases mem_append.mp hb with hb | hb
    · rcases mem_append.mp hb with hb | hb
      · have hmem : b ∈ pre ++ mid ++ post := mem_append_left _ (mem_append_left _ hb)
        exact (h.tagged b hmem).kept (h.sound b hmem) (hkept b (mem_append_left _ hb))
      · exact htagged b hb
    · have hmem : b ∈ pre ++ mid ++ post := mem_append_right _ hb
      exact (h.tagged b hmem).kept (h.sound b hmem) (hkept b (mem_append_right _ hb))

theorem Heap.replace {b' : Block} (h : Heap s (pre ++ b :: post)) (hsame : SameHeap s s')
    (haddr : b'.addr = b.addr) (hsize : b'.size = b.size) (hsound : b'.Sound)
    (hkept : ∀ c ∈ pre ++ post, Kept s.mem s'.mem c) (htagged : b'.Tagged s'.mem)
    (halone : b'.kind = .free → Alone pre post)
    (hlisted : ∃ l, Listed links s'.mem s'.freeHead l ∧ l.Perm (frees (pre ++ b' :: post))) :
    Heap s' (pre ++ b' :: post) := by
  obtain ⟨hpre, hpost, -⟩ := isChain_middle.mp h.separate
  rw [append_cons] at h hlisted ⊢
  refine h.retile hsame ?_ (cons_ne_nil b []) ?_ hkept ?_ ?_ hlisted
  · rintro - hi ⟨rfl, hstop⟩
    refine ⟨haddr, ?_⟩
    show b'.stop = hi
    rw [← show b.stop = hi from hstop]
    unfold Block.stop
    rw [haddr, hsize]
  · intro c hc
    obtain rfl := mem_singleton.mp hc
    exact hsound
  · intro c hc
    obtain rfl := mem_singleton.mp hc
    exact htagged
  · rw [← append_cons]
    exact isChain_middle.mpr ⟨hpre, hpost, halone⟩

theorem toRaw_tagged : b.toRaw.Tagged m := fun h => absurd rfl h

theorem Block.Sound.toRaw (h : b.Sound) : b.toRaw.Sound :=
  ⟨h.size, h.pos, fun hraw => absurd rfl hraw⟩

theorem frees_middle (pre post : List Block) (b : Block) :
    frees (pre ++ b :: post) = if b.kind = .free then frees pre ++ b.addr :: frees post
      else frees pre ++ frees post := by
  rw [frees_append, frees_cons]
  split <;> rfl

theorem Heap.forget (h : Heap s (pre ++ b :: post)) (hb : b.kind ≠ .free) :
    Heap s (pre ++ b.toRaw :: post) := by
  refine h.replace (.refl s) rfl rfl (h.sound b (by simp)).toRaw (fun c _ => .refl s.mem c)
    toRaw_tagged nofun ?_
  obtain ⟨l, hl, hperm⟩ := h.listed
  refine ⟨l, hl, ?_⟩
  rw [frees_middle, if_neg hb] at hperm
  rw [frees_middle, if_neg (show b.toRaw.kind ≠ .free from nofun)]
  exact hperm

/-- What avoids the link words keeps the blocks, also when one has another state. -/
theorem Heap.kept_replaced (h : Heap s (pre ++ b :: post)) (k : Kind)
    (hsound : ({ b with kind := k } : Block).Sound)
    (havoids : ∀ x y, Avoids links (frees (pre ++ { b with kind := k } :: post)) x y →
      SameOn m m' x y) :
    ∀ c ∈ pre ++ { b with kind := k } :: post, Kept m m' c := by
  obtain ⟨hpre, hpost⟩ := h.tiled.split
  have htiled : Tiled s.heapBase (pre ++ { b with kind := k } :: post) s.programBreak :=
    tiled_append.mpr ⟨_, hpre, rfl, hpost⟩
  refine fun c hc => kept_of_avoids htiled (fun d hd => ?_) hc havoids
  simp only [mem_append, mem_cons] at hd
  rcases hd with hd | rfl | hd
  · exact h.sound d (by simp [hd])
  · exact hsound
  · exact h.sound d (by simp [hd])

/-! ## Taking a block out of the free list -/

theorem removeFree_eq {xs ys : List Nat} (hlisted : Listed links s.mem s.freeHead (xs ++ a :: ys))
    (hsmall : ∀ n ∈ xs ++ a :: ys, n < 2 ^ 31) :
    s.removeFree a = { s with
      mem := (unlink links a s.mem s.freeHead).1
      freeHead := (unlink links a s.mem s.freeHead).2 } := by
  obtain ⟨-, hback, hforth, -⟩ := seg_append.mp hlisted.seg
  have ha : a < 2 ^ 31 := hsmall a (by simp)
  have hback' : load s.mem (add32 a 4) = lastOr xs 0 := by
    rw [add32_eq (by omega)]
    exact hback
  have hforth' : load s.mem (add32 a 8) = headOr ys 0 := by
    rw [add32_eq (by omega)]
    exact hforth
  have hprev : lastOr xs 0 < 2 ^ 31 := by
    by_cases hxs : xs = []
    · subst hxs
      decide
    · exact hsmall _ (mem_append_left _ (lastOr_mem hxs 0))
  have hnext : headOr ys 0 < 2 ^ 31 := by
    cases ys with
    | nil => decide
    | cons y ys => exact hsmall y (by simp)
  unfold Allocator.removeFree unlink
  rw [hback', hforth']
  rw [show load s.mem (a + links.back) = lastOr xs 0 from hback,
    show load s.mem (a + links.forth) = headOr ys 0 from hforth]
  dsimp only
  rw [add32_eq (show lastOr xs 0 + 8 < 2 ^ 32 by omega),
    add32_eq (show headOr ys 0 + 4 < 2 ^ 32 by omega)]
  split_ifs <;> rfl

theorem Heap.frees_small (h : Heap s blocks) (hperm : l.Perm (frees blocks)) :
    ∀ n ∈ l, n < 2 ^ 31 := by
  intro n hn
  obtain ⟨b, hb, -, rfl⟩ := mem_frees.mp (hperm.mem_iff.mp hn)
  have hwrap := (h.no_wrap hb).2
  omega

theorem Heap.detach (h : Heap s (pre ++ b :: post)) (hb : b.kind = .free) :
    Heap (s.removeFree b.addr) (pre ++ b.toRaw :: post) ∧
      Spared s (s.removeFree b.addr) (pre ++ b.toRaw :: post) := by
  obtain ⟨l, hl, hperm⟩ := h.listed
  have hsmall := h.frees_small hperm
  rw [frees_middle, if_pos hb] at hperm
  have hmem : b.addr ∈ l := hperm.mem_iff.mpr (by simp)
  obtain ⟨xs, ys, rfl⟩ := append_of_mem hmem
  have hrest : (xs ++ ys).Perm (frees (pre ++ b.toRaw :: post)) := by
    rw [frees_middle, if_neg (show b.toRaw.kind ≠ .free from nofun)]
    exact (perm_middle.symm.trans (hperm.trans perm_middle)).cons_inv
  have hkept : ∀ c ∈ pre ++ b.toRaw :: post,
      Kept s.mem (unlink links b.addr s.mem s.freeHead).1 c :=
    h.kept_replaced .raw (h.sound b (by simp)).toRaw fun x y havoids =>
      unlink_sameOn hl (avoids_perm havoids hrest)
  rw [removeFree_eq hl hsmall]
  have hsame := sameHeap_of_mem s (unlink links b.addr s.mem s.freeHead).1
    (unlink links b.addr s.mem s.freeHead).2
  refine ⟨h.replace hsame rfl rfl (h.sound b (by simp)).toRaw (fun c hc => hkept c (mem_around hc))
    toRaw_tagged nofun ⟨xs ++ ys, listed_unlink hl, hrest⟩, ⟨hsame, hkept⟩⟩

/-! ## Joining and cutting -/

/-- Pieces whose tags are not known separate what stands beside them. -/
theorem isChain_raw (hraw : ∀ b ∈ mid, b.kind = .raw) (hmid : mid ≠ []) :
    (pre ++ mid ++ post).IsChain Separate ↔ pre.IsChain Separate ∧ post.IsChain Separate := by
  induction mid generalizing pre with
  | nil => exact absurd rfl hmid
  | cons b rest ih =>
    have hb : b.kind ≠ .free := by
      rw [hraw b mem_cons_self]
      decide
    have hrest : (rest ++ post).IsChain Separate ↔ post.IsChain Separate := by
      cases rest with
      | nil => rfl
      | cons c rest =>
        simpa using @ih [] (fun d hd => hraw d (mem_cons_of_mem b hd)) (cons_ne_nil c rest)
    rw [append_assoc, cons_append, isChain_middle, hrest]
    simp [hb]

theorem frees_raw (hraw : ∀ b ∈ mid, b.kind = .raw) : frees mid = [] := by
  rw [frees, map_eq_nil_iff, filter_eq_nil_iff]
  exact fun b hb => by simp [hraw b hb]

theorem Heap.redivide (h : Heap s (pre ++ mid ++ post))
    (hraw : ∀ b ∈ mid, b.kind = .raw) (hraw' : ∀ b ∈ mid', b.kind = .raw) (hmid : mid ≠ [])
    (hmid' : mid' ≠ []) (htiled : ∀ lo hi, Tiled lo mid hi → Tiled lo mid' hi)
    (hsound : ∀ b ∈ mid', b.Sound) : Heap s (pre ++ mid' ++ post) := by
  obtain ⟨l, hl, hperm⟩ := h.listed
  refine h.retile (.refl s) htiled hmid hsound (fun c _ => .refl s.mem c)
    (fun b hb hne => absurd (hraw' b hb) hne) ?_ ⟨l, hl, ?_⟩
  · exact (isChain_raw hraw' hmid').mpr ((isChain_raw hraw hmid).mp h.separate)
  · simpa only [frees_append, frees_raw hraw, frees_raw hraw'] using hperm

theorem Heap.merge (h : Heap s (pre ++ ⟨a, x, .raw⟩ :: ⟨a + x, y, .raw⟩ :: post)) :
    Heap s (pre ++ ⟨a, x + y, .raw⟩ :: post) := by
  have hx := h.sound ⟨a, x, .raw⟩ (by simp)
  have hy := h.sound ⟨a + x, y, .raw⟩ (by simp)
  have hpieces : Heap s (pre ++ [⟨a, x, .raw⟩, ⟨a + x, y, .raw⟩] ++ post) := by simpa using h
  suffices hmerged : Heap s (pre ++ [⟨a, x + y, .raw⟩] ++ post) by simpa using hmerged
  refine hpieces.redivide (by simp) (by simp) (by simp) (by simp) ?_ fun c hc => ?_
  · rintro - hi ⟨rfl, -, hstop⟩
    exact ⟨rfl, (Nat.add_assoc a x y).symm.trans hstop⟩
  · obtain rfl := mem_singleton.mp hc
    exact ⟨Nat.dvd_add hx.size hy.size, Nat.add_pos_left hx.pos y, fun h => absurd rfl h⟩

theorem Heap.cut (h : Heap s (pre ++ ⟨a, x + y, .raw⟩ :: post)) (hx : 16 ∣ x) (hxpos : 0 < x)
    (hypos : 0 < y) : Heap s (pre ++ ⟨a, x, .raw⟩ :: ⟨a + x, y, .raw⟩ :: post) := by
  have hxy := h.sound ⟨a, x + y, .raw⟩ (by simp)
  have hpiece : Heap s (pre ++ [⟨a, x + y, .raw⟩] ++ post) := by simpa using h
  suffices hcut : Heap s (pre ++ [⟨a, x, .raw⟩, ⟨a + x, y, .raw⟩] ++ post) by simpa using hcut
  refine hpiece.redivide (by simp) (by simp) (by simp) (by simp) ?_ fun c hc => ?_
  · rintro - hi ⟨rfl, hstop⟩
    exact ⟨rfl, rfl, (Nat.add_assoc a x y).trans hstop⟩
  · simp only [mem_cons, not_mem_nil, or_false] at hc
    rcases hc with rfl | rfl
    · exact ⟨hx, hxpos, fun h => absurd rfl h⟩
    · exact ⟨(Nat.dvd_add_right hx).mp hxy.size, hypos, fun h => absurd rfl h⟩

/-! ## Writing tags -/

theorem writeBlock_load (s : Allocator) (allocated : Nat) (hwrap : a + size < 2 ^ 32)
    (hsize : 8 ≤ size) (htag : size ||| allocated < 2 ^ 32) :
    load (s.writeBlock a size allocated).mem a = size ||| allocated ∧
      load (s.writeBlock a size allocated).mem (a + size - 4) = size ||| allocated := by
  unfold Allocator.writeBlock
  rw [add32_eq hwrap, sub32_eq (by omega) hwrap]
  refine ⟨?_, load_store_self htag⟩
  rw [load_store_of_apart (by omega)]
  exact load_store_self htag

theorem writeBlock_sameOn (s : Allocator) {allocated : Nat} (hwrap : a + size < 2 ^ 32)
    (hsize : 8 ≤ size) (hbeside : y ≤ a ∨ a + size ≤ x) :
    SameOn s.mem (s.writeBlock a size allocated).mem x y := by
  unfold Allocator.writeBlock
  dsimp only
  rw [add32_eq hwrap, sub32_eq (by omega) hwrap]
  exact (store_sameOn (by omega)).trans (store_sameOn (by omega))

theorem Heap.writeBlock_others (h : Heap s (pre ++ b :: post)) (allocated : Nat)
    (hmin : 32 ≤ b.size) (hc : c ∈ pre ++ post) :
    SameOn s.mem (s.writeBlock b.addr b.size allocated).mem c.addr c.stop := by
  have hwrap := (h.no_wrap (b := b) (by simp)).2
  exact writeBlock_sameOn s (by omega) (by omega) (h.tiled.beside hc)

theorem Heap.writeBlock_kept (h : Heap s (pre ++ b :: post)) (allocated : Nat)
    (hmin : 32 ≤ b.size) :
    ∀ c ∈ pre ++ post, Kept s.mem (s.writeBlock b.addr b.size allocated).mem c := by
  intro c hc
  exact .of_sameOn (h.sound c (mem_around hc)) (h.writeBlock_others allocated hmin hc)

theorem mem_of_free (hb : b.kind ≠ .free) (hfree : c.kind = .free) (hc : c ∈ pre ++ b :: post) :
    c ∈ pre ++ post := by
  simp only [mem_append, mem_cons] at hc ⊢
  rcases hc with hc | rfl | hc
  · exact .inl hc
  · exact absurd hfree hb
  · exact .inr hc

/-- The link words of the free blocks stay when a block that is not free is written. -/
theorem Heap.listed_of_kept (h : Heap s (pre ++ b :: post)) (hb : b.kind ≠ .free)
    (hl : Listed links s.mem s.freeHead l) (hperm : l.Perm (frees (pre ++ b :: post)))
    (hsame : ∀ c ∈ pre ++ post, SameOn s.mem m' c.addr c.stop) : Listed links m' s.freeHead l := by
  refine hl.congr fun n hn => ?_
  obtain ⟨c, hc, hfree, rfl⟩ := mem_frees.mp (hperm.mem_iff.mp hn)
  have hmin := (h.sound c hc).min (by rw [hfree]; decide)
  refine (hsame c (mem_of_free hb hfree hc)).mono (le_add_right _ _) ?_
  show c.addr + 8 + 4 ≤ c.addr + c.size
  omega

theorem Heap.mark (h : Heap s (pre ++ ⟨a, size, .raw⟩ :: post)) (hmin : 32 ≤ size) :
    Heap (s.writeBlock a size 1) (pre ++ ⟨a, size, .used⟩ :: post) ∧
      Spared s (s.writeBlock a size 1) (pre ++ post) := by
  have hsound := h.sound ⟨a, size, .raw⟩ (by simp)
  obtain ⟨-, hwrap⟩ := h.no_wrap (b := ⟨a, size, .raw⟩) (by simp)
  dsimp only at hwrap
  have hor : size ||| 1 = size + 1 := even_or_one hsound.size
  have hsame := writeBlock_sameHeap s a size 1
  refine ⟨h.replace hsame rfl rfl ⟨hsound.size, hsound.pos, fun _ => hmin⟩
    (h.writeBlock_kept 1 hmin) ?_ nofun ?_, ⟨hsame, h.writeBlock_kept 1 hmin⟩⟩
  · intro _
    obtain ⟨hheader, hfooter⟩ :=
      writeBlock_load s 1 (show a + size < 2 ^ 32 by omega) (by omega) (by omega)
    rw [hor] at hheader hfooter
    exact ⟨hheader, hfooter⟩
  · obtain ⟨l, hl, hperm⟩ := h.listed
    rw [writeBlock_freeHead]
    refine ⟨l, h.listed_of_kept nofun hl hperm fun c => h.writeBlock_others 1 hmin, ?_⟩
    rw [frees_middle] at hperm ⊢
    exact hperm

theorem insertFree_eq (ha : a < 2 ^ 31) (hhead : s.freeHead < 2 ^ 31) :
    s.insertFree a = { s with mem := push links a s.mem s.freeHead, freeHead := a } := by
  unfold Allocator.insertFree push
  dsimp only
  rw [add32_eq (show a + 4 < 2 ^ 32 by omega), add32_eq (show a + 8 < 2 ^ 32 by omega),
    add32_eq (show s.freeHead + 4 < 2 ^ 32 by omega)]
  dsimp only [links]

theorem Heap.give (h : Heap s (pre ++ ⟨a, size, .raw⟩ :: post)) (hmin : 32 ≤ size)
    (halone : Alone pre post) :
    Heap ((s.writeBlock a size 0).insertFree a) (pre ++ ⟨a, size, .free⟩ :: post) ∧
      Spared s ((s.writeBlock a size 0).insertFree a) (pre ++ post) := by
  have hsound := h.sound ⟨a, size, .raw⟩ (by simp)
  obtain ⟨hpos, hwrap⟩ := h.no_wrap (b := ⟨a, size, .raw⟩) (by simp)
  dsimp only at hpos hwrap
  obtain ⟨l, hl, hperm⟩ := h.listed
  have hperm' : (a :: l).Perm (frees (pre ++ ⟨a, size, .free⟩ :: post)) := by
    rw [frees_middle, if_neg nofun] at hperm
    rw [frees_middle, if_pos rfl]
    exact (hperm.cons a).trans perm_middle.symm
  have hhead : s.freeHead < 2 ^ 31 := by
    rw [hl.head]
    cases l with
    | nil => decide
    | cons n l => exact h.frees_small hperm n mem_cons_self
  -- first the tags
  have hwritten := h.writeBlock_kept 0 hmin
  have hlisted := h.listed_of_kept nofun hl hperm fun c => h.writeBlock_others 0 hmin
  obtain ⟨hheader, hfooter⟩ := writeBlock_load s 0 (show a + size < 2 ^ 32 by omega) (by omega)
    (by rw [or_zero]; omega)
  rw [or_zero] at hheader hfooter
  -- then the list
  have hapart : ∀ n ∈ l, a + links.width ≤ n ∨ n + links.width ≤ a := by
    intro n hn
    obtain ⟨c, hc, hfree, rfl⟩ := mem_frees.mp (hperm.mem_iff.mp hn)
    have hcmin := (h.sound c hc).min (by rw [hfree]; decide)
    have hbeside := h.tiled.beside (mem_of_free (b := ⟨a, size, .raw⟩) nofun hfree hc)
    unfold Block.stop at hbeside
    dsimp only at hbeside
    show a + 12 ≤ c.addr ∨ c.addr + 12 ≤ a
    omega
  have hpushed := listed_push hlisted ⟨hpos, by omega⟩ hapart
  have hsound' : (⟨a, size, .free⟩ : Block).Sound := ⟨hsound.size, hsound.pos, fun _ => hmin⟩
  have hkept : ∀ c ∈ pre ++ ⟨a, size, .free⟩ :: post,
      Kept (s.writeBlock a size 0).mem (push links a (s.writeBlock a size 0).mem s.freeHead) c :=
    h.kept_replaced .free hsound' fun x y havoids => push_sameOn hlisted
      (avoids_perm havoids hperm')
  rw [← writeBlock_freeHead s a size 0] at hhead
  rw [insertFree_eq (by omega) hhead, writeBlock_freeHead]
  have hsame := (writeBlock_sameHeap s a size 0).trans
    (sameHeap_of_mem (s.writeBlock a size 0)
      (push links a (s.writeBlock a size 0).mem s.freeHead) a)
  have hboth : ∀ c ∈ pre ++ post,
      Kept s.mem (push links a (s.writeBlock a size 0).mem s.freeHead) c := by
    intro c hc
    exact (hwritten c hc).trans (hkept c (mem_around hc))
  refine ⟨h.replace hsame rfl rfl hsound' hboth ?_ (fun _ => halone)
    ⟨a :: l, hpushed, hperm'⟩, ⟨hsame, hboth⟩⟩
  have htagged : (⟨a, size, .free⟩ : Block).Tagged (s.writeBlock a size 0).mem :=
    fun _ => ⟨hheader, hfooter⟩
  exact htagged.kept hsound' (hkept _ (by simp))

end Waste.Libc
