import Waste.Libc.Malloc

/-!
# The other functions of the interface

`free`, `calloc`, `realloc` and the aligned allocations, each from a heap whose blocks are
whole (`Whole`) to such a heap.
-/

namespace Waste.Libc

open Allocator (totalFor)
open ByteMemory DoublyLinked List Nat

variable {s s' : Allocator} {pre post pre' post' blocks blocks' : List Block} {b c : Block}
  {a x y total size alignment raw padding tail requested p : Nat}

/-! ## `free` -/

theorem TakenFront.useds_eq (h : TakenFront post post') : useds post' = useds post := by
  rcases h with rfl | ⟨q, hq, rfl⟩
  · rfl
  · rw [useds_cons_other (by simp [hq])]

theorem TakenBack.useds_eq (h : TakenBack pre pre') : useds pre' = useds pre := by
  rcases h with rfl | ⟨q, hq, rfl⟩
  · rfl
  · rw [useds_append, useds_cons_other (by simp [hq])]
    exact (append_nil _).symm

/-- The block `b` is not in use any more. -/
structure Freed (s : Allocator) (blocks : List Block) (b : Block) (s' : Allocator)
    (blocks' : List Block) : Prop where
  whole : Whole s' blocks'
  perm : (useds blocks).Perm (b :: useds blocks')
  untouched : ∀ c ∈ useds blocks', SameOn s.mem s'.mem c.addr c.stop

theorem getLast_clean (h : Clean pre) : ∀ c ∈ pre.getLast?, c.kind ≠ .raw :=
  fun c hc => h c (mem_of_getLast? hc)

theorem head_clean (h : Clean post) : ∀ c ∈ post.head?, c.kind ≠ .raw :=
  fun c hc => h c (mem_of_head? hc)

theorem getLast_used (a size : Nat) :
    ∀ c ∈ (pre ++ [(⟨a, size, .used⟩ : Block)]).getLast?, c.kind ≠ .raw := by
  intro c hc
  obtain rfl : (⟨a, size, .used⟩ : Block) = c := by simpa using hc
  exact nofun

theorem head_used : ∀ c ∈ ((⟨a, size, .used⟩ : Block) :: post).head?, c.kind ≠ .raw := by
  intro c hc
  obtain rfl : (⟨a, size, .used⟩ : Block) = c := by simpa using hc
  exact nofun

theorem free_eq (hb : s.heapBase ≤ b.addr) (hend : b.addr < s.programBreak)
    (hwrap : b.addr + 16 < 2 ^ 32) (hflag : load s.mem b.addr % 2 = 1) :
    s.free (b.addr + 16) = s.releaseBlock b.addr := by
  unfold Allocator.free
  rw [if_neg (by omega), sub32_header hwrap, if_neg (by omega), if_neg (by omega),
    if_neg (by omega)]

theorem Whole.free (h : Whole s blocks) (hb : b ∈ useds blocks) :
    ∃ blocks', Freed s blocks b (s.free (b.addr + 16)) blocks' := by
  obtain ⟨hmem, hused⟩ := mem_useds.mp hb
  obtain ⟨hlo, hhi, -⟩ := h.heap.bounds hmem
  obtain ⟨-, hwrap⟩ := h.heap.no_wrap hmem
  have hmin := (h.heap.sound b hmem).min (h.clean b hmem)
  obtain ⟨-, -, hflag⟩ := h.heap.tags hmem (h.clean b hmem)
  rw [if_pos hused] at hflag
  rw [free_eq hlo (by unfold Block.stop at hhi; omega) (by omega) hflag]
  obtain ⟨pre, post, rfl⟩ := append_of_mem hmem
  obtain ⟨hpre, hpost⟩ := h.around
  obtain ⟨pre', c, post', hheap, hfree, hspared, hback, hfront⟩ :=
    h.heap.release hused (getLast_clean hpre) (head_clean hpost)
  have huseds : useds (pre' ++ c :: post') = useds (pre' ++ post') := by
    rw [useds_append, useds_append, useds_cons_other (by simp [hfree])]
  refine ⟨_, ⟨hheap, ?_⟩, ?_, ?_⟩
  · exact clean_append.mpr ⟨fun d hd => hpre d (hback.subset hd),
      clean_cons.mpr ⟨by simp [hfree], fun d hd => hpost d (hfront.subset hd)⟩⟩
  · rw [huseds, useds_append, useds_append, useds_cons_used hused, hback.useds_eq, hfront.useds_eq]
    exact perm_middle
  · rw [huseds]
    exact kept_useds fun d hd _ => hspared.kept d hd

/-! ## `calloc` and `realloc` -/

theorem Placed.rewrite {m : Bytes} (h : Placed s blocks total p s' blocks' b)
    (hdata : ∀ x, ¬b.Data x → m x = s'.mem x) :
    Placed s blocks total p { s' with mem := m } blocks' b := by
  obtain ⟨hmem, hused⟩ := h.mem
  refine { h with
    whole := ⟨h.whole.heap.rewrite ⟨_, _, _, _, rfl⟩ (le_refl _) ?_, h.whole.clean⟩
    untouched := fun c hc => ?_ }
  · exact fun x _ _ hx => hdata x (hx b hmem hused)
  -- the blocks of before are beside the new one
  refine (h.untouched c hc).trans fun x hx hx' => hdata x fun hbx => ?_
  obtain ⟨pre, post, hsplit⟩ := append_of_mem hmem
  have hperm := h.perm
  rw [hsplit, useds_append, useds_cons_used hused] at hperm
  have hother : c ∈ pre ++ post := by
    have hrest := (perm_middle.symm.trans hperm).cons_inv.mem_iff.mpr hc
    rw [← useds_append] at hrest
    exact (mem_useds.mp hrest).1
  have htiled := h.whole.heap.tiled
  rw [hsplit] at htiled
  have hbeside := htiled.beside hother
  unfold Block.Data at hbx
  omega

theorem Whole.calloc (h : Whole s blocks) (count size : Nat) :
    Allocates s blocks (count * size) (fun p s' => ∀ i < count * size, s'.mem (p + i) = 0)
      (s.calloc count size) := by
  unfold Allocator.calloc
  split
  · exact ⟨0, _, rfl, .inl ⟨rfl, setErrno_failed s enomem⟩⟩
  obtain ⟨p, t, hmalloc, hresult⟩ := h.malloc (count * size)
  rw [hmalloc]
  refine ⟨p, _, rfl, ?_⟩
  rcases hresult with ⟨rfl, hfailed⟩ | ⟨blocks', b, hplaced⟩
  · exact .inl ⟨rfl, hfailed⟩
  have hp := hplaced.pointer
  obtain ⟨-, -, htotal⟩ := totalFor_spec (count * size)
  have hroom := hplaced.room
  rw [if_pos (by omega)]
  refine .inr ⟨blocks', b, hplaced.rewrite fun x hx => ?_, fun i hi => ?_⟩
  · unfold fill
    rw [if_neg]
    unfold Block.Data Block.stop at hx
    omega
  · show fill p (count * size) 0 t.mem (p + i) = 0
    unfold fill
    rw [if_pos (by omega)]

/-- The block `b` is gone, and its bytes are in the block `c`. -/
structure Moved (s : Allocator) (blocks : List Block) (b : Block) (requested p : Nat)
    (s' : Allocator) (blocks' : List Block) (c : Block) (rest : List Block) : Prop where
  whole : Whole s' blocks'
  pointer : p = c.addr + 16
  room : totalFor requested ≤ c.size
  before : (useds blocks).Perm (b :: rest)
  after : (useds blocks').Perm (c :: rest)
  untouched : ∀ d ∈ rest, SameOn s.mem s'.mem d.addr d.stop
  copied : ∀ i < b.size - 20, i < requested → s'.mem (p + i) = s.mem (b.addr + 16 + i)

theorem realloc_eq {t : Allocator} (hwrap : b.addr + b.size < 2 ^ 31) (hmin : 32 ≤ b.size)
    (hheader : tagSize (load s.mem b.addr) = b.size) (hrequested : requested ≠ 0)
    (hsmall : requested < 2 ^ 31) (hmalloc : s.malloc requested = some (p, t)) (hp : p ≠ 0) :
    s.realloc (b.addr + 16) requested =
      some (p, { t with mem := copy p (b.addr + 16) (min (b.size - 20) requested) t.mem }.free
      (b.addr + 16)) := by
  have hcapacity : sub32 b.size 20 = b.size - 20 := sub32_eq (by omega) (by omega)
  have hcopy : (if signed (b.size - 20) < signed requested then b.size - 20 else requested) =
      min (b.size - 20) requested := by
    rw [signed_eq (by omega), signed_eq hsmall]
    split <;> omega
  unfold Allocator.realloc
  dsimp only
  rw [if_neg (by omega), if_neg hrequested, sub32_header (by omega), hheader, hcapacity, hmalloc]
  dsimp only
  rw [if_neg hp, hcopy]

theorem Whole.realloc (h : Whole s blocks) (hb : b ∈ useds blocks) (hrequested : requested ≠ 0) :
    ∃ p s', s.realloc (b.addr + 16) requested = some (p, s') ∧
      ((p = 0 ∧ Failed s s') ∨
      ∃ blocks' c rest, Moved s blocks b requested p s' blocks' c rest) := by
  obtain ⟨hmem, -⟩ := mem_useds.mp hb
  obtain ⟨-, hwrap⟩ := h.heap.no_wrap hmem
  have hmin := (h.heap.sound b hmem).min (h.clean b hmem)
  obtain ⟨hheader, -, -⟩ := h.heap.tags hmem (h.clean b hmem)
  obtain ⟨p, t, hmalloc, ⟨rfl, hfailed⟩ | ⟨blocks1, c, hplaced⟩⟩ := h.malloc requested
  · refine ⟨0, t, ?_, .inl ⟨rfl, hfailed⟩⟩
    unfold Allocator.realloc
    rw [if_neg (by omega), if_neg hrequested, hmalloc]
    rfl
  have hp := hplaced.pointer
  have hroom := hplaced.room
  obtain ⟨-, -, htotal⟩ := totalFor_spec requested
  obtain ⟨hcmem, -⟩ := hplaced.mem
  obtain ⟨-, hcwrap⟩ := hplaced.whole.heap.no_wrap hcmem
  have hcopied := hplaced.rewrite (m := copy p (b.addr + 16) (min (b.size - 20) requested) t.mem)
    fun x hx => by
    unfold copy
    rw [if_neg]
    unfold Block.Data Block.stop at hx
    omega
  -- the old block is in use until it is freed
  obtain ⟨l, r, hsplit⟩ := append_of_mem hb
  have hbefore : (useds blocks).Perm (b :: (l ++ r)) := Perm.trans (Perm.of_eq hsplit) perm_middle
  have hboth : (useds blocks1).Perm (b :: c :: (l ++ r)) :=
    hcopied.perm.trans ((hbefore.cons c).trans (Perm.swap b c _))
  obtain ⟨blocks', hfreed⟩ := hcopied.whole.free (hboth.mem_iff.mpr mem_cons_self)
  have hafter : (useds blocks').Perm (c :: (l ++ r)) := (hfreed.perm.symm.trans hboth).cons_inv
  refine ⟨p, _, realloc_eq hwrap hmin hheader hrequested (by omega) hmalloc (by omega),
    .inr ⟨blocks', c, l ++ r, hfreed.whole, hp, hroom, hbefore, hafter,
      fun d hd => ?_, fun i hi hi' => ?_⟩⟩
  · have hbefore' : d ∈ useds blocks := hbefore.mem_iff.mpr (mem_cons_of_mem b hd)
    have hafter' : d ∈ useds blocks' := hafter.mem_iff.mpr (mem_cons_of_mem c hd)
    exact (hcopied.untouched d hbefore').trans (hfreed.untouched d hafter')
  have hkept := hfreed.untouched c (hafter.mem_iff.mpr mem_cons_self)
  have hsource := hplaced.untouched b hb
  rw [hkept (p + i) (by omega) (by unfold Block.stop; omega)]
  show copy p (b.addr + 16) (min (b.size - 20) requested) t.mem (p + i) = _
  unfold copy
  rw [if_pos (by omega), Nat.add_sub_cancel_left]
  exact hsource _ (by omega) (by unfold Block.stop; omega)

/-! ## Aligned allocation -/

/-- The next multiple of the alignment. -/
def alignUp (alignment raw : Nat) : Nat := (raw + alignment - 1) / alignment * alignment

theorem alignUp_spec (raw : Nat) (hpos : 0 < alignment) : alignment ∣ alignUp alignment raw ∧
    raw ≤ alignUp alignment raw ∧ alignUp alignment raw ≤ raw + alignment - 1 := by
  have hlt := lt_div_mul_add hpos (a := raw + alignment - 1)
  refine ⟨Nat.dvd_mul_left _ _, ?_, div_mul_le_self _ _⟩
  unfold alignUp
  omega

/-- What is cut off before an aligned block. -/
def paddingFor (alignment raw : Nat) : Nat :=
  let gap := alignUp alignment raw - raw
  if gap ≠ 0 ∧ gap < 32 then gap + alignment else gap

theorem paddingFor_spec (hraw : 16 ∣ raw) (halign : 16 ∣ alignment) (hbig : 16 < alignment) :
    alignment ∣ raw + paddingFor alignment raw ∧ 16 ∣ paddingFor alignment raw ∧
      (paddingFor alignment raw = 0 ∨ 32 ≤ paddingFor alignment raw) ∧
      paddingFor alignment raw ≤ alignment + 16 := by
  obtain ⟨hnear, hge, hle⟩ := alignUp_spec raw (show 0 < alignment by omega)
  have h16 : 16 ∣ alignUp alignment raw := Nat.dvd_trans halign hnear
  unfold paddingFor
  generalize alignUp alignment raw = near at *
  dsimp only
  split
  · refine ⟨?_, by omega, .inr (by omega), by omega⟩
    rw [show raw + (near - raw + alignment) = near + alignment by omega]
    exact Nat.dvd_add hnear (Nat.dvd_refl _)
  · refine ⟨?_, by omega, by omega, by omega⟩
    rw [show raw + (near - raw) = near by omega]
    exact hnear

theorem Heap.trim (h : Heap s (pre ++ ⟨a, size, .raw⟩ :: post)) (hmin : 32 ≤ size)
    (hpre : ∀ p ∈ pre.getLast?, p.kind ≠ .raw) (hpost : ∀ q ∈ post.head?, q.kind ≠ .raw) :
    ∃ pre' c post', Heap ((s.writeBlock a size 1).releaseBlock a) (pre' ++ c :: post') ∧
      c.kind = .free ∧ Spared s ((s.writeBlock a size 1).releaseBlock a) (pre' ++ post') ∧
        TakenBack pre pre' ∧
      TakenFront post post' := by
  obtain ⟨hmarked, hspared⟩ := h.mark hmin
  obtain ⟨pre', c, post', hheap, hfree, hspared', hback, hfront⟩ := hmarked.release rfl hpre hpost
  exact ⟨pre', c, post', hheap, hfree,
    (hspared.mono (append_subset_append hback.subset hfront.subset)).trans hspared', hback, hfront⟩

/-- A piece of a block is released, if it has any bytes. -/
def Allocator.giveBack (s : Allocator) (a size : Nat) : Allocator :=
  if size ≠ 0 then (s.writeBlock a size 1).releaseBlock a else s

theorem Allocator.giveBack_zero (s : Allocator) (a : Nat) : s.giveBack a 0 = s :=
  if_neg (by simp)

/-- A block in use at the front of a piece; the rest of the piece is released. -/
theorem Heap.settle (h : Heap s (pre ++ ⟨a, total + tail, .raw⟩ :: post)) (hsize : 16 ∣ total)
    (hmin : 32 ≤ total) (htail : tail = 0 ∨ 32 ≤ tail) (hpost : Clean post) :
    let s' := (s.writeBlock a total 1).giveBack (a + total) tail
    ∃ rest, Heap s' (pre ++ ⟨a, total, .used⟩ :: rest) ∧ useds rest = useds post ∧
      Clean rest ∧ Spared s s' (pre ++ useds post) := by
  have huseds : pre ++ useds post ⊆ pre ++ post :=
    append_subset_append (Subset.refl _) (filter_subset_self _)
  dsimp only
  rcases htail with rfl | htail
  · obtain ⟨hmarked, hspared⟩ := mark h hmin
    rw [Allocator.giveBack_zero]
    exact ⟨post, hmarked, rfl, hpost, hspared.mono huseds⟩
  rw [Allocator.giveBack, if_pos (by omega)]
  obtain ⟨hmarked, hspared⟩ := (h.cut hsize (by omega) (by omega)).mark hmin
  rw [append_cons] at hmarked
  obtain ⟨pre', c, post', hheap, hfree, hspared', hback, hfront⟩ := hmarked.trim htail
    (getLast_used a total) (head_clean hpost)
  -- the block in front is in use and stays
  obtain rfl : pre' = pre ++ [⟨a, total, .used⟩] := by
    rcases hback with hsame | ⟨q, hq, hlast⟩
    · exact hsame
    · obtain ⟨-, hq'⟩ := append_inj' hlast rfl
      obtain rfl : (⟨a, total, .used⟩ : Block) = q := by simpa using hq'
      exact nomatch hq
  refine ⟨c :: post', ?_, ?_, ?_, ?_⟩
  · simpa using hheap
  · rw [useds_cons_other (by simp [hfree]), hfront.useds_eq]
  · exact clean_cons.mpr ⟨by simp [hfree], fun d hd => hpost d (hfront.subset hd)⟩
  refine (hspared.mono fun d hd => mem_around (huseds hd)).trans (hspared'.mono fun d hd => ?_)
  rw [← hfront.useds_eq] at hd
  simp only [mem_append, mem_useds, mem_singleton] at hd ⊢
  tauto

/-- The numbers that `allocate_aligned` computes do not wrap. -/
theorem gap_spec {gap near : Nat} (hgap : gap = near - raw) (hge : raw ≤ near)
    (hsmall : gap < 2 ^ 31) (hpadding : (if gap ≠ 0 ∧ gap < 32 then gap + alignment else gap) =
      padding) (hwrap : raw + padding < 2 ^ 31) :
    (if gap ≠ 0 ∧ signed gap < 32 then add32 gap alignment else gap) = padding ∧
      i32 (if gap ≠ 0 ∧ signed gap < 32 then near + alignment else near) = raw + padding := by
  have hsigned : (gap ≠ 0 ∧ signed gap < 32) ↔ (gap ≠ 0 ∧ gap < 32) := by
    rw [signed_eq hsmall]
    omega
  simp only [hsigned]
  split at hpadding
  · next hlow =>
    rw [if_pos hlow, if_pos hlow, add32_eq (by omega)]
    refine ⟨hpadding, ?_⟩
    rw [show near + alignment = raw + padding by omega]
    exact mod_eq_of_lt (by omega)
  · next hfar =>
    rw [if_neg hfar, if_neg hfar]
    refine ⟨hpadding, ?_⟩
    rw [show near = raw + padding by omega]
    exact mod_eq_of_lt (by omega)

theorem cutAligned_eq (hheader : tagSize (load s.mem b.addr) = b.size)
    (hwrap : b.addr + b.size < 2 ^ 31) (hbig : 0 < alignment) (hsmall : alignment < 2 ^ 31)
    (hpadding : paddingFor alignment (b.addr + 16) = padding)
    (htotal : total = if b.size - padding - totalFor size < 32 then b.size - padding
      else totalFor size)
    (hroom : padding + totalFor size ≤ b.size) :
    s.cutAligned alignment size (b.addr + 16) = (b.addr + padding + 16,
      ((s.writeBlock (b.addr + padding) total 1).giveBack (b.addr + padding + total)
        (b.size - padding - total)).giveBack b.addr padding) := by
  obtain ⟨-, hmin, -⟩ := totalFor_spec size
  obtain ⟨-, hge, hle⟩ := alignUp_spec (b.addr + 16) hbig
  unfold paddingFor at hpadding
  unfold Allocator.cutAligned Allocator.giveBack
  rw [← alignUp]
  generalize alignUp alignment (b.addr + 16) = near at *
  dsimp only at hpadding ⊢
  have hgap : i32 (near - (b.addr + 16)) = near - (b.addr + 16) := mod_eq_of_lt (by omega)
  obtain ⟨hpad, hpointer⟩ := gap_spec rfl hge (by omega) hpadding (by omega)
  rw [sub32_header (by omega), hheader, hgap, hpad, hpointer]
  have htail : sub32 (sub32 b.size padding) (totalFor size) = b.size - padding - totalFor size := by
    rw [sub32_eq (show padding ≤ b.size by omega) (by omega), sub32_eq (by omega) (by omega)]
  have hsigned : signed (b.size - padding - totalFor size) < 32 ↔
      b.size - padding - totalFor size < 32 := by
    rw [signed_eq (by omega)]
    omega
  have hsum : add32 (totalFor size) (b.size - padding - totalFor size) = b.size - padding := by
    rw [add32_eq (by omega)]
    omega
  have hrest : (if b.size - padding - totalFor size < 32 then 0
      else b.size - padding - totalFor size) = b.size - padding - total := by
    rw [htotal]
    split <;> omega
  have hplace : add32 b.addr padding = b.addr + padding := add32_eq (by omega)
  have hend : add32 (b.addr + padding) total = b.addr + padding + total := by
    refine add32_eq ?_
    rw [htotal]
    split <;> omega
  rw [htail]
  simp only [hsigned, hsum]
  rw [← htotal, hrest, hplace, hend, Nat.add_right_comm b.addr 16 padding]

/-- The heap after the aligned block is written and the tail is released, and after the
padding is released. -/
theorem Heap.cutAligned (h : Heap s (pre ++ ⟨a, padding + (total + tail), .raw⟩ :: post))
    (hsize : 16 ∣ total) (hmin : 32 ≤ total) (htail : tail = 0 ∨ 32 ≤ tail)
    (hpadding : padding = 0 ∨ 32 ≤ padding) (hpadding' : 16 ∣ padding) (hpre : Clean pre)
    (hpost : Clean post) :
    let s' := ((s.writeBlock (a + padding) total 1).giveBack (a + padding + total) tail).giveBack a
      padding
    ∃ front rest, Heap s' (front ++ ⟨a + padding, total, .used⟩ :: rest) ∧
      useds front = useds pre ∧ useds rest = useds post ∧
      Clean front ∧ Clean rest ∧ Spared s s' (useds pre ++ useds post) := by
  dsimp only
  rcases hpadding with rfl | hpos
  · rw [Nat.zero_add] at h
    obtain ⟨rest, hheap, huseds, hclean, hspared⟩ := h.settle hsize hmin htail hpost
    rw [Allocator.giveBack_zero]
    exact ⟨pre, rest, hheap, rfl, huseds, hpre, hclean,
      hspared.mono (append_subset_append (filter_subset_self _) (Subset.refl _))⟩
  have hcut := h.cut hpadding' (by omega) (by omega)
  rw [append_cons] at hcut
  obtain ⟨rest, hheap, huseds, hclean, hspared⟩ := hcut.settle hsize hmin htail hpost
  generalize (s.writeBlock (a + padding) total 1).giveBack _ tail = t at *
  rw [Allocator.giveBack, if_pos (by omega)]
  rw [← append_cons] at hheap
  obtain ⟨front, c, post', hheap', hfree, hspared', hback, hfront⟩ :=
    hheap.trim hpos (getLast_clean hpre) head_used
  -- the block behind is in use and stays
  obtain rfl : post' = ⟨a + padding, total, .used⟩ :: rest := by
    rcases hfront with hsame | ⟨q, hq, hfirst⟩
    · exact hsame
    · obtain ⟨rfl, -⟩ := cons_eq_cons.mp hfirst
      exact nomatch hq
  refine ⟨front ++ [c], rest, ?_, ?_, huseds, ?_, hclean, ?_⟩
  · simpa using hheap'
  · rw [useds_append, useds_cons_other (by simp [hfree]), hback.useds_eq]
    exact append_nil _
  · exact clean_append.mpr ⟨fun d hd => hpre d (hback.subset hd),
      clean_cons.mpr ⟨by simp [hfree], nofun⟩⟩
  · refine (hspared.mono ?_).trans (hspared'.mono fun d hd => ?_)
    · exact append_subset_append (subset_append_of_subset_left _ (filter_subset_self _))
        (Subset.refl _)
    · rw [← hback.useds_eq, ← huseds] at hd
      simp only [mem_append, mem_useds, mem_cons] at hd ⊢
      tauto

theorem totalFor_reserve (halign : 16 ∣ alignment) :
    totalFor (size + alignment + 32) = totalFor size + alignment + 32 := by
  unfold totalFor
  split <;> split <;> omega

/-- The block that `malloc` placed is cut to size. -/
theorem Placed.cutAligned (h : Placed s blocks (totalFor (size + alignment + 32)) p s' blocks' b)
    (halign : 16 ∣ alignment) (hbig : 16 < alignment) (hsmall : alignment < 2 ^ 31) :
    ∃ blocks'' c, Placed s blocks (totalFor size) (s'.cutAligned alignment size p).1
        (s'.cutAligned alignment size p).2 blocks'' c ∧
          alignment ∣ (s'.cutAligned alignment size p).1 := by
  obtain ⟨hmem, hused⟩ := h.mem
  obtain ⟨-, hwrap⟩ := h.whole.heap.no_wrap hmem
  obtain ⟨hheader, -, -⟩ := h.whole.heap.tags hmem (h.whole.clean b hmem)
  have haddr : 16 ∣ b.addr := h.whole.heap.aligned hmem
  have hbsize : 16 ∣ b.size := (h.whole.heap.sound b hmem).size
  obtain ⟨hdvd, hpad16, hpad, hpadmax⟩ :=
    paddingFor_spec (show 16 ∣ b.addr + 16 by omega) halign hbig
  obtain ⟨htotal16, htotalmin, -⟩ := totalFor_spec size
  have hroom := h.room
  rw [totalFor_reserve halign] at hroom
  rw [h.pointer]
  generalize hpadding : paddingFor alignment (b.addr + 16) = padding at *
  generalize htotal : (if b.size - padding - totalFor size < 32 then b.size - padding
    else totalFor size) = total
  have htotal' : 16 ∣ total ∧ totalFor size ≤ total ∧ padding + total ≤ b.size ∧
      (b.size - padding - total = 0 ∨ 32 ≤ b.size - padding - total) := by
    split at htotal <;> omega
  obtain ⟨hsize, hle, hfits, htail⟩ := htotal'
  rw [cutAligned_eq hheader hwrap (by omega) hsmall hpadding htotal.symm (by omega)]
  obtain ⟨pre, post, rfl⟩ := append_of_mem hmem
  obtain ⟨hpre, hpost⟩ := h.whole.around
  have hraw := h.whole.heap.forget (by simp [hused])
  have hpieces : b.toRaw = ⟨b.addr, padding + (total + (b.size - padding - total)), .raw⟩ := by
    rw [show padding + (total + (b.size - padding - total)) = b.size by omega]
    rfl
  rw [hpieces] at hraw
  obtain ⟨front, rest, hheap, hfront, hrest, hclean, hclean', hspared⟩ :=
    hraw.cutAligned hsize (by omega) htail hpad hpad16 hpre hpost
  have hothers : (useds pre ++ useds post).Perm (useds blocks) := by
    have hperm := h.perm
    rw [useds_append, useds_cons_used hused] at hperm
    exact (perm_middle.symm.trans hperm).cons_inv
  refine ⟨_, ⟨b.addr + padding, total, .used⟩, ⟨⟨hheap, ?_⟩, rfl, hle, ?_, fun d hd => ?_⟩, ?_⟩
  · exact clean_append.mpr ⟨hclean, clean_cons.mpr ⟨nofun, hclean'⟩⟩
  · rw [useds_append, useds_cons_used rfl, hfront, hrest]
    exact List.perm_middle.trans (hothers.cons _)
  · have hkept := hspared.kept d (hothers.mem_iff.mpr hd)
    exact (h.untouched d hd).trans (hkept.all (by simp [(mem_useds.mp hd).2]))
  · rw [show b.addr + padding + 16 = b.addr + 16 + padding by omega]
    exact hdvd

theorem Whole.allocateAligned (h : Whole s blocks) (size : Nat) (halign : 16 < alignment →
      16 ∣ alignment) :
    Allocates s blocks size (fun p _ => 16 < alignment → alignment ∣ p)
      (s.allocateAligned alignment size) := by
  unfold Allocator.allocateAligned
  split
  · obtain ⟨p, s', hmalloc, hresult⟩ := h.malloc size
    refine ⟨p, s', hmalloc, hresult.imp_right ?_⟩
    rintro ⟨blocks', b, hplaced⟩
    exact ⟨blocks', b, hplaced, fun hbig => absurd hbig (by omega)⟩
  split
  · exact ⟨0, _, rfl, .inl ⟨rfl, setErrno_failed s enomem⟩⟩
  obtain ⟨raw, t, hmalloc, hresult⟩ := h.malloc (size + alignment + 32)
  rw [hmalloc]
  dsimp only
  rcases hresult with ⟨rfl, hfailed⟩ | ⟨blocks', b, hplaced⟩
  · exact ⟨0, t, rfl, .inl ⟨rfl, hfailed⟩⟩
  · have hp := hplaced.pointer
    rw [if_neg (by omega)]
    obtain ⟨blocks'', c, hcut, hdvd⟩ := hplaced.cutAligned (halign (by omega)) (by omega) (by omega)
    exact ⟨_, _, some_pair, .inr ⟨blocks'', c, hcut, fun _ => hdvd⟩⟩

/-- A power of two above 16 is a multiple of 16, one up to 16 divides it. -/
theorem crooked_spec (h : Allocator.crooked alignment = false) :
    (16 < alignment → 16 ∣ alignment) ∧ (0 < alignment → alignment ≤ 16 → alignment ∣ 16) := by
  have hand : alignment &&& (alignment - 1) = 0 := by simpa [Allocator.crooked] using h
  refine ⟨fun hbig => ?_, fun hpos hsmall => ?_⟩
  · by_contra hodd
    -- both numbers have the same upper bits, and these are not all zero
    have hupper : (alignment >>> 4) &&& ((alignment - 1) >>> 4) = 0 := by
      rw [← shiftRight_and_distrib, hand]
      rfl
    rw [shiftRight_eq_div_pow, shiftRight_eq_div_pow] at hupper
    rw [show (alignment - 1) / 2 ^ 4 = alignment / 2 ^ 4 by omega, Nat.and_self] at hupper
    omega
  · have hall : ∀ n < 17, 0 < n → n &&& (n - 1) = 0 → n ∣ 16 := by decide
    exact hall alignment (by omega) hpos hand

theorem Placed.aligned (h : Placed s blocks total p s' blocks' b) : 16 ∣ p := by
  have haddr := h.whole.heap.aligned h.mem.1
  rw [h.pointer]
  omega

theorem Whole.allocate_power (h : Whole s blocks) (size : Nat) (hpos : 0 < alignment)
    (hpower : Allocator.crooked alignment = false) :
    Allocates s blocks size (fun p _ => alignment ∣ p) (s.allocateAligned alignment size) := by
  obtain ⟨hbig, hsmall⟩ := crooked_spec hpower
  obtain ⟨p, s', hcall, hresult⟩ := h.allocateAligned size hbig
  refine ⟨p, s', hcall, hresult.imp_right ?_⟩
  rintro ⟨blocks', b, hplaced, hdvd⟩
  refine ⟨blocks', b, hplaced, ?_⟩
  by_cases hcase : 16 < alignment
  · exact hdvd hcase
  · exact Nat.dvd_trans (hsmall hpos (by omega)) hplaced.aligned

theorem Whole.alignedAlloc (h : Whole s blocks) (alignment size : Nat) :
    Allocates s blocks size (fun p _ => alignment ∣ p) (s.alignedAlloc alignment size) := by
  unfold Allocator.alignedAlloc
  split
  · exact ⟨0, _, rfl, .inl ⟨rfl, setErrno_failed s einval⟩⟩
  · next hok =>
    simp only [not_or, Bool.not_eq_true] at hok
    exact h.allocate_power size (by omega) hok.2.1

theorem Placed.setErrno (h : Placed s blocks total p s' blocks' b) (value : Nat) :
    Placed s blocks total p (s'.setErrno value) blocks' b := by
  have hfailed := setErrno_failed s' value
  refine { h with
    whole := ⟨h.whole.heap.failed hfailed, h.whole.clean⟩
    untouched := fun c hc => ?_ }
  refine (h.untouched c hc).trans fun x hx _ => hfailed.mem x ?_
  have hmem : c ∈ useds blocks' := h.perm.mem_iff.mpr (mem_cons_of_mem b hc)
  have hlo := (h.whole.heap.bounds (mem_useds.mp hmem).1).1
  have hword := h.whole.heap.errno
  omega

theorem Whole.posixMemalign (h : Whole s blocks) (alignment size : Nat) :
    ∃ r s', s.posixMemalign alignment size = some (r, s') ∧ ((∃ e, r = .error e ∧ Failed s s') ∨
        ∃ p blocks' b, r = .ok p ∧ Placed s blocks (totalFor size) p s' blocks' b ∧
          alignment ∣ p) := by
  unfold Allocator.posixMemalign
  split
  · exact ⟨_, s, rfl, .inl ⟨einval, rfl, .refl s⟩⟩
  next hok =>
  simp only [not_or, Bool.not_eq_true] at hok
  obtain ⟨p, t, hcall, hresult⟩ := h.allocate_power size (by omega) hok.2
  rw [hcall]
  dsimp only
  generalize (if s.errnoAddress ≠ 0 then load s.mem s.errnoAddress else 0) = saved
  rcases hresult with ⟨rfl, hfailed⟩ | ⟨blocks', b, hplaced, hdvd⟩
  · exact ⟨_, _, rfl, .inl ⟨enomem, rfl, hfailed.trans (setErrno_failed t saved)⟩⟩
  · have hp := hplaced.pointer
    rw [if_neg (by omega)]
    exact ⟨_, _, rfl, .inr ⟨p, blocks', b, rfl, hplaced.setErrno saved, hdvd⟩⟩

end Waste.Libc
