import Waste.Libc.Interface

/-!
# Every sequence of allocator calls

The guest calls the functions of the allocator and writes into its live blocks.  `live` are
the allocations that the guest holds: a pointer, the size and the alignment it asked for.
`HeapReach` are the states that come up, from `waste_allocator_init` on.
-/

namespace Waste.Libc

open Allocator (totalFor)
open ByteMemory DoublyLinked List Prod

variable {requested pointer : Nat}

structure Live where
  pointer : Nat
  size : Nat
  alignment : Nat

/-- A byte that the guest may write. -/
def Live.Has (v : Live) (s : Allocator) (x : Nat) : Prop :=
  v.pointer ≤ x ∧ x < v.pointer + s.usableSize v.pointer

inductive HeapCall
  | malloc (requested : Nat)
  | calloc (count size : Nat)
  | realloc (pointer requested : Nat)
  | free (pointer : Nat)
  | alignedAlloc (alignment size : Nat)
  | posixMemalign (alignment size : Nat)

namespace HeapCall

/-- The call, with the pointer that it hands out; 0 when it hands out none. -/
def perform : HeapCall → Allocator → Option (Nat × Allocator)
  | malloc requested, s => s.malloc requested
  | calloc count size, s => s.calloc count size
  | realloc pointer requested, s => s.realloc pointer requested
  | free pointer, s => some (0, s.free pointer)
  | alignedAlloc alignment size, s => s.alignedAlloc alignment size
  | posixMemalign alignment size, s =>
    match s.posixMemalign alignment size with
    | some (.ok p, s) => some (p, s)
    | some (.error _, s) => some (0, s)
    | none => none

/-- `free` and `realloc` get a null pointer or a live one. -/
def Valid (live : List Live) : HeapCall → Prop
  | realloc pointer _ | free pointer => pointer = 0 ∨ pointer ∈ live.map Live.pointer
  | _ => True

/-- The pointer that a call gives up, or 0. -/
def released (p : Nat) : HeapCall → Nat
  | free pointer => pointer
  | realloc pointer requested => if p ≠ 0 ∨ requested = 0 then pointer else 0
  | _ => 0

/-- What the guest asked for. -/
def asked (p : Nat) : HeapCall → Live
  | malloc requested | realloc _ requested => ⟨p, requested, 16⟩
  | calloc count size => ⟨p, count * size, 16⟩
  | alignedAlloc alignment size | posixMemalign alignment size => ⟨p, size, alignment⟩
  | free _ => ⟨p, 0, 1⟩

def after (p : Nat) (c : HeapCall) (live : List Live) : List Live :=
  (if p = 0 then [] else [c.asked p]) ++ live.filter (·.pointer ≠ c.released p)

/-- The call was to hand out memory, and did not. -/
def Fails (p : Nat) : HeapCall → Prop
  | free _ => False
  | realloc pointer requested => p = 0 ∧ (pointer = 0 ∨ requested ≠ 0)
  | _ => p = 0

end HeapCall

/-- The states from `waste_allocator_init` on. -/
inductive HeapReach : Allocator → List Live → Prop
  | start {s s' : Allocator} {base : Nat} (hinit : s.init base = (true, s'))
    (hbase : s'.heapBase ≠ 0) : HeapReach s' []
  | call {s s' : Allocator} {live : List Live} {c : HeapCall} {p : Nat} (h : HeapReach s live)
    (hvalid : c.Valid live) (hcall : c.perform s = some (p, s')) : HeapReach s' (c.after p live)
  | write {s : Allocator} {live : List Live} {m : Bytes} (h : HeapReach s live)
    (hmem : ∀ x, s.heapBase ≤ x → x < s.programBreak → (∀ v ∈ live, ¬v.Has s x) → m x = s.mem x) :
    HeapReach { s with mem := m } live

/-- The allocations of the guest are the blocks in use. -/
structure Tracks (live : List Live) (blocks : List Block) : Prop where
  pointers : (live.map Live.pointer).Perm ((useds blocks).map (·.addr + 16))
  fits : ∀ v ∈ live, ∀ b ∈ useds blocks, b.addr + 16 = v.pointer →
    v.size + 20 ≤ b.size ∧ v.alignment ∣ v.pointer

/-- What a call does to the contents of the allocations. -/
structure Careful (s : Allocator) (live : List Live) (c : HeapCall) (p : Nat) (s' : Allocator) :
    Prop where
  contents : ∀ v ∈ live, v.pointer ≠ c.released p → ∀ x, v.Has s x → s'.mem x = s.mem x
  moved : ∀ q n, c = .realloc q n → p ≠ 0 → ∀ i < s.usableSize q, i < n →
    s'.mem (p + i) = s.mem (q + i)
  zeroed : ∀ k n, c = .calloc k n → p ≠ 0 → ∀ i < k * n, s'.mem (p + i) = 0
  failed : c.Fails p → Failed s s'

variable {s s' : Allocator} {live : List Live} {blocks blocks' rest : List Block} {b : Block}
  {c : HeapCall} {base p total : Nat}

/-! ## The start -/

theorem init_cases (h : s.init base = (true, s')) :
    s'.initialized = true ∧ s'.errnoAddress = add32 base 3 / 4 * 4 ∧
      s'.heapBase = align16 (add32 (add32 base 3 / 4 * 4) 4) ∧ s'.programBreak = s'.heapBase ∧
      s'.freeHead = 0 ∧ s'.heapBase ≤ s'.pages * pageSize := by
  unfold Allocator.init at h
  dsimp only at h
  split at h
  · exact absurd (congrArg fst h) (by simp)
  rcases ensureCapacity_spec (align16 (add32 (add32 base 3 / 4 * 4) 4)) s with
    ⟨t, n, hrun, -, hroom⟩ | ⟨t, hrun, -⟩
  · rw [hrun] at h
    obtain rfl := congrArg snd h
    exact ⟨rfl, rfl, rfl, rfl, rfl, hroom⟩
  · rw [hrun] at h
    exact absurd (congrArg fst h) (by simp)

theorem heapBase_spec (h : align16 (add32 (add32 base 3 / 4 * 4) 4) ≠ 0) :
    add32 base 3 / 4 * 4 + 4 ≤ align16 (add32 (add32 base 3 / 4 * 4) 4) ∧
      16 ∣ align16 (add32 (add32 base 3 / 4 * 4) 4) := by
  unfold align16 add32 i32 at *
  omega

theorem init_whole (h : s.init base = (true, s')) (hbase : s'.heapBase ≠ 0) : Whole s' [] := by
  obtain ⟨hinit, herrno, hfirst, hbreak, hhead, hroom⟩ := init_cases h
  obtain ⟨hbelow, h16⟩ := heapBase_spec (hfirst ▸ hbase)
  refine ⟨⟨hinit, ⟨by omega, hfirst ▸ h16⟩, hbreak.symm, nofun, fun hne => absurd rfl hne, ?_,
    nofun, IsChain.nil, ⟨[], ⟨Pairwise.nil, nofun, trivial, hhead⟩,
    Perm.refl _⟩, ?_⟩, nofun⟩
  · rw [hbreak]
    exact hroom
  · rw [herrno, hfirst]
    exact hbelow

/-! ## The blocks of the allocations -/

theorem Heap.same_addr {d : Block} (h : Heap s blocks) (hb : b ∈ blocks) (hd : d ∈ blocks)
    (haddr : d.addr = b.addr) : d = b := by
  have hbpos := (h.sound b hb).pos
  have hdpos := (h.sound d hd).pos
  exact h.tiled.unique hb hd ⟨le_refl _, by unfold Block.stop; omega⟩
    ⟨by omega, by unfold Block.stop; omega⟩

theorem Heap.pointers_nodup (h : Heap s blocks) : ((useds blocks).map (·.addr + 16)).Nodup := by
  have hbefore : blocks.Pairwise fun b d => b.addr + 16 ≠ d.addr + 16 := by
    refine h.tiled.pairwise.imp_of_mem fun {b d} hb _ hle => ?_
    have hpos := (h.sound b hb).pos
    unfold Block.stop at hle
    omega
  exact pairwise_map.mpr (hbefore.sublist filter_sublist)

theorem Tracks.block (h : Tracks live blocks) (hp : p ∈ live.map Live.pointer) :
    ∃ b ∈ useds blocks, b.addr + 16 = p := by
  obtain ⟨b, hb, rfl⟩ := mem_map.mp (h.pointers.mem_iff.mp hp)
  exact ⟨b, hb, rfl⟩

theorem Whole.usableSize (h : Whole s blocks) (hb : b ∈ useds blocks) :
    s.usableSize (b.addr + 16) = b.size - 20 := by
  obtain ⟨hmem, -⟩ := mem_useds.mp hb
  obtain ⟨hheader, -, -⟩ := h.heap.tags hmem (h.clean b hmem)
  obtain ⟨-, hwrap⟩ := h.heap.no_wrap hmem
  have hmin := (h.heap.sound b hmem).min (h.clean b hmem)
  unfold Allocator.usableSize
  rw [if_neg (by omega), sub32_header (by omega), hheader, sub32_eq (by omega) (by omega)]

/-- The bytes of an allocation are the data of its block. -/
theorem Whole.has_iff (h : Whole s blocks) (hb : b ∈ useds blocks) {v : Live}
    (hv : b.addr + 16 = v.pointer) {x : Nat} : v.Has s x ↔ b.Data x := by
  unfold Live.Has Block.Data Block.stop
  rw [← hv, h.usableSize hb]
  omega

/-! ## What a call exchanges -/

/-- A block in use goes, or none, a block comes, or none, and the rest stays. -/
structure Exchanged (s : Allocator) (blocks : List Block) (gone : Option Block) (s' : Allocator)
    (blocks' : List Block) (new : Option Block) (rest : List Block) : Prop where
  whole : Whole s' blocks'
  before : (useds blocks).Perm (gone.toList ++ rest)
  after : (useds blocks').Perm (new.toList ++ rest)
  untouched : ∀ d ∈ rest, SameOn s.mem s'.mem d.addr d.stop

def pointerOf (o : Option Block) : Nat := o.elim 0 (·.addr + 16)

theorem Placed.exchanged (h : Placed s blocks total p s' blocks' b) :
    Exchanged s blocks none s' blocks' (some b) (useds blocks) :=
  ⟨h.whole, Perm.refl _, h.perm, h.untouched⟩

theorem Freed.exchanged (h : Freed s blocks b s' blocks') :
    Exchanged s blocks (some b) s' blocks' none (useds blocks') :=
  ⟨h.whole, h.perm, Perm.refl _, h.untouched⟩

theorem Moved.exchanged {d : Block} (h : Moved s blocks b requested p s' blocks' d rest) :
    Exchanged s blocks (some b) s' blocks' (some d) rest :=
  { h with }

variable {gone new : Option Block} {entries : List Live}

theorem Exchanged.remaining (h : Exchanged s blocks gone s' blocks' new rest) (hs : Whole s blocks)
    (ht : Tracks live blocks) :
    ((live.filter (·.pointer ≠ pointerOf gone)).map Live.pointer).Perm
    (rest.map (·.addr + 16)) := by
  have hpointers : (live.map Live.pointer).Perm ((gone.toList ++ rest).map (·.addr + 16)) :=
    ht.pointers.trans (h.before.map _)
  have hnodup : ((gone.toList ++ rest).map (·.addr + 16)).Nodup :=
    (h.before.map _).nodup_iff.mp hs.heap.pointers_nodup
  have hfilter : (live.filter (·.pointer ≠ pointerOf gone)).map Live.pointer =
      (live.map Live.pointer).filter (· ≠ pointerOf gone) := by
    rw [filter_map]
    rfl
  rw [hfilter]
  refine (hpointers.filter _).trans (Perm.of_eq ?_)
  cases gone with
  | none =>
    refine filter_eq_self.mpr fun q hq => ?_
    obtain ⟨d, -, rfl⟩ := mem_map.mp hq
    simp [pointerOf]
  | some b =>
    have hfresh : b.addr + 16 ∉ rest.map (·.addr + 16) := (nodup_cons.mp hnodup).1
    show filter _ ((b.addr + 16) :: rest.map (·.addr + 16)) = _
    rw [filter_cons_of_neg (by simp [pointerOf])]
    refine filter_eq_self.mpr fun q hq => ?_
    have hne : q ≠ b.addr + 16 := fun heq => hfresh (heq ▸ hq)
    exact decide_eq_true hne

section

variable (h : Tracks live blocks)
include h

theorem Tracks.exchange (hs : Whole s blocks) (hex : Exchanged s blocks gone s' blocks' new rest)
    (hentries : entries.map Live.pointer = new.toList.map (·.addr + 16))
    (hfits : ∀ v ∈ entries, ∀ d ∈ new, v.size + 20 ≤ d.size ∧ v.alignment ∣ v.pointer) :
    Tracks (entries ++ live.filter (·.pointer ≠ pointerOf gone)) blocks' := by
  have hremaining := hex.remaining hs h
  -- blocks of the new heap are known by their pointer
  have hsame : ∀ d ∈ new.toList ++ rest, ∀ e ∈ new.toList ++ rest, d.addr + 16 =
      e.addr + 16 → d = e := by
    intro d hd e he heq
    obtain ⟨hd', -⟩ := mem_useds.mp (hex.after.mem_iff.mpr hd)
    obtain ⟨he', -⟩ := mem_useds.mp (hex.after.mem_iff.mpr he)
    exact hex.whole.heap.same_addr he' hd' (by omega)
  refine ⟨?_, fun v hv d hd hpointer => ?_⟩
  · rw [map_append, hentries]
    refine Perm.trans ?_ (hex.after.map _).symm
    rw [map_append]
    exact hremaining.append_left _
  have hd := hex.after.mem_iff.mp hd
  rcases mem_append.mp hv with hv | hv
  · have hplace : v.pointer ∈ new.toList.map (·.addr + 16) := hentries ▸ mem_map_of_mem hv
    obtain ⟨e, he, heq⟩ := mem_map.mp hplace
    obtain rfl := hsame d hd e (mem_append_left _ he) (hpointer.trans heq.symm)
    exact hfits v hv d (Option.mem_toList.mp he)
  · have hplace := hremaining.mem_iff.mp (mem_map_of_mem hv)
    obtain ⟨e, he, heq⟩ := mem_map.mp hplace
    obtain rfl := hsame d hd e (mem_append_right _ he) (hpointer.trans heq.symm)
    exact h.fits v (mem_filter.mp hv).1 d (hex.before.mem_iff.mpr (mem_append_right _ he)) hpointer

omit h in
theorem Exchanged.contents (hex : Exchanged s blocks gone s' blocks' new rest) (hs : Whole s blocks)
    (h : Tracks live blocks) {v : Live} (hv : v ∈ live) (hne : v.pointer ≠ pointerOf gone) {x : Nat}
    (hx : v.Has s x) : s'.mem x = s.mem x := by
  obtain ⟨b, hb, hpointer⟩ := h.block (mem_map_of_mem hv)
  rcases mem_append.mp (hex.before.mem_iff.mp hb) with hgone | hrest
  · obtain rfl := Option.mem_toList.mp hgone
    exact absurd hpointer.symm hne
  · have hdata := (hs.has_iff hb hpointer).mp hx
    unfold Block.Data at hdata
    exact hex.untouched b hrest x (by omega) (by omega)

/-! ## Every call -/

/-- What the theorem below says of a call. -/
def Goes (s : Allocator) (live : List Live) (c : HeapCall) (p : Nat) (s' : Allocator) : Prop :=
  Careful s live c p s' ∧ ∃ blocks', Whole s' blocks' ∧ Tracks (c.after p live) blocks'

section

variable (hs : Whole s blocks)
include hs

theorem Tracks.failed (hfailed : Failed s s') (hreleased : c.released 0 = 0) :
    Goes s live c 0 s' := by
  have hpos : ∀ v ∈ live, v.pointer ≠ 0 := by
    intro v hv
    obtain ⟨b, -, hb⟩ := h.block (mem_map_of_mem hv)
    omega
  refine ⟨⟨fun v hv _ x hx => hfailed.mem x ?_, fun _ _ _ hp => absurd rfl hp,
    fun _ _ _ hp => absurd rfl hp, fun _ => hfailed⟩, blocks,
      ⟨hs.heap.failed hfailed, hs.clean⟩, ?_⟩
  · obtain ⟨b, hb, hpointer⟩ := h.block (mem_map_of_mem hv)
    have hdata := (hs.has_iff hb hpointer).mp hx
    have hlo := (hs.heap.bounds (mem_useds.mp hb).1).1
    have herrno := hs.heap.errno
    unfold Block.Data at hdata
    omega
  · have hall : live.filter (·.pointer ≠ c.released 0) = live := by
      refine filter_eq_self.mpr fun v hv => ?_
      rw [hreleased]
      exact decide_eq_true (hpos v hv)
    unfold HeapCall.after
    rw [if_pos rfl, hall]
    exact h

/-- A call that hands out a block, or gives one up. -/
theorem Tracks.exchanged (hex : Exchanged s blocks gone s' blocks' new rest)
    (hgone : c.released p = pointerOf gone) (hnew : p = pointerOf new)
    (hfits : ∀ d ∈ new, (c.asked p).pointer =
      p ∧ (c.asked p).size + 20 ≤ d.size ∧ (c.asked p).alignment ∣ p)
    (hmoved : ∀ q n, c = .realloc q n → p ≠ 0 → ∀ i < s.usableSize q, i < n → s'.mem (p + i) =
      s.mem (q + i)) (hzeroed : ∀ k n, c = .calloc k n → p ≠ 0 → ∀ i < k * n, s'.mem (p + i) = 0)
    (hfails : ¬c.Fails p) : Goes s live c p s' := by
  refine ⟨⟨fun v hv hne x hx => hex.contents hs h hv (hgone ▸ hne) hx, hmoved, hzeroed,
    fun hfail => absurd hfail hfails⟩, blocks', hex.whole, ?_⟩
  unfold HeapCall.after
  rw [hgone]
  cases new with
  | none =>
    obtain rfl : p = 0 := hnew
    exact h.exchange hs hex rfl nofun
  | some d =>
    obtain ⟨hpointer, hsize, hdvd⟩ := hfits d rfl
    obtain rfl : p = d.addr + 16 := hnew
    refine h.exchange hs hex ?_ fun v hv e he => ?_
    · show [(c.asked (d.addr + 16)).pointer] = _
      rw [hpointer]
      rfl
    · obtain rfl := mem_singleton.mp hv
      obtain rfl : d = e := Option.some.inj he
      rw [hpointer]
      exact ⟨hsize, hdvd⟩

theorem Tracks.placed (hplaced : Placed s blocks (totalFor (c.asked p).size) p s' blocks' b)
    (hgone : c.released p = 0) (hpointer : (c.asked p).pointer = p)
    (hdvd : (c.asked p).alignment ∣ p) (hmoved : ∀ q n, c = .realloc q n → s.usableSize q = 0)
    (hzeroed : ∀ k n, c = .calloc k n → ∀ i < k * n, s'.mem (p + i) = 0)
    (hfails : p ≠ 0 → ¬c.Fails p) : Goes s live c p s' := by
  have hp := hplaced.pointer
  obtain ⟨-, -, htotal⟩ := totalFor_spec (c.asked p).size
  have hroom := hplaced.room
  refine h.exchanged hs hplaced.exchanged hgone hp (fun d hd => ?_) (fun q n hc _ i hi => ?_)
    (fun k n hc _ => hzeroed k n hc) (hfails (by omega))
  · obtain rfl : b = d := Option.some.inj hd
    exact ⟨hpointer, by omega, hdvd⟩
  · rw [hmoved q n hc] at hi
    exact absurd hi (Nat.not_lt_zero i)

theorem Tracks.malloc (requested : Nat) (hc : c = .malloc requested ∨ c = .realloc 0 requested) :
    ∃ p s', s.malloc requested = some (p, s') ∧ Goes s live c p s' := by
  obtain ⟨p, s', hcall, ⟨rfl, hfailed⟩ | ⟨blocks', b, hplaced⟩⟩ := hs.malloc requested
  · refine ⟨0, s', hcall, h.failed hs hfailed ?_⟩
    rcases hc with rfl | rfl
    · rfl
    · exact ite_self 0
  refine ⟨p, s', hcall, ?_⟩
  rcases hc with rfl | rfl
  · exact h.placed hs hplaced rfl rfl hplaced.aligned nofun nofun fun hp => hp
  · refine h.placed hs hplaced (ite_self 0) rfl hplaced.aligned (fun q n hq => ?_) nofun
      fun hp hfail => hp hfail.1
    obtain ⟨rfl, -⟩ := HeapCall.realloc.inj hq
    rfl

theorem Tracks.realloc (hvalid : pointer = 0 ∨ pointer ∈ live.map Live.pointer) :
    ∃ p s', s.realloc pointer requested = some (p, s') ∧
      Goes s live (.realloc pointer requested) p s' := by
  rcases hvalid with rfl | hlive
  · exact h.malloc hs requested (.inr rfl)
  obtain ⟨b, hb, rfl⟩ := h.block hlive
  by_cases hrequested : requested = 0
  · -- nothing is asked for: the block is freed
    subst hrequested
    obtain ⟨blocks', hfreed⟩ := hs.free hb
    refine ⟨0, _, rfl, h.exchanged hs hfreed.exchanged rfl rfl nofun (fun _ _ _ hp => absurd rfl hp)
      (fun _ _ _ hp => absurd rfl hp) ?_⟩
    rintro ⟨-, hzero | hne⟩
    · exact absurd hzero (by omega)
    · exact hne rfl
  · obtain ⟨p, s', hcall, ⟨rfl, hfailed⟩ | ⟨blocks', d, rest, hmoved⟩⟩ := hs.realloc hb hrequested
    · refine ⟨0, s', hcall, h.failed hs hfailed ?_⟩
      exact if_neg (by simp [hrequested])
    have hp := hmoved.pointer
    obtain ⟨-, -, htotal⟩ := totalFor_spec requested
    have hroom := hmoved.room
    have hd16 := hmoved.whole.heap.aligned (mem_useds.mp (hmoved.after.mem_iff.mpr mem_cons_self)).1
    refine ⟨p, s', hcall, h.exchanged hs hmoved.exchanged (if_pos (.inl (by omega))) hp
      (fun e he => ?_) (fun q n hc _ => ?_) nofun fun hfail => absurd hfail.1 (by omega)⟩
    · obtain rfl : d = e := Option.some.inj he
      refine ⟨rfl, ?_, ?_⟩
      · show requested + 20 ≤ d.size
        omega
      · show 16 ∣ p
        omega
    · obtain ⟨rfl, rfl⟩ := HeapCall.realloc.inj hc
      rw [hs.usableSize hb]
      exact hmoved.copied

theorem Tracks.free (hvalid : pointer = 0 ∨ pointer ∈ live.map Live.pointer) :
    Goes s live (.free pointer) 0 (s.free pointer) := by
  rcases hvalid with rfl | hlive
  · have hsame : Exchanged s blocks none s blocks none (useds blocks) :=
      ⟨hs, Perm.refl _, Perm.refl _, fun d _ => .refl s.mem _ _⟩
    exact h.exchanged hs hsame rfl rfl nofun nofun
      nofun fun hfail => hfail
  · obtain ⟨b, hb, rfl⟩ := h.block hlive
    obtain ⟨blocks', hfreed⟩ := hs.free hb
    exact h.exchanged hs hfreed.exchanged rfl rfl nofun nofun
      nofun fun hfail => hfail

/-- Every call returns, and keeps the books. -/
theorem Tracks.call (hvalid : c.Valid live) :
    ∃ p s', c.perform s = some (p, s') ∧ Goes s live c p s' := by
  cases c with
  | malloc requested => exact h.malloc hs requested (.inl rfl)
  | calloc count size =>
    obtain ⟨p, s', hcall, ⟨rfl, hfailed⟩ | ⟨blocks', b, hplaced, hzero⟩⟩ := hs.calloc count size
    · exact ⟨0, s', hcall, h.failed hs hfailed rfl⟩
    · refine ⟨p, s', hcall, h.placed hs hplaced rfl rfl hplaced.aligned nofun (fun k n hk => ?_)
        fun hp => hp⟩
      obtain ⟨rfl, rfl⟩ := HeapCall.calloc.inj hk
      exact hzero
  | realloc pointer requested => exact h.realloc hs hvalid
  | free pointer => exact ⟨0, _, rfl, h.free hs hvalid⟩
  | alignedAlloc alignment size =>
    obtain ⟨p, s', hcall, ⟨rfl, hfailed⟩ | ⟨blocks', b, hplaced, hdvd⟩⟩ :=
      hs.alignedAlloc alignment size
    · exact ⟨0, s', hcall, h.failed hs hfailed rfl⟩
    · exact ⟨p, s', hcall, h.placed hs hplaced rfl rfl hdvd nofun nofun fun hp => hp⟩
  | posixMemalign alignment size =>
    obtain ⟨r, s', hcall, ⟨e, rfl, hfailed⟩ | ⟨p, blocks', b, rfl, hplaced, hdvd⟩⟩ :=
      hs.posixMemalign alignment size
    · refine ⟨0, s', ?_, h.failed hs hfailed rfl⟩
      simp only [HeapCall.perform, hcall]
    · refine ⟨p, s', ?_, h.placed hs hplaced rfl rfl hdvd nofun nofun fun hp => hp⟩
      simp only [HeapCall.perform, hcall]

end

/-! ## Every run -/

omit h in
theorem HeapReach.tracks (h : HeapReach s live) :
    ∃ blocks, Whole s blocks ∧ Tracks live blocks := by
  induction h with
  | start hinit hbase => exact ⟨[], init_whole hinit hbase, Perm.refl _, nofun⟩
  | call h hvalid hcall ih =>
    obtain ⟨blocks, hs, htracks⟩ := ih
    obtain ⟨p', t, hcall', -, hafter⟩ := htracks.call hs hvalid
    obtain ⟨rfl, rfl⟩ := mk.inj (Option.some.inj (hcall.symm.trans hcall'))
    exact hafter
  | write h hmem ih =>
    obtain ⟨blocks, hs, htracks⟩ := ih
    refine ⟨blocks, ⟨hs.heap.rewrite ⟨_, _, _, _, rfl⟩ (le_refl _) fun x hx hx' hnone => ?_,
      hs.clean⟩, htracks⟩
    refine hmem x hx hx' fun v hv hhas => ?_
    obtain ⟨b, hb, hpointer⟩ := htracks.block (mem_map_of_mem hv)
    obtain ⟨hbmem, hused⟩ := mem_useds.mp hb
    exact hnone b hbmem hused ((hs.has_iff hb hpointer).mp hhas)

theorem Tracks.disjoint (hs : Whole s blocks) :
    live.Pairwise fun v w => ∀ x, v.Has s x → ¬w.Has s x := by
  have hnodup : live.Pairwise fun v w => v.pointer ≠ w.pointer :=
    pairwise_map.mp (h.pointers.nodup_iff.mpr hs.heap.pointers_nodup)
  refine hnodup.imp_of_mem fun {v w} hv hw hne x hvx hwx => hne ?_
  obtain ⟨b, hb, hbv⟩ := h.block (mem_map_of_mem hv)
  obtain ⟨d, hd, hdw⟩ := h.block (mem_map_of_mem hw)
  have hbx := (hs.has_iff hb hbv).mp hvx
  have hdx := (hs.has_iff hd hdw).mp hwx
  unfold Block.Data at hbx hdx
  obtain rfl := hs.heap.tiled.unique (x := x) (mem_useds.mp hb).1 (mem_useds.mp hd).1
    (by omega) (by omega)
  omega

end

/-- The heap of the guest is in order after every sequence of calls, and every next call
keeps what the guest has.  A call that fails may still have added pages. -/
theorem heap_in_order (h : HeapReach s live) :
    (∃ blocks, Whole s blocks ∧ Tracks live blocks) ∧
      (live.Pairwise fun v w => ∀ x, v.Has s x → ¬w.Has s x) ∧
      (∀ v ∈ live, v.size ≤ s.usableSize v.pointer ∧ 16 ∣ v.pointer ∧ v.alignment ∣ v.pointer) ∧
      ∀ c : HeapCall, c.Valid live → ∃ p s', c.perform s = some (p, s') ∧
      Careful s live c p s' := by
  obtain ⟨blocks, hs, htracks⟩ := h.tracks
  refine ⟨⟨blocks, hs, htracks⟩, htracks.disjoint hs, fun v hv => ?_, fun c hvalid => ?_⟩
  · obtain ⟨b, hb, hpointer⟩ := htracks.block (mem_map_of_mem hv)
    obtain ⟨hfits, hdvd⟩ := htracks.fits v hv b hb hpointer
    have haddr := hs.heap.aligned (mem_useds.mp hb).1
    refine ⟨?_, by omega, hdvd⟩
    rw [← hpointer, hs.usableSize hb]
    omega
  · obtain ⟨p, s', hcall, hcareful, -⟩ := htracks.call hs hvalid
    exact ⟨p, s', hcall, hcareful⟩

/-- The allocator before it is initialized, in a memory of one page. -/
def blank (granted : Nat → Bool) : Allocator where
  mem := fun _ => 0
  pages := 1
  granted
  requests := 0
  initialized := false
  errnoAddress := 0
  heapBase := 0
  programBreak := 0
  freeHead := 0
  growCalls := 0

theorem blank_reach {granted : Nat → Bool} : HeapReach ((blank granted).init 1024).2 [] := by
  have hinit : (blank granted).init 1024 = (true, ((blank granted).init 1024).2) := rfl
  exact .start hinit (show 1040 ≠ 0 by decide)

/-- Two blocks, one behind the other. -/
theorem heap_in_order_block : ∃ s, HeapReach s [⟨1104, 40, 16⟩, ⟨1056, 24, 16⟩] ∧
    (∃ blocks, Whole s blocks ∧ Tracks [⟨1104, 40, 16⟩, ⟨1056, 24, 16⟩] blocks) ∧
    ∀ x, Live.Has ⟨1104, 40, 16⟩ s x → ¬Live.Has ⟨1056, 24, 16⟩ s x := by
  have hrun : (((blank fun _ => true).init 1024).2.malloc 24).bind (fun r =>
      (r.2.malloc 40).map fun q => (r.1, q.1)) = some (1056, 1104) := by decide +kernel
  obtain ⟨⟨p, s⟩, hfirst, hrest⟩ := Option.bind_eq_some_iff.mp hrun
  obtain ⟨⟨q, s'⟩, hsecond, hpair⟩ := Option.map_eq_some_iff.mp hrest
  obtain ⟨rfl, rfl⟩ := mk.inj hpair
  have hone : HeapReach s [⟨1056, 24, 16⟩] := .call (c := .malloc 24) blank_reach trivial hfirst
  have htwo : HeapReach s' [⟨1104, 40, 16⟩, ⟨1056, 24, 16⟩] :=
    .call (c := .malloc 40) hone trivial hsecond
  obtain ⟨hwhole, hapart, -⟩ := heap_in_order htwo
  exact ⟨s', htwo, hwhole, rel_of_pairwise_cons hapart (mem_singleton.mpr rfl)⟩

/-- The memory may grow by one page, and `malloc` asks for more: it fails, and the page stays. -/
theorem failed_malloc_adds_page :
    ∃ s s', HeapReach s [] ∧ (HeapCall.malloc 200000).perform s = some (0, s') ∧ s.pages = 1 ∧
      s'.pages = 2 := by
  have hrun : ((((blank fun n => n == 0).init 1024).2.malloc 200000).map fun r =>
      (r.1, r.2.pages)) = some (0, 2) := by
    decide +kernel
  obtain ⟨⟨p, s'⟩, hcall, hresult⟩ := Option.map_eq_some_iff.mp hrun
  obtain ⟨rfl, hpages⟩ := mk.inj hresult
  exact ⟨_, s', blank_reach, hcall, rfl, hpages⟩

/-- Two free blocks are never neighbours: when nothing is in use, one block is the heap. -/
theorem HeapReach.freed (h : HeapReach s []) (hgrown : s.heapBase < s.programBreak) :
    ∃ b, Whole s [b] ∧ b.kind = .free ∧ b.addr = s.heapBase ∧ b.stop = s.programBreak := by
  obtain ⟨blocks, hs, htracks⟩ := h.tracks
  have hfree : ∀ b ∈ blocks, b.kind = .free := by
    intro b hb
    by_contra hkind
    have hused := mem_useds.mpr ⟨hb, Kind.eq_used (hs.clean b hb) hkind⟩
    simpa using htracks.pointers.mem_iff.mpr (mem_map_of_mem hused)
  rcases blocks with _ | ⟨b, _ | ⟨c, rest⟩⟩
  · exact absurd hs.heap.tiled hgrown.ne
  · exact ⟨b, hs, hfree b mem_cons_self, hs.heap.tiled⟩
  · exact absurd ⟨hfree b (by simp), hfree c (by simp)⟩ (isChain_cons_cons.mp hs.heap.separate).1

/-- After the guest has freed all it had, the heap is one free block, and a request that fits
between the base of the heap and the break is served from the base; the heap does not grow. -/
theorem freed_heap_reused (requested : Nat) (h : HeapReach s [])
    (hfits : s.heapBase + totalFor requested ≤ s.programBreak) :
    (∃ b, Whole s [b] ∧ b.kind = .free ∧ b.addr = s.heapBase ∧ b.stop = s.programBreak) ∧
      ∃ s', s.malloc requested = some (s.heapBase + 16, s') ∧ SameHeap s s' := by
  obtain ⟨hdvd, hmin, -⟩ := totalFor_spec requested
  have hblock := h.freed (by omega)
  obtain ⟨b, hs, hfree, haddr, hstop⟩ := id hblock
  obtain ⟨l, hl, hperm⟩ := hs.heap.listed
  obtain rfl : l = [b.addr] := by simpa [frees, hfree] using hperm
  have hhead : s.freeHead = b.addr := hl.head
  obtain ⟨hpos, hwrap⟩ := hs.heap.no_wrap mem_cons_self
  have hsize := (hs.heap.tags mem_cons_self (hs.clean b mem_cons_self)).1
  have hroom : totalFor requested ≤ b.size := by
    unfold Block.stop at hstop
    omega
  have hfound : Allocator.findFit s.mem (totalFor requested) (s.programBreak + 1) s.freeHead =
      some b.addr := by
    rw [hhead, Allocator.findFit, if_neg hpos.ne', hsize, signed_eq (by omega),
      signed_eq (by omega), if_pos (by exact_mod_cast hroom)]
  have htaken : ∃ s', s.takeFree b.addr (totalFor requested) = (s.heapBase + 16, s') ∧
      SameHeap s s' := by
    have hremoved := removeFree_sameHeap s b.addr
    rw [takeFree_eq hsize hwrap (by omega) hroom, ← haddr]
    split_ifs
    · exact ⟨_, rfl, ((hremoved.trans (writeBlock_sameHeap ..)).trans
        (writeBlock_sameHeap ..)).trans (sameHeap_of_mem ..)⟩
    · exact ⟨_, rfl, hremoved.trans (writeBlock_sameHeap ..)⟩
  obtain ⟨s', htake, hsame⟩ := htaken
  have hbase := hs.heap.base
  refine ⟨hblock, s', ?_, hsame⟩
  simp only [Allocator.malloc, hs.heap.initialized, hfound]
  rw [if_neg (by simp), if_neg (by omega), if_neg hpos.ne', htake]

/-- A block is taken, given back and taken again. -/
theorem freed_heap_reused_block :
    ∃ s s', HeapReach s [] ∧ s.malloc 24 = some (1056, s') ∧ SameHeap s s' := by
  have hrun : ((((blank fun _ => true).init 1024).2.malloc 24).map fun r =>
      (r.1, (r.2.free 1056).heapBase, (r.2.free 1056).programBreak)) = some (1056, 1040, 1088) := by
    decide +kernel
  obtain ⟨⟨p, s⟩, hcall, hresult⟩ := Option.map_eq_some_iff.mp hrun
  obtain ⟨rfl, hends⟩ := mk.inj hresult
  obtain ⟨hbase, hbreak⟩ := mk.inj hends
  have hreach : HeapReach s [⟨1056, 24, 16⟩] := .call (c := .malloc 24) blank_reach trivial hcall
  have hfreed : HeapReach (s.free 1056) [] :=
    .call (c := .free 1056) hreach (.inr mem_cons_self) rfl
  have hagain := freed_heap_reused 24 hfreed (by
    rw [hbase, hbreak]
    decide)
  rw [hbase] at hagain
  obtain ⟨-, s', hmalloc, hsame⟩ := hagain
  exact ⟨_, s', hfreed, hmalloc, hsame⟩

end Waste.Libc
