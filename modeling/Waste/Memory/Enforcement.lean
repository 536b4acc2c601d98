import Waste.Memory.Unreadable

/-!
# Enforcement of page protection

`GuestOp.Enforced` puts together what page protection promises for one instruction
in one state.  `enforced_iff` says for which instructions the promise is kept:
for all but those `memory.fill`s that touch a page without write permission.

The states it speaks about are those of `Proper`, and `proper_run` shows that a
process is never in another one.  The counts of the backing pages are the part of
`Proper` that the mapping operations have to keep.
-/

namespace Waste.Memory

open Function RangeMap StateExcept SharedPages List

variable {s t : Store}
variable {acts : List Act} {dstFirst srcFirst : Nat}

/-! ## The promise -/

/-- A page of the memory may be written and holds the same shared page as the place. -/
def WritableAlias (s : Store) (m : Nat) (y : Nat × Nat) : Prop :=
  ∃ p, Allows (s.memory m) p protWrite ∧ Reaches s (m, p) y

/-- Page protection is enforced for the instruction in the state.  A page without write
permission that cannot be written under another address either keeps its bytes, pages
that may not be read have no influence, and an access without permission ends in a trap
(or in a failed allocation that stops the instruction before that). -/
structure GuestOp.Enforced (op : GuestOp) (s : Store) : Prop where
  writes : ∀ m p, ¬ Allows (s.memory m) p protWrite → ¬ WritableAlias s op.target (m, p) →
    viewOf (exec op.comp s).2 (m, p) = viewOf s (m, p)
  reads : ∀ t, Alike s t → (exec op.comp t).1 = (exec op.comp s).1 ∧
    Alike (exec op.comp s).2 (exec op.comp t).2
  traps : ¬ op.Allowed s → ∃ e, (exec op.comp s).1 = .error e ∧
    (e.status = .trap ∨ e.status = .resource ∧ Refused s)

theorem GuestOp.reads_enforced (hs : Proper s) (op : GuestOp) (h : Alike s t) :
    (exec op.comp t).1 = (exec op.comp s).1 ∧ Alike (exec op.comp s).2 (exec op.comp t).2 := by
  have hrelated := op.relates s t
    ⟨h, hs.described, fun m p id hid => hs.sound.allocated (m, p) id hid⟩
  exact ⟨hrelated.1.symm, hrelated.2.toAlike⟩

variable {op : GuestOp} {f : ExecMemory → ExecMemory} {count dst : Nat} {extra : Nat → Nat}

theorem GuestOp.enforced (hs : Proper s) (hfill : ¬ op.FillsProtected s) : op.Enforced s := by
  have hguarded : Guarded (fun x => x.1 = op.target ∧ Allows (s.memory x.1) x.2 protWrite)
      (op.Allowed s) s (exec op.comp s) :=
    guarded hs (fun p hp => ⟨rfl, hp⟩) hfill
  refine ⟨fun m p _ halias => ?_, fun t h => reads_enforced hs op h, fun hdenied => ?_⟩
  · apply hguarded.effects.frame
    rintro ⟨n, q⟩ ⟨rfl, hallows⟩ hreaches
    exact halias ⟨q, hallows, hreaches⟩
  · cases hr : (exec op.comp s).1 with
    | ok a => exact absurd (hguarded.allowed a hr) hdenied
    | error e => exact ⟨e, rfl, hguarded.failed e hr⟩

theorem GuestOp.FillsProtected.not_enforced (hs : Proper s) (hfill : op.FillsProtected s)
    (hgranted : ¬ Refused s) : ¬ op.Enforced s := by
  intro henforced
  have hdenied : ¬ op.Allowed s := by
    cases op with
    | fill m _ _ n => exact hfill.2
    | _ => exact False.elim hfill
  obtain ⟨e, he, -⟩ := henforced.traps hdenied
  rw [hfill.succeeds hs hgranted] at he
  exact nomatch he

/-! ## The counts of the backing pages -/

/-- The part of `Proper` besides the mapping lists. -/
def Held (s : Store) : Prop :=
  (heap s).Sound ∧ ChecksTrap s

theorem Held.of_steady (hs : Held s) (h : Steady s t) : Held t :=
  ⟨h.sound, h.layout.checksTrap hs.2⟩

/-- A change of one memory that gives it no new page and no new access check. -/
theorem Held.setMemory (hs : Held s) {m : Nat}
    (hdata : ∀ p id, (f (s.memory m)).pageData p = some id → (s.memory m).pageData p = some id)
    (hcheck : ∀ check, (f (s.memory m)).accessCheck = some check →
      ∀ offset length access e, check offset length access = some e → e.status = .trap) :
    Held (setMemory m f s) := by
  have hback : ∀ x id, (heap (Memory.setMemory m f s)).backing x = some id →
      (heap s).backing x = some id := by
    intro x id hx
    have hx' : ((Memory.setMemory m f s).memory x.1).pageData x.2 = some id := hx
    by_cases hm : x.1 = m
    · rw [hm, setMemory_self] at hx'
      show (s.memory x.1).pageData x.2 = some id
      rw [hm]
      exact hdata x.2 id hx'
    · rw [setMemory_ne hm] at hx'
      exact hx'
  refine ⟨hs.1.fewer hback rfl rfl, fun n check hn => ?_⟩
  by_cases hnm : n = m
  · rw [hnm, setMemory_self] at hn
    exact hcheck check hn
  · rw [setMemory_ne hnm] at hn
    exact hs.2 n check hn

/-- The change is one of the mapping list, the protection bytes or the sizes. -/
def Tame (f : ExecMemory → ExecMemory) : Prop :=
  ∀ memory, (∀ p id, (f memory).pageData p = some id → memory.pageData p = some id) ∧
    (f memory).accessCheck = memory.accessCheck

theorem Tame.held (h : Tame f) (hs : Held s) (m : Nat) : Held (setMemory m f s) :=
  hs.setMemory (h _).1 fun check hcheck => hs.2 m check ((h _).2 ▸ hcheck)

theorem fillRange_none {f : Nat → Option Nat} {first p id : Nat}
    (h : fillRange f first count none p = some id) : f p = some id := by
  rw [fillRange_apply] at h
  split at h
  · exact nomatch h
  · exact h

theorem Resizes.tame {pages : Nat} {memory : ExecMemory} (h : Resizes pages memory f) : Tame f := by
  cases h with
  | nothing | into => exact fun _ => ⟨fun _ _ h => h, rfl⟩
  | behind => exact fun _ => ⟨fun _ _ h => fillRange_none h, rfl⟩

section Rebuilding

variable (m first count pages address length add : Nat) (protection flags : UInt8)

theorem memoryMapPages_held : Keeps Held (memoryMapPages m first count protection flags) :=
  Rebuilds.keeps (memoryMapPages_rebuilds m first count protection flags) (fun _ _ h => h)
    fun _ _ _ hs hf => Tame.held (by cases hf <;> exact fun _ => ⟨fun _ _ h => h, rfl⟩) hs m

theorem processCapsuleMprotectRange_held :
    Keeps Held (processCapsuleMprotectRange m address length protection) := by
  refine Rebuilds.keeps processCapsuleMprotectRange_rebuilds
    (fun _ _ h => h) fun _ _ _ hs hf => Tame.held ?_ hs m
  rcases hf with rfl | ⟨_, _, ⟨⟩ | ⟨⟩, _⟩ <;> exact fun _ => ⟨fun _ _ h => h, rfl⟩

theorem memoryReserveVirtualPages_held : Keeps Held (memoryReserveVirtualPages m pages) := by
  refine Rebuilds.keeps (memoryReserveVirtualPages_rebuilds m pages) (fun _ _ h => h)
    fun _ _ _ hs hf => Tame.held ?_ hs m
  cases hf with
  | nothing => exact fun _ => ⟨fun _ _ h => h, rfl⟩
  | pages => exact fun _ => ⟨fun _ _ h => fillRange_none h, rfl⟩

theorem executeMemoryGrow_held : Keeps Held (executeMemoryGrow m add) := by
  refine Rebuilds.keeps (executeMemoryGrow_rebuilds m add) (fun _ _ h => h)
    fun _ _ _ hs hf => Tame.held ?_ hs m
  cases hf with
  | refused => exact fun _ => ⟨fun _ _ h => h, rfl⟩
  | grown _ hf => exact hf.tame

end Rebuilding

/-! ## Pages that change hands -/

theorem heap_install (s : Store) (m page : Nat) (data : Option Nat) :
    heap (setPageData m page data (pageRelease ((s.memory m).pageData page) s)) =
      (heap s).install (m, page) data := by
  have hdata : (heap s).backing (m, page) = (s.memory m).pageData page := rfl
  rw [heap_setPageData, heap_pageRelease, ← hdata, Heap.install, Heap.release_eq]

/-- The last loop of `exec_memory_share_pages` uses up the references taken before. -/
theorem installPages_sound (m first : Nat) (pages : List (Option Nat))
    (hs : (heap s).SoundWith fun id => extra id + pages.count (some id))
    (hpages : ∀ id, some id ∈ pages → id < s.nextPage) :
    (heap (installPages m first pages s)).SoundWith extra := by
  induction pages generalizing s first with
  | nil => simpa [installPages] using hs
  | cons data rest ih =>
    apply ih
    · rw [heap_install]
      apply Heap.SoundWith.install
      · have hcount : ∀ id, extra id + (data :: rest).count (some id) =
            extra id + rest.count (some id) + if data = some id then 1 else 0 := by
          intro id
          rw [count_cons, ← add_assoc]
          simp only [beq_iff_eq]
        simpa only [hcount] using hs
      · intro id hid
        exact hpages id (by rw [hid]; exact mem_cons_self)
    · intro id hid
      have hlt := hpages id (mem_cons_of_mem _ hid)
      cases hd : (s.memory m).pageData first with
      | none | some => exact hlt

theorem pageRetain_refs_le (data : Option Nat) (s : Store) (id : Nat) :
    ((pageRetain data s).page id).refs ≤ (s.page id).refs + 1 := by
  cases data with
  | none => exact Nat.le_succ _
  | some old =>
    show (update s.page old _ id).refs ≤ _
    by_cases hid : id = old
    · rw [hid, update_self]
      dsimp only
      split
      · exact le_refl _
      · exact Nat.le_succ _
    · rw [update_of_ne hid]
      exact Nat.le_succ _

/-- One reference for every page of a list, while no count saturates. -/
theorem retainPages_sound (pages : List (Option Nat)) (hs : (heap s).SoundWith extra)
    (hroom : ∀ id, some id ∈ pages → (s.page id).refs + pages.length ≤ uint32Max) :
    (heap (pages.foldl (fun s page => pageRetain page s) s)).SoundWith fun id =>
      extra id + pages.count (some id) := by
  induction pages generalizing s extra with
  | nil => simpa using hs
  | cons data rest ih =>
    rw [foldl_cons]
    have hretained : (heap (pageRetain data s)).SoundWith fun id =>
        extra id + if data = some id then 1 else 0 := by
      cases data with
      | none =>
        show (heap s).SoundWith _
        simpa using hs
      | some old =>
        have hold := hroom old mem_cons_self
        rw [length_cons] at hold
        rw [heap_pageRetain (by omega)]
        exact hs.retain (some old)
    have hrest := ih hretained fun id hid => by
      have hle := pageRetain_refs_le data s id
      have hid' := hroom id (mem_cons_of_mem _ hid)
      rw [length_cons] at hid'
      omega
    have hcount : ∀ id, extra id + (data :: rest).count (some id) =
        extra id + (if data = some id then 1 else 0) + rest.count (some id) := by
      intro id
      rw [count_cons]
      simp only [beq_iff_eq]
      omega
    simpa only [hcount] using hrest

theorem markShared_sound (pages : List (Option Nat)) (hs : (heap s).SoundWith extra) :
    (heap (pages.foldl (fun s page => markShared page s) s)).SoundWith extra := by
  refine pages.foldlRecOn (motive := fun s => (heap s).SoundWith extra) _ hs fun s hs data _ => ?_
  rw [heap_markShared]
  cases data with
  | none => exact hs
  | some _ => exact ⟨hs.allocated, hs.counted⟩

theorem heap_setMemory {m : Nat} (hdata : (f (s.memory m)).pageData = (s.memory m).pageData) :
    heap (setMemory m f s) = heap s := by
  simp only [heap, setMemory, update_field ExecMemory.pageData hdata]

theorem heap_setMappings (m : Nat) (mappings : List Mapping) (s : Store) :
    heap (setMappings m mappings s) = heap s :=
  heap_setMemory rfl

/-- No count of a page that is about to be shared saturates. -/
def ShareRoom (src srcFirst count : Nat) (s : Store) : Prop :=
  ∀ id, some id ∈ (List.range' srcFirst count).map (s.memory src).pageData →
    (s.page id).refs + count ≤ uint32Max

theorem commitShare_sound {src : Nat} {dstMappings srcMappings : List Mapping}
    (hs : (heap s).Sound) (hheap : heap t = heap s) (hroom : ShareRoom src srcFirst count s) :
    (heap (commitShare dst dstFirst src dstMappings srcMappings
      ((range' srcFirst count).map (s.memory src).pageData) t)).Sound := by
  generalize hpages : (range' srcFirst count).map (s.memory src).pageData = pages at *
  have hlength : pages.length = count := by
    rw [← hpages, length_map, length_range']
  have hheld : ∀ id, some id ∈ pages → id < t.nextPage := by
    intro id hid
    rw [← hpages, mem_map] at hid
    obtain ⟨p, -, hp⟩ := hid
    have hnext : (heap t).next = (heap s).next := by rw [hheap]
    show id < (heap t).next
    rw [hnext]
    exact hs.allocated (src, p) id hp
  have hrefs : ∀ id, some id ∈ pages → (t.page id).refs + pages.length ≤ uint32Max := by
    intro id hid
    have heq : (heap t).refs id = (heap s).refs id := by rw [hheap]
    have hid' := hroom id (by rw [hpages]; exact hid)
    rw [hlength]
    show (heap t).refs id + count ≤ uint32Max
    rw [heq]
    exact hid'
  have hsound : (heap t).Sound := by
    rw [hheap]
    exact hs
  have hretained := retainPages_sound pages hsound hrefs
  apply installPages_sound
  · apply markShared_sound
    split
    · rw [heap_setMappings, heap_setMappings]
      exact hretained
    · rw [heap_setMappings]
      exact hretained
  · intro id hid
    have hretain := foldl_view (fun s data => pageRetain_nextPage data s) pages t
    rw [foldl_view fun s data => markShared_nextPage data s]
    split
    · show id < (pages.foldl (fun s page => pageRetain page s) t).nextPage
      rw [hretain]
      exact hheld id hid
    · show id < (pages.foldl (fun s page => pageRetain page s) t).nextPage
      rw [hretain]
      exact hheld id hid

theorem ChecksTrap.congr (hs : ChecksTrap s)
    (h : ∀ m, (t.memory m).accessCheck = (s.memory m).accessCheck) : ChecksTrap t := by
  intro m check hcheck
  rw [h m] at hcheck
  exact hs m check hcheck

theorem memorySharePages_held {src : Nat} (hs : Held s) (hroom : ShareRoom src srcFirst count s) :
    Held (exec (memorySharePages dst dstFirst src srcFirst count) s).2 := by
  refine (memorySharePages_ends dst dstFirst src srcFirst count s).after (fun _ => hs)
    fun r _ hsrc => ?_
  refine ⟨commitShare_sound hs.1 rfl hroom, hs.2.congr fun n => ?_⟩
  rw [commitShare_memory]
  split_ifs with hdst hsrc
  · rw [hdst]
    rfl
  · rw [hsrc]
    rfl
  · rfl

theorem releasePages_sound (hs : (heap s).Sound) (m first count : Nat) :
    (heap (releasePages m first count s)).Sound := by
  apply installPages_sound
  · simpa [count_replicate] using hs
  · intro id hid
    rw [mem_replicate] at hid
    exact nomatch hid.2

theorem memoryUnmapPages_held (m first count : Nat) :
    Keeps Held (memoryUnmapPages m first count) := by
  refine .of_exec_snd fun s hs => ?_
  refine (memoryUnmapPages_ends m first count s).after (fun _ => hs) fun r => ?_
  have htame : Tame (.unmapped first count) := fun _ => ⟨fun _ _ h => h, rfl⟩
  have hs : Held (s.asked r) := hs
  refine htame.held ⟨releasePages_sound hs.1 m first count, hs.2.congr fun n => ?_⟩ m
  rw [releasePages_memory]
  by_cases hn : n = m
  · rw [hn, setMemory_self]
  · rw [setMemory_ne hn]

/-! ## Every state of a process -/

/-- What a process does to its memories: an instruction, or an operation on mappings. -/
inductive Act
  | guest (op : GuestOp)
  | memory (op : MemoryOp)

def Act.apply : Act → Store → Store
  | .guest op, s => (exec op.comp s).2
  | .memory op, s => step op s

def runActs : List Act → Store → Store
  | [], s => s
  | act :: acts, s => runActs acts (act.apply s)

/-- The condition on one act: fills respect protection, sharing covers the pages it
backs and saturates no count, and an access check answers with traps. -/
def Act.Meets (s : Store) : Act → Prop
  | .guest op => ¬ op.FillsProtected s
  | .memory (.fill m dst value n) => ¬ (GuestOp.fill m dst value n).FillsProtected s
  | .memory (.share dst dstFirst src srcFirst count) =>
    ShareOk dst dstFirst src srcFirst count s ∧ ShareRoom src srcFirst count s
  | .memory (.bind _ check) =>
    ∀ offset length access e, check offset length access = some e → e.status = .trap
  | .memory _ => True

def MeetsActs : List Act → Store → Prop
  | [], _ => True
  | act :: acts, s => act.Meets s ∧ MeetsActs acts (act.apply s)

theorem exec_bind_pure {α β : Type} (c : MemM α) {f : α → β} (s : Store) :
    (exec (do let a ← c; pure (f a)) s).2 = (exec c s).2 := by
  rw [exec_bind]
  rcases exec c s with ⟨_ | a, t⟩ <;> rfl

theorem exec_silent (c : MemM PUnit) (s : Store) :
    (exec (do c; pure ([] : List UInt8)) s).2 = (exec c s).2 :=
  exec_bind_pure c s

theorem exists_of_mem_touchedPages {offset length page : Nat}
    (h : page ∈ touchedPages offset length) :
    ∃ a, offset ≤ a ∧ a < offset + length ∧ a / execPageSize = page := by
  rw [touchedPages] at h
  split at h
  · cases h
  rw [mem_range'_1] at h
  have hsize : 0 < execPageSize := by decide
  by_cases hfirst : page = offset / execPageSize
  · exact ⟨offset, le_refl _, by omega, hfirst.symm⟩
  refine ⟨page * execPageSize, ?_, ?_, Nat.mul_div_cancel _ hsize⟩
  · have hlt : offset < (offset / execPageSize + 1) * execPageSize := by
      rw [mul_comm]
      exact Nat.lt_mul_div_succ offset hsize
    have hle := Nat.mul_le_mul_right execPageSize (show offset / execPageSize + 1 ≤ page by omega)
    omega
  · have hle : page * execPageSize ≤ offset + length - 1 := by
      apply (Nat.le_div_iff_mul_le hsize).mp
      omega
    omega

theorem readLanes_keeps (m address sourceWidth : Nat) (lanes : List Nat) :
    Keeps Inv (readLanes m address sourceWidth lanes) := by
  induction lanes with
  | nil => exact .pure _
  | cons _ _ ih =>
    exact (memoryRead_keeps _ _ _).bind fun _ => ih.bind fun _ => .pure _

/-- A fill of pages that allow a write covers no page that was not covered. -/
theorem executeMemoryFill_allowed {m n : Nat} {value : UInt8} (hs : Inv s)
    (hallowed : memoryRange (s.memory m) dst n = .ok () → Permits s m dst n protWrite) :
    Inv (exec (executeMemoryFill m dst value n) s).2 := by
  cases hrange : memoryRange (s.memory m) dst n with
  | error e =>
    simp only [executeMemoryFill, exec_bind, exec_get]
    split_ifs with hbounds
    · exact hs
    · simp only [memoryFill, exec_bind, exec_get, exec_require, hrange]
      exact hs
  | ok _ =>
    apply executeMemoryFill_inv hs
    refine .inr fun page hpage _ => ?_
    obtain ⟨a, hlo, hhi, rfl⟩ := exists_of_mem_touchedPages hpage
    exact (hallowed hrange a hlo hhi).2.1

theorem GuestOp.inv (hs : Inv s) (hfill : ¬ op.FillsProtected s) : Inv (exec op.comp s).2 := by
  cases op with
  | load m base offset width =>
    exact ((executeLoad_keeps m base).bind fun _ => .pure _).exec_snd hs
  | vectorLoad m base offset width =>
    have hload : Keeps Inv (executeVectorLoad m base offset width) :=
      .get_bind fun _ _ => (Keeps.require _).bind fun _ => memoryRead_keeps _ _ _
    exact hload.exec_snd hs
  | vectorLoadExtend m base offset sourceWidth =>
    have hload : Keeps Inv (executeVectorLoadExtend m base offset sourceWidth) :=
      .get_bind fun _ _ => (Keeps.require _).bind fun _ => readLanes_keeps _ _ _ _
    exact hload.exec_snd hs
  | store m base offset width bits =>
    exact ((executeStore_keeps m base offset width bits).bind fun _ => .pure _).exec_snd hs
  | vectorStore m base offset bytes =>
    have hstore : Keeps Inv (executeVectorStore m base offset bytes) :=
      .get_bind fun _ _ => (Keeps.require _).bind fun _ => memoryWrite_keeps _ _
    exact (hstore.bind fun _ => .pure _).exec_snd hs
  | copy dst dstOffset src srcOffset n =>
    exact (executeMemoryCopy_keeps.bind fun _ => .pure _).exec_snd hs
  | fill m dst _ n =>
    rw [comp, exec_silent]
    apply executeMemoryFill_allowed hs
    exact fun hrange => by_contra fun hno => hfill ⟨hrange, hno⟩
  | init m dst src n segment =>
    exact ((executeMemoryInit_keeps m dst src n).bind fun _ => .pure _).exec_snd hs

/-- What a process keeps. -/
structure Kept (s : Store) : Prop where
  inv : Inv s
  held : Held s

theorem Kept.proper (hs : Kept s) : Proper s := by
  refine ⟨fun m => ?_, hs.held.1, hs.held.2⟩
  have hm := hs.inv m
  exact ⟨hm.within, hm.protection, fun _ _ _ => rfl, hm.linear⟩

theorem Kept.guest (hs : Kept s) (hfill : ¬ op.FillsProtected s) : Kept (exec op.comp s).2 := by
  have hguarded : Guarded (fun _ => True) (op.Allowed s) s (exec op.comp s) :=
    GuestOp.guarded hs.proper (fun _ _ => trivial) hfill
  exact ⟨GuestOp.inv hs.inv hfill, hs.held.of_steady hguarded.effects.steady⟩

/-- The instruction that the operation is. -/
def MemoryOp.guest? : MemoryOp → Option GuestOp
  | .load m base offset width => some (.load m base offset width)
  | .store m base offset width bits => some (.store m base offset width bits)
  | .copy dst dstOffset src srcOffset n => some (.copy dst dstOffset src srcOffset n)
  | .fill m dst value n => some (.fill m dst value n)
  | .init m dst src n segment => some (.init m dst src n segment)
  | _ => none

theorem MemoryOp.step_guest (op : MemoryOp) {g : GuestOp} (h : op.guest? = some g) :
    step op s = (exec g.comp s).2 := by
  cases op <;> cases h
  · show (exec (do let _ ← executeLoad _ _ _ _) s).2 = _
    rw [GuestOp.comp, exec_bind_pure, exec_bind_pure]
  all_goals
    rw [GuestOp.comp, exec_silent]
    rfl

theorem MemoryOp.meets_guest (op : MemoryOp) {g : GuestOp} (h : op.guest? = some g)
    (hmeets : (Act.memory op).Meets s) : ¬g.FillsProtected s := by
  cases op <;> cases h
  case fill => exact hmeets
  all_goals exact id

theorem Kept.step (hs : Kept s) {act : Act} (hmeets : act.Meets s) : Kept (act.apply s) := by
  cases act with
  | guest op => exact hs.guest hmeets
  | memory op =>
    cases hguest : op.guest? with
    | some g =>
      show Kept (Memory.step op s)
      rw [op.step_guest hguest]
      exact hs.guest (op.meets_guest hguest hmeets)
    | none =>
    cases op with
    | grow m add =>
      refine ⟨inv_step hs.inv trivial, ?_⟩
      exact ((executeMemoryGrow_held m add).bind fun _ => .pure _).exec_snd hs.held
    | reserve m pages =>
      exact ⟨inv_step hs.inv trivial, (memoryReserveVirtualPages_held m pages).exec_snd hs.held⟩
    | map m first count protection _ =>
      exact ⟨inv_step hs.inv trivial, (memoryMapPages_held _ _ _ _ _).exec_snd hs.held⟩
    | unmap m first count =>
      exact ⟨inv_step hs.inv trivial, (memoryUnmapPages_held m first count).exec_snd hs.held⟩
    | protect m address length protection =>
      refine ⟨inv_step hs.inv trivial, ?_⟩
      exact ((processCapsuleMprotectRange_held m address length protection).bind fun _ =>
        .pure _).exec_snd hs.held
    | share _ _ _ _ count =>
      exact ⟨inv_step hs.inv hmeets.1, memorySharePages_held hs.held hmeets.2⟩
    | bind m check =>
      refine ⟨inv_step hs.inv trivial, ?_⟩
      show Held (setMemory m (.bound check) s)
      apply hs.held.setMemory (fun _ _ h => h)
      intro check' hcheck
      cases hcheck
      exact hmeets
    | _ => exact nomatch hguest

theorem Kept.run (hs : Kept s) (hmeets : MeetsActs acts s) : Kept (runActs acts s) := by
  induction acts generalizing s with
  | nil => exact hs
  | cons _ acts ih => exact ih (hs.step hmeets.1) hmeets.2

theorem Kept.of_fresh (hfresh : Fresh s) : Kept s := by
  refine ⟨inv_of_fresh hfresh, ⟨fun x id hx => ?_, fun id => ?_⟩, fun m check hcheck => ?_⟩
  · obtain ⟨initial, maximum, hasMax, is64, hmem⟩ := hfresh x.1
    have hnone : (heap s).backing x = none := by
      show (s.memory x.1).pageData x.2 = none
      rw [hmem]
      rfl
    rw [hnone] at hx
    cases hx
  · have hnobody : (heap s).holders id = ∅ := by
      ext x
      obtain ⟨initial, maximum, hasMax, is64, hmem⟩ := hfresh x.1
      have hnone : (heap s).backing x = none := by
        show (s.memory x.1).pageData x.2 = none
        rw [hmem]
        rfl
      simp [Heap.holders, hnone]
    rw [hnobody]
    simp
  · obtain ⟨initial, maximum, hasMax, is64, hmem⟩ := hfresh m
    rw [hmem] at hcheck
    cases hcheck

/-- A process that started with new memories is always in a proper state. -/
theorem proper_run (hfresh : Fresh s) (hmeets : MeetsActs acts s) : Proper (runActs acts s) :=
  ((Kept.of_fresh hfresh).run hmeets).proper

/-- A process is always in a proper state, and in every proper state page protection is
enforced for every instruction but a `memory.fill` of protected pages.  When no
allocation is refused, it is not enforced for such a fill. -/
theorem protection_enforced (hfresh : Fresh s) :
    (∀ acts, MeetsActs acts s → Proper (runActs acts s)) ∧
      ∀ t, Proper t → ∀ op : GuestOp,
        (¬ op.FillsProtected t → op.Enforced t) ∧
          (¬ Refused t → (op.Enforced t ↔ ¬ op.FillsProtected t)) := by
  refine ⟨fun acts hmeets => proper_run hfresh hmeets, fun t ht op => ⟨?_, fun hgranted => ?_⟩⟩
  · exact GuestOp.enforced ht
  · constructor
    · intro henforced hfill
      exact hfill.not_enforced ht hgranted henforced
    · exact GuestOp.enforced ht

/-- A process with one page that it may only read. -/
def readOnlyActs : List Act :=
  [.memory (.bind 0 fun _ _ _ => none), .memory (.protect 0 0 65536 1)]

theorem readOnlyActs_meets : MeetsActs readOnlyActs onePageStore :=
  ⟨fun _ _ _ _ h => (nomatch h), trivial, trivial⟩

/-- A store to the page traps and leaves it alone. -/
theorem protection_enforced_store :
    (GuestOp.store 0 0 0 1 255).Enforced (runActs readOnlyActs onePageStore) :=
  have h := protection_enforced onePageStore_fresh
  (h.2 _ (h.1 readOnlyActs readOnlyActs_meets) (.store 0 0 0 1 255)).1 id

theorem fill_changes_protected_page : let s := runActs readOnlyActs onePageStore
    let op := GuestOp.fill 0 0 255 1
    Proper s ∧ ¬ Allows (s.memory 0) 0 protWrite ∧ (exec op.comp s).1 = .ok [] ∧
      viewOf s (0, 0) 0 = 0 ∧ viewOf (exec op.comp s).2 (0, 0) 0 = 255 ∧
      (exec (GuestOp.store 0 0 0 1 255).comp s).1 =
        .error (memoryFault .protection 0 1 protWrite "memory protection violation") :=
  ⟨proper_run onePageStore_fresh readOnlyActs_meets, by decide, by decide, by decide, by decide,
    by decide⟩

end Waste.Memory
