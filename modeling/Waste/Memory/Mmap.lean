import Waste.Memory.Mappings

/-!
# `mmap` and the abstract memory

`guestMmap` maps pages, gives them their bytes and unmaps them again when that fails.
`MapSource.Maps` says what this is in the abstract memory, also for the ends in the middle
of it: some pages have their bytes, and the unmapping may fail as well.

Binding a file page takes a reference of the kept page, so its count has to have room for
it (`BindRoom`).
-/

namespace Waste.Memory

open Function RangeMap StateExcept SharedPages List

variable {F : Family} {w : Flat} {m : Nat}
variable {page id k n : Nat} {s : Store}

/-! ## Binding file pages -/

/-- No count of a kept page saturates when `n` pages are bound. -/
def BindRoom (n : Nat) (F : Family) : Prop :=
  n < uint32Max ∧ ∀ k id, (F.store.memory 0).pageData k = some id →
    (F.store.page id).refs + n ≤ uint32Max

/-- What is left unchanged while file pages are bound. -/
structure BindFrame (F F' : Family) : Prop where
  layout : SameLayout F.store F'.store
  count : F'.count = F.count

theorem BindFrame.pages {F' : Family} (h : BindFrame F F') (m : Nat) :
    (F'.store.memory m).pages = (F.store.memory m).pages := by
  show (bare (F'.store.memory m)).pages = (bare (F.store.memory m)).pages
  rw [h.layout m]

/-- The ends of `native_store_shared_file_page`: the page is kept already, it is kept
from now on, or the allocator refuses. -/
inductive FilePageCases (F : Family) (key : Nat × Nat) (bytes : Nat → UInt8) :
    Except ExecError Nat × Family → Prop
  | kept (k : Nat) (hk : F.files[k]? = some key) : FilePageCases F key bytes (.ok k, F)
  | opened (t : Store) (hkey : key ∉ F.files) (hlayout : SameLayout F.store t)
      (ht : heap t = (heap F.store).fresh (0, F.files.length) bytes) :
      FilePageCases F key bytes
        (.ok F.files.length, { F with store := t, files := F.files ++ [key] })
  | refused (e : ExecError) (t : Store) (hlayout : SameLayout F.store t)
      (ht : heap t = heap F.store) : FilePageCases F key bytes (.error e, { F with store := t })

variable {bytes : Nat → UInt8}

/-- A new page with the bytes of the file, in the next place of the array. -/
theorem heap_keptPage (hnone : (heap s).backing (0, k) = none) :
    heap (setPageData 0 k (some s.nextPage)
      (setPage s.nextPage (fun p => { p with bytes := bytes }) (grantPage s))) =
      (heap s).fresh (0, k) bytes := by
  rw [heap_setPageData, heap_setPage, heap_grantPage]
  simp only [Heap.fresh, Heap.install, hnone, Heap.release, grantPage, update_self, update_idem]
  rfl

theorem sharedFilePage_cases (h : Refines F w) (key : Nat × Nat) (bytes : Nat → UInt8) :
    FilePageCases F key bytes (exec (sharedFilePage key bytes) F) := by
  rw [sharedFilePage, exec_bind, exec_get]
  dsimp only
  cases hfind : F.files.findIdx? (· = key) with
  | some k =>
    refine .kept k ?_
    obtain ⟨hlt, hkey, -⟩ := findIdx?_eq_some_iff_getElem.mp hfind
    rw [getElem?_eq_getElem hlt]
    simpa using hkey
  | none =>
    have hkey : key ∉ F.files := by
      intro hmem
      have hno := findIdx?_eq_none_iff.mp hfind key hmem
      simp at hno
    have hask := exec_allocateOr "shared file page table allocation failed" F.store F.store.requests
    rw [exec_bind, exec_onStore, show exec (allocateOr _) F.store = _ from hask]
    split_ifs
    case neg => exact .refused _ _ (.refl _) rfl
    dsimp only
    rw [exec_bind, exec_onStore, exec_pageAllocate]
    split_ifs with hgranted
    · refine .opened _ hkey setPageData_sameLayout ?_
      exact heap_keptPage (h.vacant _ (.inr ⟨rfl, le_refl _⟩))
    · exact .refused _ _ (.refl _) rfl

/-- The store with a kept page as the page of the memory. -/
def boundStore (m page id : Nat) (s : Store) : Store :=
  let s := markShared (some id) (pageRetain (some id) s)
  setPageData m page (some id) (pageRelease ((s.memory m).pageData page) s)

theorem bindSharedPage_exec (hpage : page < (F.store.memory m).pages)
    (hid : (F.store.memory 0).pageData k = some id) :
    exec (bindSharedPage m page k) F = (.ok ⟨⟩, { F with
      store := boundStore m page id F.store
      anonymous := fun x => if x = (m, page) then false else F.anonymous x }) := by
  rw [bindSharedPage, exec_bind, exec_get]
  dsimp only
  rw [if_neg (by omega), hid, exec_set]
  rfl

theorem boundStore_heap (hroom : (s.page id).refs ≠ uint32Max)
    (m page : Nat) : heap (boundStore m page id s) = (heap s).adopt (m, page) id := by
  rw [boundStore, heap_install, heap_markShared, heap_pageRetain hroom]
  rfl

theorem boundStore_layout (m page id : Nat) : SameLayout s (boundStore m page id s) := by
  refine .trans (.of_memory_eq ?_) setPageData_sameLayout
  rw [pageRelease_memory, markShared_memory, pageRetain_memory]

/-- Binding one page takes one reference at most. -/
theorem BindRoom.bound (hm : 1 ≤ m) (hroom : BindRoom (n + 1) F)
    (hrefs : (s.page id).refs ≠ uint32Max)
    (hs : ∀ k id', (s.memory 0).pageData k = some id' → (s.page id').refs + (n + 1) ≤ uint32Max) :
    n < uint32Max ∧ ∀ k id', ((boundStore m page id s).memory 0).pageData k = some id' →
      ((boundStore m page id s).page id').refs + n ≤ uint32Max := by
  refine ⟨by have := hroom.1; omega, fun k id' hid' => ?_⟩
  have hback : (heap (boundStore m page id s)).backing (0, k) = some id' := hid'
  have hne : ((0, k) : Nat × Nat) ≠ (m, page) := by
    rintro ⟨⟩
    omega
  rw [boundStore_heap hrefs, Heap.adopt_backing, if_neg hne] at hback
  have hold := hs k id' hback
  have hle : (heap (boundStore m page id s)).refs id' ≤ (heap s).refs id' + 1 := by
    rw [boundStore_heap hrefs]
    exact Heap.adopt_refs_le _ _ _
  show (heap (boundStore m page id s)).refs id' + n ≤ uint32Max
  have hsame : (heap s).refs id' = (s.page id').refs := rfl
  omega

/-- The counts after a file page was kept. -/
theorem BindRoom.kept {t : Store}
    (hroom : BindRoom (n + 1) F) (hnone : (heap F.store).backing (0, k) = none)
    (ht : heap t = (heap F.store).fresh (0, k) bytes) :
    ∀ k' id, (t.memory 0).pageData k' = some id → (t.page id).refs + (n + 1) ≤ uint32Max := by
  intro k' id hid
  have hback : (heap t).backing (0, k') = some id := hid
  have hrefs : (heap t).refs id = update (heap F.store).refs (heap F.store).next 1 id := by
    rw [ht, Heap.fresh, hnone]
    rfl
  show (heap t).refs id + (n + 1) ≤ uint32Max
  rw [hrefs]
  by_cases hnew : id = (heap F.store).next
  · rw [hnew, update_self]
    have := hroom.1
    omega
  rw [update_of_ne hnew]
  have hne : ((0, k') : Nat × Nat) ≠ (0, k) := by
    intro heq
    rw [heq, ht, Heap.fresh_backing_self] at hback
    cases hback
    exact hnew rfl
  rw [ht, Heap.fresh_backing_ne hne] at hback
  exact hroom.2 k' id hback

theorem bindFile_ends (h : Refines F w) (hm : F.Live m) (key : Nat × Nat)
    (bytes : Nat → UInt8) (hpage : page < (F.store.memory m).pages) (hroom : BindRoom (n + 1) F) :
    ∃ r F', exec (do let k ← sharedFilePage key bytes; bindSharedPage m page k) F = (r, F') ∧
      BindFrame F F' ∧
      match r with
      | .error _ => Refines F' w
      | .ok _ => Refines F' (w.join (m, page) key bytes) ∧ BindRoom n F' := by
  rw [exec_bind]
  have hcases := sharedFilePage_cases h key bytes
  generalize exec (sharedFilePage key bytes) F = r at hcases ⊢
  cases hcases with
  | refused e t hlayout ht => exact ⟨_, _, rfl, ⟨hlayout, rfl⟩, h.of_heap ht⟩
  | kept k hk =>
    obtain ⟨id, hid, hat⟩ := h.kept_page hk
    have hrefs : (F.store.page id).refs ≠ uint32Max := by
      have := hroom.2 k id hid
      omega
    have hheap := boundStore_heap hrefs m page
    refine ⟨_, _, bindSharedPage_exec hpage hid, ⟨boundStore_layout m page id, rfl⟩,
      h.adopted hm hk hat bytes hheap, ?_⟩
    exact .bound hm.1 hroom hrefs hroom.2
  | opened t hkey hlayout ht =>
    let F1 : Family := { F with
      store := markShared (some F.store.nextPage) t
      files := F.files ++ [key] }
    have hopened : Refines F1 (w.openFile key bytes) := by
      apply h.opened hkey bytes
      rw [heap_markShared, ht]
    have hk : F1.files[F.files.length]? = some key := getElem?_concat_length
    have hself : (heap t).backing (0, F.files.length) = some F.store.nextPage := by
      rw [ht]
      exact Heap.fresh_backing_self
    have hat : (heap F1.store).sharedAt (0, F.files.length) = some F.store.nextPage := by
      rw [heap_markShared, ht]
      exact (h.sound.kept_sharedAt _ _ _).trans (if_pos rfl)
    have hcounts := BindRoom.kept hroom (h.vacant _ (.inr ⟨rfl, le_refl _⟩)) ht
    have hrefs : (t.page F.store.nextPage).refs ≠ uint32Max := by
      have := hcounts F.files.length F.store.nextPage hself
      omega
    have hheap : heap (boundStore m page F.store.nextPage t) =
        (heap F1.store).adopt (m, page) F.store.nextPage := by
      rw [boundStore_heap hrefs, heap_markShared, Heap.adopt_markShared]
    have hpage' : page < (t.memory m).pages := by
      have hframe : BindFrame F { F with store := t } := ⟨hlayout, rfl⟩
      exact hpage.trans_eq (hframe.pages m).symm
    have hadopted := hopened.adopted hm hk hat bytes hheap
    rw [Flat.join_openFile] at hadopted
    refine ⟨_, _, bindSharedPage_exec hpage' hself,
      ⟨hlayout.trans (boundStore_layout m page _), rfl⟩, hadopted, ?_⟩
    exact .bound hm.1 hroom hrefs hcounts

theorem bindPages_ends (h : Refines F w) (hm : F.Live m) (page : Nat)
    (pages : List ((Nat × Nat) × (Nat → UInt8)))
    (hin : page + pages.length ≤ (F.store.memory m).pages) (hroom : BindRoom pages.length F) :
    Ends (Flat.Sequence (Flat.JoinStep m) (Flat.numbered page pages) · w)
      (exec (bindPages m page pages) F) ∧ BindFrame F (exec (bindPages m page pages) F).2 := by
  induction pages generalizing F w page with
  | nil => exact ⟨⟨w, .nil w, h⟩, .refl _, rfl⟩
  | cons entry rest ih =>
    obtain ⟨key, bytes⟩ := entry
    rw [length_cons] at hin hroom
    have hsplit : bindPages m page ((key, bytes) :: rest) =
        (do let k ← sharedFilePage key bytes; bindSharedPage m page k) >>= fun _ =>
          bindPages m (page + 1) rest := (bind_assoc ..).symm
    obtain ⟨r, F', hrun, hframe, hend⟩ := bindFile_ends h hm key bytes
      (show page < (F.store.memory m).pages by omega) hroom
    rw [hsplit, exec_bind, hrun]
    cases r with
    | error e => exact ⟨⟨w, .stopped _ w, hend⟩, hframe⟩
    | ok _ =>
      have hlive : F'.Live m := ⟨hm.1, by rw [hframe.count]; exact hm.2⟩
      have hrest := ih hend.1 hlive (page + 1) (by rw [hframe.pages]; omega) hend.2
      exact ⟨hrest.1.mono fun done v hv => .cons rfl hv, hframe.layout.trans hrest.2.layout,
        hrest.2.count.trans hframe.count⟩

/-! ## Mapping -/

/-- Pages that are mapped `MAP_SHARED` are linked to objects of their own. -/
theorem Refines.openedAnonymous (h : Refines F w) (m first count : Nat) :
    Refines (setAnonymous m first count true F) (w.openAnonymous m first (first + count)) := by
  have hlink : ∀ x, (w.openAnonymous m first (first + count)).link x =
      if Flat.inWindow m first (first + count) x ∧ w.link x = none then
        some (.anonymous w.serial x) else w.link x := fun _ => rfl
  have hfile : ∀ x key, (w.openAnonymous m first (first + count)).link x = some (.file key) ↔
      w.link x = some (.file key) := by
    intro x key
    rw [hlink]
    split_ifs with hx
    · rw [hx.2]
      exact ⟨fun hno => (nomatch hno), fun hno => (nomatch hno)⟩
    · exact .rfl
  refine ⟨h.sound, ?_, fun x => ?_, fun x y key hx => ?_, fun x y serial z hx hy => ?_, h.files,
    fun k key hk => ?_, fun x key hx => ?_, fun x serial y hx => ?_, fun x serial y hx => ?_,
    h.vacant⟩
  · funext x
    rw [Flat.openAnonymous_read h.serials, ← h.view]
    rfl
  · rw [show (∃ key, (w.openAnonymous m first (first + count)).link x = some (.file key)) ↔
      ∃ key, w.link x = some (.file key) from exists_congr (hfile x)]
    exact h.shared x
  · rw [hfile] at hx ⊢
    exact h.same x y key hx
  · rw [hlink] at hx
    rw [hlink, hlink] at hy
    split_ifs at hx with hwx
    · cases hx
      split_ifs at hy with hwy
      · cases hy
        rfl
      · exact absurd (h.serials y _ _ hy) (lt_irrefl _)
    · split_ifs at hy with hwy
      · rw [hx] at hy
        cases hy
        exact absurd (h.serials x _ _ hx) (lt_irrefl _)
      · exact h.alone x y serial z hx hy
  · rw [hfile]
    exact h.cached k key hk
  · rw [hfile] at hx
    exact h.known x key hx
  · show (if Flat.inWindow m first (first + count) x then true else F.anonymous x) = true
    rw [hlink] at hx
    split_ifs at hx with hwx
    · rw [if_pos hwx.1]
    · split_ifs
      · rfl
      · exact h.anonymous x serial y hx
  · rw [hlink] at hx
    split_ifs at hx with hwx
    · cases hx
      exact Nat.lt_succ_self _
    · exact Nat.lt_succ_of_lt (h.serials x serial y hx)

/-- The abstract memory after pages were mapped. -/
def Flat.mapped (w : Flat) (m first count : Nat) (shared : Bool) : Flat :=
  if shared then w.openAnonymous m first (first + count) else w

theorem mapFlags_shared {shared : Bool} {fixed : Bool} :
    mapFlags shared fixed &&& mappingShared ≠ 0 ↔ shared = true := by
  cases shared <;> cases fixed <;> decide

/-- What mapping does, and what holds when it succeeded. -/
theorem mapPages_ends (h : Refines F w) (m first count : Nat) (protection : UInt8)
    (shared fixed : Bool) :
    (∃ e F', exec (mapPages m first count protection (mapFlags shared fixed)) F = (.error e, F') ∧
      Refines F' w) ∨
    ∃ F', exec (mapPages m first count protection (mapFlags shared fixed)) F = (.ok ⟨⟩, F') ∧
      Refines F' (w.mapped m first count shared) ∧ F'.count = F.count ∧
      first + count ≤ (F'.store.memory m).pages ∧ heap F'.store = heap F.store := by
  rw [mapPages, exec_bind, exec_onStore]
  have hends := memoryMapPages_rebuilds m first count protection (mapFlags shared fixed) F.store
  revert hends
  generalize exec (memoryMapPages m first count protection (mapFlags shared fixed)) F.store = run
  rintro (⟨e, r⟩ | ⟨a, r, f, hf⟩)
  · exact .inl ⟨e, _, rfl, h.of_heap rfl⟩
  have hheap : heap (setMemory m f (F.store.asked r)) = heap F.store :=
    heap_setMemory (by cases hf <;> rfl)
  have hin : first + count ≤ ((setMemory m f (F.store.asked r)).memory m).pages := by
    rw [setMemory_self]
    cases hf with
    | nothing _ hin => exact hin
    | pages _ hin _ => exact hin
  have hmapped : Refines { F with store := setMemory m f (F.store.asked r) } w := h.of_heap hheap
  refine .inr ?_
  dsimp only
  by_cases hshared : shared = true
  · rw [if_pos (mapFlags_shared.mpr hshared), exec_modify]
    refine ⟨_, rfl, ?_, rfl, hin, hheap⟩
    rw [Flat.mapped, if_pos hshared]
    exact hmapped.openedAnonymous m first count
  · rw [if_neg fun hflag => hshared (mapFlags_shared.mp hflag), exec_pure]
    refine ⟨_, rfl, ?_, rfl, hin, hheap⟩
    rw [Flat.mapped, if_neg hshared]
    exact hmapped

theorem loadPages_ends (h : Refines F w) (hm : F.Live m) (page : Nat) (pages : List (List UInt8)) :
    Ends (Flat.Sequence (Flat.LoadStep m) (Flat.numbered page pages) · w)
      (exec (loadPages m page pages) F) := by
  induction pages generalizing F w page with
  | nil => exact ⟨w, .nil w, h⟩
  | cons bytes _ ih =>
    have hwrite := memoryWrite_ends h hm (page * execPageSize) bytes
    rw [loadPages, exec_bind, exec_onStore]
    rw [exec_onStore] at hwrite
    generalize exec (memoryWrite m (page * execPageSize) bytes) F.store = run at hwrite ⊢
    obtain ⟨e | _, t⟩ := run <;> obtain ⟨v, hv, hrefines⟩ := hwrite
    · exact ⟨v, .failed _ hv, hrefines⟩
    · exact (ih hrefines hm (page + 1)).mono fun done u hu => .cons hv hu

/-- How a mapping gets its bytes. -/
def MapSource.Fills (m first : Nat) (done : Bool) (w v : Flat) : MapSource → Prop
  | .anonymous _ _ => v = w
  | .file pages => Flat.Sequence (Flat.LoadStep m) (Flat.numbered first pages) done w v
  | .sharedFile pages => Flat.Sequence (Flat.JoinStep m) (Flat.numbered first pages) done w v

variable {pages : List ((Nat × Nat) × (Nat → UInt8))}

/-- Bound pages stay bound while others are bound. -/
theorem joined_kept {v : Flat}
    {done : Bool} (hseq : Flat.Sequence (Flat.JoinStep m) (Flat.numbered page pages) done w v)
    {x : Nat × Nat} (hx : ∃ key, w.link x = some (.file key)) :
    ∃ key, v.link x = some (.file key) := by
  induction pages generalizing page w with
  | nil =>
    cases hseq with
    | nil | stopped => exact hx
  | cons entry _ ih =>
    cases hseq with
    | stopped => exact hx
    | failed _ hstep =>
      rw [hstep]
      exact hx
    | cons hstep hrest =>
      apply ih hrest
      rw [hstep]
      show ∃ key, update (w.openFile entry.1 entry.2).link _ _ x = some (.file key)
      by_cases hself : x = (m, page)
      · rw [hself, update_self]
        exact ⟨_, rfl⟩
      rw [update_of_ne hself]
      unfold Flat.openFile
      split_ifs
      · exact hx
      show ∃ key, update w.link _ _ x = some (.file key)
      by_cases hkept : x = (0, w.files.length)
      · rw [hkept, update_self]
        exact ⟨_, rfl⟩
      · rw [update_of_ne hkept]
        exact hx

theorem joined_all {v : Flat}
    (hseq : Flat.Sequence (Flat.JoinStep m) (Flat.numbered page pages) true w v) {p : Nat}
    (hlo : page ≤ p) (hhi : p < page + pages.length) : ∃ key, v.link (m, p) = some (.file key) := by
  induction pages generalizing page w with
  | nil => exact absurd hhi (by simp only [length_nil]; omega)
  | cons entry _ ih =>
    rw [length_cons] at hhi
    cases hseq with
    | cons hstep hrest =>
      by_cases hp : p = page
      · apply joined_kept hrest
        rw [hstep, hp]
        exact ⟨entry.1, update_self ..⟩
      · exact ih hrest (by omega) (by omega)

/-- A call that succeeds has done all of `S`; one that fails may have done it too. -/
def Partly (S : Bool → Flat → Prop) (done : Bool) (v : Flat) : Prop :=
  ∃ d, (done = true → d = true) ∧ S d v

variable {S : Bool → Flat → Prop}

theorem Ends.partly {α : Type} {r : Except ExecError α × Family}
    (h : Ends S r) : Ends (Partly S) r :=
  h.mono fun d _ hv => ⟨d, id, hv⟩

/-- Steps that change no page come after the mapping has its bytes. -/
theorem Ends.thenQuiet {α β : Type} {c : FamM α} {d : MemM β}
    (hc : Ends (Partly S) (exec c F))
    (hd : ∀ F' v, S true v → Refines F' v → heap (exec d F'.store).2 = heap F'.store) :
    Ends (Partly S) (exec (do let _ ← c; onStore d) F) := by
  apply hc.bind fun v hv => hv
  intro _ F' v _ hP hv
  obtain ⟨done, hdone, hS⟩ := hP
  rw [hdone rfl] at hS
  rw [exec_onStore]
  exact ⟨v, ⟨true, fun _ => rfl, hS⟩, hv.of_heap (hd F' v hS hv)⟩

theorem fillMapping_ends (h : Refines F w) (hm : F.Live m) (first : Nat) (protection : UInt8)
    (source : MapSource) (hin : first + source.count ≤ (F.store.memory m).pages)
    (hroom : ∀ pages, source = .sharedFile pages → BindRoom pages.length F) :
    Ends (Partly fun d => source.Fills m first d w)
      (exec (fillMapping m first protection source) F) := by
  have hprotect : ∀ (F' : Family) count,
      heap (exec (memorySetProtection m first count protection) F'.store).2 = heap F'.store :=
    fun F' count => (memorySetProtection_heap m first count protection).exec_snd rfl
  have hdirty : ∀ (F' : Family) count,
      heap (exec (clearDirtyPages m first count) F'.store).2 = heap F'.store :=
    fun F' count => clearDirtyPages_heap m first count F'.store
  cases source with
  | anonymous count _ =>
    rw [fillMapping]
    split_ifs
    · exact (Ends.quiet h (hprotect F count)).mono fun done v hv => ⟨true, fun _ => rfl, hv⟩
    · exact ⟨w, ⟨true, fun _ => rfl, rfl⟩, h⟩
  | file pages =>
    rw [fillMapping, ← bind_assoc]
    have hset := (loadPages_ends h hm first pages).partly.thenQuiet
      fun F' _ _ _ => hprotect F' pages.length
    exact hset.thenQuiet fun F' _ _ _ => hdirty F' pages.length
  | sharedFile pages =>
    rw [fillMapping, ← bind_assoc, ← bind_assoc]
    have hset := (bindPages_ends h hm first pages hin (hroom pages rfl)).1.partly.thenQuiet
      fun F' _ _ _ => hprotect F' pages.length
    have hmark := hset.thenQuiet (d := markSharedPages m first pages.length) fun F' v hseq hv => by
      apply markSharedPages_heap
      intro p id hlo hhi hid
      have hsome := (hv.shared (m, p)).mpr (joined_all hseq hlo hhi)
      rw [Heap.sharedAt_of_backing (show (heap F'.store).backing (m, p) = some id from hid)]
        at hsome
      by_contra hno
      exact hsome (if_neg hno)
    exact hmark.thenQuiet fun F' _ _ _ => hdirty F' pages.length

theorem recordMapping_heap (source : MapSource) (s : Store) :
    heap (exec (recordMapping source) s).2 = heap s := by
  unfold recordMapping
  split
  · rfl
  · exact (allocateOr_keeps (P := (heap · = heap s)) fun _ _ h => h).exec_snd rfl

/-- What `mmap` does to the abstract memory. -/
def MapSource.Maps (source : MapSource) (m first : Nat) (done : Bool) (w v : Flat) : Prop :=
  if done then source.Fills m first true (w.mapped m first source.count source.shared) v
  else v = w ∨ ∃ d u, source.Fills m first d (w.mapped m first source.count source.shared) u ∧
    (v = u ∨ v = u.clear m first (first + source.count))

theorem onStore_count {α : Type} (c : MemM α) : Fixes Family.count (onStore c) := by
  intro F
  rw [exec_onStore]

theorem fillMapping_count (first : Nat) (protection : UInt8) (source : MapSource) :
    Fixes Family.count (fillMapping m first protection source) := by
  have hstore {α : Type} (c : MemM α) := onStore_count c
  cases source with
  | anonymous _ _ => exact .ite (hstore _) (.pure _)
  | file pages =>
    have hload : ∀ page, Fixes Family.count (loadPages m page pages) := by
      induction pages with
      | nil => exact fun _ => .pure _
      | cons bytes rest ih => exact fun page => (hstore _).bind fun _ => ih (page + 1)
    exact (hload first).bind fun _ => (hstore _).bind fun _ => hstore _
  | sharedFile pages =>
    have hfile : ∀ key bytes, Fixes Family.count (sharedFilePage key bytes) := by
      refine fun key bytes => .get_bind fun F => ?_
      split
      · rfl
      · refine Fixes.bind (hstore _) (fun _ => .bind (hstore _) fun _ => ?_) F
        exact .bind (.modify fun _ => rfl) fun _ => .pure _
    have hbound : ∀ page k, Fixes Family.count (bindSharedPage m page k) := by
      refine fun page k => .get_bind fun F => ?_
      split_ifs <;> rfl
    have hbind : ∀ page, Fixes Family.count (bindPages m page pages) := by
      induction pages with
      | nil => exact fun _ => .pure _
      | cons _ rest ih =>
        exact fun page => (hfile _ _).bind fun k => (hbound page k).bind fun _ => ih (page + 1)
    exact (hbind first).bind fun _ => (hstore _).bind fun _ => (hstore _).bind fun _ => hstore _

theorem guestMmap_ends (h : Refines F w) (hm : F.Live m) (first : Nat) (protection : UInt8)
    (fixed : Bool) (source : MapSource)
    (hroom : ∀ pages, source = .sharedFile pages → BindRoom pages.length F) :
    Ends (source.Maps m first · w) (exec (guestMmap m first protection fixed source) F) := by
  rw [guestMmap, exec_bind]
  rcases mapPages_ends h m first source.count (protection ||| protWrite) source.shared fixed with
    ⟨e, F', hrun, hF'⟩ | ⟨F', hrun, hF', hcount, hin, hheap⟩
  · rw [hrun]
    exact ⟨w, .inl rfl, hF'⟩
  have hlive : F'.Live m := ⟨hm.1, by rw [hcount]; exact hm.2⟩
  have hroom' : ∀ pages, source = .sharedFile pages → BindRoom pages.length F' := by
    intro pages hpages
    have hF := hroom pages hpages
    refine ⟨hF.1, fun k id hid => ?_⟩
    have hback : (heap F'.store).backing (0, k) = some id := hid
    have hrefs : (heap F'.store).refs id = (heap F.store).refs id := by rw [hheap]
    rw [hheap] at hback
    show (heap F'.store).refs id + _ ≤ _
    rw [hrefs]
    exact hF.2 k id hback
  have hfill := (fillMapping_ends hF' hlive first protection source hin hroom').thenQuiet
    (d := recordMapping source) fun G _ _ _ => recordMapping_heap source G.store
  have hkept := (fillMapping_count (m := m) first protection source).bind
    (fun _ => onStore_count (recordMapping source)) F'
  rw [hrun]
  dsimp only
  rw [exec_tryCatch]
  revert hfill hkept
  rcases exec (do fillMapping m first protection source; onStore (recordMapping source)) F'
    with ⟨e | _, G⟩
  · rintro ⟨u, ⟨d, -, hu⟩, hG⟩ hkept
    have hliveG : G.Live m := ⟨hm.1, by rw [hkept]; exact hlive.2⟩
    have hunmap := unmapPages_ends hG hliveG first source.count
    dsimp only
    rw [exec_bind, exec_tryCatch]
    generalize exec (unmapPages m first source.count) G = run at hunmap ⊢
    obtain ⟨_ | _, G'⟩ := run <;> obtain ⟨v, hv, hG'⟩ := hunmap
    · exact ⟨v, .inr ⟨d, u, hu, .inl hv⟩, hG'⟩
    · exact ⟨v, .inr ⟨d, u, hu, .inr hv⟩, hG'⟩
  · rintro ⟨v, ⟨d, hd, hv⟩, hG⟩ _
    rw [hd rfl] at hv
    exact ⟨v, hv, hG⟩

end Waste.Memory
