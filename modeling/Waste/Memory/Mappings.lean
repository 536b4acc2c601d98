import Waste.Memory.Enforcement
import Waste.Memory.Refines

/-!
# Mapping calls and the abstract memory

What the calls that change which page a place holds do to the abstract memory: unmapping
and growing clear a window of pages (`Refines.cleared`), binding a page links it to the
object of a file page (`Refines.adopted`), and a file page that is kept for the first time
is a new object (`Refines.opened`).  The other mapping calls leave the heap alone and do
not show.
-/

namespace Waste.Memory

open Function RangeMap StateExcept SharedPages List Option

variable {F : Family} {w : Flat} {m : Nat}
variable {s : Store} {memory : ExecMemory} {x : Nat × Nat}

/-! ## Calls that change no page -/

section Quiet

variable {h : Heap (Nat × Nat) (Nat → UInt8)}

theorem memorySetProtection_heap (m first count : Nat) (protection : UInt8) :
    Keeps (fun t => heap t = h) (memorySetProtection m first count protection) := by
  refine Rebuilds.keeps (memorySetProtection_rebuilds m first count protection) (fun _ _ h => h)
    fun s _ f hs hf => ?_
  rw [heap_setMemory (by cases hf <;> rfl)]
  exact hs

theorem processCapsuleMprotectRange_heap (m address length : Nat) (protection : UInt8) :
    Keeps (fun t => heap t = h) (processCapsuleMprotectRange m address length protection) := by
  refine Rebuilds.keeps processCapsuleMprotectRange_rebuilds
    (fun _ _ h => h) fun s _ f hs hf => ?_
  rw [heap_setMemory (by rcases hf with rfl | ⟨_, _, ⟨⟩ | ⟨⟩, _⟩ <;> rfl)]
  exact hs

theorem heap_clearDirty (data : Option Nat) (s : Store) : heap (clearDirty data s) = heap s := by
  cases data with
  | none => rfl
  | some _ =>
    rw [clearDirty, heap_setPage]
    simp [heap]

theorem clearDirtyPages_heap (m first count : Nat) :
    Fixes heap (clearDirtyPages m first count) := by
  refine .get_bind fun s => ?_
  dsimp only
  split_ifs
  · rfl
  · exact foldl_view (fun s data => heap_clearDirty data s) _ s

/-- Pages that are shared already are not changed by marking them. -/
theorem heap_markShared_of_shared {data : Option Nat}
    (hshared : ∀ id, data = some id → (heap s).shared id = true) :
    heap (markShared data s) = heap s := by
  rw [heap_markShared]
  cases data with
  | none => rfl
  | some id =>
    show { heap s with shared := update (heap s).shared id true } = heap s
    rw [← hshared id rfl, update_eq_self]

theorem markSharedPages_heap {first count : Nat}
    (hshared : ∀ p id, first ≤ p → p < first + count → (s.memory m).pageData p = some id →
      (heap s).shared id = true) : heap (exec (markSharedPages m first count) s).2 = heap s := by
  simp only [markSharedPages, exec_bind, exec_get]
  split_ifs with houtside
  · rfl
  have hpages : ∀ id, some id ∈ (range' first count).map (s.memory m).pageData →
      (heap s).shared id = true := by
    intro id hid
    rw [List.mem_map] at hid
    obtain ⟨p, hp, hdata⟩ := hid
    rw [mem_range'_1] at hp
    exact hshared p id hp.1 hp.2 hdata
  generalize (range' first count).map (s.memory m).pageData = pages at hpages ⊢
  have hfold : ∀ t, heap t = heap s →
      heap (pages.foldl (fun s page => markShared page s) t) = heap s := by
    induction pages with
    | nil => exact fun t ht => ht
    | cons _ _ ih =>
      intro t ht
      apply ih fun id hid => hpages id (mem_cons_of_mem _ hid)
      rw [heap_markShared_of_shared]
      · exact ht
      · intro id hid
        rw [ht]
        exact hpages id (by rw [hid]; exact mem_cons_self)
  exact hfold s rfl

end Quiet

/-! ## Pages that are given up -/

theorem inWindow_iff {lo hi : Nat} :
    Flat.inWindow m lo hi x = true ↔ x.1 = m ∧ lo ≤ x.2 ∧ x.2 < hi := by
  simp [Flat.inWindow]

variable {t : Store} {f : ExecMemory → ExecMemory} {key : Nat × Nat}

theorem Refines.cleared (h : Refines F w) (hm : F.Live m) {lo hi : Nat} (hsound : (heap t).Sound)
    (hcontent : (heap t).content = (heap F.store).content)
    (hshared : (heap t).shared = (heap F.store).shared)
    (hback : ∀ x, (heap t).backing x =
      if Flat.inWindow m lo hi x then none else (heap F.store).backing x) :
    Refines { F with store := t } (w.clear m lo hi) := by
  have hat : ∀ x, (heap t).sharedAt x =
      if Flat.inWindow m lo hi x then none else (heap F.store).sharedAt x := by
    intro x
    split_ifs with hx
    · rw [Heap.sharedAt, hback, if_pos hx]
    · apply Heap.sharedAt_congr
      · rw [hback, if_neg hx]
      · intro id _
        rw [hshared]
  have hlink : ∀ x, (w.clear m lo hi).link x =
      if Flat.inWindow m lo hi x then none else w.link x := fun _ => rfl
  refine h.drawn (fun x => ?_) (fun x serial z hx => ?_) rfl h.files rfl (fun k key hk => ?_) hsound
    ?_ fun x hx => ?_
  · rw [hlink, hat]
    split_ifs
    · exact .inl ⟨rfl, rfl⟩
    · exact .inr ⟨x, rfl, rfl⟩
  · rw [hlink] at hx ⊢
    split_ifs at hx ⊢
    exact ⟨rfl, rfl⟩
  · have hout : ¬ Flat.inWindow m lo hi (0, k) := by
      intro hin
      have hzero := (inWindow_iff.mp hin).1
      exact absurd hm.1 (by omega)
    rw [hlink, if_neg hout]
    exact h.cached k key hk
  · funext x
    rw [Flat.clear_read, ← h.view]
    split_ifs with hx
    · rw [viewOf, Heap.view, hback, if_pos hx]
    · apply Heap.view_congr
      · rw [hback, if_neg hx]
      · intro id _
        rw [hcontent]
  · rw [hback]
    split_ifs
    · rfl
    · exact h.vacant x hx

theorem installPages_content (m first : Nat) (pages : List (Option Nat)) (s : Store) :
    (heap (installPages m first pages s)).content = (heap s).content ∧
      (heap (installPages m first pages s)).shared = (heap s).shared := by
  induction pages generalizing first s with
  | nil => exact ⟨rfl, rfl⟩
  | cons data _ ih =>
    rw [installPages]
    have hrest := ih (first + 1)
      (setPageData m first data (pageRelease ((s.memory m).pageData first) s))
    rw [hrest.1, hrest.2, heap_install]
    rw [Heap.install, Heap.release_eq]
    exact ⟨rfl, rfl⟩

theorem releasePages_backing (m first count : Nat) (s : Store) (x : Nat × Nat) :
    (heap (releasePages m first count s)).backing x =
      if Flat.inWindow m first (first + count) x then none else (heap s).backing x := by
  show ((releasePages m first count s).memory x.1).pageData x.2 = _
  rw [releasePages_memory]
  show (update s.memory m _ x.1).pageData x.2 = if _ then none else (s.memory x.1).pageData x.2
  by_cases hm : x.1 = m
  · simp only [hm, update_self, inWindow_iff, true_and]
    exact fillRange_apply ..
  · simp only [hm, update_of_ne hm, inWindow_iff, false_and, if_false]

theorem unmapPages_ends (h : Refines F w) (hm : F.Live m) (first count : Nat) :
    Ends (fun done v => v = if done then w.clear m first (first + count) else w)
      (exec (unmapPages m first count) F) := by
  have hdone : ∀ t u, heap t = heap F.store → heap u = heap (releasePages m first count t) →
      Refines (setAnonymous m first count false { F with store := u })
        (w.clear m first (first + count)) := by
    intro t u ht hu
    have ht' : Refines { F with store := t } w := h.of_heap ht
    have hcontent := installPages_content m first (replicate count none) t
    have hcleared := (ht'.cleared hm (releasePages_sound ht'.sound m first count) hcontent.1
      hcontent.2 (releasePages_backing m first count t)).of_heap hu
    refine { hcleared with anonymous := fun x serial y hx => ?_ }
    have hout : ¬ Flat.inWindow m first (first + count) x := by
      intro hin
      have hlink : (w.clear m first (first + count)).link x = none := if_pos hin
      rw [hlink] at hx
      exact nomatch hx
    show (if Flat.inWindow m first (first + count) x then false else F.anonymous x) = true
    rw [if_neg hout]
    exact hcleared.anonymous x serial y hx
  have hends := memoryUnmapPages_ends m first count F.store
  rw [unmapPages, exec_bind, exec_onStore]
  generalize exec (memoryUnmapPages m first count) F.store = run at hends ⊢
  rcases hends with ⟨e, r⟩ | hcount | ⟨r⟩
  · exact ⟨w, rfl, h.of_heap rfl⟩
  · exact ⟨_, rfl, hdone F.store F.store rfl (by rw [hcount]; rfl)⟩
  · exact ⟨_, rfl, hdone (F.store.asked r) _ rfl (heap_setMemory rfl)⟩

/-! ## Growing -/

/-- New pages behind the last one, without backing. -/
def Widened (m : Nat) (s t : Store) : Prop :=
  t.page = s.page ∧ t.nextPage = s.nextPage ∧ ∀ x, (heap t).backing x =
    if Flat.inWindow m (s.memory m).pages (t.memory m).pages x then none
    else (heap s).backing x

/-- The change leaves the backing of the old pages and adds pages without one. -/
def Widens (memory : ExecMemory) (f : ExecMemory → ExecMemory) : Prop :=
  ∀ p, (f memory).pageData p =
    if memory.pages ≤ p ∧ p < (f memory).pages then none else memory.pageData p

theorem widens_of_eq (hdata : (f memory).pageData = memory.pageData)
    (hpages : (f memory).pages = memory.pages) : Widens memory f := by
  intro p
  rw [hdata, hpages, if_neg (by omega)]

theorem widens_of_fillRange {pages : Nat} (hdata : (f memory).pageData =
      fillRange memory.pageData memory.pages (pages - memory.pages) none)
    (hpages : (f memory).pages = pages) (hle : memory.pages ≤ pages) : Widens memory f := by
  intro p
  rw [hdata, hpages, fillRange_apply, Nat.add_sub_cancel' hle]

theorem Widens.widened (h : Widens (s.memory m) f) (r : Nat) :
    Widened m s (setMemory m f (s.asked r)) := by
  refine ⟨rfl, rfl, fun x => ?_⟩
  show ((setMemory m f (s.asked r)).memory x.1).pageData x.2 =
    if _ then none else (s.memory x.1).pageData x.2
  by_cases hm : x.1 = m
  · simp only [hm, setMemory_self, inWindow_iff, true_and]
    exact h x.2
  · simp only [hm, setMemory_ne hm, inWindow_iff, false_and, if_false]
    rfl

theorem Rebuilds.widened {α : Type} {F : ExecMemory → α → (ExecMemory → ExecMemory) → Prop}
    {run : Except ExecError α × Store} (h : Rebuilds m F s run)
    (hF : ∀ a f, F (s.memory m) a f → Widens (s.memory m) f) : Widened m s run.2 := by
  cases h with
  | failed e r =>
    have hsame : Widens (s.memory m) id := widens_of_eq rfl rfl
    simpa using hsame.widened r
  | done a r f hf => exact (hF a f hf).widened r

theorem memoryReserveVirtualPages_widened (s : Store) (pages : Nat) :
    Widened m s (exec (memoryReserveVirtualPages m pages) s).2 := by
  refine (memoryReserveVirtualPages_rebuilds m pages s).widened fun _ f hf => ?_
  cases hf with
  | nothing => exact widens_of_eq rfl rfl
  | pages hpages => exact widens_of_fillRange rfl rfl hpages.le

theorem executeMemoryGrow_widened (s : Store) (add : Nat) :
    Widened m s (exec (executeMemoryGrow m add) s).2 := by
  refine (executeMemoryGrow_rebuilds m add s).widened fun _ f hf => ?_
  rcases hf with _ | ⟨_, _ | _ | ⟨_, hpages⟩⟩
  · exact widens_of_eq rfl rfl
  · exact widens_of_eq rfl rfl
  · exact widens_of_eq rfl rfl
  · exact widens_of_fillRange rfl rfl hpages.le

/-- Growth shows in the abstract memory as zeros behind the old end. -/
theorem Refines.widened (h : Refines F w) (hm : F.Live m) (ht : Widened m F.store t) :
    Refines { F with store := t } (w.clear m (F.store.memory m).pages (t.memory m).pages) := by
  have hcontent : (heap t).content = (heap F.store).content := by
    show (fun id => (t.page id).bytes) = fun id => (F.store.page id).bytes
    rw [ht.1]
  have hshared : (heap t).shared = (heap F.store).shared := by
    show (fun id => (t.page id).shared) = fun id => (F.store.page id).shared
    rw [ht.1]
  refine h.cleared hm ?_ hcontent hshared ht.2.2
  apply h.sound.fewer
  · intro x id hx
    rw [ht.2.2] at hx
    split_ifs at hx
    exact hx
  · show (fun id => (t.page id).refs) = fun id => (F.store.page id).refs
    rw [ht.1]
  · exact ht.2.1

/-! ## File pages -/

/-- One place is linked to the object of a file page. -/
theorem Refines.linked (h : Refines F w) {F' : Family} {v : Flat} {i : Nat}
    (hsound : (heap F'.store).Sound) (hview : viewOf F'.store = v.read)
    (hat : ∀ y, (heap F'.store).sharedAt y = if y = x then some i else (heap F.store).sharedAt y)
    (hlink : ∀ y, v.link y = if y = x then some (.file key) else w.link y)
    (hothers : ∀ y, y ≠ x → (w.link y = some (.file key) ↔ (heap F.store).sharedAt y = some i))
    (hfiles : v.files = F'.files)
    (hcached : ∀ k key', F'.files[k]? = some key' → v.link (0, k) = some (.file key'))
    (hkey : key ∈ F'.files) (hkept : ∀ key', key' ∈ F.files → key' ∈ F'.files)
    (hanonymous : ∀ y, y ≠ x → F.anonymous y = true → F'.anonymous y = true)
    (hserial : v.serial = w.serial)
    (hvacant : ∀ y, F'.Vacant y → (heap F'.store).backing y = none) : Refines F' v := by
  refine ⟨hsound, hview, fun y => ?_, fun y z key' hy => ?_, fun y z serial a hy hz => ?_, hfiles,
    hcached, fun y key' hy => ?_, fun y serial a hy => ?_, fun y serial a hy => ?_, hvacant⟩
  · rw [hat, hlink]
    split_ifs
    · exact ⟨fun _ => ⟨key, rfl⟩, fun _ => some_ne_none i⟩
    · exact h.shared y
  · rw [hlink] at hy ⊢
    rw [hat, hat]
    split_ifs at hy ⊢ with hzx hyx hyx
    · exact iff_of_true hy rfl
    · constructor
      · intro heq
        cases heq
        exact ((hothers y hyx).mp hy).symm
      · intro heq
        have hykey := (hothers y hyx).mpr heq.symm
        exact hykey.symm.trans hy
    · cases hy
      exact hothers z hzx
    · exact h.same y z key' hy
  · rw [hlink] at hy
    rw [hlink, hlink, hy] at hz
    split_ifs at hy
    · exact nomatch hy
    split_ifs at hz
    · exact nomatch hz
    · exact h.alone y z serial a hy (hz.trans hy.symm)
  · rw [hlink] at hy
    split_ifs at hy
    · cases hy
      exact hkey
    · exact hkept key' (h.known y key' hy)
  · rw [hlink] at hy
    split_ifs at hy with hyx
    · exact nomatch hy
    · exact hanonymous y hyx (h.anonymous y serial a hy)
  · rw [hlink] at hy
    split_ifs at hy
    · exact nomatch hy
    · rw [hserial]
      exact h.serials y serial a hy

/-- The kept page of a file page is the shared page of its place. -/
theorem Refines.kept_page (h : Refines F w) {k : Nat} (hk : F.files[k]? = some key) :
    ∃ id, (F.store.memory 0).pageData k = some id ∧ (heap F.store).sharedAt (0, k) = some id := by
  have hsome := (h.shared (0, k)).mpr ⟨key, h.cached k key hk⟩
  cases hat : (heap F.store).sharedAt (0, k) with
  | none => exact absurd hat hsome
  | some id => exact ⟨id, (Heap.backing_of_sharedAt hat).1, rfl⟩

/-- A page of a process is bound to a kept page. -/
theorem Refines.adopted (h : Refines F w) (hm : F.Live m) {page k id : Nat}
    (hk : F.files[k]? = some key) (hid : (heap F.store).sharedAt (0, k) = some id)
    (bytes : Nat → UInt8) (ht : heap t = (heap F.store).adopt (m, page) id) : Refines { F with
      store := t
      anonymous := fun x => if x = (m, page) then false else F.anonymous x }
      (w.join (m, page) key bytes) := by
  have hback := Heap.backing_of_sharedAt hid
  have hmem : key ∈ F.files := mem_of_getElem? hk
  have hjoin : w.join (m, page) key bytes =
      { w with link := update w.link (m, page) (some (.file key)) } := by
    rw [Flat.join, Flat.openFile, if_pos (h.files ▸ hmem)]
  have hlink : ∀ y, (w.join (m, page) key bytes).link y =
      if y = (m, page) then some (.file key) else w.link y := by
    intro y
    rw [hjoin]
    exact update_apply _ _ _ _
  have hat : ∀ y, (heap t).sharedAt y =
      if y = (m, page) then some id else (heap F.store).sharedAt y := by
    intro y
    rw [ht, Heap.adopt_sharedAt (.inl hback.2)]
    split_ifs with hy hz
    · rfl
    · rw [hz.1, hid]
    · rfl
  apply h.linked _ _ hat hlink
  · intro y _
    rw [h.same (0, k) y key (h.cached k key hk), hid]
  · rw [hjoin]
    exact h.files
  · intro k' key' hk'
    have hne : ((0, k') : Nat × Nat) ≠ (m, page) := by
      intro heq
      have hzero : 0 = m := congrArg Prod.fst heq
      exact absurd hm.1 (by omega)
    rw [hlink, if_neg hne]
    exact h.cached k' key' hk'
  · exact hmem
  · exact fun _ hkey => hkey
  · intro y hy hanon
    show (if y = (m, page) then false else F.anonymous y) = true
    rw [if_neg hy]
    exact hanon
  · rw [hjoin]
  · intro y hy
    rw [ht, Heap.adopt_backing, if_neg (hm.ne_vacant page hy)]
    exact h.vacant y hy
  · rw [ht]
    exact h.sound.adopt (m, page) hback.1
  · funext y
    show (heap t).view zeroPage y = _
    rw [ht, Heap.adopt_view hback.1, h.read, h.read]
    split_ifs with hy
    · have hself : (w.join (m, page) key bytes).link y = some (.file key) := by
        rw [hlink, if_pos hy]
      rw [Flat.read_of_link hself, Flat.read_of_link (h.cached k key hk), hjoin]
    · apply Flat.read_congr
      · rw [hlink, if_neg hy]
      · rw [hjoin]
      · intro o _
        rw [hjoin]

/-- A file page is kept for the first time. -/
theorem Refines.opened (h : Refines F w) (hkey : key ∉ F.files) (bytes : Nat → UInt8)
    (ht : heap t = ((heap F.store).fresh (0, F.files.length) bytes).markShared
      (some F.store.nextPage)) :
    Refines { F with store := t, files := F.files ++ [key] } (w.openFile key bytes) := by
  have hopen : w.openFile key bytes = { w with
        link := update w.link (0, F.files.length) (some (.file key))
        object := update w.object (.file key) bytes
        files := F.files ++ [key] } := by
    rw [Flat.openFile, h.files, if_neg hkey]
  have hlink : ∀ y, (w.openFile key bytes).link y =
      if y = (0, F.files.length) then some (.file key) else w.link y := by
    intro y
    rw [hopen]
    exact update_apply _ _ _ _
  have hfresh := h.sound.fresh (rfl : (fun _ => 0 : Nat → Nat) (heap F.store).next = 0)
    (0, F.files.length) bytes
  have hback : ∀ y, (heap t).backing y = if y = (0, F.files.length) then some F.store.nextPage
      else (heap F.store).backing y := by
    intro y
    rw [ht]
    exact update_apply _ _ _ _
  have hat : ∀ y, (heap t).sharedAt y = if y = (0, F.files.length) then some F.store.nextPage
      else (heap F.store).sharedAt y := by
    rw [ht]
    exact h.sound.kept_sharedAt _ _
  apply h.linked _ _ hat hlink
  · intro y _
    constructor
    · intro hy
      exact absurd (h.known y key hy) hkey
    · intro hy
      have hlt := h.sound.allocated y _ (Heap.backing_of_sharedAt hy).1
      exact absurd hlt (lt_irrefl _)
  · rw [hopen]
  · intro k key' hk
    have hk' : (F.files ++ [key])[k]? = some key' := hk
    rw [hlink]
    split_ifs with hy
    · obtain rfl : k = F.files.length := congrArg Prod.snd hy
      rw [getElem?_concat_length] at hk'
      cases hk'
      rfl
    have hne : k ≠ F.files.length := by
      rintro rfl
      exact hy rfl
    have hlen := (List.getElem?_eq_some_iff.mp hk').1
    rw [length_append, length_singleton] at hlen
    rw [getElem?_append_left (by omega)] at hk'
    exact h.cached k key' hk'
  · exact mem_append_right _ mem_cons_self
  · exact fun _ hmem => mem_append_left _ hmem
  · exact fun _ _ hanon => hanon
  · rw [hopen]
  · intro y hy
    have hy' : F.count < y.1 ∨ y.1 = 0 ∧ F.files.length < y.2 :=
      hy.imp_right fun hlast => ⟨hlast.1, by simpa using hlast.2⟩
    have hne : y ≠ (0, F.files.length) := by
      rintro rfl
      simp at hy'
    rw [hback, if_neg hne]
    exact h.vacant y (hy'.imp_right fun hlast => ⟨hlast.1, hlast.2.le⟩)
  · rw [ht]
    exact ⟨hfresh.allocated, hfresh.counted⟩
  · funext y
    show (heap t).view zeroPage y = _
    have hcontent : (heap t).view zeroPage y =
        ((heap F.store).fresh (0, F.files.length) bytes).view zeroPage y := by
      rw [ht]
      rfl
    rw [hcontent, h.sound.fresh_view, h.read]
    split_ifs with hy
    · have hself : (w.openFile key bytes).link y = some (.file key) := by
        rw [hlink, if_pos hy]
      rw [Flat.read_of_link hself, hopen]
      show bytes = update w.object (.file key) bytes (.file key)
      rw [update_self]
    · symm
      apply Flat.read_congr
      · rw [hlink, if_neg hy]
      · rw [hopen]
      intro o ho
      have hne : o ≠ .file key := by
        intro heq
        rw [heq] at ho
        exact hkey (h.known y key ho)
      rw [hopen]
      show update w.object (.file key) bytes o = w.object o
      rw [update_of_ne hne]

end Waste.Memory
