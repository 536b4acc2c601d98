import Waste.Memory.Map
import Waste.Lib.SharedPages

/-!
# What the pages of the memories hold

The backing pages of a store, read as `SharedPages.Heap`.  A place is a page of a
memory.  `ownPage` is `Heap.own` there and `pokePage` is `Heap.poke`, so what an
access changes and who sees it are read off the heap.

Counts only stay right while no count saturates: `exec_memory_page_retain` leaves a
count at `UINT32_MAX` alone.
-/

namespace Waste.Memory

open Function RangeMap StateExcept SharedPages

variable {m : Nat} {x y : Nat × Nat}

/-! ## The heap of a store -/

def zeroPage : Nat → UInt8 := fun _ => 0

/-- The backing pages of all memories. -/
def heap (s : Store) : Heap (Nat × Nat) (Nat → UInt8) where
  backing x := (s.memory x.1).pageData x.2
  content id := (s.page id).bytes
  refs id := (s.page id).refs
  shared id := (s.page id).shared
  next := s.nextPage

/-- A memory without its backing. -/
def bare (memory : ExecMemory) : ExecMemory :=
  { memory with pageData := fun _ => none }

/-- The memories differ at most in their backing. -/
def SameLayout (s t : Store) : Prop :=
  ∀ m, bare (t.memory m) = bare (s.memory m)

theorem SameLayout.refl (s : Store) : SameLayout s s :=
  fun _ => rfl

theorem SameLayout.trans {s t u : Store} (h : SameLayout s t) (h' : SameLayout t u) :
    SameLayout s u :=
  fun m => (h' m).trans (h m)

theorem SameLayout.of_memory_eq {s t : Store} (h : t.memory = s.memory) : SameLayout s t := by
  intro m
  rw [h]

/-- The allocator is asked later and answers as before. -/
structure Later (s t : Store) : Prop where
  granted : t.granted = s.granted
  requests : s.requests ≤ t.requests

theorem Later.refl (s : Store) : Later s s :=
  ⟨rfl, le_refl _⟩

theorem Later.trans {s t u : Store} (h : Later s t) (h' : Later t u) : Later s u :=
  ⟨h'.granted.trans h.granted, h.requests.trans h'.requests⟩

def Refused (s : Store) : Prop :=
  ∃ n, s.requests ≤ n ∧ s.granted n = false

theorem Refused.of_later {s t : Store} (h : Later s t) (ht : Refused t) : Refused s := by
  obtain ⟨n, hn, hgranted⟩ := ht
  exact ⟨n, h.requests.trans hn, by rw [← h.granted]; exact hgranted⟩

/-! ## The changes of the model as changes of the heap -/

variable {s : Store}

theorem heap_setPageData (s : Store) (m page : Nat) (data : Option Nat) :
    heap (setPageData m page data s) =
      { heap s with backing := update (heap s).backing (m, page) data } := by
  have hback : (heap (setPageData m page data s)).backing =
      update (heap s).backing (m, page) data := by
    funext ⟨n, p⟩
    rcases eq_or_ne n m with rfl | hn
    · rcases eq_or_ne p page with rfl | hp <;> simp [heap, setPageData, setMemory, *]
    · simp [heap, setPageData, setMemory, hn]
  rw [← hback]
  rfl

theorem setPageData_sameLayout {page : Nat} {data : Option Nat} :
    SameLayout s (setPageData m page data s) :=
  update_field bare rfl

theorem heap_setPage (s : Store) (id : Nat) (f : MemoryPage → MemoryPage) : heap (setPage id f s) =
      { heap s with
        content := update (heap s).content id (f (s.page id)).bytes
        refs := update (heap s).refs id (f (s.page id)).refs
        shared := update (heap s).shared id (f (s.page id)).shared } := by
  simp only [heap, setPage, Heap.mk.injEq, true_and, and_true]
  exact ⟨comp_update .., comp_update .., comp_update ..⟩

theorem heap_pageRelease (s : Store) (data : Option Nat) :
    heap (pageRelease data s) = (heap s).release data := by
  cases data with
  | none => rfl
  | some _ =>
    rw [pageRelease, heap_setPage]
    simp [heap, Heap.release]

theorem heap_pageRetain {id : Nat} (hroom : (s.page id).refs ≠ uint32Max) :
    heap (pageRetain (some id) s) = (heap s).retain (some id) := by
  rw [pageRetain, heap_setPage, if_pos hroom]
  simp [heap, Heap.retain]

theorem heap_markShared (s : Store) (data : Option Nat) :
    heap (markShared data s) = (heap s).markShared data := by
  cases data with
  | none => rfl
  | some _ =>
    rw [markShared, heap_setPage]
    simp [heap, Heap.markShared]

def writtenBytes (inPage count : Nat) (value : Nat → UInt8) (bytes : Nat → UInt8) : Nat → UInt8 :=
  fun i => if inPage ≤ i ∧ i < inPage + count then value (i - inPage) else bytes i

theorem heap_pokePage (s : Store) (m page inPage count : Nat) (value : Nat → UInt8) :
    heap (pokePage m page inPage count value s) =
      (heap s).poke (m, page) (writtenBytes inPage count value) := by
  unfold pokePage Heap.poke
  have hbacking : (s.memory m).pageData page = (heap s).backing (m, page) := rfl
  rw [hbacking]
  cases (heap s).backing (m, page) with
  | none => rfl
  | some id =>
    rw [heap_setPage]
    simp only [heap, update_eq_self]
    rfl

/-! ## Taking a page to write to -/

def grantPage (s : Store) : Store :=
  { s with
    requests := s.requests + 1
    nextPage := s.nextPage + 1
    page := update s.page s.nextPage ⟨zeroPage, 1, false, false⟩ }

theorem exec_pageAllocate (s : Store) : exec pageAllocate s =
      if s.granted s.requests then (.ok s.nextPage, grantPage s)
      else (.error ⟨.resource, "memory page allocation failed", .none, 0, 0, 0⟩,
        { s with requests := s.requests + 1 }) := by
  simp only [pageAllocate, allocate, execFail, exec_bind, exec_get, exec_set, exec_pure]
  cases s.granted s.requests <;> rfl

theorem heap_grantPage (s : Store) : heap (grantPage s) = { heap s with
        content := update (heap s).content s.nextPage zeroPage
        refs := update (heap s).refs s.nextPage 1
        shared := update (heap s).shared s.nextPage false
        next := s.nextPage + 1 } := by
  simp only [heap, grantPage, Heap.mk.injEq, true_and, and_true]
  exact ⟨comp_update .., comp_update .., comp_update ..⟩

/-- What taking a page to write to can end in. -/
inductive OwnCases (s : Store) (m page : Nat) : Except ExecError PUnit × Store → Prop
  | ok (t : Store) (hheap : heap t = (heap s).own zeroPage (m, page)) (hlayout : SameLayout s t)
      (hlater : Later s t) : OwnCases s m page (.ok ⟨⟩, t)
  | refused (e : ExecError) (t : Store) (hheap : heap t = heap s) (hlayout : SameLayout s t)
      (hlater : Later s t) (hstatus : e.status = .resource) (hrefused : Refused s) :
      OwnCases s m page (.error e, t)

theorem heap_copied {old : Nat} (hne : old ≠ s.nextPage) :
    heap (setPage old (fun p => { p with refs := p.refs - 1 })
        (setPage s.nextPage (fun p => { p with bytes := (s.page old).bytes }) (grantPage s))) =
      { heap s with
        content := update (heap s).content s.nextPage (s.page old).bytes
        refs := update (update (heap s).refs old ((heap s).refs old - 1)) s.nextPage 1
        shared := update (heap s).shared s.nextPage false
        next := s.nextPage + 1 } := by
  simp only [heap, setPage, grantPage, Heap.mk.injEq, true_and, and_true]
  refine ⟨?_, ?_, ?_⟩
  all_goals
    funext n
    by_cases hn : n = s.nextPage
    · simp [hn, update_of_ne hne.symm]
    · by_cases ho : n = old
      · simp [ho, update_of_ne hne]
      · simp [update_of_ne hn, update_of_ne ho]

/-- The store with a copy of `old` as the page of the memory. -/
def copiedStore (m page old : Nat) (s : Store) : Store :=
  setPageData m page (some s.nextPage) (setPage old (fun p => { p with refs := p.refs - 1 })
      (setPage s.nextPage (fun p => { p with bytes := (s.page old).bytes }) (grantPage s)))

def refusedPage (s : Store) : Except ExecError PUnit × Store :=
  (.error ⟨.resource, "memory page allocation failed", .none, 0, 0, 0⟩,
    { s with requests := s.requests + 1 })

theorem exec_detachMemoryPage {page old : Nat} (hdata : (s.memory m).pageData page = some old) :
    exec (detachMemoryPage m page) s =
      if (s.page old).refs ≤ 1 ∨ (s.page old).shared then (.ok ⟨⟩, s)
      else if s.granted s.requests then (.ok ⟨⟩, copiedStore m page old s)
      else refusedPage s := by
  simp only [detachMemoryPage, exec_bind, exec_get, hdata]
  split_ifs with hkeep hgranted
  · rw [exec_pure]
  · rw [exec_bind, exec_pageAllocate, if_pos hgranted]
    rfl
  · rw [exec_bind, exec_pageAllocate, if_neg hgranted]
    rfl

/-- The three ways to a page to write to: a new one, the one that is there, or a
copy of it. -/
theorem exec_ownPage (s : Store) (m page : Nat) : exec (ownPage m page) s =
      match (s.memory m).pageData page with
      | none =>
        if s.granted s.requests then (.ok ⟨⟩, setPageData m page (some s.nextPage) (grantPage s))
        else refusedPage s
      | some old =>
        if (s.page old).refs ≤ 1 ∨ (s.page old).shared then (.ok ⟨⟩, s)
        else if s.granted s.requests then (.ok ⟨⟩, copiedStore m page old s)
        else refusedPage s := by
  cases hdata : (s.memory m).pageData page with
  | some _ =>
    simp only [ownPage, exec_bind, exec_get, hdata]
    exact exec_detachMemoryPage hdata
  | none =>
    simp only [ownPage, exec_bind, exec_get, hdata, exec_pageAllocate]
    split_ifs with hgranted
    · have hnew : ((setPageData m page (some s.nextPage) (grantPage s)).memory m).pageData page =
          some s.nextPage := by
        simp [setPageData, setMemory]
      have hrefs :
          ((setPageData m page (some s.nextPage) (grantPage s)).page s.nextPage).refs ≤ 1 := by
        simp [setPageData, setMemory, grantPage]
      simp only [exec_modify]
      rw [exec_detachMemoryPage hnew, if_pos (.inl hrefs)]
    · rfl

theorem ownPage_cases (hsound : (heap s).Sound) (m page : Nat) :
    OwnCases s m page (exec (ownPage m page) s) := by
  have hrefuse : s.granted s.requests ≠ true → OwnCases s m page (refusedPage s) := by
    intro hgranted
    have hrefused : Refused s := ⟨s.requests, le_refl _, by simpa using hgranted⟩
    exact .refused _ _ rfl (.refl _) ⟨rfl, Nat.le_succ _⟩ rfl hrefused
  rw [exec_ownPage]
  cases hdata : (s.memory m).pageData page with
  | none =>
    have hback : (heap s).backing (m, page) = none := hdata
    split_ifs with hgranted
    · refine .ok _ ?_ setPageData_sameLayout ⟨rfl, Nat.le_succ _⟩
      rw [heap_setPageData, heap_grantPage]
      simp only [Heap.own, hback, Heap.fresh, Heap.install, Heap.release]
      rfl
    · exact hrefuse hgranted
  | some old =>
    have hback : (heap s).backing (m, page) = some old := hdata
    dsimp only
    split_ifs with hkeep hgranted
    · refine .ok _ ?_ (.refl _) (.refl _)
      simp only [Heap.own, hback]
      exact (if_pos hkeep).symm
    · refine .ok _ ?_ setPageData_sameLayout ⟨rfl, Nat.le_succ _⟩
      have hne : old ≠ s.nextPage := (hsound.allocated (m, page) old hback).ne
      have hcopy : ¬ ((heap s).refs old ≤ 1 ∨ (heap s).shared old) := hkeep
      rw [copiedStore, heap_setPageData, heap_copied hne]
      simp only [Heap.own, hback]
      rw [if_neg hcopy]
      simp only [Heap.fresh, Heap.install, hback, Heap.release]
      rfl
    · exact hrefuse hgranted

/-! ## Steps of a write -/

/-- The places of the store that see a write to a page of a memory. -/
def Reaches (s : Store) (x y : Nat × Nat) : Prop :=
  (heap s).Reaches x y

/-- What every write keeps, whether it fails or not: the layout of the memories,
who holds which shared page, and the counts. -/
structure Steady (s t : Store) : Prop where
  layout : SameLayout s t
  later : Later s t
  shared : (heap t).sharedAt = (heap s).sharedAt
  sound : (heap t).Sound

theorem Steady.refl (hsound : (heap s).Sound) : Steady s s :=
  ⟨.refl s, .refl s, rfl, hsound⟩

theorem Steady.trans {t u : Store} (h : Steady s t) (h' : Steady t u) : Steady s u :=
  ⟨h.layout.trans h'.layout, h.later.trans h'.later, h'.shared.trans h.shared, h'.sound⟩

theorem Steady.reaches {t : Store} (h : Steady s t) : Reaches t x y ↔ Reaches s x y := by
  unfold Reaches Heap.Reaches
  rw [h.shared]

/-- What a place sees. -/
def viewOf (s : Store) : Nat × Nat → Nat → UInt8 :=
  (heap s).view zeroPage

/-- Those who see a write to `x` see the page of `x` changed by `f`; the others see
what they saw. -/
structure Wrote (x : Nat × Nat) (f : (Nat → UInt8) → Nat → UInt8) (s t : Store) : Prop
    extends Steady s t where
  reached : ∀ y, Reaches s x y → viewOf t y = f (viewOf s x)
  others : ∀ y, ¬ Reaches s x y → viewOf t y = viewOf s y
  kept : ∀ y, y ≠ x → (heap t).backing y = (heap s).backing y

theorem Wrote.after {f : (Nat → UInt8) → Nat → UInt8} {t u : Store}
    (h : Wrote x f t u) (hsteady : Steady s t) (hheap : heap t = heap s) : Wrote x f s u := by
  have hview : viewOf t = viewOf s := by rw [viewOf, viewOf, hheap]
  refine ⟨hsteady.trans h.toSteady, fun y hy => ?_, fun y hy => ?_, fun y hy => ?_⟩
  · rw [h.reached y (hsteady.reaches.mpr hy), hview]
  · rw [h.others y fun h => hy (hsteady.reaches.mp h), hview]
  · rw [h.kept y hy, hheap]

def writeChunk (m page inPage count : Nat) (value : Nat → UInt8) : MemM PUnit := do
  ownPage m page
  modify (pokePage m page inPage count value)

theorem writeChunk_bind {α : Type} (m page inPage count : Nat) (value : Nat → UInt8)
    (rest : MemM α) :
    (do ownPage m page; modify (pokePage m page inPage count value); rest) =
      (do writeChunk m page inPage count value; rest) :=
  (bind_assoc ..).symm

inductive ChunkCases (s : Store) (m page inPage count : Nat) (value : Nat → UInt8) :
    Except ExecError PUnit × Store → Prop
  | ok (t : Store) (hwrote : Wrote (m, page) (writtenBytes inPage count value) s t) :
      ChunkCases s m page inPage count value (.ok ⟨⟩, t)
  | refused (e : ExecError) (t : Store) (hsteady : Steady s t) (hheap : heap t = heap s)
      (hstatus : e.status = .resource) (hrefused : Refused s) :
      ChunkCases s m page inPage count value (.error e, t)

theorem pokePage_frame (s : Store) (m page inPage count : Nat) (value : Nat → UInt8) :
    (pokePage m page inPage count value s).memory = s.memory ∧
      Later s (pokePage m page inPage count value s) := by
  unfold pokePage
  split
  · exact ⟨rfl, .refl s⟩
  · exact ⟨rfl, rfl, le_refl _⟩

theorem writeChunk_cases (hsound : (heap s).Sound) (m page inPage count : Nat)
    (value : Nat → UInt8) :
    ChunkCases s m page inPage count value (exec (writeChunk m page inPage count value) s) := by
  rw [writeChunk, exec_bind]
  have hcases := ownPage_cases hsound m page
  generalize exec (ownPage m page) s = r at hcases ⊢
  cases hcases with
  | refused e t hheap hlayout hlater hstatus hrefused =>
    refine .refused e t ⟨hlayout, hlater, ?_, ?_⟩ hheap hstatus hrefused
    · rw [hheap]
    · rw [hheap]
      exact hsound
  | ok t hheap hlayout hlater =>
    have hframe := pokePage_frame t m page inPage count value
    have hpoke := heap_pokePage t m page inPage count value
    have hshared : (heap t).sharedAt = (heap s).sharedAt := by
      funext y
      rw [hheap, hsound.own_sharedAt]
    have hview : viewOf t = viewOf s := by
      funext y
      rw [viewOf, viewOf, hheap, hsound.own_view]
    have howned : (heap t).Owned (m, page) := by
      rw [hheap]
      exact hsound.owned_own
    have hreaches : ∀ y, Reaches s (m, page) y ↔ (heap t).Reaches (m, page) y := by
      intro y
      unfold Reaches Heap.Reaches
      rw [hshared]
    refine .ok _ ⟨⟨hlayout.trans (.of_memory_eq hframe.1), hlater.trans hframe.2, ?_, ?_⟩,
      fun y hy => ?_, fun y hy => ?_, fun y hy => ?_⟩
    · rw [hpoke, ← hshared]
      unfold Heap.poke
      split <;> rfl
    · rw [hpoke, hheap]
      exact (hsound.own rfl (m, page)).poke _ _
    · rw [viewOf, hpoke, ← hview]
      exact howned.poke_view.1 ((hreaches y).mp hy)
    · rw [viewOf, hpoke, ← hview]
      exact howned.poke_view.2 fun h => hy ((hreaches y).mpr h)
    · rw [hpoke, Heap.poke_backing, hheap]
      exact Heap.own_backing_ne hy

/-! ## Writes of several chunks -/

/-- A sequence of writes to places in `X`. -/
inductive Effects (X : Nat × Nat → Prop) : Store → Store → Prop
  | done {s t : Store} (hsteady : Steady s t) (hheap : heap t = heap s) : Effects X s t
  | wrote {s t u : Store} {x : Nat × Nat} {f : (Nat → UInt8) → Nat → UInt8} (hx : X x)
      (hwrote : Wrote x f s t) (hrest : Effects X t u) : Effects X s u

variable {X : Nat × Nat → Prop} {t u : Store}

theorem Effects.refl (hsound : (heap s).Sound) : Effects X s s :=
  .done (.refl hsound) rfl

theorem Effects.steady (h : Effects X s t) : Steady s t := by
  induction h with
  | done hsteady _ => exact hsteady
  | wrote _ hwrote _ ih => exact hwrote.toSteady.trans ih

theorem Effects.trans (h : Effects X s t) (h' : Effects X t u) : Effects X s u := by
  induction h with
  | wrote hx hwrote _ ih => exact .wrote hx hwrote (ih h')
  | done hsteady hheap =>
    cases h' with
    | done hsteady' hheap' => exact .done (hsteady.trans hsteady') (hheap'.trans hheap)
    | @wrote _ _ _ x f hx hwrote hrest => exact .wrote hx (hwrote.after hsteady hheap) hrest

theorem Effects.frame (h : Effects X s t) (hy : ∀ x, X x → ¬ Reaches s x y) :
    viewOf t y = viewOf s y := by
  induction h with
  | done _ hheap => rw [viewOf, viewOf, hheap]
  | wrote hx hwrote _ ih =>
    rw [ih fun x hx' hreach => hy x hx' (hwrote.toSteady.reaches.mp hreach)]
    exact hwrote.others y (hy _ hx)

/-- The end of a loop that writes: it writes in `X`, and it fails only where the
allocator refuses a page. -/
structure Loops (X : Nat × Nat → Prop) (s : Store) (r : Except ExecError PUnit × Store) : Prop where
  effects : Effects X s r.2
  failed : ∀ e, r.1 = .error e → e.status = .resource ∧ Refused s

theorem Loops.pure (hsound : (heap s).Sound) : Loops X s (exec (pure ⟨⟩) s) :=
  ⟨.refl hsound, nofun⟩

theorem Loops.chunk (hsound : (heap s).Sound) {page inPage count : Nat} {value : Nat → UInt8}
    (hx : X (m, page)) {rest : MemM PUnit}
    (hrest : ∀ t, Steady s t → Loops X t (exec rest t)) :
    Loops X s (exec (do writeChunk m page inPage count value; rest) s) := by
  rw [exec_bind]
  have hcases := writeChunk_cases hsound m page inPage count value
  generalize exec (writeChunk m page inPage count value) s = r at hcases ⊢
  cases hcases with
  | refused e t hsteady hheap hstatus hrefused =>
    refine ⟨.done hsteady hheap, fun e' he => ?_⟩
    cases he
    exact ⟨hstatus, hrefused⟩
  | ok t hwrote =>
    have hloops := hrest t hwrote.toSteady
    refine ⟨.wrote hx hwrote hloops.effects, fun e he => ?_⟩
    have hend := hloops.failed e he
    exact ⟨hend.1, hend.2.of_later hwrote.later⟩

theorem writeLoop_loops (hsound : (heap s).Sound) (fuel address : Nat) (source : List UInt8)
    (hx : ∀ a, address ≤ a → a < address + source.length → X (m, a / execPageSize)) :
    Loops X s (exec (writeLoop m fuel address source) s) := by
  induction fuel generalizing s address source with
  | zero => exact .pure hsound
  | succ fuel ih =>
    rw [writeLoop]
    split_ifs with hlength
    · exact .pure hsound
    rw [writeChunk_bind]
    apply Loops.chunk hsound (hx address (le_refl _) (by omega))
    intro t ht
    apply ih ht.sound
    intro a hlo hhi
    rw [List.length_drop] at hhi
    exact hx a (by omega) (by omega)

theorem fillLoop_loops (hsound : (heap s).Sound) {value : UInt8} (fuel address length : Nat)
    (hx : ∀ a, address ≤ a → a < address + length → X (m, a / execPageSize)) :
    Loops X s (exec (fillLoop m value fuel address length) s) := by
  induction fuel generalizing s address length with
  | zero => exact .pure hsound
  | succ fuel ih =>
    rw [fillLoop]
    split_ifs with hlength
    · exact .pure hsound
    have hrest : ∀ t, (heap t).Sound → Loops X t (exec (fillLoop m value fuel
        (address + min (execPageSize - address % execPageSize) length)
        (length - min (execPageSize - address % execPageSize) length)) t) := fun t ht =>
      ih ht _ _ fun a hlo hhi => hx a (by omega) (by omega)
    simp only [exec_bind, exec_get]
    split_ifs with hskip
    · exact hrest s hsound
    · rw [writeChunk_bind]
      exact .chunk hsound (hx address (le_refl _) (by omega)) fun t ht => hrest t ht.sound

end Waste.Memory
