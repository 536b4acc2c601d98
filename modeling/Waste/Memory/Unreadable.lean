import Waste.Memory.Protection

/-!
# Pages that may not be read

Two stores that differ only in the bytes of pages that no memory may read behave
alike: every instruction gives the same answer in both and leaves them alike.  So no
byte of such a page is ever returned, copied to a page that may be read, or turned
into the choice between an answer and a trap.

The relation is carried through the programs by the rules of `StateExcept.Relates`.
A write to a page that may be written but not read keeps it: it changes both pages
in the same way, and the copy that it may have to make first is as unreadable as the
page it was made of.
-/

namespace Waste.Memory

open Function RangeMap StateExcept SharedPages

/-- The stores differ at most in pages that no memory may read. -/
structure Alike (s t : Store) : Prop where
  memory : t.memory = s.memory
  refs : ∀ id, (t.page id).refs = (s.page id).refs
  shared : ∀ id, (t.page id).shared = (s.page id).shared
  next : t.nextPage = s.nextPage
  granted : t.granted = s.granted
  requests : t.requests = s.requests
  bytes : ∀ m p id, Allows (s.memory m) p protRead → (s.memory m).pageData p = some id →
    (t.page id).bytes = (s.page id).bytes

/-- `Alike`, with what carries it through a program. -/
structure AlikeIn (s t : Store) : Prop extends Alike s t where
  described : Described s
  allocated : ∀ m p id, (s.memory m).pageData p = some id → id < s.nextPage

variable {s t : Store}

/-! ## Pages to write to -/

theorem AlikeIn.requested (h : AlikeIn s t) :
    AlikeIn { s with requests := s.requests + 1 } { t with requests := t.requests + 1 } :=
  { h with requests := congrArg (· + 1) h.requests }

/-- A new page for one place; what it holds need only agree if the place may be read. -/
theorem AlikeIn.renewed (h : AlikeIn s t) (m page : Nat) {u v : Store}
    (humem : u.memory = (setPageData m page (some s.nextPage) s).memory)
    (hvmem : v.memory = (setPageData m page (some t.nextPage) t).memory)
    (hrefs : ∀ id, (v.page id).refs = (u.page id).refs)
    (hshared : ∀ id, (v.page id).shared = (u.page id).shared)
    (hunext : u.nextPage = s.nextPage + 1) (hvnext : v.nextPage = t.nextPage + 1)
    (hgranted : v.granted = u.granted) (hrequests : v.requests = u.requests)
    (hold : ∀ id, id ≠ s.nextPage →
      (u.page id).bytes = (s.page id).bytes ∧ (v.page id).bytes = (t.page id).bytes)
    (hnew : Allows (s.memory m) page protRead →
      (v.page s.nextPage).bytes = (u.page s.nextPage).bytes) : AlikeIn u v := by
  have hlayout : SameLayout s u := setPageData_sameLayout.trans (.of_memory_eq humem)
  have hdata : ∀ n p id, (u.memory n).pageData p = some id →
      ((n = m ∧ p = page) ∧ id = s.nextPage) ∨
        (id ≠ s.nextPage ∧ id < s.nextPage ∧ (s.memory n).pageData p = some id) := by
    intro n p id hid
    have hback : (heap (setPageData m page (some s.nextPage) s)).backing (n, p) = some id := by
      show ((setPageData m page (some s.nextPage) s).memory n).pageData p = some id
      rw [← humem]
      exact hid
    rw [heap_setPageData] at hback
    by_cases hnp : (n, p) = (m, page)
    · cases hnp
      have hid' : some s.nextPage = some id := by simpa using hback
      cases hid'
      exact .inl ⟨⟨rfl, rfl⟩, rfl⟩
    · have hback' : (heap s).backing (n, p) = some id := by
        simpa [update_of_ne hnp] using hback
      have hlt := h.allocated n p id hback'
      exact .inr ⟨hlt.ne, hlt, hback'⟩
  refine ⟨⟨?_, hrefs, hshared, ?_, hgranted, hrequests, ?_⟩, hlayout.described h.described, ?_⟩
  · rw [humem, hvmem, h.next]
    show update t.memory m _ = update s.memory m _
    rw [h.memory]
  · rw [hunext, hvnext, h.next]
  · intro n p id hallows hid
    have hallows' : Allows (s.memory n) p protRead := hlayout.allows.mp hallows
    rcases hdata n p id hid with ⟨⟨rfl, rfl⟩, rfl⟩ | ⟨hne, -, hid'⟩
    · exact hnew hallows'
    · rw [(hold id hne).1, (hold id hne).2]
      exact h.bytes n p id hallows' hid'
  · intro n p id hid
    rw [hunext]
    rcases hdata n p id hid with ⟨-, rfl⟩ | ⟨-, hlt, -⟩
    · exact Nat.lt_succ_self _
    · exact Nat.lt_succ_of_lt hlt

theorem AlikeIn.fresh (h : AlikeIn s t) (m page : Nat) :
    AlikeIn (setPageData m page (some s.nextPage) (grantPage s))
      (setPageData m page (some t.nextPage) (grantPage t)) := by
  refine h.renewed m page rfl rfl ?_ ?_ rfl rfl h.granted (congrArg (· + 1) h.requests) ?_ ?_
  · intro id
    show (update t.page t.nextPage _ id).refs = (update s.page s.nextPage _ id).refs
    rw [h.next, update_apply, update_apply]
    split_ifs
    · rfl
    · exact h.refs id
  · intro id
    show (update t.page t.nextPage _ id).shared = (update s.page s.nextPage _ id).shared
    rw [h.next, update_apply, update_apply]
    split_ifs
    · rfl
    · exact h.shared id
  · intro id hid
    constructor
    · exact congrArg MemoryPage.bytes (update_of_ne hid _ _)
    · rw [← h.next] at hid
      exact congrArg MemoryPage.bytes (update_of_ne hid _ _)
  · intro _
    show (update t.page t.nextPage _ s.nextPage).bytes =
      (update s.page s.nextPage _ s.nextPage).bytes
    rw [h.next, update_self, update_self]

theorem copiedStore_page {m page old : Nat} (hne : old ≠ s.nextPage) (id : Nat) :
    (copiedStore m page old s).page id =
      if id = s.nextPage then ⟨(s.page old).bytes, 1, false, false⟩
      else if id = old then { s.page old with refs := (s.page old).refs - 1 }
      else s.page id := by
  show (setPage old (fun p => { p with refs := p.refs - 1 })
      (setPage s.nextPage (fun p => { p with bytes := (s.page old).bytes }) (grantPage s))).page
        id = _
  simp only [setPage, grantPage, update_self]
  by_cases hnew : id = s.nextPage
  · rw [if_pos hnew, hnew, update_of_ne hne.symm, update_self]
  · split_ifs with hold
    · rw [hold, update_self, update_of_ne hne, update_of_ne hne]
    · rw [update_of_ne hold, update_of_ne hnew, update_of_ne hnew]

theorem AlikeIn.copied (h : AlikeIn s t) {m page old : Nat}
    (hdata : (s.memory m).pageData page = some old) :
    AlikeIn (copiedStore m page old s) (copiedStore m page old t) := by
  have hne : old ≠ s.nextPage := (h.allocated m page old hdata).ne
  have hne' : old ≠ t.nextPage := by
    rw [h.next]
    exact hne
  refine h.renewed m page rfl rfl ?_ ?_ rfl rfl h.granted (congrArg (· + 1) h.requests) ?_ ?_
  · intro id
    rw [copiedStore_page hne, copiedStore_page hne', h.next]
    split_ifs
    · rfl
    · exact congrArg (· - 1) (h.refs old)
    · exact h.refs id
  · intro id
    rw [copiedStore_page hne, copiedStore_page hne', h.next]
    split_ifs
    · rfl
    · exact h.shared old
    · exact h.shared id
  · intro id hid
    rw [copiedStore_page hne, copiedStore_page hne', h.next, if_neg hid, if_neg hid]
    split_ifs with hold
    · rw [hold]
      exact ⟨rfl, rfl⟩
    · exact ⟨rfl, rfl⟩
  · intro hallows
    rw [copiedStore_page hne, copiedStore_page hne', h.next, if_pos rfl, if_pos rfl]
    exact h.bytes m page old hallows hdata

theorem ownPage_relates (m page : Nat) : Relates AlikeIn (ownPage m page) (ownPage m page) := by
  intro s t h
  have hrefuse : AlikeIn (refusedPage s).2 (refusedPage t).2 := h.requested
  unfold RelatesAt
  rw [exec_ownPage, exec_ownPage, h.memory, h.granted, h.requests]
  cases hdata : (s.memory m).pageData page with
  | none =>
    split_ifs with hgranted
    · exact ⟨rfl, h.fresh m page⟩
    · exact ⟨rfl, hrefuse⟩
  | some _ =>
    dsimp only
    rw [h.refs, h.shared]
    split_ifs with hkeep hgranted
    · exact ⟨rfl, h⟩
    · exact ⟨rfl, h.copied hdata⟩
    · exact ⟨rfl, hrefuse⟩

variable {value : Nat → UInt8}

theorem AlikeIn.poked (h : AlikeIn s t) (m page inPage count : Nat) :
    AlikeIn (pokePage m page inPage count value s) (pokePage m page inPage count value t) := by
  unfold pokePage
  rw [h.memory]
  cases hdata : (s.memory m).pageData page with
  | none => exact h
  | some id =>
    refine { h with refs := fun n => ?_, shared := fun n => ?_, bytes := ?_ }
    · show (update t.page id _ n).refs = (update s.page id _ n).refs
      rw [update_apply, update_apply]
      split_ifs
      · exact h.refs id
      · exact h.refs n
    · show (update t.page id _ n).shared = (update s.page id _ n).shared
      rw [update_apply, update_apply]
      split_ifs
      · exact h.shared id
      · exact h.shared n
    · intro n p k hallows hk
      show (update t.page id _ k).bytes = (update s.page id _ k).bytes
      have hbytes := h.bytes n p k hallows hk
      by_cases hkid : k = id
      · rw [hkid] at hbytes ⊢
        rw [update_self, update_self]
        dsimp only
        rw [hbytes]
      · rw [update_of_ne hkid, update_of_ne hkid]
        exact hbytes

theorem writeChunk_relates (m page inPage count : Nat) :
    Relates AlikeIn (writeChunk m page inPage count value)
      (writeChunk m page inPage count value) := by
  intro s t h
  apply RelatesAt.bind (ownPage_relates m page s t h)
  intro _ u v huv
  exact ⟨rfl, huv.poked m page inPage count⟩

/-! ## Loops -/

theorem writeLoop_relates (m fuel address : Nat) (source : List UInt8) :
    Relates AlikeIn (writeLoop m fuel address source) (writeLoop m fuel address source) := by
  induction fuel generalizing address source with
  | zero => exact fun _ _ h => .pure h _
  | succ fuel ih =>
    intro s t h
    rw [writeLoop]
    split_ifs with hlength
    · exact .pure h _
    · rw [writeChunk_bind]
      exact .bind (writeChunk_relates _ _ _ _ s t h) fun _ => ih _ _

theorem fillLoop_relates (m : Nat) {value : UInt8} (fuel address length : Nat) :
    Relates AlikeIn (fillLoop m value fuel address length)
      (fillLoop m value fuel address length) := by
  induction fuel generalizing address length with
  | zero => exact fun _ _ h => .pure h _
  | succ fuel ih =>
    intro s t h
    rw [fillLoop]
    split_ifs with hlength
    · exact .pure h _
    apply RelatesAt.get_bind
    rw [h.memory]
    split_ifs with hskip
    · exact ih _ _ s t h
    · rw [writeChunk_bind]
      exact .bind (writeChunk_relates _ _ _ _ s t h) fun _ => ih _ _

theorem Alike.readLoop (h : Alike s t) (m fuel address length : Nat)
    (hpermits : Permits s m address length protRead) :
    readLoop t m fuel address length = readLoop s m fuel address length := by
  induction fuel generalizing address length with
  | zero => rfl
  | succ fuel ih =>
    rw [Memory.readLoop, Memory.readLoop]
    split_ifs with hlength
    · rfl
    have hfirst := hpermits address (le_refl _) (by omega)
    dsimp only
    rw [ih _ _ fun a hlo hhi => hpermits a (by omega) (by omega), h.memory]
    cases hdata : (s.memory m).pageData (address / execPageSize) with
    | none => rfl
    | some id =>
      dsimp only
      rw [h.bytes m _ id hfirst hdata]

theorem memoryRead_relates (m offset length : Nat) :
    Relates AlikeIn (memoryRead m offset length) (memoryRead m offset length) := by
  intro s t h
  apply RelatesAt.get_bind
  rw [h.memory]
  cases hrange : memoryRange (s.memory m) offset length with
  | error e => exact ⟨rfl, h⟩
  | ok _ =>
    cases hcheck : runAccessCheck (s.memory m) offset length protRead with
    | error e => exact ⟨rfl, h⟩
    | ok _ =>
      cases hperm : memoryPermissions (s.memory m) offset length protRead with
      | error e => exact ⟨rfl, h⟩
      | ok _ =>
        have hpermits := h.described.permits (by decide) hrange hperm
        refine ⟨?_, h⟩
        show Except.ok _ = .ok _
        rw [h.toAlike.readLoop m length offset length hpermits]

theorem memoryWrite_relates {m : Nat} {offset : Nat} {source : List UInt8} :
    Relates AlikeIn (memoryWrite m offset source) (memoryWrite m offset source) := by
  intro s t h
  apply RelatesAt.get_bind
  rw [h.memory]
  apply RelatesAt.bind (.require h rfl)
  intro _ s t h
  apply RelatesAt.bind (.require h rfl)
  intro _ s t h
  apply RelatesAt.bind (.require h rfl)
  intro _
  exact writeLoop_relates m _ _ _

theorem readLanes_relates (m address : Nat) {sourceWidth : Nat} (lanes : List Nat) :
    Relates AlikeIn (readLanes m address sourceWidth lanes)
      (readLanes m address sourceWidth lanes) := by
  induction lanes with
  | nil => exact fun _ _ h => .pure h _
  | cons _ _ ih =>
    intro s t h
    apply RelatesAt.bind (memoryRead_relates _ _ _ s t h)
    intro bytes s t h
    apply RelatesAt.bind (ih s t h)
    exact fun others _ _ h => .pure h _

/-! ## Instructions -/

theorem memoryCopy_relates (dst dstOffset src srcOffset length : Nat) :
    Relates AlikeIn (memoryCopy dst dstOffset src srcOffset length)
      (memoryCopy dst dstOffset src srcOffset length) := by
  intro s t h
  apply RelatesAt.get_bind
  rw [h.memory]
  apply RelatesAt.bind (.require h rfl)
  intro _ s t h
  apply RelatesAt.bind (.require h rfl)
  intro _ s t h
  refine copyLoops_rule (motive := fun c => Relates AlikeIn c c)
    (fun _ _ h => .pure h _) (fun start part rest hrest s t h => ?_) length s t h
  apply RelatesAt.bind (memoryRead_relates _ _ _ s t h)
  intro chunk s t h
  exact .bind (memoryWrite_relates s t h) fun _ => hrest

theorem memoryFill_relates (m offset : Nat) {value : UInt8} (length : Nat) :
    Relates AlikeIn (memoryFill m offset value length) (memoryFill m offset value length) := by
  intro s t h
  apply RelatesAt.get_bind
  rw [h.memory]
  apply RelatesAt.bind (.require h rfl)
  intro _
  exact fillLoop_relates m _ _ _

theorem addressed_relates {α : Type} {m base offset width : Nat} {c : Nat → MemM α}
    (hc : ∀ address, Relates AlikeIn (c address) (c address)) :
    Relates AlikeIn (addressed m base offset width c) (addressed m base offset width c) := by
  intro s t h
  apply RelatesAt.get_bind
  rw [h.memory]
  exact .bind (.require h rfl) hc

theorem silent_relates {c : MemM PUnit} (hc : Relates AlikeIn c c) :
    Relates AlikeIn (do c; pure ([] : List UInt8)) (do c; pure []) :=
  fun s t h => .bind (hc s t h) fun _ _ _ h => .pure h _

theorem bounded_relates {bounds : Store → Prop} [∀ s, Decidable (bounds s)] {c : MemM PUnit}
    (hbounds : ∀ s t, t.memory = s.memory → (bounds t ↔ bounds s))
    (hc : Relates AlikeIn c c) :
    Relates AlikeIn (do let s ← get; if bounds s then outOfBounds else c)
      (do let s ← get; if bounds s then outOfBounds else c) := by
  intro s t h
  apply RelatesAt.get_bind
  by_cases hb : bounds s
  · rw [if_pos hb, if_pos ((hbounds s t h.memory).mpr hb)]
    exact ⟨rfl, h⟩
  · rw [if_neg hb, if_neg fun hb' => hb ((hbounds s t h.memory).mp hb')]
    exact hc s t h

theorem GuestOp.relates (op : GuestOp) : Relates AlikeIn op.comp op.comp := by
  cases op with
  | load m base offset width =>
    have hload : Relates AlikeIn (executeLoad m base offset width)
        (executeLoad m base offset width) := by
      apply addressed_relates
      intro address s t h
      apply RelatesAt.bind (memoryRead_relates m address width s t h)
      exact fun bytes _ _ h => .pure h _
    exact fun s t h => .bind (hload s t h) fun bits _ _ h => .pure h _
  | vectorLoad m base offset width =>
    exact addressed_relates fun address => memoryRead_relates m address width
  | vectorLoadExtend m base offset sourceWidth =>
    exact addressed_relates fun address => readLanes_relates m address _
  | store | vectorStore =>
    exact silent_relates (addressed_relates fun address => memoryWrite_relates)
  | copy dst dstOffset src srcOffset n =>
    apply silent_relates
    apply bounded_relates _ (memoryCopy_relates dst dstOffset src srcOffset n)
    intro s t h
    rw [h]
  | fill m dst value n =>
    apply silent_relates
    apply bounded_relates _ (memoryFill_relates m dst n)
    intro s t h
    rw [h]
  | init m dst src n _ =>
    apply silent_relates
    apply bounded_relates _ memoryWrite_relates
    intro s t h
    rw [h]

end Waste.Memory
