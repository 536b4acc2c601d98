import Waste.Memory.Family

/-!
# Accesses of a family refine the abstract memory

`Refines F w` says that the processes of `F` see the abstract memory `w`: every place
has the bytes that `w` says, and a write to a place is seen exactly at the places that
`w` links to it.  Copies that are made when a page is written do not show, because
`Wrote` already speaks of what the places see.

The accesses of a process keep the relation, and their effect is the one of `Flat`.
-/

namespace Waste.Memory

open RangeMap StateExcept SharedPages List Option

variable {dst : Nat} {rest : MemM PUnit}

structure Refines (F : Family) (w : Flat) : Prop where
  sound : (heap F.store).Sound
  view : viewOf F.store = w.read
  shared : ∀ x, (heap F.store).sharedAt x ≠ none ↔ ∃ key, w.link x = some (.file key)
  same : ∀ x y key, w.link x = some (.file key) →
    (w.link y = some (.file key) ↔ (heap F.store).sharedAt y = (heap F.store).sharedAt x)
  alone : ∀ x y serial z, w.link x = some (.anonymous serial z) → w.link y = w.link x → y = x
  files : w.files = F.files
  cached : ∀ k key, F.files[k]? = some key → w.link (0, k) = some (.file key)
  known : ∀ x key, w.link x = some (.file key) → key ∈ F.files
  anonymous : ∀ x serial y, w.link x = some (.anonymous serial y) → F.anonymous x = true
  serials : w.SerialsBelow
  vacant : ∀ x, F.Vacant x → (heap F.store).backing x = none

variable {F : Family} {w : Flat}

theorem Refines.read (h : Refines F w) (x : Nat × Nat) :
    (heap F.store).view zeroPage x = w.read x :=
  congrFun h.view x

/-- A write is seen where the abstract memory links to. -/
theorem Refines.links (h : Refines F w) (x y : Nat × Nat) : Reaches F.store x y ↔ w.Linked x y := by
  constructor
  · rintro (heq | ⟨hsome, hsame⟩)
    · exact .inl heq
    obtain ⟨key, hkey⟩ := (h.shared x).mp hsome
    have hy := (h.same x y key hkey).mpr hsame
    refine .inr ⟨?_, ?_⟩
    · rw [hkey]
      exact some_ne_none _
    · rw [hkey, hy]
  · rintro (heq | ⟨hsome, hsame⟩)
    · exact .inl heq
    cases hx : w.link x with
    | none => exact absurd hx hsome
    | some o =>
      cases o with
      | file key =>
        refine .inr ⟨(h.shared x).mpr ⟨key, hx⟩, ?_⟩
        apply (h.same x y key hx).mp
        rw [hsame, hx]
      | anonymous serial z => exact .inl (h.alone x y serial z hx hsame)

/-- The relation depends on the store only through its heap. -/
theorem Refines.of_heap (h : Refines F w) {t : Store} (ht : heap t = heap F.store) :
    Refines { F with store := t } w := by
  obtain ⟨sound, view, shared, same, alone, files, cached, known, anonymous, serials, vacant⟩ := h
  rw [viewOf, ← ht] at view
  rw [← ht] at sound shared same vacant
  exact ⟨sound, view, shared, same, alone, files, cached, known, anonymous, serials, vacant⟩

/-- The links and the shared pages come from places of the old family.  So does an object
without a file, and it stays where it was. -/
theorem Refines.drawn (h : Refines F w) {F' : Family} {v : Flat}
    (hfrom : ∀ x, (v.link x = none ∧ (heap F'.store).sharedAt x = none) ∨
      ∃ y, v.link x = w.link y ∧ (heap F'.store).sharedAt x = (heap F.store).sharedAt y)
    (hold : ∀ x serial z, v.link x = some (.anonymous serial z) →
      w.link x = v.link x ∧ F'.anonymous x = F.anonymous x)
    (hserial : v.serial = w.serial) (hfiles : v.files = F'.files) (hkept : F'.files = F.files)
    (hcached : ∀ k key, F.files[k]? = some key → v.link (0, k) = some (.file key))
    (hsound : (heap F'.store).Sound) (hview : viewOf F'.store = v.read)
    (hvacant : ∀ x, F'.Vacant x → (heap F'.store).backing x = none) : Refines F' v := by
  refine ⟨hsound, hview, fun x => ?_, fun x y key hx => ?_, fun x y serial z hx hy => ?_, hfiles,
    hkept ▸ hcached, fun x key hx => ?_, fun x serial z hx => ?_, fun x serial z hx => ?_, hvacant⟩
  · rcases hfrom x with ⟨hl, hs⟩ | ⟨y, hl, hs⟩
    · rw [hl, hs]
      simp
    · rw [hl, hs]
      exact h.shared y
  · rcases hfrom x with ⟨hl, -⟩ | ⟨x', hl, hs⟩
    · exact nomatch hl.symm.trans hx
    rw [hl] at hx
    rw [hs]
    rcases hfrom y with ⟨hl', hs'⟩ | ⟨y', hl', hs'⟩
    · rw [hl', hs']
      have hsome := (h.shared x').mpr ⟨key, hx⟩
      exact ⟨fun hno => (nomatch hno), fun hno => absurd hno.symm hsome⟩
    · rw [hl', hs']
      exact h.same x' y' key hx
  · have hx' := (hold x serial z hx).1
    have hy' := (hold y serial z (hy.trans hx)).1
    exact h.alone x y serial z (hx'.trans hx) (hy'.trans (hy.trans hx'.symm))
  · rcases hfrom x with ⟨hl, -⟩ | ⟨y, hl, -⟩
    · exact nomatch hl.symm.trans hx
    · rw [hkept]
      exact h.known y key (hl.symm.trans hx)
  · rw [(hold x serial z hx).2]
    exact h.anonymous x serial z ((hold x serial z hx).1.trans hx)
  · rw [hserial]
    exact h.serials x serial z ((hold x serial z hx).1.trans hx)

theorem Refines.wrote (h : Refines F w) {m page : Nat} (hm : F.Live m)
    {f : (Nat → UInt8) → Nat → UInt8} {t : Store} (hwrote : Wrote (m, page) f F.store t) :
    Refines { F with store := t } (w.put (m, page) f) := by
  have hput : (w.put (m, page) f).serial = w.serial ∧ (w.put (m, page) f).files = w.files := by
    unfold Flat.put
    split <;> exact ⟨rfl, rfl⟩
  refine h.drawn (fun x => .inr ⟨x, by rw [Flat.put_link], congrFun hwrote.shared x⟩)
    (fun x _ _ _ => ⟨by rw [Flat.put_link], rfl⟩) hput.1 (hput.2.trans h.files) rfl
    (fun k key hk => ?_) hwrote.sound ?_ fun x hx => ?_
  · rw [Flat.put_link]
    exact h.cached k key hk
  · funext y
    have hput := w.put_read (m, page) f y
    by_cases hy : w.Linked (m, page) y
    · rw [hput.1 hy, ← h.view]
      exact hwrote.reached y ((h.links _ _).mpr hy)
    · rw [hput.2 hy, ← h.view]
      exact hwrote.others y fun hreaches => hy ((h.links _ _).mp hreaches)
  · rw [hwrote.kept x (hm.ne_vacant page hx)]
    exact h.vacant x hx

/-! ## Ends of programs -/

/-- The program ended in a family that sees an abstract memory with `P`, where `P` is
told whether it failed. -/
def Ends {α : Type} (P : Bool → Flat → Prop) (r : Except ExecError α × Family) : Prop :=
  ∃ v, P r.1.toBool v ∧ Refines r.2 v

variable {α β : Type} {P Q : Bool → Flat → Prop}

theorem Ends.mono {r : Except ExecError α × Family} (h : Ends P r)
    (hPQ : ∀ done v, P done v → Q done v) : Ends Q r := by
  obtain ⟨v, hP, hv⟩ := h
  exact ⟨v, hPQ _ v hP, hv⟩

theorem Ends.bind {c : FamM α} {f : α → FamM β} (hc : Ends P (exec c F))
    (hfail : ∀ v, P false v → Q false v)
    (hf : ∀ a F' v, exec c F = (.ok a, F') → P true v → Refines F' v → Ends Q (exec (f a) F')) :
    Ends Q (exec (c >>= f) F) := by
  rw [exec_bind]
  obtain ⟨v, hP, hv⟩ := hc
  cases hrun : exec c F with
  | mk r F' =>
    rw [hrun] at hP hv
    cases r with
    | error e => exact ⟨v, hfail v hP, hv⟩
    | ok a => exact hf a F' v hrun hP hv

theorem Ends.quiet {c : MemM α} (h : Refines F w) (hheap : heap (exec c F.store).2 = heap F.store) :
    Ends (fun _ v => v = w) (exec (onStore c) F) := by
  rw [exec_onStore]
  exact ⟨w, rfl, h.of_heap hheap⟩

/-! ## Writing -/

section Accesses

variable {m : Nat}

section

variable (h : Refines F w)
include h

theorem Ends.chunk (hm : F.Live m) (p : Flat.Put) {ps : List Flat.Put}
    (hrest : ∀ t v, Refines { F with store := t } v →
      Ends (Flat.Sequence (Flat.PutStep m) ps · v) (exec (onStore rest) { F with store := t })) :
    Ends (Flat.Sequence (Flat.PutStep m) (p :: ps) · w) (exec (onStore (do
      writeChunk m p.page p.inPage p.count p.value
      rest)) F) := by
  rw [exec_onStore, exec_bind]
  have hcases := writeChunk_cases h.sound m p.page p.inPage p.count p.value
  generalize exec (writeChunk m p.page p.inPage p.count p.value) F.store = r at hcases ⊢
  cases hcases with
  | refused e t _ hheap _ _ => exact ⟨w, .stopped _ w, h.of_heap hheap⟩
  | ok t hwrote =>
    have hend := hrest t _ (h.wrote hm hwrote)
    rw [exec_onStore] at hend
    exact hend.mono fun done v hv => .cons rfl hv

theorem writeLoop_ends (hm : F.Live m) (fuel address : Nat) (source : List UInt8) :
    Ends (Flat.Sequence (Flat.PutStep m)
      (Flat.puts fuel address source.length fun i => source.getD i 0) · w)
      (exec (onStore (writeLoop m fuel address source)) F) := by
  induction fuel generalizing F w address source with
  | zero =>
    exact ⟨w, .nil w, h⟩
  | succ fuel ih =>
    rw [writeLoop, Flat.puts]
    split_ifs with hlength
    · exact ⟨w, .nil w, h⟩
    dsimp only
    generalize min (execPageSize - address % execPageSize) source.length = chunk
    rw [writeChunk_bind]
    apply Ends.chunk h hm ⟨_, _, _, _⟩
    intro t v hv
    have hdrop := ih hv hm (address + chunk) (source.drop chunk)
    rw [length_drop] at hdrop
    have hvalue : (fun i => (source.drop chunk).getD i 0) = fun i => source.getD (chunk + i) 0 := by
      funext i
      rw [getD_eq_getElem?_getD, getElem?_drop, ← getD_eq_getElem?_getD]
    rw [hvalue] at hdrop
    exact hdrop

omit h in
/-- Zeros over a page that has no backing change nothing. -/
theorem wrote_zero {s : Store} (hsound : (heap s).Sound) {page : Nat}
    (hnone : (s.memory m).pageData page = none) (inPage count : Nat) :
    Wrote (m, page) (writtenBytes inPage count fun _ => 0) s s := by
  have hback : (heap s).backing (m, page) = none := hnone
  have hshared : (heap s).sharedAt (m, page) = none := by
    rw [Heap.sharedAt, hback]
  have hview : viewOf s (m, page) = zeroPage := by
    rw [viewOf, Heap.view, hback]
  refine ⟨.refl hsound, fun y hy => ?_, fun _ _ => rfl, fun _ _ => rfl⟩
  have heq : y = (m, page) := by
    rcases hy with hy | hy
    · exact hy
    · exact absurd hshared hy.1
  rw [heq, hview]
  funext i
  rw [writtenBytes]
  split
  · rfl
  · rfl

theorem fillLoop_ends (hm : F.Live m) {value : UInt8} (fuel address length : Nat) :
    Ends (Flat.Sequence (Flat.PutStep m) (Flat.puts fuel address length fun _ => value) · w)
      (exec (onStore (fillLoop m value fuel address length)) F) := by
  induction fuel generalizing F w address length with
  | zero =>
    exact ⟨w, .nil w, h⟩
  | succ fuel ih =>
    rw [fillLoop, Flat.puts]
    split_ifs with hlength
    · exact ⟨w, .nil w, h⟩
    dsimp only
    generalize min (execPageSize - address % execPageSize) length = chunk
    by_cases hskip : value = 0 ∧ (F.store.memory m).pageData (address / execPageSize) = none
    · have hrest := ih (h.wrote hm (wrote_zero h.sound hskip.2 (address % execPageSize) chunk)) hm
        (address + chunk) (length - chunk)
      rw [exec_onStore] at hrest
      rw [exec_onStore, exec_bind, exec_get]
      dsimp only
      rw [if_pos hskip]
      apply hrest.mono
      intro done v hv
      refine .cons ?_ hv
      rw [Flat.PutStep, if_pos rfl, hskip.1]
    · have hrest : ∀ t v, Refines { F with store := t } v → _ := fun t v hv =>
        ih hv hm (address + chunk) (length - chunk)
      have hend := Ends.chunk h hm
        ⟨address / execPageSize, address % execPageSize, chunk, fun _ => value⟩ hrest
      rw [exec_onStore] at hend ⊢
      rw [exec_bind, exec_get]
      dsimp only
      rw [if_neg hskip, writeChunk_bind]
      exact hend

theorem Ends.checked (hstop : P false w) {x : Except ExecError PUnit} {c : MemM α}
    (hc : x = .ok ⟨⟩ → Ends P (exec (onStore c) F)) :
    Ends P (exec (onStore (do require x; c)) F) := by
  rw [exec_onStore, exec_bind, exec_require]
  cases x with
  | error e => exact ⟨w, hstop, h⟩
  | ok _ =>
    have hend := hc rfl
    rw [exec_onStore] at hend
    exact hend

theorem memoryWrite_ends (hm : F.Live m) (offset : Nat) (source : List UInt8) :
    Ends (Flat.Writes m offset source · w) (exec (onStore (memoryWrite m offset source)) F) := by
  have hget : exec (onStore (memoryWrite m offset source)) F = exec (onStore (do
      require (memoryRange (F.store.memory m) offset source.length)
      require (runAccessCheck (F.store.memory m) offset source.length protWrite)
      require (memoryPermissions (F.store.memory m) offset source.length protWrite)
      writeLoop m source.length offset source)) F := by
    rw [exec_onStore, exec_onStore, memoryWrite, exec_bind, exec_get]
  rw [hget]
  apply Ends.checked h (.stopped _ w)
  intro _
  apply Ends.checked h (.stopped _ w)
  intro _
  apply Ends.checked h (.stopped _ w)
  intro _
  exact writeLoop_ends h hm source.length offset source

/-! ## Reading -/

omit h in
/-- A read collects the bytes that the places of the range have. -/
theorem readLoop_eq (s : Store) (fuel address length : Nat) (hfuel : length ≤ fuel) :
    readLoop s m fuel address length = (range length).map fun i =>
      viewOf s (m, (address + i) / execPageSize) ((address + i) % execPageSize) := by
  induction fuel generalizing address length with
  | zero =>
    obtain rfl : length = 0 := by omega
    rfl
  | succ fuel ih =>
    rw [readLoop]
    split_ifs with hlength
    · rw [hlength]
      rfl
    have hchunk := chunk_pos address hlength
    have hle := min_le_right (execPageSize - address % execPageSize) length
    have hpage := min_le_left (execPageSize - address % execPageSize) length
    dsimp only
    generalize min (execPageSize - address % execPageSize) length = chunk at *
    rw [ih _ _ (by omega)]
    conv_rhs =>
      rw [show length = chunk + (length - chunk) by omega, range_add, map_append, List.map_map]
    congr 1
    · have hview : ∀ i ∈ range chunk,
          viewOf s (m, (address + i) / execPageSize) ((address + i) % execPageSize) =
            viewOf s (m, address / execPageSize) (address % execPageSize + i) := by
        intro i hi
        rw [mem_range] at hi
        unfold execPageSize at *
        congr 2 <;> omega
      rw [map_congr_left hview, viewOf, Heap.view,
        show (heap s).backing (m, address / execPageSize) =
          (s.memory m).pageData (address / execPageSize) from rfl]
      cases (s.memory m).pageData (address / execPageSize) with
      | none =>
        show _ = (range chunk).map fun _ => 0
        rw [map_const', length_range]
      | some id => rfl
    · apply map_congr_left
      intro i _
      show viewOf s _ _ = viewOf s _ _
      rw [add_assoc]

theorem Refines.readLoop (address length : Nat) :
    readLoop F.store m length address length = w.bytesAt m address length := by
  rw [readLoop_eq _ _ _ _ (le_refl _), h.view]
  rfl

omit h in
/-- A read answers `a` or fails, and changes nothing. -/
def Answers {α : Type} (c : MemM α) (s : Store) (a : α) : Prop :=
  exec c s = (.ok a, s) ∨ ∃ e, exec c s = (.error e, s)

omit h in
theorem Answers.bind {α β : Type} {c : MemM α} {f : α → MemM β} {a : α} {b : β}
    (hc : Answers c F.store a) (hf : Answers (f a) F.store b) :
    Answers (c >>= f) F.store b := by
  rcases hc with hc | ⟨e, hc⟩ <;> rw [Answers, exec_bind, hc]
  · exact hf
  · exact .inr ⟨e, rfl⟩

theorem memoryRead_flat (m offset length : Nat) :
    Answers (memoryRead m offset length) F.store (w.bytesAt m offset length) := by
  rw [← h.readLoop]
  exact (memoryRead_cases F.store m offset length).symm

/-! ## Instructions -/

def Flat.CopyStep (dst dstOffset src srcOffset : Nat) (part : Nat × Nat) (done : Bool)
    (w v : Flat) : Prop :=
  Writes dst (dstOffset + part.1) (w.bytesAt src (srcOffset + part.1) part.2) done w v

theorem Ends.part (hdst : F.Live dst) {dstOffset src srcOffset : Nat} (part : Nat × Nat)
    {parts : List (Nat × Nat)}
    (hrest : ∀ t v, Refines { F with store := t } v →
      Ends (Flat.Sequence (Flat.CopyStep dst dstOffset src srcOffset) parts · v)
        (exec (onStore rest) { F with store := t })) :
    Ends (Flat.Sequence (Flat.CopyStep dst dstOffset src srcOffset) (part :: parts) · w)
      (exec (onStore (do
        let chunk ← memoryRead src (srcOffset + part.1) part.2
        memoryWrite dst (dstOffset + part.1) chunk
        rest)) F) := by
  rw [exec_onStore, exec_bind]
  rcases memoryRead_cases F.store src (srcOffset + part.1) part.2 with ⟨e, he⟩ | hok
  · rw [he]
    exact ⟨w, .stopped _ w, h⟩
  rw [hok, h.readLoop]
  dsimp only
  rw [exec_bind]
  have hwrite := memoryWrite_ends h hdst (dstOffset + part.1)
    (w.bytesAt src (srcOffset + part.1) part.2)
  rw [exec_onStore] at hwrite
  generalize exec (memoryWrite dst (dstOffset + part.1) _) F.store = run at hwrite ⊢
  obtain ⟨e | _, t⟩ := run <;> obtain ⟨v, hv, hrefines⟩ := hwrite
  · exact ⟨v, .failed _ hv, hrefines⟩
  · have hend := hrest t v hrefines
    rw [exec_onStore] at hend
    exact hend.mono fun done u hu => .cons hv hu

theorem copyForward_ends (hdst : F.Live dst) (dstOffset src srcOffset length fuel done : Nat) :
    Ends (Flat.Sequence (Flat.CopyStep dst dstOffset src srcOffset)
      (Flat.forwardParts length fuel done) · w)
      (exec (onStore (copyForward dst dstOffset src srcOffset length fuel done)) F) := by
  induction fuel generalizing F w done with
  | zero =>
    exact ⟨w, .nil w, h⟩
  | succ fuel ih =>
    rw [copyForward, Flat.forwardParts]
    split_ifs with hdone
    · exact ⟨w, .nil w, h⟩
    all_goals exact .part h hdst (done, _) fun t v hv => ih hv hdst _

theorem copyBackward_ends (hdst : F.Live dst) (dstOffset src srcOffset fuel remaining : Nat) :
    Ends (Flat.Sequence (Flat.CopyStep dst dstOffset src srcOffset)
      (Flat.backwardParts fuel remaining) · w)
      (exec (onStore (copyBackward dst dstOffset src srcOffset fuel remaining)) F) := by
  induction fuel generalizing F w remaining with
  | zero =>
    exact ⟨w, .nil w, h⟩
  | succ fuel ih =>
    rw [copyBackward, Flat.backwardParts]
    split_ifs with hzero
    · exact ⟨w, .nil w, h⟩
    all_goals exact .part h hdst (_, _) fun t v hv => ih hv hdst _

theorem executeMemoryCopy_ends (hdst : F.Live dst) (dstOffset src srcOffset n : Nat) :
    Ends (Flat.Copies dst dstOffset src srcOffset n · w)
      (exec (onStore (executeMemoryCopy dst dstOffset src srcOffset n)) F) := by
  rw [exec_onStore, executeMemoryCopy, exec_bind, exec_get]
  dsimp only
  split_ifs with hbounds
  · exact ⟨w, .stopped _ w, h⟩
  rw [memoryCopy, exec_bind, exec_get, ← exec_onStore]
  apply Ends.checked h (.stopped _ w)
  intro _
  apply Ends.checked h (.stopped _ w)
  intro _
  unfold Flat.Copies Flat.copyParts
  by_cases hzero : n = 0
  · rw [if_pos hzero, if_neg (by omega), exec_onStore, hzero]
    exact ⟨w, .nil w, h⟩
  · split_ifs with hoverlap
    · exact copyBackward_ends h hdst dstOffset src srcOffset n n
    · exact copyForward_ends h hdst dstOffset src srcOffset n n 0

theorem executeMemoryFill_ends (hm : F.Live m) {value : UInt8} (n : Nat) :
    Ends (Flat.Assigns m dst n (fun _ => value) · w)
      (exec (onStore (executeMemoryFill m dst value n)) F) := by
  rw [exec_onStore, executeMemoryFill, exec_bind, exec_get]
  dsimp only
  split_ifs with hbounds
  · exact ⟨w, .stopped _ w, h⟩
  · rw [memoryFill, exec_bind, exec_get, ← exec_onStore]
    apply Ends.checked h (.stopped _ w)
    intro _
    exact fillLoop_ends h hm n dst n

theorem executeMemoryInit_ends (hm : F.Live m) (dst src n : Nat) {segment : List UInt8} :
    Ends (Flat.Writes m dst ((segment.drop src).take n) · w)
      (exec (onStore (executeMemoryInit m dst src n segment)) F) := by
  rw [exec_onStore, executeMemoryInit, exec_bind, exec_get]
  dsimp only
  split_ifs with hbounds
  · exact ⟨w, .stopped _ w, h⟩
  · rw [← exec_onStore]
    exact memoryWrite_ends h hm dst _

theorem Ends.addressed (hstop : P false w) {base offset width : Nat} {c : Nat → MemM α}
    (hc : Ends P (exec (onStore (c (base + offset))) F)) :
    Ends P (exec (onStore (addressed m base offset width c)) F) := by
  rw [exec_onStore] at hc ⊢
  rcases exec_addressed m base offset width c F.store with ⟨e, -, hrun⟩ | hrun <;> rw [hrun]
  · exact ⟨w, hstop, h⟩
  · exact hc

omit h in
theorem Ends.silent {c : MemM PUnit} (hc : Ends P (exec (onStore c) F)) :
    Ends P (exec (onStore (do c; pure ([] : List UInt8))) F) := by
  rw [exec_onStore] at hc ⊢
  rw [exec_bind]
  revert hc
  rcases exec c F.store with ⟨_ | a, t⟩
  · exact id
  · exact id

omit h in
theorem Answers.addressed {base offset width : Nat} {c : Nat → MemM α} {a : α}
    (hc : Answers (c (base + offset)) F.store a) :
    Answers (addressed m base offset width c) F.store a := by
  rcases exec_addressed m base offset width c F.store with ⟨e, -, hrun⟩ | hrun <;>
    rw [Answers, hrun]
  · exact .inr ⟨e, rfl⟩
  · exact hc

theorem readLanes_flat (m address sourceWidth : Nat) (lanes : List Nat) :
    Answers (readLanes m address sourceWidth lanes) F.store
      (lanes.flatMap fun lane => w.bytesAt m (address + lane * sourceWidth) sourceWidth) := by
  induction lanes with
  | nil => exact .inl rfl
  | cons lane rest ih =>
    exact (memoryRead_flat h m (address + lane * sourceWidth) sourceWidth).bind
      (ih.bind (.inl rfl))

omit h in
theorem storeLe_loadLe (bytes : List UInt8) : storeLe (loadLe bytes) bytes.length = bytes := by
  induction bytes with
  | nil => rfl
  | cons byte rest ih =>
    show .ofNat (byte.toNat + 256 * loadLe rest) ::
      storeLe ((byte.toNat + 256 * loadLe rest) / 256) rest.length = byte :: rest
    have hlt : byte.toNat < 256 := byte.toNat_lt
    rw [show (byte.toNat + 256 * loadLe rest) / 256 = loadLe rest by omega, ih]
    congr 1
    apply UInt8.toNat_inj.mp
    rw [UInt8.toNat_ofNat']
    omega

omit h in
theorem Flat.bytesAt_length (w : Flat) (m address length : Nat) :
    (w.bytesAt m address length).length = length := by
  rw [bytesAt, length_map, length_range]

theorem load_flat (m base offset width : Nat) :
    Answers (GuestOp.load m base offset width).comp F.store
      (w.bytesAt m (base + offset) width) := by
  have hload : Answers (executeLoad m base offset width) F.store
      (loadLe (w.bytesAt m (base + offset) width)) :=
    .addressed ((memoryRead_flat h m (base + offset) width).bind (.inl rfl))
  have hround := storeLe_loadLe (w.bytesAt m (base + offset) width)
  rw [Flat.bytesAt_length] at hround
  rw [← hround]
  exact hload.bind (.inl rfl)

/-- Every instruction does to the family what it does to the abstract memory, and
answers what the abstract memory holds. -/
theorem GuestOp.flatly {op : GuestOp} (hm : F.Live op.target) :
    ∃ v, op.Flatly (exec op.comp F.store).1 w v ∧
      Refines { F with store := (exec op.comp F.store).2 } v := by
  have hread {bytes : List UInt8} (hanswers : Answers op.comp F.store bytes) :
      ∃ v, (v = w ∧ ∀ b, (exec op.comp F.store).1 = .ok b → b = bytes) ∧
        Refines { F with store := (exec op.comp F.store).2 } v := by
    rcases hanswers with hrun | ⟨e, hrun⟩ <;> rw [hrun]
    · exact ⟨w, ⟨rfl, fun b hb => (Except.ok.inj hb).symm⟩, h⟩
    · exact ⟨w, ⟨rfl, nofun⟩, h⟩
  have hwrite : ∀ {P : Bool → Flat → Prop}, Ends P (exec (onStore op.comp) F) →
      ∃ v, P (exec op.comp F.store).1.toBool v ∧
        Refines { F with store := (exec op.comp F.store).2 } v := by
    intro P hends
    rw [exec_onStore] at hends
    exact hends
  cases op with
  | load m base offset width => exact hread (load_flat h m base offset width)
  | vectorLoad m base offset width =>
    exact hread (.addressed (memoryRead_flat h m (base + offset) width))
  | vectorLoadExtend m base offset sourceWidth =>
    exact hread (.addressed (readLanes_flat h m (base + offset) sourceWidth _))
  | store m base offset width bits =>
    have hstore : Ends (Flat.Writes m (base + offset) (storeLe bits width) · w)
        (exec (onStore (executeStore m base offset width bits)) F) :=
      .addressed h (.stopped _ w) (memoryWrite_ends h hm (base + offset) _)
    exact hwrite (.silent hstore)
  | vectorStore m base offset bytes =>
    have hstore : Ends (Flat.Writes m (base + offset) bytes · w)
        (exec (onStore (executeVectorStore m base offset bytes)) F) :=
      .addressed h (.stopped _ w) (memoryWrite_ends h hm (base + offset) _)
    exact hwrite (.silent hstore)
  | copy dst dstOffset src srcOffset n =>
    exact hwrite (.silent (executeMemoryCopy_ends h hm dstOffset src srcOffset n))
  | fill m dst value n => exact hwrite (.silent (executeMemoryFill_ends h hm n))
  | init m dst src n segment =>
    exact hwrite (.silent (executeMemoryInit_ends h hm dst src n))

end

end Accesses

end Waste.Memory
