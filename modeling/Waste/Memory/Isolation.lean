import Waste.Memory.Mmap

/-!
# Isolation and sharing between the processes of a family

Every call of a process does to the abstract memory what `Call.Flatly` says, so every
run of a family is a run of the abstract memory.  There a page that is not mapped
shared is changed by its own process only, and the pages linked to one object have the
same bytes in all processes.

Fork is where the abstract memory and the code part: the code shares a page between
parent and child only if the page is marked shared, and pages mapped `MAP_SHARED`
without a file are not.  `Family.Meets` asks that a process that forks has none.
-/

namespace Waste.Memory

open Function RangeMap StateExcept SharedPages List

variable {F : Family} {w : Flat} {m : Nat}
variable {r : Except ExecError (List UInt8)} {done : Bool}

/-! ## Fork -/

/-- No count saturates when every page of the memory is referenced once more. -/
def ForkRoom (m : Nat) (s : Store) : Prop :=
  ∀ p < (s.memory m).pages, ∀ id ∈ (s.memory m).pageData p,
    (s.page id).refs + (s.memory m).pages ≤ uint32Max

theorem retainPages_content {pages : List (Option Nat)} (s : Store) :
    (heap (pages.foldl (fun s page => pageRetain page s) s)).content = (heap s).content ∧
      (heap (pages.foldl (fun s page => pageRetain page s) s)).shared = (heap s).shared := by
  have hone : ∀ data (s : Store), (heap (pageRetain data s)).content = (heap s).content ∧
      (heap (pageRetain data s)).shared = (heap s).shared := by
    intro data s
    cases data with
    | none => exact ⟨rfl, rfl⟩
    | some id =>
      rw [pageRetain, heap_setPage]
      constructor
      · split_ifs
        · exact update_eq_self id (heap s).content
        · exact update_eq_self id (heap s).content
      · split_ifs
        · exact update_eq_self id (heap s).shared
        · exact update_eq_self id (heap s).shared
  induction pages generalizing s with
  | nil => exact ⟨rfl, rfl⟩
  | cons data _ ih =>
    have hrest := ih (pageRetain data s)
    exact ⟨hrest.1.trans (hone data s).1, hrest.2.trans (hone data s).2⟩

theorem installPages_page (n first : Nat) (pages : List (Option Nat)) (s : Store)
    (hempty : ∀ p, first ≤ p → (s.memory n).pageData p = none) :
    (installPages n first pages s).page = s.page ∧
      (installPages n first pages s).nextPage = s.nextPage := by
  induction pages generalizing first s with
  | nil => exact ⟨rfl, rfl⟩
  | cons data _ ih =>
    rw [installPages, hempty first (le_refl _)]
    apply ih (first + 1) (setPageData n first data s)
    intro p hp
    show (update s.memory n _ n).pageData p = none
    rw [update_self]
    show update (s.memory n).pageData first data p = none
    rw [update_of_ne (by omega)]
    exact hempty p (by omega)

section Clone

variable {s : Store} {n : Nat}

theorem cloneMemory_backing (m n : Nat) (s : Store) (x : Nat × Nat) :
    (heap (cloneMemory m n s)).backing x =
      if x.1 = n then (if x.2 < (s.memory m).pages then (heap s).backing (m, x.2) else none)
      else (heap s).backing x := by
  show (update (foldl _ s _).memory n _ x.1).pageData x.2 = _
  rw [foldl_view fun s data => pageRetain_memory data s, update_apply]
  split_ifs with hn hp
  · exact if_pos hp
  · exact if_neg hp
  · rfl

theorem cloneMemory_content (m n : Nat) (s : Store) :
    (heap (cloneMemory m n s)).content = (heap s).content ∧
      (heap (cloneMemory m n s)).shared = (heap s).shared :=
  retainPages_content s

/-- The references that were taken are those of the child. -/
theorem cloneMemory_sound (hs : (heap s).Sound) (hroom : ForkRoom m s)
    (hempty : ∀ p, (s.memory n).pageData p = none) : (heap (cloneMemory m n s)).Sound := by
  obtain ⟨pages, hpages⟩ :
      ∃ pages, pages = (range (s.memory m).pages).map (s.memory m).pageData := ⟨_, rfl⟩
  have hlength : pages.length = (s.memory m).pages := by rw [hpages, length_map, length_range]
  have hwindow : ∀ p < (s.memory m).pages, pages.getD p none = (s.memory m).pageData p := by
    intro p hp
    rw [hpages, getD_eq_getElem?_getD, getElem?_map, getElem?_range hp]
    rfl
  have hheld : ∀ id, some id ∈ pages →
      (s.page id).refs + pages.length ≤ uint32Max ∧ id < s.nextPage := by
    intro id hid
    rw [hpages, mem_map] at hid
    obtain ⟨p, hp, hdata⟩ := hid
    rw [hlength]
    exact ⟨hroom p (mem_range.mp hp) id hdata, hs.allocated (m, p) id hdata⟩
  have hback := cloneMemory_backing m n s
  rw [cloneMemory, ← hpages] at hback ⊢
  have hretained := retainPages_sound pages hs fun id hid => (hheld id hid).1
  have hmemory := foldl_view (fun s data => pageRetain_memory data s) pages s
  have hnext := foldl_view (fun s data => pageRetain_nextPage data s) pages s
  generalize pages.foldl (fun s page => pageRetain page s) s = t at hretained hmemory hnext hback ⊢
  have hempty' : ∀ p, 0 ≤ p → (t.memory n).pageData p = none := by
    intro p _
    rw [hmemory]
    exact hempty p
  have hinstalled : (heap (installPages n 0 pages t)).Sound := by
    apply installPages_sound n 0 pages hretained
    intro id hid
    rw [hnext]
    exact (hheld id hid).2
  have hsame := installPages_page n 0 pages t hempty'
  apply hinstalled.fewer
  · intro x id hx
    rw [hback] at hx
    show ((installPages n 0 pages t).memory x.1).pageData x.2 = some id
    rw [installPages_memory]
    show (update t.memory n _ x.1).pageData x.2 = some id
    split_ifs at hx with hn hp
    · rw [hn, update_self]
      show (if 0 ≤ x.2 ∧ x.2 < 0 + pages.length then pages.getD (x.2 - 0) none else _) = some id
      rw [if_pos (by omega), Nat.sub_zero, hwindow x.2 hp]
      exact hx
    · rw [update_of_ne hn, hmemory]
      exact hx
  · show (fun id => (t.page id).refs) = fun id => ((installPages n 0 pages t).page id).refs
    rw [hsame.1]
  · exact hsame.2.symm

end Clone

theorem Refines.forked (h : Refines F w) (hroom : ForkRoom m F.store)
    (hanonymous : ∀ p < (F.store.memory m).pages, F.anonymous (m, p) = false) :
    Refines { F with
      store := cloneMemory m (F.count + 1) F.store
      count := F.count + 1
      anonymous := fun x => if x.1 = F.count + 1 then F.anonymous (m, x.2) else F.anonymous x }
      (w.fork m (F.count + 1) (F.store.memory m).pages) := by
  have hback := cloneMemory_backing m (F.count + 1) F.store
  have hcontent := cloneMemory_content m (F.count + 1) F.store
  have hsound := cloneMemory_sound h.sound hroom fun p =>
    h.vacant (F.count + 1, p) (.inl (Nat.lt_succ_self _))
  generalize cloneMemory m (F.count + 1) F.store = t at hback hcontent hsound ⊢
  have hat : ∀ x, (heap t).sharedAt x =
      if x.1 = F.count + 1 then
        (if x.2 < (F.store.memory m).pages then (heap F.store).sharedAt (m, x.2) else none)
      else (heap F.store).sharedAt x := by
    intro x
    unfold Heap.sharedAt
    rw [hback, hcontent.2]
    split_ifs <;> rfl
  have hlink : ∀ x, (w.fork m (F.count + 1) (F.store.memory m).pages).link x =
      if x.1 = F.count + 1 then
        (if x.2 < (F.store.memory m).pages then w.link (m, x.2) else none)
      else w.link x := fun _ => rfl
  -- the place whose page a place of the family has after the fork
  have hfrom : ∀ x, ((w.fork m (F.count + 1) (F.store.memory m).pages).link x = none ∧
      (heap t).sharedAt x = none) ∨
      ∃ y, (w.fork m (F.count + 1) (F.store.memory m).pages).link x = w.link y ∧
        (heap t).sharedAt x = (heap F.store).sharedAt y := by
    intro x
    rw [hlink, hat]
    split_ifs
    · exact .inr ⟨(m, x.2), rfl, rfl⟩
    · exact .inl ⟨rfl, rfl⟩
    · exact .inr ⟨x, rfl, rfl⟩
  have hnone : ∀ p serial z, p < (F.store.memory m).pages →
      w.link (m, p) ≠ some (.anonymous serial z) := by
    intro p serial z hp hlink
    have htrue := h.anonymous (m, p) serial z hlink
    rw [hanonymous p hp] at htrue
    exact nomatch htrue
  refine h.drawn hfrom (fun x serial z hx => ?_) rfl h.files rfl h.cached hsound ?_ fun x hx => ?_
  · -- links to objects without a file are not inherited, because the parent has none
    rw [hlink] at hx ⊢
    split_ifs at hx ⊢ with hn hp
    · exact absurd hx (hnone x.2 serial z hp)
    · exact ⟨rfl, if_neg hn⟩
  · funext x
    rw [Flat.fork_read]
    rw [← h.read, ← h.read]
    show (heap t).view zeroPage x = _
    unfold Heap.view
    rw [hback, hcontent.1]
    split_ifs <;> rfl
  · have hx' : F.count + 1 < x.1 ∨ x.1 = 0 ∧ F.files.length ≤ x.2 := hx
    rw [hback, if_neg (by omega)]
    exact h.vacant x (hx'.imp_left (Nat.lt_succ_self _).trans)

/-! ## Calls -/

/-- What a call of process `m` does to the abstract memory.  `F` and `F'` are the family
before and after it; only their numbers of pages and of processes are used. -/
def Call.Flatly (m : Nat) (F F' : Family) (r : Except ExecError (List UInt8)) (w v : Flat) :
    Call → Prop
  | .access op => op.Flatly r w v
  | .grow _ => v = w.clear m (F.store.memory m).pages (F'.store.memory m).pages
  | .reserve _ => v = w.clear m (F.store.memory m).pages (F'.store.memory m).pages
  | .mmap first _ _ source => source.Maps m first r.toBool w v
  | .munmap first count => v = if r.toBool then w.clear m first (first + count) else w
  | .mprotect _ _ _ => v = w
  | .fork => v = if r.toBool then w.fork m (F.count + 1) (F.store.memory m).pages else w

/-- The condition on a call in the family that it is made in: a process forks only while
none of its pages is mapped `MAP_SHARED` without a file, and no count saturates. -/
def Family.Meets (F : Family) (m : Nat) : Call → Prop
  | .fork => (∀ p < (F.store.memory m).pages, F.anonymous (m, p) = false) ∧ ForkRoom m F.store
  | .mmap _ _ _ (.sharedFile pages) => BindRoom pages.length F
  | _ => True

/-- A program without an answer of its own, then an empty answer. -/
theorem Ends.answered {P : Bool → Flat → Prop} {α : Type} {c : FamM α}
    (hc : Ends P (exec c F)) : Ends P (exec (do let _ ← c; pure ([] : List UInt8)) F) := by
  rw [exec_bind]
  revert hc
  rcases exec c F with ⟨_ | a, -⟩
  · exact id
  · exact id

theorem exec_onStore_answered {α : Type} (c : MemM α) :
    (exec (do let _ ← onStore c; pure ([] : List UInt8)) F).2 =
      { F with store := (exec c F.store).2 } := by
  rw [exec_bind, exec_onStore]
  rcases exec c F.store with ⟨_ | a, t⟩ <;> rfl

theorem Call.flatly (h : Refines F w) (hm : F.Live m) {call : Call} (hwithin : call.within m)
    (hmeets : F.Meets m call) :
    ∃ v, call.Flatly m F (exec (call.comp m) F).2 (exec (call.comp m) F).1 w v ∧
      Refines (exec (call.comp m) F).2 v := by
  cases call with
  | access op =>
    have hboth : op.target = m ∧ op.origin = m := of_decide_eq_true hwithin
    have hlive : F.Live op.target := by rw [hboth.1]; exact hm
    simp only [comp, exec_onStore]
    exact GuestOp.flatly h hlive
  | grow add =>
    refine ⟨_, rfl, ?_⟩
    rw [comp, exec_onStore_answered]
    exact h.widened hm (executeMemoryGrow_widened F.store add)
  | reserve pages =>
    refine ⟨_, rfl, ?_⟩
    rw [comp, exec_onStore_answered]
    exact h.widened hm (memoryReserveVirtualPages_widened F.store pages)
  | mmap first protection fixed source =>
    have hroom : ∀ pages, source = .sharedFile pages → BindRoom pages.length F := by
      intro pages hsource
      rw [hsource] at hmeets
      exact hmeets
    exact (guestMmap_ends h hm first protection fixed source hroom).answered
  | munmap first count => exact (unmapPages_ends h hm first count).answered
  | mprotect address length protection =>
    have hquiet := Ends.quiet h
      ((processCapsuleMprotectRange_heap m address length protection).exec_snd rfl)
    exact hquiet.answered
  | fork =>
    have hfork : Ends (fun done v => v =
        if done then w.fork m (F.count + 1) (F.store.memory m).pages else w)
        (exec (forkMemory m) F) := by
      have hask := exec_allocateOr "engine clone allocation failed" F.store F.store.requests
      rw [forkMemory, exec_bind, exec_onStore, show exec (allocateOr _) F.store = _ from hask]
      split_ifs
      · have hasked : ∀ n, Refines { F with store := F.store.asked n } w := fun n => h.of_heap rfl
        exact ⟨_, rfl, (hasked _).forked hmeets.2 hmeets.1⟩
      · exact ⟨w, rfl, h.of_heap rfl⟩
    exact hfork.answered

/-! ## Private pages -/

/-- The pages of process `n` that are linked to nothing keep their bytes and stay so. -/
def Apart (n : Nat) (w v : Flat) : Prop :=
  ∀ p, w.link (n, p) = none → v.link (n, p) = none ∧ v.read (n, p) = w.read (n, p)

section Apart

variable {n : Nat} {v u : Flat}

theorem Apart.refl (w : Flat) : Apart n w w :=
  fun _ hp => ⟨hp, rfl⟩

theorem Apart.trans (h : Apart n w v) (h' : Apart n v u) : Apart n w u := by
  intro p hp
  have hv := h p hp
  have hu := h' p hv.1
  exact ⟨hu.1, hu.2.trans hv.2⟩

theorem Apart.put (hn : n ≠ m) (page : Nat) (f : (Nat → UInt8) → Nat → UInt8) :
    Apart n w (w.put (m, page) f) := by
  intro p hp
  refine ⟨by rw [Flat.put_link]; exact hp, (w.put_read (m, page) f (n, p)).2 ?_⟩
  rintro (heq | ⟨hsome, hsame⟩)
  · exact hn (congrArg Prod.fst heq)
  · rw [hp] at hsame
    exact hsome hsame.symm

theorem Apart.clear (hn : n ≠ m) (lo hi : Nat) : Apart n w (w.clear m lo hi) := by
  intro p hp
  have hout : ¬ Flat.inWindow m lo hi (n, p) := fun hin => hn (inWindow_iff.mp hin).1
  refine ⟨?_, ?_⟩
  · show (if Flat.inWindow m lo hi (n, p) then none else w.link (n, p)) = none
    rw [if_neg hout]
    exact hp
  · rw [Flat.clear_read, if_neg hout]

theorem Apart.fork {child : Nat} (hn : n ≠ child) (pages : Nat) :
    Apart n w (w.fork m child pages) := by
  intro p hp
  refine ⟨?_, ?_⟩
  · show (if n = child then _ else w.link (n, p)) = none
    rw [if_neg hn]
    exact hp
  · rw [Flat.fork_read, if_neg hn]

/-- A new link of another place, and objects that the private pages have nothing to do
with. -/
theorem Apart.of_own (hown : v.own = w.own)
    (hlink : ∀ p, w.link (n, p) = none → v.link (n, p) = none) : Apart n w v := by
  intro p hp
  have hv := hlink p hp
  refine ⟨hv, ?_⟩
  rw [Flat.read, Flat.read, hv, hp, hown]

theorem Apart.openAnonymous (hn : n ≠ m) (lo hi : Nat) : Apart n w (w.openAnonymous m lo hi) := by
  refine .of_own rfl ?_
  intro p hp
  have hout : ¬ (Flat.inWindow m lo hi (n, p) ∧ w.link (n, p) = none) :=
    fun hin => hn (inWindow_iff.mp hin.1).1
  show (if Flat.inWindow m lo hi (n, p) ∧ w.link (n, p) = none then _ else w.link (n, p)) = none
  rw [if_neg hout]
  exact hp

theorem Apart.join (hn : n ≠ m) (hpos : 1 ≤ n) (page : Nat) (key : Nat × Nat)
    (bytes : Nat → UInt8) : Apart n w (w.join (m, page) key bytes) := by
  have hopen : (w.openFile key bytes).own = w.own ∧
      ∀ p, (w.openFile key bytes).link (n, p) = w.link (n, p) := by
    unfold Flat.openFile
    split_ifs
    · exact ⟨rfl, fun _ => rfl⟩
    refine ⟨rfl, fun p => ?_⟩
    have hne : (n, p) ≠ (0, w.files.length) := by
      intro heq
      have hzero : n = 0 := congrArg Prod.fst heq
      omega
    exact update_of_ne hne _ _
  refine .of_own hopen.1 ?_
  intro p hp
  have hne : (n, p) ≠ (m, page) := fun heq => hn (congrArg Prod.fst heq)
  show update (w.openFile key bytes).link (m, page) _ (n, p) = none
  rw [update_of_ne hne, hopen.2]
  exact hp

theorem Apart.sequence {ι : Type} {step : ι → Bool → Flat → Flat → Prop}
    (hstep : ∀ i done w v, step i done w v → Apart n w v) {is : List ι}
    (h : Flat.Sequence step is done w v) : Apart n w v := by
  induction h with
  | nil w => exact .refl w
  | cons hfirst _ ih => exact (hstep _ _ _ _ hfirst).trans ih
  | failed _ hfirst => exact hstep _ _ _ _ hfirst
  | stopped _ w => exact .refl w

theorem Apart.assigns (hn : n ≠ m) {address length : Nat} {value : Nat → UInt8}
    (h : Flat.Assigns m address length value done w v) : Apart n w v := by
  apply sequence _ h
  intro p done w v hstep
  rw [hstep]
  split_ifs
  · exact .put hn _ _
  · exact .refl _

theorem GuestOp.Flatly.apart {op : GuestOp} (hn : n ≠ op.target) (h : op.Flatly r w v) :
    Apart n w v := by
  cases op with
  | load | vectorLoad | vectorLoadExtend =>
    rw [h.1]
    exact .refl w
  | store | vectorStore | fill => exact .assigns hn h
  | copy dst _ src _ k =>
    exact .sequence (fun _ _ _ _ hpart => .assigns hn hpart) h
  | init m dst src k _ => exact .assigns hn h

theorem MapSource.Maps.apart (hn : n ≠ m) (hpos : 1 ≤ n) {source : MapSource} {first : Nat}
    (h : source.Maps m first done w v) : Apart n w v := by
  have hmapped : Apart n w (w.mapped m first source.count source.shared) := by
    unfold Flat.mapped
    split_ifs
    · exact .openAnonymous hn _ _
    · exact .refl w
  have hfills : ∀ d u, source.Fills m first d (w.mapped m first source.count source.shared) u →
      Apart n w u := by
    intro d u hu
    apply hmapped.trans
    cases source with
    | anonymous _ _ =>
      have heq : u = _ := hu
      rw [heq]
      exact .refl _
    | file pages => exact .sequence (fun _ _ _ _ hload => .assigns hn hload) hu
    | sharedFile pages =>
      apply Apart.sequence _ hu
      intro p done w v hstep
      rw [hstep]
      split_ifs
      · exact .join hn hpos _ _ _
      · exact .refl _
  unfold Maps at h
  split_ifs at h
  · exact hfills true v h
  rcases h with heq | ⟨d, u, hu, heq⟩
  · rw [heq]
    exact .refl w
  · rcases heq with heq | heq
    · rw [heq]
      exact hfills d u hu
    · rw [heq]
      exact (hfills d u hu).trans (.clear hn _ _)

/-- Calls of other processes leave the private pages of a process alone. -/
theorem Call.Flatly.apart {call : Call} {F' : Family}
    (hlive : F.Live n) (hn : n ≠ m) (hwithin : call.within m) (h : call.Flatly m F F' r w v) :
    Apart n w v := by
  cases call with
  | access op =>
    have hboth : op.target = m ∧ op.origin = m := of_decide_eq_true hwithin
    exact GuestOp.Flatly.apart (by rw [hboth.1]; exact hn) h
  | grow | reserve =>
    have heq : v = _ := h
    rw [heq]
    exact .clear hn _ _
  | mmap first protection _ _ => exact MapSource.Maps.apart hn hlive.1 h
  | munmap first count =>
    have heq : v = if r.toBool then w.clear m first (first + count) else w := h
    rw [heq]
    split_ifs
    · exact .clear hn _ _
    · exact .refl w
  | mprotect _ _ protection =>
    have heq : v = w := h
    rw [heq]
    exact .refl w
  | fork =>
    have heq : v = if r.toBool then w.fork m (F.count + 1) (F.store.memory m).pages else w := h
    have hold : n ≠ F.count + 1 := by
      have := hlive.2
      omega
    rw [heq]
    split_ifs
    · exact .fork hold _
    · exact .refl w

end Apart

/-! ## Runs -/

/-- The abstract memory of a family that starts. -/
def Flat.initial : Flat where
  own := fun _ => zeroPage
  link := fun _ => none
  object := fun _ => zeroPage
  files := []
  serial := 0

/-- The abstract memory goes from `w` to `v` along the calls: each call has its abstract
effect and its abstract answer, and leaves the private pages of the other processes
alone. -/
def Follows : List (Nat × Call) → Family → Flat → Flat → Prop
  | [], _, w, v => v = w
  | (m, call) :: calls, F, w, v =>
    ∃ u, (if F.Live m ∧ call.within m then
        call.Flatly m F (F.step m call) (exec (call.comp m) F).1 w u ∧
          ∀ n, F.Live n → n ≠ m → Apart n w u
      else u = w) ∧ Follows calls (F.step m call) u v

/-- Every call of the run meets the condition in the family it is made in. -/
def MeetsCalls : List (Nat × Call) → Family → Prop
  | [], _ => True
  | (m, call) :: calls, F =>
    (F.Live m ∧ call.within m → F.Meets m call) ∧ MeetsCalls calls (F.step m call)

theorem Refines.run {calls : List (Nat × Call)} (h : Refines F w) (hmeets : MeetsCalls calls F) :
    ∃ v, Follows calls F w v ∧ Refines (F.run calls) v := by
  induction calls generalizing F w with
  | nil => exact ⟨w, rfl, h⟩
  | cons entry calls ih =>
    obtain ⟨m, call⟩ := entry
    by_cases hvalid : F.Live m ∧ call.within m
    · obtain ⟨u, hu, hrefines⟩ := Call.flatly h hvalid.1 hvalid.2 (hmeets.1 hvalid)
      have hstep : F.step m call = (exec (call.comp m) F).2 := if_pos hvalid
      rw [← hstep] at hu hrefines
      obtain ⟨v, hv, hend⟩ := ih hrefines hmeets.2
      refine ⟨v, ⟨u, ?_, hv⟩, hend⟩
      rw [if_pos hvalid]
      exact ⟨hu, fun n hlive hn => hu.apart hlive hn hvalid.2⟩
    · have hstep : F.step m call = F := if_neg hvalid
      have hrest := hmeets.2
      rw [hstep] at hrest
      obtain ⟨v, hv, hend⟩ := ih h hrest
      refine ⟨v, ⟨w, ?_, ?_⟩, ?_⟩
      · rw [if_neg hvalid]
      · rw [hstep]
        exact hv
      · show Refines (.run calls (F.step m call)) v
        rw [hstep]
        exact hend

theorem Family.Initial.heap (hinit : F.Initial) :
    (heap F.store).Sound ∧ ∀ x, (heap F.store).backing x = none := by
  obtain ⟨s, check, hfresh, hstore⟩ := hinit.bound
  have hsame : Memory.heap F.store = Memory.heap s := by
    rw [hstore]
    exact heap_setMemory (f := .bound check) rfl
  rw [hsame]
  refine ⟨(Kept.of_fresh hfresh).held.1, fun x => ?_⟩
  obtain ⟨initial, maximum, hasMax, is64, hmem⟩ := hfresh x.1
  show (s.memory x.1).pageData x.2 = none
  rw [hmem]
  rfl

theorem Refines.start (hinit : F.Initial) : Refines F .initial := by
  have hnone := hinit.heap.2
  have hlink : ∀ x o, Flat.initial.link x ≠ some o := by
    rintro _ _ ⟨⟩
  exact
    { sound := hinit.heap.1
      view := by
        funext x
        rw [viewOf, Heap.view, hnone]
        rfl
      shared := fun x => by
        rw [Heap.sharedAt, hnone]
        exact ⟨fun hno => absurd rfl hno, fun hkey => absurd hkey.choose_spec (hlink _ _)⟩
      same := fun x _ _ hx => absurd hx (hlink x _)
      alone := fun x _ _ _ hx => absurd hx (hlink x _)
      files := hinit.files.symm
      cached := fun k key hk => by
        rw [hinit.files] at hk
        cases hk
      known := fun x _ hx => absurd hx (hlink x _)
      anonymous := fun x _ _ hx => absurd hx (hlink x _)
      serials := fun x _ _ hx => absurd hx (hlink x _)
      vacant := fun x _ => hnone x }

/-- A family of processes sees the abstract memory: along every run in which a process
forks only while none of its pages is mapped `MAP_SHARED` without a file, every call has
the effect and the answer that it has there, where private pages belong to one process
and the pages linked to one object have the same bytes. -/
theorem family_refines (hinit : F.Initial) {calls : List (Nat × Call)}
    (hmeets : MeetsCalls calls F) :
    ∃ v, Follows calls F .initial v ∧ viewOf (F.run calls).store = v.read ∧
      ∀ x y, v.Linked x y → v.read y = v.read x := by
  obtain ⟨v, hfollows, hrefines⟩ := (Refines.start hinit).run hmeets
  refine ⟨v, hfollows, hrefines.view, fun x y hlinked => ?_⟩
  rcases hlinked with heq | ⟨hsome, hsame⟩
  · rw [heq]
  · cases hx : v.link x with
    | none => exact absurd hx hsome
    | some o =>
      rw [hx] at hsame
      rw [Flat.read_of_link hx, Flat.read_of_link hsame]

def oneProcess : Family where
  store := step (.bind 1 fun _ _ _ => none) onePageStore
  count := 1
  files := []
  anonymous := fun _ => false

theorem oneProcess_initial : oneProcess.Initial :=
  ⟨⟨onePageStore, _, onePageStore_fresh, rfl⟩, rfl, rfl, rfl⟩

def privateCalls : List (Nat × Call) :=
  [(1, .access (.store 1 0 0 1 7)), (1, .fork), (2, .access (.store 2 0 0 1 9))]

theorem family_refines_private :
    ∃ v, Follows privateCalls oneProcess .initial v ∧
      viewOf (oneProcess.run privateCalls).store = v.read ∧
      ∀ x y, v.Linked x y → v.read y = v.read x :=
  family_refines oneProcess_initial
    ⟨fun _ => trivial, fun _ => ⟨by decide, by unfold ForkRoom; decide⟩, fun _ => trivial, trivial⟩

/-- The parent still reads what it wrote. -/
example : (exec (Call.comp 1 (.access (.load 1 0 0 1))) (oneProcess.run privateCalls)).1 =
    .ok [7] := by
  decide

/-- Pages mapped `MAP_SHARED` without a file are not shared with the child: what the
child stores there is not what the parent loads. -/
theorem anonymous_mapping_not_shared :
    let F := oneProcess.run [(1, .reserve 2), (1, .mmap 1 3 false (.anonymous 1 true)), (1, .fork)]
    let G := F.step 2 (.access (.store 2 65536 0 1 9))
    oneProcess.Initial ∧ F.count = 2 ∧
      (exec (Call.comp 2 (.access (.store 2 65536 0 1 9))) F).1 = .ok [] ∧
      (exec (Call.comp 1 (.access (.load 1 65536 0 1))) G).1 = .ok [0] ∧
      (exec (Call.comp 2 (.access (.load 2 65536 0 1))) G).1 = .ok [9] :=
  ⟨oneProcess_initial, by decide, by decide, by decide, by decide⟩

end Waste.Memory
