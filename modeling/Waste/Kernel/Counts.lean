import Waste.Kernel.Frames

/-!
# Every call keeps the counts

What each call that changes descriptors does to the tables of all kernels.
-/

namespace Waste.Kernel

open Function StateExcept PointerCount Bool List Option

variable {w : World}
variable (kind : Description)
variable {w' : World} {p : Nat}

/-! ## Descriptors in the tables -/

theorem table_setFd (k : Nat) (fd : Fin fdMax) (entry : Option FdEntry) (w : World) :
    (setFd k fd entry w).table = w.table.point (k, fd) (entry.map (·.ofd)) := by
  have hpointer : (setFd k fd entry w).table.pointer =
      update w.table.pointer (k, fd) (entry.map (·.ofd)) := by
    funext ⟨k', fd'⟩
    rcases eq_or_ne k' k with rfl | hk
    · rcases eq_or_ne fd' fd with rfl | hfd <;> simp [World.table, setFd, World.setKernel, *]
    · simp [World.table, setFd, World.setKernel, hk]
  rw [World.table, Table.point, ← hpointer]
  rfl

theorem table_countEnds (delta : Int) (w : World) :
    (kind.countEnds delta w).table = w.table.addEnds kind.pipeEnd delta := by
  cases kind <;> rfl

theorem table_addRefs (o : Nat) (delta : Int) (w : World) :
    (w.setOfd o fun ofd => { ofd with refCount := ofd.refCount + delta }).table =
      w.table.addRefs o delta := by
  rw [World.table, Table.addRefs]
  congr 1 <;>
  · funext o'
    by_cases ho : o' = o
    · simp [World.table, World.setOfd, ho]
    · simp [World.table, World.setOfd, update_of_ne ho]

theorem table_release (w : World) : (kind.release w).table = w.table.reap kind.pipeEnd := by
  cases kind with
  | pipeRead | pipeWrite =>
    rw [Description.release, Description.pipeEnd, Table.reap]
    split_ifs <;> first | rfl | contradiction
  | regular | null => exact table_blind.release _
  | terminal | stream | directory => rfl

theorem table_ofdRelease (o : Nat) (w : World) : (ofdRelease o w).table =
      if 0 < (w.table.addRefs o (-1)).refCount o then w.table.addRefs o (-1)
      else (w.table.addRefs o (-1)).reap (w.table.pipeEnd o) := by
  have hcount : (w.table.addRefs o (-1)).refCount o = (w.ofd o).refCount - 1 := by
    simp [Table.addRefs, World.table, sub_eq_add_neg]
  have hrefs := table_addRefs o (-1) w
  rw [hcount]
  unfold ofdRelease
  dsimp only
  split
  · exact hrefs
  · rw [← hrefs]
    exact table_release ..

theorem table_dropFd (k : Nat) {fd : Fin fdMax} {o : Nat} (w : World) :
    (dropFd k fd o w).table = w.table.drop (k, fd) o := by
  have hset := table_setFd k fd none w
  have hdec : (pipeCountDec o (setFd k fd none w)).table =
      (w.table.point (k, fd) none).addEnds (w.table.pipeEnd o) (-1) := by
    rw [pipeCountDec, table_countEnds, hset]
    rfl
  rw [dropFd, table_ofdRelease, hdec, Table.drop]
  simp only [Table.addRefs_pipeEnd, Table.addEnds_pipeEnd, Table.point_pipeEnd]

theorem table_retainOfd (o : Nat) (w : World) :
    (retainOfd o w).table = (w.table.addRefs o 1).addEnds (w.table.pipeEnd o) 1 := by
  rw [retainOfd, table_countEnds, table_addRefs]
  congr 1
  simp [World.setOfd, World.table]

theorem table_grab (k : Nat) (fd : Fin fdMax) (entry : FdEntry) (w : World) :
    (setFd k fd (some entry) (retainOfd entry.ofd w)).table = w.table.grab (k, fd) entry.ofd := by
  rw [table_setFd, table_retainOfd]
  rfl

/-! ## Calls keep the counts -/

/-- The counts are right, and the buffers are those of `T0` but for new and freed
pipes. -/
def Safe (T0 : Table) (w : World) : Prop := w.table.Counted ∧ T0.KeepsBuffers w.table

variable {T0 T : Table} {k : Nat} {fd : Fin fdMax} {o : Nat}

theorem Fixes.safe {α : Type} {c : KernelM α} (h : Fixes World.table c) : Keeps (Safe T0) c :=
  h.keeps fun T => T.Counted ∧ T0.KeepsBuffers T

theorem Safe.of_table (h : Safe T0 w) (htable : w'.table = w.table) : Safe T0 w' := by
  rw [Safe, htable]
  exact h

theorem Safe.fresh (h : Safe T0 w) (hfresh : w.table.Fresh w'.table) : Safe T0 w' :=
  ⟨h.1.fresh hfresh, h.2.trans hfresh.keepsBuffers⟩

theorem Safe.drop (h : Safe T0 w) (hx : w.table.pointer (k, fd) = some o) :
    Safe T0 (dropFd k fd o w) := by
  rw [Safe, table_dropFd]
  exact ⟨h.1.drop hx, h.2.trans Table.drop_keepsBuffers⟩

theorem Safe.grab (h : Safe T0 w) (entry : FdEntry) (hx : w.table.pointer (k, fd) = none)
    (hk : k < w.table.next) {y : Place} (hy : w.table.pointer y = some entry.ofd) :
    Safe T0 (setFd k fd (some entry) (retainOfd entry.ofd w)) := by
  rw [Safe, table_grab]
  exact ⟨h.1.grab hx hk hy, h.2.trans (Table.move_keepsBuffers ..)⟩

theorem pointer_eq {entry : FdEntry} (h : (w.kernel k).fds fd = some entry) :
    w.table.pointer (k, fd) = some entry.ofd := by
  simp [World.table, h]

theorem pointer_eq_none (h : (w.kernel k).fds fd = none) : w.table.pointer (k, fd) = none := by
  simp [World.table, h]

theorem kernelFindFreeFd_free {start : Nat} (h : kernelFindFreeFd w k start = some fd) :
    w.table.pointer (k, fd) = none ∧ start ≤ fd.val := by
  have hfound := find?_some h
  rw [and_eq_true, decide_eq_true_eq, isNone_iff_eq_none] at hfound
  exact ⟨pointer_eq_none hfound.2, hfound.1⟩

theorem openFd_spec (k : Nat) (fd : Int) : Triple (fun w => w.table = T) (openFd k fd)
      (fun r w => w.table = T ∧ fdValid fd = some r.1 ∧ T.pointer (k, r.1) = some r.2.ofd)
      (fun _ w => w.table = T ∧ ∀ i, fdValid fd = some i → T.pointer (k, i) = none) := by
  unfold openFd
  split
  · exact .throw fun w hw => ⟨hw, fun i hi => absurd hi (by simp_all)⟩
  next i hi =>
  refine .get_bind fun w hw => ?_
  split
  · next hnone =>
    refine .throw fun w' hw' => ?_
    rw [hw']
    refine ⟨hw, fun j hj => ?_⟩
    obtain rfl := some.inj (hi.symm.trans hj)
    rw [← hw]
    exact pointer_eq_none hnone
  · next entry hentry =>
    refine .pure fun w' hw' => ?_
    rw [hw']
    refine ⟨hw, hi, ?_⟩
    rw [← hw]
    exact pointer_eq hentry

theorem table_releaseLocks (k o : Nat) (w : World) : (releaseLocks k o w).table = w.table := by
  unfold releaseLocks
  split
  · exact foldl_view (fun w record => table_blind.removeRecord _) _ w
  · rfl

theorem kernelClose_spec {fd : Int} : Triple (fun w => w.table = T) (kernelClose k fd)
      (fun _ w => ∃ i o, fdValid fd = some i ∧ T.pointer (k, i) = some o ∧
        w.table = T.drop (k, i) o)
      (fun _ w => w.table = T ∧ ∀ i, fdValid fd = some i → T.pointer (k, i) = none) := by
  refine .bind (openFd_spec k fd) fun r => ?_
  refine .bind (Q := fun _ w => w.table = T ∧ fdValid fd = some r.1 ∧
    T.pointer (k, r.1) = some r.2.ofd) ?_ fun _ => ?_
  · refine .modify fun w hw => ?_
    rw [table_releaseLocks]
    exact hw
  · refine .modify fun w hw => ?_
    obtain ⟨rfl, hvalid, hpointer⟩ := hw
    exact ⟨r.1, r.2.ofd, hvalid, hpointer, table_dropFd k w⟩

theorem kernelClose_safe (fd : Int) : Keeps (Safe T0) (kernelClose k fd) := by
  intro w hw
  refine ⟨fun a w' hrun => ?_, fun e w' hrun => ?_⟩
  · obtain ⟨i, o, -, hpointer, htable⟩ := (kernelClose_spec w rfl).1 a w' hrun
    rw [Safe, htable]
    exact ⟨hw.1.drop hpointer, hw.2.trans Table.drop_keepsBuffers⟩
  · exact hw.of_table ((kernelClose_spec w rfl).2 e w' hrun).1

/-- What `dup` and `dup2` know of the descriptor that they copy. -/
theorem openFd_points (fd : Int) : Triple (Safe T0) (openFd k fd)
    (fun r w => Safe T0 w ∧ w.table.pointer (k, r.1) = some r.2.ofd) fun _ => Safe T0 := by
  intro w hw
  refine (openFd_spec (T := w.table) k fd).conseq (fun _ h => h) ?_ ?_ w rfl
  · rintro r w' ⟨htable, -, hpointer⟩
    exact ⟨hw.of_table htable, htable ▸ hpointer⟩
  · rintro e w' ⟨htable, -⟩
    exact hw.of_table htable

theorem kernelDupfd_safe (k : Nat) (oldfd minfd : Int) (cloexec : Bool) :
    Keeps (Safe T0) (kernelDupfd k oldfd minfd cloexec) := by
  refine .ite (fun _ => .throw _) fun _ => Triple.bind (openFd_points oldfd) fun r => ?_
  refine .get_bind fun w ⟨hsafe, hpointer⟩ => ?_
  split
  · refine .throw ?_
    rintro _ rfl
    exact hsafe
  next newfd hfree =>
  have hnone := (kernelFindFreeFd_free hfree).1
  refine .modify_bind ?_
  rintro _ rfl
  refine .bind ?_ fun _ => Keeps.pure _
  refine .modify ?_
  rintro _ rfl
  exact hsafe.grab { ofd := r.2.ofd, cloexec } hnone (hsafe.1.below _ _ hpointer).1 hpointer

theorem kernelClose_frees {i j : Fin fdMax} {newfd : Int} (hj : fdValid newfd = some j)
    (hij : i ≠ j) (hi : T.pointer (k, i) = some o) (hsafe : T.Counted ∧ T0.KeepsBuffers T) :
    Triple (fun w => w.table = T) (attempt (kernelClose k newfd))
      (fun _ w => Safe T0 w ∧ w.table.pointer (k, j) = none ∧ w.table.pointer (k, i) = some o)
      (fun _ => Safe T0) := by
  refine .tryCatch (E := fun _ w => w.table = T ∧ T.pointer (k, j) = none) ?_ fun _ => ?_
  · refine kernelClose_spec.conseq (fun _ h => h) ?_ ?_
    · rintro _ w ⟨j', o', hj', hpointer, htable⟩
      obtain rfl := some.inj (hj.symm.trans hj')
      have hne : ((k, i) : Place) ≠ (k, j) := by simpa using hij
      rw [Safe, htable, Table.drop_pointer, update_self, update_of_ne hne]
      exact ⟨⟨hsafe.1.drop hpointer, hsafe.2.trans Table.drop_keepsBuffers⟩, rfl, hi⟩
    · rintro _ w ⟨htable, hnone⟩
      exact ⟨htable, hnone j hj⟩
  · refine .pure ?_
    rintro w ⟨htable, hnone⟩
    rw [Safe, htable]
    exact ⟨hsafe, hnone, hi⟩

theorem kernelDup2_safe (k : Nat) (oldfd newfd : Int) :
    Keeps (Safe T0) (kernelDup2 k oldfd newfd) := by
  unfold kernelDup2
  split
  · exact .throw _
  next j hj =>
  refine Triple.bind (openFd_points oldfd) fun r => ?_
  refine .ite (fun _ => .pure fun w hw => hw.1) fun hij w hw => ?_
  refine Triple.bind (kernelClose_frees hj hij hw.2 hw.1) (fun _ => ?_) w rfl
  refine .modify_bind fun w1 ⟨hsafe, hnone, hpointer⟩ => .modify ?_
  rintro _ rfl
  exact hsafe.grab { ofd := r.2.ofd, cloexec := false } hnone
    (hsafe.1.below _ _ hpointer).1 hpointer

theorem kernelSetCloexec_table (k : Nat) (fd enabled : Int) :
    Fixes World.table (kernelSetCloexec k fd enabled) := by
  unfold kernelSetCloexec
  split
  · exact .throw _
  next i hi =>
  refine .get_bind fun w => ?_
  split
  · rfl
  next entry hentry =>
  split
  · rfl
  refine .trans (table_setFd k i _ w) ?_
  have hsame : update w.table.pointer (k, i) (some entry.ofd) = w.table.pointer := by
    rw [← pointer_eq hentry, update_eq_self]
  rw [Table.point]
  simp only [map_some]
  rw [hsame]

variable {flags : BitVec 32}

theorem kernelSetStatusFlags_table (k : Nat) (fd : Int) :
    Fixes World.table (kernelSetStatusFlags k fd flags) := by
  refine .get_bind fun w => ?_
  split <;> rfl

/-! ## New objects -/

theorem fresh_spec {R : Errno → World → Prop} : Triple (fun w => T.Fresh w.table) fresh
      (fun n w => T.Fresh w.table ∧ T.next ≤ n ∧ n < w.table.next) R := by
  refine .get_bind fun w hw => ?_
  refine .set_bind fun _ _ => .pure ?_
  rintro w' rfl
  have hnext : w.table.Fresh { w.table with next := w.next + 1 } :=
    ⟨rfl, fun _ _ => rfl, fun _ _ => rfl, rfl, Nat.le_succ w.next⟩
  exact ⟨hw.trans hnext, hw.next, Nat.lt_succ_self w.next⟩

/-- A new description: nothing points at it, and it has one reference. -/
structure Table.New (T : Table) (o : Nat) (e : Option PipeEnd) (T' : Table) : Prop where
  fresh : T.Fresh T'
  new : T.next ≤ o ∧ o < T'.next
  refs : T'.refCount o = 1
  pipeEnd : T'.pipeEnd o = e

theorem Table.New.setOfd {ofd : Ofd} {e : Option PipeEnd} (hrefs : ofd.refCount = 1)
    (hend : ofd.kind.pipeEnd = e) (hT : T.Fresh w.table) (ho : T.next ≤ o ∧ o < w.table.next) :
    T.New o e (w.setOfd o fun _ => ofd).table := by
  have hother : ∀ o', o' < T.next → (w.setOfd o fun _ => ofd).ofd o' = w.ofd o' := by
    intro o' ho'
    exact update_of_ne (by omega) _ _
  have hself : (w.setOfd o fun _ => ofd).ofd o = ofd := update_self o _ _
  refine ⟨⟨hT.pointer, fun o' ho' => ?_, fun o' ho' => ?_, hT.pipe, hT.next⟩, ho, ?_, ?_⟩
  · rw [← hT.refCount o' ho']
    exact congrArg Ofd.refCount (hother o' ho')
  · rw [← hT.pipeEnd o' ho']
    exact congrArg (fun ofd => ofd.kind.pipeEnd) (hother o' ho')
  · exact (congrArg Ofd.refCount hself).trans hrefs
  · exact (congrArg (fun ofd => ofd.kind.pipeEnd) hself).trans hend

theorem ofdAlloc_spec : Triple (fun w => w.table = T) (ofdAlloc kind flags)
      (fun o w => T.New o kind.pipeEnd w.table) (fun _ w => w.table = T) := by
  refine .bind ((allocateOr_fixes table_blind _).view_eq) fun _ => ?_
  refine .bind ((allocateOr_fixes table_blind _).view_eq) fun _ => ?_
  refine .bind (Q := fun _ w => T.Fresh w.table) ?_ fun status => ?_
  · refine fresh_spec.conseq ?_ (fun _ _ h => h.1) fun _ _ h => h
    rintro w rfl
    exact Table.Fresh.refl _
  refine .bind fresh_spec fun o => ?_
  refine .keep_bind (.modify fun w hw => hw) fun _ => ?_
  refine .bind ?_ fun _ => .pure fun _ h => h
  exact .modify fun w hw => Table.New.setOfd rfl rfl hw.1 hw.2

/-- The failing paths of `pipeAlloc` leave new numbers only. -/
theorem Table.Fresh.freed {T' : Table} (hT : T.Counted) (hp : T.next ≤ p)
    (hpointer : T'.pointer = T.pointer) (hrefs : ∀ o < T.next, T'.refCount o = T.refCount o)
    (hends : ∀ o < T.next, T'.pipeEnd o = T.pipeEnd o) (hpipe : ∀ q, q ≠ p → T'.pipe q = T.pipe q)
    (hfree : T'.pipe p = .empty) (hnext : T.next ≤ T'.next) : T.Fresh T' := by
  refine ⟨hpointer, hrefs, hends, ?_, hnext⟩
  funext q
  by_cases hq : q = p
  · rw [hq, hfree, hT.absent p hp]
  · exact hpipe q hq

theorem Table.Fresh.undone {T1 T2 : Table} {r : Nat} (hT : T.Counted) (h : T.Fresh T1)
    (hp : T.next ≤ p ∧ p < T1.next) (hr : (T1.setPipe p fun _ => newPipe).New r (some (.read p)) T2)
    (hw : w.table = T2.setPipe p fun pipe => { pipe with readers := 0, writers := 0 }) :
    T.Fresh (ofdRelease r w).table := by
  have hrefs : (w.table.addRefs r (-1)).refCount r = 0 := by
    rw [hw]
    show update T2.refCount r (T2.refCount r + -1) r = 0
    rw [update_self, hr.refs]
    rfl
  have hend : w.table.pipeEnd r = some (.read p) := by
    rw [hw]
    exact hr.pipeEnd
  have hmid := hr.fresh
  have hn1 : T.next ≤ T1.next := h.next
  have hn2 : T1.next ≤ T2.next := hmid.next
  have hrnew : T1.next ≤ r ∧ r < T2.next := hr.new
  rw [table_ofdRelease, hrefs, if_neg (by simp), hend, reap,
    if_pos (by rw [hw]; simp [addRefs, PipeEnd.pipe])]
  rw [hw]
  refine Fresh.freed hT hp.1 ?_ (fun o ho => ?_) (fun o ho => ?_) (fun q hq => ?_) ?_ ?_
  · exact hmid.pointer.trans h.pointer
  · refine .trans (update_of_ne (by omega) _ _) ?_
    exact (hmid.refCount o (show o < T1.next by omega)).trans (h.refCount o ho)
  · exact (hmid.pipeEnd o (show o < T1.next by omega)).trans (h.pipeEnd o ho)
  · rw [setPipe_ne (show q ≠ (PipeEnd.read p).pipe from hq)]
    rw [addRefs_pipe, setPipe_ne hq, hmid.pipe, setPipe_ne hq, h.pipe]
  · exact setPipe_self
  · exact le_trans hn1 hn2

/-- The three new objects of `posix_kernel_pipe`. -/
theorem Table.Fresh.prepared {T1 T2 T3 : Table} {r s : Nat} (h : T.Fresh T1)
    (hp : T.next ≤ p ∧ p < T1.next) (hr : (T1.setPipe p fun _ => newPipe).New r (some (.read p)) T2)
    (hs : T2.New s (some (.write p)) T3) : T.Prepared r s p T3 := by
  have hmid := hr.fresh
  have hend := hs.fresh
  have hrnew : T1.next ≤ r ∧ r < T2.next := hr.new
  have hsnew := hs.new
  refine ⟨?_, fun o ho => ?_, fun o ho => ?_, ?_, ?_, ?_, ⟨?_, hs.refs⟩, ⟨?_, hs.pipeEnd⟩⟩
  · exact hend.pointer.trans (hmid.pointer.trans h.pointer)
  · rw [hend.refCount o (by omega), hmid.refCount o (show o < T1.next by omega)]
    exact h.refCount o ho
  · rw [hend.pipeEnd o (by omega), hmid.pipeEnd o (show o < T1.next by omega)]
    exact h.pipeEnd o ho
  · rw [hend.pipe, hmid.pipe, ← h.pipe]
    rfl
  · omega
  · omega
  · rw [hend.refCount r hrnew.2]
    exact hr.refs
  · rw [hend.pipeEnd r hrnew.2]
    exact hr.pipeEnd

theorem pipeAlloc_spec (hT : T.Counted) : Triple (fun w => w.table = T) pipeAlloc
      (fun r w => ∃ p, T.Prepared r.1 r.2 p w.table) (fun _ w => T.Fresh w.table) := by
  have hstart : ∀ c : KernelM Unit, Fixes World.table c →
      Triple (fun w => T.Fresh w.table) c (fun _ w => T.Fresh w.table) fun _ w => T.Fresh w.table :=
    fun c hc => hc.keeps T.Fresh
  refine .bind (Q := fun _ w => T.Fresh w.table) ?_ fun _ => ?_
  · refine (hstart _ (allocateOr_fixes table_blind _)).pre ?_
    rintro w rfl
    exact Table.Fresh.refl _
  refine .bind (hstart _ (allocateOr_fixes table_blind _)) fun _ => ?_
  refine .bind fresh_spec fun p => ?_
  refine .bind (Q := fun _ w => ∃ T1, T.Fresh T1 ∧ (T.next ≤ p ∧ p < T1.next) ∧
    w.table = T1.setPipe p fun _ => newPipe) ?_ fun _ => ?_
  · exact .modify fun w hw => ⟨w.table, hw.1, hw.2, rfl⟩
  rintro w ⟨T1, hfresh, hp, hw⟩
  refine Triple.bind (P := fun w => w.table = T1.setPipe p fun _ => newPipe)
    (Q := fun r w => (T1.setPipe p fun _ => newPipe).New r (some (.read p)) w.table)
    ?_ (fun r => ?_) w hw
  · refine .tryCatch (ofdAlloc_spec _) fun e => ?_
    refine .bind ?_ fun _ => .throw fun _ h => h
    refine .modify fun w hw => ?_
    have htable : (freePipe p w).table = w.table.setPipe p fun _ => .empty := rfl
    rw [htable, hw]
    refine Table.Fresh.freed hT hp.1 hfresh.pointer hfresh.refCount hfresh.pipeEnd (fun q hq => ?_)
      Table.setPipe_self hfresh.next
    rw [Table.setPipe_ne hq, Table.setPipe_ne hq, hfresh.pipe]
  · intro w hr
    refine Triple.bind (P := fun w' => w'.table = w.table)
      (Q := fun s w' => w.table.New s (some (.write p)) w'.table) ?_ (fun s => ?_) w rfl
    · refine .tryCatch (ofdAlloc_spec _) fun e => ?_
      refine .bind (Q := fun _ w' => w'.table =
        w.table.setPipe p fun pipe => { pipe with readers := 0, writers := 0 }) ?_ fun _ => ?_
      · refine .modify fun w' hw' => ?_
        rw [← hw']
        rfl
      refine .bind ?_ fun _ => .throw fun _ h => h
      exact .modify fun w' hw' => Table.Fresh.undone hT hfresh hp hr hw'
    · exact .pure fun w' hs => ⟨p, hfresh.prepared hp hr hs⟩

theorem kernelPipe_safe (hk : k < T0.next) : Keeps (Safe T0) (kernelPipe k) := by
  refine Triple.get_bind fun w hw => ?_
  split
  · exact .throw fun _ h => h ▸ hw
  next rfd hr =>
  split
  · exact .throw fun _ h => h ▸ hw
  next wfd hs =>
  have hne : ((k, wfd) : Place) ≠ (k, rfd) := by
    intro heq
    have hval : wfd = rfd := (Prod.mk.inj heq).2
    have hle := (kernelFindFreeFd_free hs).2
    omega
  have hkw : k < w.table.next := lt_of_lt_of_le hk hw.2.next
  refine .bind (Q := fun r w' => ∃ p, w.table.Prepared r.1 r.2 p w'.table) ?_ fun r => ?_
  · exact (pipeAlloc_spec hw.1).conseq (fun _ h => h ▸ rfl) (fun _ _ h => h) fun _ _ => hw.fresh
  rintro w' ⟨p, hprep⟩
  refine Triple.bind (Q := fun _ w'' => w''.table =
    w'.table.point (k, rfd) (some r.1)) ?_ (fun _ => ?_) w' rfl
  · refine .modify ?_
    rintro _ rfl
    exact table_setFd k rfd _ _
  refine .bind ?_ fun _ => .pure fun _ h => h
  refine .modify fun w'' hw'' => ?_
  rw [Safe, table_setFd, hw'']
  refine ⟨hw.1.opened hprep (kernelFindFreeFd_free hr).1 (kernelFindFreeFd_free hs).1
    hne hkw hkw, ?_⟩
  exact ((hw.2.trans hprep.keepsBuffers).point _ _).point _ _

/-! ## Destroying and copying a kernel -/

theorem destroyFd_safe (h : Safe T0 w) (k : Nat) (fd : Fin fdMax) : Safe T0 (destroyFd k w fd) := by
  unfold destroyFd
  split
  · exact h
  · next entry hentry => exact h.drop (pointer_eq hentry)

theorem kernelDestroy_safe (h : Safe T0 w) : Safe T0 (kernelDestroy k w) := by
  have hfds : Safe T0 (allFds.foldl (destroyFd k) (cancelWait k w)) :=
    allFds.foldlRecOn _ (h.of_table (view_cancelWait table_blind k w))
      fun w hw fd _ => destroyFd_safe hw k fd
  have hgone : ∀ w : World, (w.setKernel k fun kernel =>
      { kernel with live := false, pathNodes := [] }).table = w.table :=
    fun w => table_setKernel rfl
  refine hfds.of_table ?_
  unfold kernelDestroy
  rw [hgone, table_blind.releaseOwner, table_blind.releaseShm,
    show ∀ n g (w : World), (w.setInodes n g).table = w.table from fun _ _ _ => rfl]
  exact foldl_view (fun w (node : PathNode) => table_blind.release node.file) _ _

/-- The copy of a kernel in the middle of the loop over the descriptors: those in
`rest` are still to come, and the copies have a descriptor already. -/
structure Cloning (T0 : Table) (clone : Nat) (rest : List (Fin fdMax)) (copies : List (Nat × Nat))
    (w : World) : Prop where
  safe : Safe T0 w
  below : clone < w.table.next
  free : ∀ fd ∈ rest, w.table.pointer (clone, fd) = none
  copied : ∀ o c, copies.lookup o = some c → ∃ fd, w.table.pointer (clone, fd) = some c

variable {clone : Nat} {rest : List (Fin fdMax)} {copies : List (Nat × Nat)}

theorem update_descriptor {f : Place → Option Nat} {x : Option Nat} {fd' : Fin fdMax}
    (h : fd' ≠ fd) : update f (clone, fd) x (clone, fd') = f (clone, fd') :=
  update_of_ne (by simpa using h) _ _

section

variable (h : Cloning T0 clone (fd :: rest) copies w) (hfd : fd ∉ rest)

include h hfd

/-- The descriptor gets an entry. -/
theorem Cloning.entered {x : Option Nat}
    (hpointer : w'.table.pointer = update w.table.pointer (clone, fd) x) :
    (∀ fd' ∈ rest, w'.table.pointer (clone, fd') = none) ∧
      ∀ o c, copies.lookup o = some c → ∃ fd', w'.table.pointer (clone, fd') = some c := by
  refine ⟨fun fd' hfd' => ?_, fun o c hc => ?_⟩
  · have hne : fd' ≠ fd := by
      rintro rfl
      exact hfd hfd'
    rw [hpointer, update_descriptor hne]
    exact h.free fd' (mem_cons_of_mem _ hfd')
  · obtain ⟨fd', hc'⟩ := h.copied o c hc
    have hne : fd' ≠ fd := by
      rintro rfl
      exact nomatch (h.free fd' mem_cons_self).symm.trans hc'
    refine ⟨fd', ?_⟩
    rw [hpointer, update_descriptor hne]
    exact hc'

theorem Cloning.grab (entry : FdEntry) {y : Place} (hy : w.table.pointer y = some entry.ofd) :
    Cloning T0 clone rest copies (setFd clone fd (some entry) (retainOfd entry.ofd w)) := by
  have hpointer : (setFd clone fd (some entry) (retainOfd entry.ofd w)).table.pointer =
      update w.table.pointer (clone, fd) (some entry.ofd) := by
    rw [table_grab]
    exact Table.move_pointer
  obtain ⟨hfree, hcopied⟩ := h.entered hfd hpointer
  refine ⟨h.safe.grab entry (h.free fd mem_cons_self) h.below hy, ?_, hfree, hcopied⟩
  rw [table_grab]
  exact lt_of_lt_of_eq h.below Table.move_next.symm

theorem Cloning.enter {copy : Nat} {cloexec : Bool} (hnew : w.table.New copy none w'.table) :
    Cloning T0 clone rest ((o, copy) :: copies)
      (setFd clone fd (some { ofd := copy, cloexec }) w') := by
  have hfree : w'.table.pointer (clone, fd) = none := by
    rw [hnew.fresh.pointer]
    exact h.free fd mem_cons_self
  have hcounted := h.safe.1.fresh hnew.fresh
  have hbelow : clone < w'.table.next := lt_of_lt_of_le h.below hnew.fresh.next
  have hunused : ∀ y, w'.table.pointer y ≠ some copy := by
    intro y hy
    rw [hnew.fresh.pointer] at hy
    have hlt := (h.safe.1.below y copy hy).2
    have hle := hnew.new.1
    omega
  have hpointer : (setFd clone fd (some { ofd := copy, cloexec }) w').table.pointer =
      update w.table.pointer (clone, fd) (some copy) := by
    rw [table_setFd, ← hnew.fresh.pointer]
    rfl
  obtain ⟨hrest, hcopied⟩ := h.entered hfd hpointer
  refine ⟨?_, hbelow, hrest, fun o' c hc => ?_⟩
  · rw [Safe, table_setFd]
    refine ⟨hcounted.enter hfree hbelow hnew.new.2 hunused hnew.refs hnew.pipeEnd, ?_⟩
    exact (h.safe.2.trans hnew.fresh.keepsBuffers).point _ _
  rw [lookup_cons] at hc
  split at hc
  · obtain rfl := some.inj hc
    refine ⟨fd, ?_⟩
    rw [hpointer, update_self]
  · exact hcopied o' c hc

end

theorem copyOfd_spec (w : World) : Triple (fun w' => w' = w) (copyOfd o)
      (fun copy w' => w.table.New copy (w.ofd o).kind.pipeEnd w'.table)
      (fun _ w' => w'.table = w.table) := by
  refine .get_bind fun w1 hw1 => ?_
  refine .get_bind fun w2 hw2 => ?_
  rw [hw2, hw1]
  refine .ite (fun _ => .throw fun w' hw' => by rw [hw']) fun _ => ?_
  refine (allocateOr_fixes table_blind _).then (fun _ => congrArg World.table) (fun _ _ h => h)
    fun _ => ?_
  refine .bind (Q := fun copy w' => w.table.Fresh w'.table ∧
    w.table.next ≤ copy ∧ copy < w'.table.next) ?_ fun copy => ?_
  · refine fresh_spec.pre (fun w' hw' => ?_)
    rw [hw']
    exact Table.Fresh.refl _
  refine .bind (Q := fun _ w' => w.table.New copy (w.ofd o).kind.pipeEnd w'.table) ?_ fun _ => ?_
  · exact .modify fun w' hw' => Table.New.setOfd rfl rfl hw'.1 hw'.2
  refine .keep_bind (.modify fun w' hw' => hw') fun _ => ?_
  refine .bind ?_ fun _ => .pure fun _ h => h
  refine .modify fun w' hw' => ?_
  rw [table_blind.retain]
  exact hw'

theorem copied_pipeEnd {kind : Description} (h : kind.copied = true) : kind.pipeEnd = none := by
  cases kind <;> first | rfl | exact absurd h false_ne_true

theorem cloneFds_safe (source clone : Nat) {l : List (Fin fdMax)} (hl : l.Nodup)
    (copies : List (Nat × Nat)) :
    Triple (Cloning T0 clone l copies) (cloneFds source clone l copies)
      (fun _ => Safe T0) (fun _ => Safe T0) := by
  induction l generalizing copies with
  | nil => exact .pure fun w h => h.safe
  | cons _ _ ih =>
    obtain ⟨hfd, hrest⟩ := nodup_cons.mp hl
    have hnext := ih hrest
    refine .get_bind fun w hw => ?_
    split
    · refine (hnext copies).pre ?_
      rintro _ rfl
      exact { hw with free := fun fd' hfd' => hw.free fd' (mem_cons_of_mem _ hfd') }
    next entry hentry =>
    refine .ite (fun _ => ?_) fun hcopied => ?_
    · refine .modify_bind ?_
      rintro _ rfl
      refine .bind ?_ fun _ => hnext copies
      refine .modify ?_
      rintro _ rfl
      exact hw.grab hfd entry (pointer_eq hentry)
    refine .ite (fun _ => ?_) fun _ => ?_
    · refine .throw ?_
      rintro _ rfl
      exact hw.safe
    split
    · next copy hcopy =>
      obtain ⟨fd', hfd'⟩ := hw.copied _ _ hcopy
      refine .modify_bind ?_
      rintro _ rfl
      refine .bind ?_ fun _ => hnext copies
      refine .modify ?_
      rintro _ rfl
      exact hw.grab hfd { entry with ofd := copy } hfd'
    · refine .bind (Q := fun copy w' => w.table.New copy none w'.table) ?_ fun copy => ?_
      · have hend : (w.ofd entry.ofd).kind.pipeEnd = none := copied_pipeEnd (by simpa using hcopied)
        rw [← hend]
        exact (copyOfd_spec w).conseq (fun _ h => h) (fun _ _ h => h)
          fun _ w' hw' => hw.safe.of_table hw'
      refine .bind ?_ fun _ => hnext _
      exact .modify fun w' hnew => hw.enter hfd hnew

theorem fresh_safe : Keeps (Safe T0) fresh := by
  intro w hw
  have hspec := fresh_spec (R := fun _ => Safe T0) w (Table.Fresh.refl _)
  exact ⟨fun n w' hrun => hw.fresh (hspec.1 n w' hrun).1, hspec.2⟩

theorem Cloning.start (h : Safe T0 w) (hfresh : w.table.Fresh w'.table)
    (hclone : w.table.next ≤ clone ∧ clone < w'.table.next) (kernel : PosixKernel) :
    Cloning T0 clone allFds [] (w'.setKernel clone fun _ => kernel.forClone) := by
  have hnone : ∀ fd, w'.table.pointer (clone, fd) = none := by
    intro fd
    rw [hfresh.pointer, eq_none_iff_forall_ne_some]
    intro o ho
    have hlt := (h.1.below _ _ ho).1
    omega
  have htable : (w'.setKernel clone fun _ => kernel.forClone).table = w'.table := by
    refine table_setKernel ?_
    funext fd
    exact (map_eq_none_iff.mp (hnone fd)).symm
  refine ⟨?_, ?_, fun fd _ => ?_, nofun⟩
  · exact (h.fresh hfresh).of_table htable
  · exact hclone.2
  · rw [htable]
    exact hnone fd

theorem Cloning.of_table (h : Cloning T0 clone rest copies w)
    (htable : w'.table = w.table) : Cloning T0 clone rest copies w' := by
  refine ⟨h.safe.of_table htable, ?_, ?_, ?_⟩
  · rw [htable]
    exact h.below
  · rw [htable]
    exact h.free
  · rw [htable]
    exact h.copied

theorem kernelClone_safe {source : Nat} : Keeps (Safe T0) (kernelClone source) := by
  refine .get_bind fun w _ => ?_
  refine .ite (fun _ => .throw _) fun _ => ?_
  refine .bind (Fixes.safe (allocateOr_fixes table_blind _)) fun _ => ?_
  intro w1 hw1
  refine Triple.bind (Q := fun clone w => w1.table.Fresh w.table ∧
    w1.table.next ≤ clone ∧ clone < w.table.next) ?_ (fun clone => ?_) w1 rfl
  · refine fresh_spec.pre ?_
    rintro _ rfl
    exact Table.Fresh.refl _
  refine .bind (Q := fun _ => Cloning T0 clone allFds []) ?_ fun _ => ?_
  · exact .modify fun w' hw' => .start hw1 hw'.1 hw'.2 _
  refine .keep_bind (.modify fun w' hw' => hw'.of_table
    (foldl_view (fun w (node : PathNode) => table_blind.retain node.file) _ _)) fun _ => ?_
  refine .bind ?_ fun _ => Keeps.pure _
  refine .tryCatch (cloneFds_safe source clone (nodup_finRange _) []) fun e => ?_
  exact Keeps.bind (.modify fun w' hw' => kernelDestroy_safe hw') fun _ => .throw _

theorem table_replaceOwner (k old new : Nat) (pid : Int) (w : World) :
    (replaceOwner k old new pid w).table = w.table := by
  unfold replaceOwner
  refine (table_setKernel rfl).trans ?_
  rw [table_blind.releaseOwner, view_cancelWait table_blind]
  rfl

theorem kernelSetLockPid_safe {pid : Int} : Keeps (Safe T0) (kernelSetLockPid k pid) := by
  refine .ite (fun _ => .throw _) fun _ => .get_bind fun w _ => ?_
  refine .ite (fun _ => .pure _) fun _ => ?_
  refine .bind (Fixes.safe (allocateOr_fixes table_blind _)) fun _ => ?_
  refine .bind fresh_safe fun new => ?_
  exact .modify fun w' hw' => hw'.of_table (table_replaceOwner _ _ _ _ w')

theorem forkKernel_safe (k : Nat) {pid : Int} : Keeps (Safe T0) (forkKernel k pid) := by
  refine .bind kernelClone_safe fun child => ?_
  refine .bind (.modify fun w' hw' => hw'.of_table (table_setKernel rfl)) fun _ => ?_
  refine .bind (.tryCatch kernelSetLockPid_safe fun _ => ?_) fun _ => .pure _
  exact .bind (.modify fun w' hw' => kernelDestroy_safe hw') fun _ => .throw _

end Waste.Kernel
