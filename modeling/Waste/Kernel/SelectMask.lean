import Waste.Kernel.WaitRuns

/-!
# The mask of `pselect`

`pselect` puts its own mask in place of the process's while it waits, and the wait record
keeps the one to restore.  `Sleeps` are the states between the calls of one `pselect` that
is made again while it answers `EAGAIN`.
-/

namespace Waste.Kernel

open Function StateExcept Prod

variable {k : Nat} {w w' : World}
variable {kernel : PosixKernel} {pid : Int} {child : Nat} {wait : WaitRecord} {before : SigSet}

/-! ## A record that is not in use holds no mask -/

/-- Any calls that can block, in any order, and anything that leaves the wait record alone or
clears it. -/
inductive BlockReach (k : Nat) (w0 : World) : World → Prop
  | start : BlockReach k w0 w0
  | other {w w' : World} (h : BlockReach k w0 w)
    (hwait : (w'.kernel k).wait = (w.kernel k).wait ∨ (w'.kernel k).wait.Cleared) :
      BlockReach k w0 w'
  | call {w : World} (h : BlockReach k w0 w) (c : BlockCall) : BlockReach k w0 (c.perform k w).2

theorem WaitRecord.Cleared.idle (h : wait.Cleared) : wait.Idle := fun _ => h

theorem WaitRecord.idle_of_active (h : wait.active = true) : wait.Idle :=
  fun hidle => absurd (h.symm.trans hidle) (by decide)

theorem BlockEffect.idle {α : Type} {answer : Except Errno α} {ended kept : Except Errno α → Prop}
    {waits : PosixKernel → Prop} (h : BlockEffect k wait ended kept waits answer w)
    (hidle : wait.Idle) (hactive : ∀ kernel, waits kernel → kernel.wait.active = true) :
    (w.kernel k).wait.Idle := by
  cases h with
  | ended _ hcleared => exact hcleared.idle
  | kept _ _ hwait => exact hwait ▸ hidle
  | waits h => exact WaitRecord.idle_of_active (hactive _ h)

theorem call_idle (c : BlockCall) (hidle : (w.kernel k).wait.Idle) :
    ((c.perform k w).2.kernel k).wait.Idle := by
  have hselect : ∀ units scale nfds sets timeout mask,
      ((exec (selectWith k units scale nfds sets timeout mask) w).2.kernel k).wait.Idle := by
    intro units scale nfds sets timeout mask
    obtain ⟨_, -, heffect⟩ := selectWith_effect k units scale nfds sets timeout mask hidle
    exact heffect.block.idle hidle fun _ h => h.active
  cases c with
  | read fd count =>
    rcases kernelRead_effect k fd count w with hreturned | ⟨i, entry, -, -, heffect⟩
    · exact hreturned.wait ▸ hidle
    · exact heffect.idle hidle fun _ h => h.2.active
  | write fd data =>
    rcases kernelWrite_effect fd data hidle with hreturned | ⟨i, entry, -, -, heffect⟩
    · exact hreturned.wait ▸ hidle
    · exact heffect.idle hidle fun _ h => h.2.active
  | select nfds sets timeout => exact hselect 1000000 1000 nfds sets timeout none
  | pselect nfds sets timeout mask => exact hselect 1000000000 1 nfds sets timeout mask
  | setlkw fd lock => exact (recordLock_locks k fd lock w).idle hidle fun _ h => h.active

theorem BlockReach.idle {w0 : World} (hstart : (w0.kernel k).wait.Idle) (h : BlockReach k w0 w) :
    (w.kernel k).wait.Idle := by
  induction h with
  | start => exact hstart
  | other _ hwait ih =>
    rcases hwait with hwait | hcleared
    · rw [hwait]
      exact ih
    · exact hcleared.idle
  | call _ c ih => exact call_idle c ih

/-! ## The mask over one `pselect` -/

section Sleep

variable {nfds : Int} {sets : FdSets} {timeout : Option Duration} {mask : Option SigSet}

/-- The worlds between the calls of one `pselect` that began in `w`.  Other processes,
signals and the clock may do anything but change the mask and the wait of this kernel. -/
inductive Sleeps (k : Nat) (nfds : Int) (sets : FdSets) (timeout : Option Duration)
    (mask : Option SigSet) (w : World) : World → Prop
  | before : Sleeps k nfds sets timeout mask w w
  | other {w1 w2 : World} (h : Sleeps k nfds sets timeout mask w w1)
    (hsame : SameWait (w1.kernel k) (w2.kernel k)) : Sleeps k nfds sets timeout mask w w2
  | again {w1 : World} (h : Sleeps k nfds sets timeout mask w w1)
    (hagain : (exec (kernelPselect k nfds sets timeout mask) w1).1 = .error .eagain) :
    Sleeps k nfds sets timeout mask w (exec (kernelPselect k nfds sets timeout mask) w1).2

/-- The mask to restore is the one from before, and the one in place is the temporary one
while the call waits. -/
structure Masked (mask : Option SigSet) (before : SigSet) (kernel : PosixKernel) : Prop where
  idle : kernel.wait.Idle
  restored : kernel.restored = before
  waiting : kernel.wait.active = true →
    kernel.wait.hasSignalMask = mask.isSome ∧ kernel.signalMask = mask.getD before

theorem Masked.of_same {K K' : PosixKernel} (h : Masked mask before K)
    (hsame : SameWait K K') : Masked mask before K' := by
  refine ⟨?_, hsame.restored.trans h.restored, ?_⟩
  · rw [hsame.wait]
    exact h.idle
  · rw [hsame.wait, hsame.signalMask]
    exact h.waiting

theorem Masked.pselect (h : Masked mask before (w.kernel k)) :
    let after := exec (kernelPselect k nfds sets timeout mask) w
    (after.1 = .error .eagain → Masked mask before (after.2.kernel k) ∧
      (after.2.kernel k).signalMask = mask.getD before) ∧
    (after.1 ≠ .error .eagain → (after.2.kernel k).signalMask = before) := by
  obtain ⟨time, -, heffect⟩ := selectWith_effect k 1000000000 1 nfds sets timeout mask h.idle
  change SelectEffect _ _ _ _ _ _ (exec (kernelPselect k nfds sets timeout mask) w).1
    (exec (kernelPselect k nfds sets timeout mask) w).2 at heffect
  generalize exec (kernelPselect k nfds sets timeout mask) w = after at heffect
  obtain ⟨answer, w'⟩ := after
  cases heffect with
  | ended hanswer _ hmask =>
    exact ⟨fun hagain => absurd hagain hanswer, fun _ => hmask.trans h.restored⟩
  | waits hwait =>
    refine ⟨fun _ => ?_, fun hother => absurd rfl hother⟩
    have hinstalled : (w'.kernel k).wait.hasSignalMask = mask.isSome ∧
        (w'.kernel k).signalMask = mask.getD before := by
      cases hm : mask with
      | none =>
        obtain ⟨hhas, hsignal⟩ := hwait.unmasked hm
        subst hm
        cases hactive : (w.kernel k).wait.active with
        | true =>
          obtain ⟨hhas0, hsignal0⟩ := h.waiting hactive
          exact ⟨hhas.trans hhas0, hsignal.trans hsignal0⟩
        | false =>
          have hcleared := h.idle hactive
          exact ⟨hhas.trans hcleared.hasSignalMask, hsignal.trans (hcleared.restored ▸ h.restored)⟩
      | some m =>
        obtain ⟨hhas, hsignal⟩ := hwait.installed m hm
        refine ⟨hhas, hsignal.trans ?_⟩
        split
        · next hboth =>
          obtain ⟨hactive, -⟩ := Bool.and_eq_true_iff.mp hboth
          rw [(h.waiting hactive).2, hm]
        · rfl
    exact ⟨⟨WaitRecord.idle_of_active hwait.active, hwait.restored.trans h.restored,
      fun _ => hinstalled⟩, hinstalled.2⟩

theorem Sleeps.masked {w1 : World} (hidle : (w.kernel k).wait.Cleared)
    (h : Sleeps k nfds sets timeout mask w w1) :
    Masked mask (w.kernel k).signalMask (w1.kernel k) := by
  induction h with
  | before =>
    exact ⟨hidle.idle, hidle.restored,
      fun hactive => absurd (hidle.active.symm.trans hactive) (by decide)⟩
  | other _ hsame ih => exact ih.of_same hsame
  | again _ hagain ih => exact (ih.pselect.1 hagain).1

end Sleep

/-! ## Forks in between -/

/-- What a child has from its parent: the mask that cancelling a wait restores, the signal
actions and the lock owner. -/
def PosixKernel.masks (kernel : PosixKernel) :
    SigSet × (Nat → Disposition) × (Nat → SigSet) × Nat :=
  (kernel.restored, kernel.signalDisposition, kernel.signalActionMasks, kernel.lockOwner)

/-- The masks of all kernels, and the pids of the lock owners. -/
def masks (w : World) : (Nat → SigSet × (Nat → Disposition) × (Nat → SigSet) × Nat) × (Nat → Int) :=
  (fun k => (w.kernel k).masks, fun o => (w.owner o).pid)

theorem masks_setKernel {g : PosixKernel → PosixKernel}
    (h : (g (w.kernel k)).masks = (w.kernel k).masks) : masks (w.setKernel k g) = masks w :=
  Prod.ext (funext (update_field PosixKernel.masks h)) rfl

theorem masks_blind : FileBlind masks where
  file _ _ _ := rfl
  budget _ _ _ := rfl
  requests _ _ := rfl

theorem masks_retainOfd (o : Nat) (w : World) : masks (retainOfd o w) = masks w := by
  unfold retainOfd Description.countEnds
  dsimp only
  split <;> rfl

variable {v : (Nat → SigSet × (Nat → Disposition) × (Nat → SigSet) × Nat) × (Nat → Int)}

theorem allocateOr_masks {e : Errno} : Fixes masks (allocateOr e) :=
  allocateOr_view masks_blind.requests

theorem fresh_masks : Fixes masks fresh :=
  .get_set (fun _ => rfl) fun _ => .pure _

theorem copying_masks (clone : Nat) : Copying (masks · = v) clone where
  allocateOr := allocateOr_masks.keeps (· = v)
  fresh := fresh_masks.keeps (· = v)
  setOfd _ _ _ hw := hw
  setStatus _ _ _ hw := hw
  fileRetain file _ hw := (masks_blind.retain file).trans hw
  retainOfd o w hw := (masks_retainOfd o w).trans hw
  setFd _ _ _ hw := (masks_setKernel rfl).trans hw

theorem masks_retainShared (kernel : PosixKernel) (w : World) :
    masks (retainShared kernel w) = masks w := by
  refine (foldl_view (fun w (node : PathNode) => masks_blind.retain node.file) _ _).trans ?_
  exact Prod.ext rfl (funext (update_field LockOwner.pid rfl))

/-- What the copy has of the original; `pid` is that of the lock owner. -/
structure Inherits (kernel : PosixKernel) (pid : Int) (child : Nat) (w : World) : Prop where
  masks : (w.kernel child).masks = kernel.masks
  pid : (w.owner kernel.lockOwner).pid = pid

theorem Inherits.lockOwner (h : Inherits kernel pid child w) :
    (w.kernel child).lockOwner = kernel.lockOwner := congrArg (fun m => m.2.2.2) h.masks

theorem Inherits.of_masks (h : Inherits kernel pid child w)
    (hmasks : Kernel.masks w' = Kernel.masks w) : Inherits kernel pid child w' :=
  ⟨(congrFun (congrArg fst hmasks) child).trans h.masks,
    (congrFun (congrArg snd hmasks) kernel.lockOwner).trans h.pid⟩

theorem kernelClone_inherits (source : Nat) (w0 : World) : Triple (· = w0) (kernelClone source)
      (Inherits (w0.kernel source) (w0.owner (w0.kernel source).lockOwner).pid)
      (fun _ _ => True) := by
  refine .get_bind fun w hw => ?_
  subst hw
  refine .ite (fun _ => .throw fun _ _ => trivial) fun _ => ?_
  refine allocateOr_masks.then (fun _ => congrArg masks) (fun _ _ _ => trivial) fun _ => ?_
  refine fresh_masks.then (fun _ h => h) (fun _ _ _ => trivial) fun clone => ?_
  let Q := fun w' => Inherits (w.kernel source) (w.owner (w.kernel source).lockOwner).pid clone w'
  refine .bind (Q := fun _ => Q) ?_ fun _ => ?_
  · refine .modify fun w' hw' => ⟨?_, ?_⟩
    · rw [World.setKernel_self]
      rfl
    · exact congrFun (congrArg snd hw') (w.kernel source).lockOwner
  refine .keep_bind (.modify fun w' hw' => hw'.of_masks (masks_retainShared _ w')) fun _ => ?_
  refine .bind ?_ fun _ => .pure fun _ h => h
  refine .tryCatch (E := fun _ _ => True) ?_ fun e => ?_
  · intro w1 hw1
    have hkeeps := (copying_masks clone).cloneFds source allFds [] w1 rfl
    exact ⟨fun a w2 hrun => hw1.of_masks (hkeeps.1 a w2 hrun), fun _ _ _ => trivial⟩
  · exact .modify_bind fun _ _ => .throw fun _ _ => trivial

theorem replaceOwner_kernel {k old new : Nat} {pid : Int} :
    (replaceOwner k old new pid w).kernel k = { (w.kernel k).clearWait with lockOwner := new } := by
  unfold replaceOwner
  rw [World.setKernel_self, kernel_blind.releaseOwner, cancelWait_kernel]
  rfl

/-- A child with a pid of its own gets the mask that the wait of its parent restores, and
no wait. -/
structure Forked (kernel child : PosixKernel) : Prop where
  signalMask : child.signalMask = kernel.restored
  wait : child.wait.Cleared
  signalDisposition : child.signalDisposition = kernel.signalDisposition
  signalActionMasks : child.signalActionMasks = kernel.signalActionMasks

theorem kernelSetLockPid_forked {old : Int} (hpid : old ≠ pid) :
    Triple (Inherits kernel old child) (kernelSetLockPid child pid)
      (fun _ w' => Forked kernel (w'.kernel child)) (fun _ _ => True) := by
  refine .ite (fun _ => .throw fun _ _ => trivial) fun _ => ?_
  refine .get_bind fun w hw => ?_
  refine .ite (fun hsame => ?_) fun _ => ?_
  · rw [hw.lockOwner, hw.pid] at hsame
    exact absurd hsame hpid
  refine allocateOr_masks.then (fun _ => congrArg masks) (fun _ _ _ => trivial) fun _ => ?_
  refine fresh_masks.then (fun _ h => h) (fun _ _ _ => trivial) fun new => ?_
  refine .modify fun w' hw' => ?_
  have hmasks := (hw.of_masks hw').masks
  rw [replaceOwner_kernel]
  exact ⟨congrArg (fun m => m.1) hmasks, ⟨rfl, rfl, rfl⟩, congrArg (fun m => m.2.1) hmasks,
    congrArg (fun m => m.2.2.1) hmasks⟩

theorem forkKernel_forked (hpid : (w.owner (w.kernel k).lockOwner).pid ≠ pid)
    (hfork : exec (forkKernel k pid) w = (.ok child, w')) :
    Forked (w.kernel k) (w'.kernel child) := by
  have hspec : Triple (· = w) (forkKernel k pid)
      (fun child w' => Forked (w.kernel k) (w'.kernel child)) (fun _ _ => True) := by
    refine .bind (kernelClone_inherits k w) fun child => ?_
    refine .keep_bind (.modify fun w' hw' => hw'.of_masks (masks_setKernel rfl)) fun _ => ?_
    refine .bind ?_ fun _ => .pure fun _ h => h
    refine .tryCatch (kernelSetLockPid_forked hpid) fun _ => ?_
    exact .modify_bind fun _ _ => .throw fun _ _ => trivial
  exact (hspec w rfl).1 child w' hfork

/-! ## The discipline -/

/-- From a kernel with no active wait, over one `pselect` that is made again while it answers
`EAGAIN`: the mask is the temporary one after each `EAGAIN` and the old one after any other
answer, and a child that is forked in between gets the old one. -/
theorem pselect_mask_discipline (k : Nat) (w0 w : World) (hstart : (w0.kernel k).wait.Cleared)
    (hreach : BlockReach k w0 w) (hidle : (w.kernel k).wait.active = false) (nfds : Int)
    (sets : FdSets) (timeout : Option Duration) (mask : Option SigSet) (w1 : World)
    (hsleeps : Sleeps k nfds sets timeout mask w w1) :
    let after := exec (kernelPselect k nfds sets timeout mask) w1
    (after.1 = .error .eagain →
      (after.2.kernel k).signalMask = mask.getD (w.kernel k).signalMask) ∧
    (after.1 ≠ .error .eagain → (after.2.kernel k).signalMask = (w.kernel k).signalMask) ∧
    ∀ pid child w2, (w1.owner (w1.kernel k).lockOwner).pid ≠ pid →
      exec (forkKernel k pid) w1 = (.ok child, w2) →
      (w2.kernel child).signalMask = (w.kernel k).signalMask := by
  have hcleared := hreach.idle hstart.idle hidle
  have hmasked := hsleeps.masked hcleared
  refine ⟨fun hagain => (hmasked.pselect.1 hagain).2, hmasked.pselect.2, ?_⟩
  intro pid child w2 hpid hfork
  exact (forkKernel_forked hpid hfork).signalMask.trans hmasked.restored

/-- The call is made a second time and waits again. -/
theorem pselect_mask_discipline_waits :
    let call := kernelPselect 0 0 ⟨none, none, none⟩ none (some 5)
    let after := exec call (exec call .initial).2
    after.1 = .error .eagain ∧ (after.2.kernel 0).signalMask = 5 := by
  intro call after
  have hcleared : (World.initial.kernel 0).wait.Cleared := ⟨rfl, rfl, rfl⟩
  have hfirst : (exec call .initial).1 = .error .eagain := by decide +kernel
  have hagain : after.1 = .error .eagain := by decide +kernel
  have hrun := pselect_mask_discipline 0 .initial .initial hcleared .start rfl 0
    ⟨none, none, none⟩ none (some 5) (exec call .initial).2 (.again .before hfirst)
  exact ⟨hagain, hrun.1 hagain⟩

end Waste.Kernel
