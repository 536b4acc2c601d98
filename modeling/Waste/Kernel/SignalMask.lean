import Waste.Kernel.SelectMask

/-!
# The mask and the signals that cannot be blocked

The signal mask of a process is written by `sigprocmask`, by the entry into a handler and
the return from it, by `pselect`, by a jump that restores it, and by a fork.
`SignalProcess` adds to a kernel what the engine keeps of it: the masks that the
activations of `guest_posix_handle_signal` saved, and those of the jump buffers.

`SIGKILL` and `SIGSTOP` stay unblocked as long as no mask that the guest gives to
`sigaction` or `pselect` names them; only `sigprocmask` takes them out itself.  A handler
returns to the mask that it interrupted.
-/

namespace Waste.Kernel

open Function StateExcept Except Prod

variable (n : Nat) (kind : Description) (k : Nat) (file : Option Nat) (pid : Int) (o : Nat)
variable {q : SignalProcess} {mask : SigSet} {action : Option SigAction} {versioned : Bool}

/-! ## The calls -/

def saRestart : BitVec 32 := 0x10000000
def sigDfl : BitVec 32 := 0
def sigIgn : BitVec 32 := 0xfffffffe

/-- `SIGKILL` and `SIGSTOP`. -/
def uncatchable : SigSet := signalBitSet (signalBitSet 0 sigkill) sigstop

namespace PosixKernel

/-- `posix_kernel_set_signal_mask`. -/
def setSignalMask (mask : SigSet) (kernel : PosixKernel) : PosixKernel :=
  if kernel.wait.hasSignalMask then kernel else { kernel with signalMask := mask }

/-- `guest_posix_sigprocmask` with a set that could be read, up to the signals that it
delivers. -/
def sigprocmask (how : Int) (set : Option SigSet) (kernel : PosixKernel) :
    Except Errno PosixKernel :=
  match set with
  | none => .ok kernel
  | some requested =>
    if how < 0 ∨ 2 < how then .error .einval
    else
      let current := kernel.signalMask
      let next :=
        if how = 0 then current ||| requested
        else if how = 1 then current &&& ~~~requested
        else requested
      .ok (kernel.setSignalMask (next &&& ~~~uncatchable))

/-- `posix_kernel_signal_set_disposition`. -/
def signalSetDisposition (signal : Nat) (disposition : Disposition) (kernel : PosixKernel) :
    Except Errno PosixKernel :=
  if !signalValid signal then .error .einval
  else if (signal = sigkill ∨ signal = sigstop) ∧ disposition ≠ .default then .error .einval
  else .ok { kernel with
    signalDisposition := update kernel.signalDisposition signal disposition
    pendingSignals :=
      if disposition = .ignore then signalBitClear kernel.pendingSignals signal
      else kernel.pendingSignals }

end PosixKernel

/-- A `struct sigaction`. -/
structure SigAction where
  handler : BitVec 32
  mask : SigSet
  flags : BitVec 32

def SigAction.disposition (action : SigAction) : Disposition :=
  if action.handler = sigDfl then .default
  else if action.handler = sigIgn ∨ action.handler = 1 then .ignore
  else .handler

namespace PosixKernel

/-- The last part of `guest_posix_sigaction_impl`.  The answer of
`posix_kernel_signal_set_disposition` is not looked at. -/
def installAction (signal : Nat) (action : SigAction) (kernel : PosixKernel) : PosixKernel :=
  let kernel :=
    match kernel.signalSetDisposition signal action.disposition with
    | .ok kernel => kernel
    | .error _ => kernel
  { kernel with
    signalHandlers := update kernel.signalHandlers signal action.handler
    signalActionMasks := update kernel.signalActionMasks signal action.mask
    signalActionFlags := update kernel.signalActionFlags signal action.flags }

/-- `guest_posix_sigaction_impl` with an action that could be read. -/
def sigaction (versioned : Bool) (signal : Int) (action : Option SigAction) (kernel : PosixKernel) :
    Except Errno PosixKernel :=
  if !signalValid signal.toNat then .error .einval
  else
    match action with
    | none => .ok kernel
    | some action =>
      if action.flags &&& ~~~saRestart ≠ 0 then .error .einval
      else if versioned && action.handler = BitVec.allOnes 32 then .error .einval
      else if (signal = sigkill ∨ signal = sigstop) ∧ action.disposition ≠ .default
        then .error .einval
      else .ok (kernel.installAction signal.toNat action)

/-- `posix_kernel_signal_enter_handler`; the saved mask is the one from before. -/
def enterHandler (signal : Nat) (kernel : PosixKernel) : PosixKernel :=
  { kernel with
    signalMask := signalBitSet (kernel.signalMask ||| kernel.signalActionMasks signal) signal }

/-- `posix_kernel_signal_leave_handler`. -/
def leaveHandler (saved : SigSet) (kernel : PosixKernel) : PosixKernel :=
  { kernel with signalMask := saved }

/-- `posix_kernel_signal_exec`. -/
def signalExec (kernel : PosixKernel) : PosixKernel :=
  let caught signal := signalValid signal && kernel.signalDisposition signal = .handler
  { kernel with
    signalDisposition := fun s => if caught s then .default else kernel.signalDisposition s
    signalHandlers := fun s => if caught s then sigDfl else kernel.signalHandlers s
    signalActionMasks := fun s => if caught s then 0 else kernel.signalActionMasks s
    signalActionFlags := fun s => if caught s then 0 else kernel.signalActionFlags s
    pendingSignals := signals.foldl
      (fun pending s => if caught s && defaultIgnored s then signalBitClear pending s else pending)
      kernel.pendingSignals
    deliveredSignal := 0 }

end PosixKernel

/-! ## A process -/

/-- A process of the world, with the masks that its handler activations and its jump
buffers hold; the innermost activation comes first. -/
structure SignalProcess where
  world : World
  number : Nat
  handlers : List SigSet
  jumps : List SigSet

inductive SignalCall
  | sigprocmask (how : Int) (set : Option SigSet)
  | sigaction (versioned : Bool) (signal : Int) (action : Option SigAction)
  /-- A caught signal is delivered. -/
  | enter (signal : Nat)
  /-- The handler returns. -/
  | leave
  /-- The handler ends with a jump or another failure. -/
  | unwind
  | pselect (nfds : Int) (sets : FdSets) (timeout : Option Duration) (mask : Option SigSet)
  | sigsetjmp
  | siglongjmp (buffer : Nat)
  | fork (pid : Int) (child : Bool)
  | execve

namespace SignalProcess

def kernel (p : SignalProcess) : PosixKernel := p.world.kernel p.number

def setKernel (f : PosixKernel → PosixKernel) (p : SignalProcess) : SignalProcess :=
  { p with world := p.world.setKernel p.number f }

/-- A call that fails changes nothing. -/
def update (result : Except Errno PosixKernel) (p : SignalProcess) : SignalProcess :=
  match result with
  | .ok kernel => p.setKernel fun _ => kernel
  | .error _ => p

/-- `native_store_jump_mask_set`. -/
def jumpMaskSet (mask : SigSet) (p : SignalProcess) : SignalProcess :=
  { p with world := (cancelWait p.number p.world).setKernel p.number (·.setSignalMask mask) }

/-- One call or signal.  An entry without a handler, a return without an activation and a
jump without a buffer do nothing. -/
def step (p : SignalProcess) : SignalCall → SignalProcess
  | .sigprocmask how set => p.update (p.kernel.sigprocmask how set)
  | .sigaction versioned signal action => p.update (p.kernel.sigaction versioned signal action)
  | .enter signal =>
    if signalValid signal && p.kernel.signalDisposition signal = .handler then
      { p.setKernel (·.enterHandler signal) with handlers := p.kernel.signalMask :: p.handlers }
    else p
  | .leave =>
    match p.handlers with
    | [] => p
    | saved :: rest => { p.setKernel (·.leaveHandler saved) with handlers := rest }
  | .unwind =>
    match p.handlers with
    | [] => p
    | saved :: rest =>
      { p with
        world := cancelWait p.number (p.world.setKernel p.number (·.leaveHandler saved))
        handlers := rest }
  | .pselect nfds sets timeout mask =>
    { p with world := (exec (kernelPselect p.number nfds sets timeout mask) p.world).2 }
  | .sigsetjmp => { p with jumps := p.kernel.signalMask :: p.jumps }
  | .siglongjmp buffer =>
    match p.jumps[buffer]? with
    | none => p
    | some mask => p.jumpMaskSet mask
  | .fork pid child =>
    match exec (forkKernel p.number pid) p.world with
    | (.ok number, w) => { p with world := w, number := if child then number else p.number }
    | (.error _, w) => { p with world := w }
  | .execve => { p.setKernel (·.signalExec) with handlers := [], jumps := [] }

end SignalProcess

/-! ## Masks without the two signals -/

def Spares (mask : SigSet) : Prop :=
  signalBitTest mask sigkill = false ∧ signalBitTest mask sigstop = false

instance (mask : SigSet) : Decidable (Spares mask) := inferInstanceAs (Decidable (_ ∧ _))

theorem Spares.or {a b : SigSet} (ha : Spares a) (hb : Spares b) : Spares (a ||| b) := by
  unfold Spares signalBitTest at *
  simp [ha.1, ha.2, hb.1, hb.2]

theorem Spares.bitSet (h : Spares mask) {signal : Nat} (hkill : signal ≠ sigkill)
    (hstop : signal ≠ sigstop) : Spares (signalBitSet mask signal) := by
  unfold sigkill at hkill
  unfold sigstop at hstop
  have hbit : ∀ n, n < 128 → n ≠ signal - 1 → (1#128 <<< (signal - 1)).getLsbD n = false := by
    intro n hn hne
    by_cases hlt : n < signal - 1
    · simp [hlt]
    · have hpos : n - (signal - 1) ≠ 0 := by omega
      simp [hpos]
  refine h.or ⟨hbit 8 (by decide) ?_, hbit 18 (by decide) ?_⟩ <;> omega

theorem spares_strip (mask : SigSet) : Spares (mask &&& ~~~uncatchable) := by
  have hkill : uncatchable.getLsbD 8 = true := by decide
  have hstop : uncatchable.getLsbD 18 = true := by decide
  refine ⟨?_, ?_⟩
  · show (mask &&& ~~~uncatchable).getLsbD 8 = false
    simp [hkill]
  · show (mask &&& ~~~uncatchable).getLsbD 18 = false
    simp [hstop]

theorem spares_zero : Spares 0 := by decide

/-! ## What a fork does to the other kernels -/

/-- The kernels, and the number of the next object. -/
def base (w : World) : (Nat → PosixKernel) × Nat := (w.kernel, w.next)

/-- All kernels but one, and the number of the next object. -/
def others (c : Nat) (w : World) : ({ j : Nat // j ≠ c } → PosixKernel) × Nat :=
  (fun j => w.kernel j.1, w.next)

variable {c : Nat} {w w' : World}

theorem next_blind : Blind World.next where
  kernel _ := rfl
  terminal _ _ _ := rfl
  offset _ _ _ _ _ := rfl
  file _ _ _ := rfl
  owner _ _ _ := rfl
  shm _ _ _ := rfl
  budget _ _ _ := rfl
  requests _ _ := rfl
  clock _ := rfl

theorem base_blind : ObjectBlind base where
  file _ _ _ := rfl
  budget _ _ _ := rfl
  requests _ _ := rfl
  owner _ _ _ := rfl
  shm _ _ _ := rfl

theorem base_countEnds {delta : Int} : base (kind.countEnds delta w) = base w := by
  unfold Description.countEnds
  split <;> rfl

theorem base_release (w : World) : base (kind.release w) = base w := by
  unfold Description.release
  split
  · rfl
  · rfl
  · exact base_blind.release _
  · exact base_blind.release _
  · rfl
  · split <;> rfl
  · split <;> rfl

theorem base_ofdRelease (w : World) : base (ofdRelease o w) = base w := by
  unfold ofdRelease
  dsimp only
  split
  · rfl
  · exact base_release _ _

theorem others_of_base (h : base w' = base w) : others c w' = others c w := by
  obtain ⟨hkernel, hnext⟩ := mk.inj h
  unfold others
  rw [hkernel, hnext]

theorem others_setKernel {g : PosixKernel → PosixKernel} :
    others c (w.setKernel c g) = others c w := by
  refine Prod.ext (funext fun j => ?_) rfl
  exact update_of_ne j.2 _ _

theorem others_cancelWait (w : World) : others c (cancelWait c w) = others c w := by
  refine Prod.ext (funext fun j => ?_) (view_cancelWait next_blind c w)
  refine (update_of_ne j.2 _ _).trans ?_
  rw [kernel_blind.release]
  split <;> rfl

theorem others_destroyFd (w : World) (fd : Fin fdMax) :
    others c (destroyFd c w fd) = others c w := by
  unfold destroyFd
  split
  · rfl
  · exact (others_of_base ((base_ofdRelease _ _).trans (base_countEnds _))).trans others_setKernel

theorem others_kernelDestroy : others c (kernelDestroy c w) = others c w := by
  have hnodes : ∀ (l : List PathNode) (w : World),
      base (l.foldl (fun w node => fileRelease node.file w) w) = base w :=
    foldl_view fun w node => base_blind.release node.file
  have hinodes : ∀ n g (w : World), base (w.setInodes n g) = base w := fun _ _ _ => rfl
  unfold kernelDestroy
  rw [others_setKernel, others_of_base (base_blind.releaseOwner _ _),
    others_of_base (base_blind.releaseShm _ _), others_of_base (hinodes _ _ _),
    others_of_base (hnodes _ _), foldl_view others_destroyFd, others_cancelWait]

theorem others_replaceOwner (old new : Nat) (pid : Int) (w : World) :
    others c (replaceOwner c old new pid w) = others c w := by
  unfold replaceOwner
  rw [others_setKernel, others_of_base (base_blind.releaseOwner _ _), others_cancelWait]
  rfl

/-- The new kernel is the next object, and nothing else of the kernels changes. -/
def Beside (w0 w : World) : Prop :=
  (others w0.next w).1 = (others w0.next w0).1 ∧ w0.next < w.next

variable {w0 : World}

theorem Beside.of_others (h : Beside w0 w) (hothers : others w0.next w' = others w0.next w) :
    Beside w0 w' := by
  unfold Beside
  rw [hothers]
  refine ⟨h.1, ?_⟩
  have hnext := congrArg snd hothers
  exact lt_of_lt_of_eq h.2 hnext.symm

theorem Beside.of_base (h : Beside w0 w) (hbase : base w' = base w) : Beside w0 w' :=
  h.of_others (others_of_base hbase)

theorem allocateOr_base {e : Errno} : Fixes base (allocateOr e) :=
  allocateOr_view base_blind.requests

theorem allocateOr_beside {e : Errno} : Keeps (Beside w0) (allocateOr e) :=
  .of_exec_snd fun _ hw => hw.of_base (allocateOr_base _)

theorem fresh_beside : Keeps (Beside w0) fresh := by
  refine .get_bind fun w hw => ?_
  refine .bind (.set fun _ _ => ⟨hw.1, ?_⟩) fun _ => Keeps.pure _
  exact Nat.lt_succ_of_lt hw.2

theorem copying_beside : Copying (Beside w0) w0.next where
  allocateOr := allocateOr_beside
  fresh := fresh_beside
  setOfd _ _ _ hw := hw
  setStatus _ _ _ hw := hw
  fileRetain file _ hw := hw.of_base (base_blind.retain file)
  retainOfd _ _ hw := hw.of_base (base_countEnds _)
  setFd _ _ _ hw := hw.of_others others_setKernel

/-- A failed copy may have found no memory before it took a number. -/
def BesideOrSame (w0 w : World) : Prop := Beside w0 w ∨ base w = base w0

theorem kernelClone_beside (source : Nat) :
    Triple (· = w0) (kernelClone source) (fun child w => child = w0.next ∧ Beside w0 w)
      (fun _ => BesideOrSame w0) := by
  refine .get_bind fun w hw => ?_
  subst hw
  refine .ite (fun _ => .throw ?_) fun _ => ?_
  · rintro _ rfl
    exact .inr rfl
  refine allocateOr_base.then (fun _ => congrArg base) (fun _ _ h => .inr h) fun _ => ?_
  refine .bind (Q := fun clone w' => clone = w.next ∧ Beside w w') ?_ fun clone => ?_
  · refine .get_bind fun w1 hw1 => ?_
    obtain ⟨hkernel, hnext⟩ := mk.inj hw1
    refine .bind (.set fun _ _ => ⟨?_, ?_⟩) fun _ => .pure fun _ h => ⟨hnext, h⟩
    · funext j
      exact congrFun hkernel j.1
    · rw [hnext]
      exact Nat.lt_succ_self _
  refine .fact ?_
  rintro rfl
  refine .keep_bind (.modify fun w' hw' => hw'.of_others others_setKernel) fun _ => ?_
  refine .keep_bind (.modify fun w' hw' => hw'.of_base
    (foldl_view (fun w (node : PathNode) => base_blind.retain node.file) _ _)) fun _ => ?_
  refine .bind ?_ fun _ => .pure fun _ h => ⟨rfl, h⟩
  refine .tryCatch (copying_beside.cloneFds source allFds []) fun e => ?_
  refine .bind ?_ fun _ => .throw fun _ h => .inl h
  exact .modify fun w' hw' => hw'.of_others others_kernelDestroy

theorem kernelSetLockPid_beside : Keeps (Beside w0) (kernelSetLockPid w0.next pid) := by
  refine .ite (fun _ => .throw _) fun _ => .get_bind fun w _ => ?_
  refine .ite (fun _ => .pure _) fun _ => ?_
  refine .bind allocateOr_beside fun _ => ?_
  refine .bind fresh_beside fun new => ?_
  exact .modify fun w hw => hw.of_others (others_replaceOwner _ _ _ w)

theorem forkKernel_beside (w0 : World) :
    Triple (· = w0) (forkKernel k pid) (fun child w => child = w0.next ∧ Beside w0 w)
      (fun _ => BesideOrSame w0) := by
  refine .bind (kernelClone_beside k) fun child => ?_
  refine .fact ?_
  rintro rfl
  refine .keep_bind (.modify fun w hw => hw.of_others others_setKernel) fun _ => ?_
  refine .bind ?_ fun _ => .pure fun _ h => ⟨rfl, h⟩
  refine .tryCatch (kernelSetLockPid_beside pid) fun e => ?_
  refine .bind ?_ fun _ => .throw fun _ h => .inl h
  exact .modify fun w hw => hw.of_others others_kernelDestroy

/-! ## The invariant -/

/-- Nothing that a kernel holds for its mask blocks one of the two signals. -/
structure PosixKernel.Spared (kernel : PosixKernel) : Prop where
  idle : kernel.wait.Idle
  mask : Spares kernel.signalMask
  restored : Spares kernel.restored
  actions : ∀ s, Spares (kernel.signalActionMasks s)
  caught : ∀ s, kernel.signalDisposition s = .handler → s ≠ sigkill ∧ s ≠ sigstop

/-- Nor does anything that the engine holds for the process. -/
structure SignalProcess.Spared (p : SignalProcess) : Prop where
  kernel : p.kernel.Spared
  handlers : ∀ m ∈ p.handlers, Spares m
  jumps : ∀ m ∈ p.jumps, Spares m
  number : p.number < p.world.next

namespace PosixKernel

variable {kernel kernel' : PosixKernel}

section

variable (h : kernel.Spared)
include h

theorem Spared.setMask (hmask : Spares mask) : { kernel with signalMask := mask }.Spared := by
  refine { h with mask := hmask, restored := ?_ }
  have hrestored := h.restored
  unfold PosixKernel.restored at hrestored ⊢
  split
  · next hhas =>
    rw [if_pos hhas] at hrestored
    exact hrestored
  · exact hmask

theorem Spared.setSignalMask (hmask : Spares mask) : (kernel.setSignalMask mask).Spared := by
  unfold PosixKernel.setSignalMask
  split
  · exact h
  · exact h.setMask hmask

theorem Spared.sigprocmask {how : Int} {set : Option SigSet}
    (hrun : kernel.sigprocmask how set = .ok kernel') : kernel'.Spared := by
  unfold PosixKernel.sigprocmask at hrun
  cases set with
  | none =>
    obtain rfl := ok.inj hrun
    exact h
  | some _ =>
    dsimp only at hrun
    split at hrun
    · exact nomatch hrun
    · obtain rfl := ok.inj hrun
      exact h.setSignalMask (spares_strip _)

omit h in
theorem sigaction_ok {signal : Int}
    (hrun : kernel.sigaction versioned signal action = .ok kernel') :
    kernel' = kernel ∨ ∃ a, action = some a ∧ kernel' = kernel.installAction signal.toNat a := by
  unfold sigaction at hrun
  cases action with
  | none =>
    split at hrun
    · exact nomatch hrun
    · exact .inl (ok.inj hrun).symm
  | some a =>
    dsimp only at hrun
    split_ifs at hrun
    exact .inr ⟨a, rfl, (ok.inj hrun).symm⟩

omit h in
theorem signalSetDisposition_ok {signal : Nat} {disposition : Disposition}
    (hset : kernel.signalSetDisposition signal disposition = .ok kernel') :
    ¬((signal = sigkill ∨ signal = sigstop) ∧ disposition ≠ .default) ∧ ∃ pending, kernel' =
      { kernel with
        signalDisposition := update kernel.signalDisposition signal disposition
        pendingSignals := pending } := by
  unfold signalSetDisposition at hset
  split_ifs at hset with _ hnumber
  all_goals exact ⟨hnumber, _, (ok.inj hset).symm⟩

theorem Spared.sigaction {signal : Int} (haction : ∀ a, action = some a → Spares a.mask)
    (hrun : kernel.sigaction versioned signal action = .ok kernel') : kernel'.Spared := by
  rcases sigaction_ok hrun with rfl | ⟨a, rfl, rfl⟩
  · exact h
  have hmasks : ∀ s, Spares (update kernel.signalActionMasks signal.toNat a.mask s) := by
    intro s
    rw [update_apply]
    split
    · exact haction a rfl
    · exact h.actions s
  unfold installAction
  split
  · next K hset =>
    obtain ⟨hnumber, pending, rfl⟩ := signalSetDisposition_ok hset
    refine { h with actions := hmasks, caught := fun s hs => ?_ }
    dsimp only at hs
    rw [update_apply] at hs
    split at hs
    · next heq =>
      subst heq
      constructor
      · intro hkill
        exact hnumber ⟨.inl hkill, fun hdefault => absurd (hdefault.symm.trans hs) (by decide)⟩
      · intro hstop
        exact hnumber ⟨.inr hstop, fun hdefault => absurd (hdefault.symm.trans hs) (by decide)⟩
    · exact h.caught s hs
  · exact { h with actions := hmasks }

theorem Spared.clearWait : kernel.clearWait.Spared :=
  { h with idle := clearWait_cleared.idle, mask := h.restored }

omit h in
theorem signalExec_wait (kernel : PosixKernel) : SameWait kernel kernel.signalExec := by
  constructor <;> simp only [signalExec]

theorem Spared.of_same (hsame : SameWait kernel kernel')
    (hactions : ∀ s, Spares (kernel'.signalActionMasks s))
    (hcaught : ∀ s, kernel'.signalDisposition s = .handler → s ≠ sigkill ∧ s ≠ sigstop) :
    kernel'.Spared := by
  refine ⟨?_, ?_, ?_, hactions, hcaught⟩
  · rw [hsame.wait]
    exact h.idle
  · rw [hsame.signalMask]
    exact h.mask
  · rw [hsame.restored]
    exact h.restored

theorem Spared.signalExec : kernel.signalExec.Spared := by
  refine h.of_same (signalExec_wait kernel) (fun s => ?_) fun s hs => ?_
  · show Spares (if (signalValid s && decide (kernel.signalDisposition s = .handler)) = true then 0
      else kernel.signalActionMasks s)
    split
    · exact spares_zero
    · exact h.actions s
  · have hs : (if (signalValid s && decide (kernel.signalDisposition s = .handler)) = true then
        .default else kernel.signalDisposition s) = .handler := hs
    split at hs
    · exact nomatch hs
    · exact h.caught s hs

theorem Spared.forked (hforked : Forked kernel kernel') : kernel'.Spared := by
  have hmask : Spares kernel'.signalMask := by
    rw [hforked.signalMask]
    exact h.restored
  refine ⟨hforked.wait.idle, hmask, hforked.wait.restored ▸ hmask, ?_, ?_⟩
  · rw [hforked.signalActionMasks]
    exact h.actions
  · rw [hforked.signalDisposition]
    exact h.caught

end

end PosixKernel

theorem actions_blind :
    Blind fun w : World => ((w.kernel k).signalDisposition, (w.kernel k).signalActionMasks) where
  kernel h := update_field (fun K : PosixKernel => (K.signalDisposition, K.signalActionMasks))
    (congrArg snd h) k
  terminal _ _ _ := rfl
  offset _ _ _ _ _ := rfl
  file _ _ _ := rfl
  owner _ _ _ := rfl
  shm _ _ _ := rfl
  budget _ _ _ := rfl
  requests _ _ := rfl
  clock _ := rfl

theorem kernelPselect_fixes {V : Type} {view : World → V} (h : Blind view) (k : Nat) (nfds : Int)
    (sets : FdSets) (timeout : Option Duration) (mask : Option SigSet) :
    Fixes view (kernelPselect k nfds sets timeout mask) :=
  .bind (readTimeout_fixes h k 1000000000 1) fun _ => kernelSelectCore_fixes h k

theorem pselect_spared {k : Nat} {nfds : Int} {sets : FdSets} {timeout : Option Duration}
    {mask : Option SigSet} (h : (w.kernel k).Spared) (hmask : ∀ m, mask = some m → Spares m) :
    ((exec (kernelPselect k nfds sets timeout mask) w).2.kernel k).Spared := by
  have hactions := kernelPselect_fixes (actions_blind k) k nfds sets timeout mask w
  obtain ⟨time, -, heffect⟩ := selectWith_effect k 1000000000 1 nfds sets timeout mask h.idle
  change SelectEffect _ _ _ _ _ _ (exec (kernelPselect k nfds sets timeout mask) w).1
    (exec (kernelPselect k nfds sets timeout mask) w).2 at heffect
  generalize exec (kernelPselect k nfds sets timeout mask) w = after at heffect hactions
  obtain ⟨answer, w'⟩ := after
  have hmasks : ∀ s, Spares ((w'.kernel k).signalActionMasks s) := by
    rw [show (w'.kernel k).signalActionMasks = _ from congrArg snd hactions]
    exact h.actions
  have hcaught : ∀ s, (w'.kernel k).signalDisposition s = .handler → s ≠ sigkill ∧ s ≠ sigstop := by
    rw [show (w'.kernel k).signalDisposition = _ from congrArg fst hactions]
    exact h.caught
  cases heffect with
  | ended _ hcleared hrestored =>
    have hsignal : Spares (w'.kernel k).signalMask := by
      rw [hrestored]
      exact h.restored
    exact ⟨hcleared.idle, hsignal, hcleared.restored ▸ hsignal, hmasks, hcaught⟩
  | waits hwait =>
    refine ⟨WaitRecord.idle_of_active hwait.active, ?_, ?_, hmasks, hcaught⟩
    · cases hm : mask with
      | none =>
        rw [(hwait.unmasked hm).2]
        exact h.mask
      | some m =>
        rw [(hwait.installed m hm).2]
        split
        · exact h.mask
        · exact hmask m hm
    · rw [hwait.restored]
      exact h.restored

/-! ## Runs -/

/-- The masks that the call brings into the kernel do not name the two signals. -/
def SignalCall.Sparing : SignalCall → Prop
  | .sigaction _ _ action => ∀ a, action = some a → Spares a.mask
  | .pselect _ _ _ mask => ∀ m, mask = some m → Spares m
  | _ => True

/-- The number that a fork gives to the child is not the parent's. -/
def SignalCall.NewNumber (p : SignalProcess) : SignalCall → Prop
  | .fork pid _ => (p.world.owner p.kernel.lockOwner).pid ≠ pid
  | _ => True

/-- What other processes, the clock and raised signals leave alone. -/
structure Undisturbed (p : SignalProcess) (w : World) : Prop where
  wait : SameWait p.kernel (w.kernel p.number)
  signalDisposition : (w.kernel p.number).signalDisposition = p.kernel.signalDisposition
  signalActionMasks : (w.kernel p.number).signalActionMasks = p.kernel.signalActionMasks
  next : p.world.next ≤ w.next

/-- The runs of a process in which no mask from the guest names one of the two signals. -/
inductive SignalReach (p0 : SignalProcess) : SignalProcess → Prop
  | start : SignalReach p0 p0
  | other {p : SignalProcess} {w : World} (h : SignalReach p0 p) (hother : Undisturbed p w) :
    SignalReach p0 { p with world := w }
  | call {p : SignalProcess} {c : SignalCall} (h : SignalReach p0 p) (hnew : c.NewNumber p)
    (hsparing : c.Sparing) : SignalReach p0 (p.step c)

namespace SignalProcess

variable {p : SignalProcess}

theorem setKernel_kernel (f : PosixKernel → PosixKernel) (p : SignalProcess) :
    (p.setKernel f).kernel = f p.kernel := World.setKernel_self

theorem Spared.setKernel (h : p.Spared) {f : PosixKernel → PosixKernel} (hf : (f p.kernel).Spared) :
    (p.setKernel f).Spared := by
  refine { h with kernel := ?_ }
  rw [setKernel_kernel]
  exact hf

theorem Spared.update (h : p.Spared) {result : Except Errno PosixKernel}
    (hresult : ∀ kernel, result = .ok kernel → kernel.Spared) : (p.update result).Spared := by
  cases result with
  | ok kernel => exact h.setKernel (hresult kernel rfl)
  | error e => exact h

theorem Spared.beside (h : p.Spared) (hw : BesideOrSame p.world w) :
    { p with world := w }.Spared := by
  have hnumber := h.number
  rcases hw with ⟨hothers, hnext⟩ | hbase
  · have hself : w.kernel p.number = p.kernel := congrFun hothers ⟨p.number, ne_of_lt hnumber⟩
    refine ⟨?_, h.handlers, h.jumps, lt_trans hnumber hnext⟩
    show (w.kernel p.number).Spared
    rw [hself]
    exact h.kernel
  · obtain ⟨hkernel, hnext⟩ := Prod.mk.inj hbase
    refine ⟨?_, h.handlers, h.jumps, hnext ▸ hnumber⟩
    show (w.kernel p.number).Spared
    rw [hkernel]
    exact h.kernel

theorem Spared.fork (h : p.Spared) {pid : Int} (child : Bool)
    (hpid : (p.world.owner p.kernel.lockOwner).pid ≠ pid) : (p.step (.fork pid child)).Spared := by
  have hbeside := forkKernel_beside p.number pid p.world p.world rfl
  have hforked : ∀ number w, exec (forkKernel p.number pid) p.world = (.ok number, w) →
      Forked p.kernel (w.kernel number) := fun _ _ hrun => forkKernel_forked hpid hrun
  unfold step
  dsimp only
  generalize exec (forkKernel p.number pid) p.world = run at hbeside hforked
  obtain ⟨e | number, w⟩ := run
  · exact h.beside (hbeside.2 e w rfl)
  obtain ⟨rfl, hw⟩ := hbeside.1 number w rfl
  have hparent := h.beside (.inl hw)
  cases child with
  | false => exact hparent
  | true =>
    refine ⟨?_, h.handlers, h.jumps, hw.2⟩
    exact h.kernel.forked (hforked _ w rfl)

theorem Spared.leave (h : p.Spared) {saved : SigSet} {rest : List SigSet}
    (hhandlers : p.handlers = saved :: rest) :
    { p.setKernel (·.leaveHandler saved) with handlers := rest }.Spared := by
  have hmem := h.handlers
  rw [hhandlers] at hmem
  have hset := h.setKernel (f := (·.leaveHandler saved))
    (h.kernel.setMask (hmem saved List.mem_cons_self))
  exact ⟨hset.kernel, fun m hm => hmem m (List.mem_cons_of_mem _ hm), h.jumps, h.number⟩

theorem Spared.cancelWait (h : p.Spared) :
    { p with world := cancelWait p.number p.world }.Spared := by
  refine ⟨?_, h.handlers, h.jumps, ?_⟩
  · show ((Kernel.cancelWait p.number p.world).kernel p.number).Spared
    rw [cancelWait_kernel]
    exact h.kernel.clearWait
  · rw [view_cancelWait next_blind]
    exact h.number

theorem Spared.step (h : p.Spared) {c : SignalCall} (hnew : c.NewNumber p) (hsparing : c.Sparing) :
    (p.step c).Spared := by
  cases c with
  | sigprocmask _ _ => exact h.update fun kernel hrun => h.kernel.sigprocmask hrun
  | sigaction _ signal _ => exact h.update fun kernel hrun => h.kernel.sigaction hsparing hrun
  | enter signal =>
    unfold SignalProcess.step
    dsimp only
    split
    · next hhandler =>
      obtain ⟨-, hhandler⟩ := Bool.and_eq_true_iff.mp hhandler
      obtain ⟨hkill, hstop⟩ := h.kernel.caught signal (of_decide_eq_true hhandler)
      have hmask := (h.kernel.mask.or (h.kernel.actions signal)).bitSet hkill hstop
      have hset := h.setKernel (f := (·.enterHandler signal)) (h.kernel.setMask hmask)
      refine ⟨hset.kernel, fun m hm => ?_, h.jumps, h.number⟩
      rcases List.mem_cons.mp hm with rfl | hm
      · exact h.kernel.mask
      · exact h.handlers m hm
    · exact h
  | leave =>
    unfold SignalProcess.step
    dsimp only
    split
    · exact h
    · next hhandlers => exact h.leave hhandlers
  | unwind =>
    unfold SignalProcess.step
    dsimp only
    split
    · exact h
    · next hhandlers => exact (h.leave hhandlers).cancelWait
  | pselect nfds sets timeout mask =>
    refine ⟨pselect_spared h.kernel hsparing, h.handlers, h.jumps, ?_⟩
    show p.number < (exec (kernelPselect p.number nfds sets timeout mask) p.world).2.next
    rw [kernelPselect_fixes next_blind]
    exact h.number
  | sigsetjmp =>
    refine { h with jumps := fun m hm => ?_ }
    rcases List.mem_cons.mp hm with rfl | hm
    · exact h.kernel.mask
    · exact h.jumps m hm
  | siglongjmp _ =>
    unfold SignalProcess.step
    dsimp only
    split
    · exact h
    · next mask hmask =>
      have hspares := h.jumps mask (List.mem_of_getElem? hmask)
      exact h.cancelWait.setKernel (h.cancelWait.kernel.setSignalMask hspares)
  | fork _ child => exact h.fork child hnew
  | execve =>
    refine ⟨(h.setKernel h.kernel.signalExec).kernel, nofun,
      nofun, h.number⟩

theorem Spared.other (h : p.Spared) (hother : Undisturbed p w) : { p with world := w }.Spared := by
  refine ⟨h.kernel.of_same hother.wait (fun s => ?_) fun s hs => h.kernel.caught s ?_, h.handlers,
    h.jumps, lt_of_lt_of_le h.number hother.next⟩
  · exact (congrArg Spares (congrFun hother.signalActionMasks s)).mpr (h.kernel.actions s)
  · exact (congrFun hother.signalDisposition s).symm.trans hs

end SignalProcess

theorem SignalReach.spared {p0 p : SignalProcess} (hstart : p0.Spared) (h : SignalReach p0 p) :
    p.Spared := by
  induction h with
  | start => exact hstart
  | other _ hother ih => exact ih.other hother
  | call _ hnew hsparing ih => exact ih.step hnew hsparing

/-! ## Handlers return to the mask that they interrupted -/

/-- Calls that do not change the mask, apart from entering a handler. -/
def SignalCall.Outside : SignalCall → Prop
  | .enter _ | .sigaction _ _ _ | .sigsetjmp => True
  | _ => False

/-- Runs from `p` in which handlers that are entered return: outside of them the mask is left
alone, and inside of them anything may happen that does not leave them otherwise. -/
inductive HandlerRun (p : SignalProcess) : SignalProcess → Prop
  | start : HandlerRun p p
  | other {q : SignalProcess} {w : World} (h : HandlerRun p q) (hother : Undisturbed q w) :
    HandlerRun p { q with world := w }
  | outside {q : SignalProcess} {c : SignalCall} (h : HandlerRun p q)
    (hdepth : q.handlers.length = p.handlers.length) (hc : c.Outside) : HandlerRun p (q.step c)
  | inside {q : SignalProcess} {c : SignalCall} (h : HandlerRun p q)
    (hdepth : p.handlers.length < q.handlers.length)
    (hc : c = .leave ∨ p.handlers.length < (q.step c).handlers.length) : HandlerRun p (q.step c)

/-- Outside of the handlers the mask is the old one; inside, the outermost activation holds it. -/
def Returning (p q : SignalProcess) : Prop :=
  (q.handlers = p.handlers ∧ q.kernel.signalMask = p.kernel.signalMask) ∨
    ∃ inner, q.handlers = inner ++ p.kernel.signalMask :: p.handlers

theorem sigaction_mask {kernel kernel' : PosixKernel} {signal : Int}
    (hrun : kernel.sigaction versioned signal action = .ok kernel') :
    kernel'.signalMask = kernel.signalMask := by
  rcases PosixKernel.sigaction_ok hrun with rfl | ⟨a, rfl, rfl⟩
  · rfl
  unfold PosixKernel.installAction
  split
  · next K hset =>
    obtain ⟨-, pending, rfl⟩ := PosixKernel.signalSetDisposition_ok hset
    rfl
  · rfl

theorem step_handlers (q : SignalProcess) (c : SignalCall) :
    (q.step c).handlers = q.handlers ∨ (q.step c).handlers = q.kernel.signalMask :: q.handlers ∨
      (q.step c).handlers = q.handlers.tail ∨ (q.step c).handlers = [] := by
  unfold SignalProcess.step
  cases c with
  | sigprocmask | sigaction | siglongjmp | fork =>
    dsimp only [SignalProcess.update]
    split <;> exact .inl rfl
  | enter signal =>
    dsimp only
    split
    · exact .inr (.inl rfl)
    · exact .inl rfl
  | leave | unwind =>
    dsimp only
    split
    · exact .inl rfl
    · next saved rest hhandlers => exact .inr (.inr (.inl (by rw [hhandlers]; rfl)))
  | execve => exact .inr (.inr (.inr rfl))
  | _ => exact .inl rfl

theorem Returning.outside {p : SignalProcess} (h : Returning p q)
    (hdepth : q.handlers.length = p.handlers.length) {c : SignalCall} (hc : c.Outside) :
    Returning p (q.step c) := by
  rcases h with ⟨hhandlers, hmask⟩ | ⟨inner, hhandlers⟩
  · cases c with
    | enter signal =>
      unfold SignalProcess.step
      dsimp only
      split
      · refine .inr ⟨[], ?_⟩
        rw [hmask, hhandlers]
        rfl
      · exact .inl ⟨hhandlers, hmask⟩
    | sigaction _ signal _ =>
      refine .inl ?_
      unfold SignalProcess.step SignalProcess.update
      dsimp only
      split
      · next kernel hrun =>
        refine ⟨hhandlers, ?_⟩
        rw [SignalProcess.setKernel_kernel, sigaction_mask hrun]
        exact hmask
      · exact ⟨hhandlers, hmask⟩
    | sigsetjmp => exact .inl ⟨hhandlers, hmask⟩
    | _ => exact hc.elim
  · have hlength := congrArg List.length hhandlers
    simp only [List.length_append, List.length_cons] at hlength
    omega

theorem Returning.inside {p : SignalProcess} (h : Returning p q)
    (hdepth : p.handlers.length < q.handlers.length) {c : SignalCall}
    (hc : c = .leave ∨ p.handlers.length < (q.step c).handlers.length) :
    Returning p (q.step c) := by
  rcases h with ⟨hhandlers, -⟩ | ⟨inner, hhandlers⟩
  · rw [hhandlers] at hdepth
    exact absurd hdepth (lt_irrefl _)
  rcases hc with rfl | hdeeper
  · unfold SignalProcess.step
    rw [hhandlers]
    cases inner with
    | nil => -- the outermost handler returns
      exact .inl ⟨rfl, (congrArg PosixKernel.signalMask (SignalProcess.setKernel_kernel _ q)).trans
        rfl⟩
    | cons _ inner => exact .inr ⟨inner, rfl⟩
  rcases step_handlers q c with hsame | hpush | hpop | hclear
  · exact .inr ⟨inner, hsame.trans hhandlers⟩
  · exact .inr ⟨q.kernel.signalMask :: inner, by rw [hpush, hhandlers]; rfl⟩
  · cases inner with
    | nil =>
      rw [hpop, hhandlers] at hdeeper
      exact absurd hdeeper (lt_irrefl _)
    | cons _ inner => exact .inr ⟨inner, by rw [hpop, hhandlers]; rfl⟩
  · rw [hclear] at hdeeper
    exact absurd hdeeper (Nat.not_lt_zero _)

theorem HandlerRun.returning {p : SignalProcess} (h : HandlerRun p q) : Returning p q := by
  induction h with
  | start => exact .inl ⟨rfl, rfl⟩
  | other _ hother ih =>
    rcases ih with ⟨hhandlers, hmask⟩ | hinner
    · exact .inl ⟨hhandlers, hother.wait.signalMask.trans hmask⟩
    · exact .inr hinner
  | outside _ hdepth hc ih => exact ih.outside hdepth hc
  | inside _ hdepth hc ih => exact ih.inside hdepth hc

/-- In every run in which no mask that the guest gives to `sigaction` or `pselect` names
`SIGKILL` or `SIGSTOP`, the mask never blocks them; and handlers that return leave the mask
that the outermost one interrupted. -/
theorem uncatchable_signals_unblocked (p0 : SignalProcess) (hstart : p0.Spared) (p : SignalProcess)
    (hreach : SignalReach p0 p) :
    (signalBitTest p.kernel.signalMask sigkill = false ∧
      signalBitTest p.kernel.signalMask sigstop = false) ∧
    ∀ q, HandlerRun p q → q.handlers.length = p.handlers.length →
      q.kernel.signalMask = p.kernel.signalMask := by
  refine ⟨(hreach.spared hstart).kernel.mask, fun q hrun hdepth => ?_⟩
  rcases hrun.returning with ⟨-, hmask⟩ | ⟨inner, hhandlers⟩
  · exact hmask
  · have hlength := congrArg List.length hhandlers
    simp only [List.length_append, List.length_cons] at hlength
    omega

def SignalProcess.initial : SignalProcess :=
  { world := .initial, number := 0, handlers := [], jumps := [] }

theorem SignalProcess.initial_spared : initial.Spared := by
  refine ⟨⟨fun _ => ⟨rfl, rfl, rfl⟩, spares_zero, spares_zero, fun _ => spares_zero, nofun⟩,
    nofun, nofun, ?_⟩
  decide

/-- A handler for signal 10 whose mask is empty. -/
def usr1 : SigAction := { handler := 2, mask := 0, flags := 0 }

theorem uncatchable_signals_unblocked_handler :
    let p := (SignalProcess.initial.step (.sigaction true 10 (some usr1))).step (.enter 10)
    signalBitTest p.kernel.signalMask 10 = true ∧
      signalBitTest p.kernel.signalMask sigkill = false ∧
        (p.step .leave).kernel.signalMask = 0 := by
  have hreach : SignalReach .initial
      (SignalProcess.initial.step (.sigaction true 10 (some usr1))) :=
    .call .start trivial (by rintro a ⟨⟩; decide)
  have hentered := hreach.call (c := .enter 10) trivial trivial
  have hblocked := (uncatchable_signals_unblocked _ SignalProcess.initial_spared _ hentered).1
  have hreturn := (uncatchable_signals_unblocked _ SignalProcess.initial_spared _ hreach).2 _
    (.inside (c := .leave) (.outside (c := .enter 10) .start rfl trivial) (by decide +kernel)
      (.inl rfl))
    (by decide +kernel)
  refine ⟨by decide +kernel, hblocked.1, hreturn.trans ?_⟩
  decide +kernel

/-- `pselect` and the handler of a signal install a mask from the guest as it is. -/
theorem guest_masks_block_sigkill :
    signalBitTest (SignalProcess.initial.step
      (.pselect 0 ⟨none, none, none⟩ none (some uncatchable))).kernel.signalMask sigkill = true ∧
    signalBitTest ((SignalProcess.initial.step
      (.sigaction true 10 (some { usr1 with mask := uncatchable }))).step
      (.enter 10)).kernel.signalMask sigstop = true := by
  decide +kernel

end Waste.Kernel
