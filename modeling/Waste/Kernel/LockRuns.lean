import Waste.Kernel.LockCalls

/-!
# Runs of lock calls

The calls of several processes in any order: locking, closing, giving up a wait, cloning,
forking and exiting.  `perform_ok` is the step lemma, `run_ok` the run lemma, and
`record_lock_table` says what it means for the records of every file.
-/

namespace Waste.Kernel

open StateExcept

variable {command : LockCommand}

inductive LockCall
  | setLock (fd : Int) (command : LockCommand) (lock : Flock)
  | close (fd : Int)
  | cancelWait
  | clone
  | fork (pid : Int)
  | exit
  | destroy
deriving DecidableEq

def LockCall.perform (k : Nat) (w : World) : LockCall → World
  | .setLock fd command lock => (exec (kernelRecordLock k fd command lock) w).2
  | .close fd => (exec (kernelClose k fd) w).2
  | .cancelWait => Kernel.cancelWait k w
  | .clone => (exec (kernelClone k) w).2
  | .fork pid => (exec (forkKernel k pid) w).2
  | .exit => (exec (kernelCloseAllFds k) w).2
  | .destroy => kernelDestroy k w

/-- One call; a kernel that has been destroyed makes none. -/
def lockStep (w : World) (x : Nat × LockCall) : World :=
  if (w.kernel x.1).live then x.2.perform x.1 w else w

def runLockCalls (calls : List (Nat × LockCall)) (w : World) : World := calls.foldl lockStep w

variable {V V' : LockView} {w : World} {k : Nat}

/-! ## The step -/

/-- The call of a live kernel keeps the tables in order. -/
theorem LockEffect.ok {answer : Except Errno Flock}
    (h : LockEffect k command V answer V') (hV : V.Ok) (hlive : V.live k = true) : V'.Ok := by
  cases h with
  | same => exact hV
  | cancelled => exact hV.cancel k
  | granted _ f _ _ _ hcommand hrange hgranted hmax =>
    have ho := (hV.kernels k hlive).2
    rcases hcommand with ⟨-, rfl⟩ | ⟨-, rfl⟩
    · exact hV.replace ho hrange hgranted hmax
    · exact (hV.cancel k).replace ho hrange hgranted hmax
  | registered f _ hcommand hrange htype _ _ _ =>
    exact hV.register hlive hrange htype

theorem recordLock_effect (hV : w.locking.Ok) (k : Nat) (fd : Int) (command : LockCommand)
    (lock : Flock) : LockEffect k command w.locking (exec (kernelRecordLock k fd command lock) w).1
      (exec (kernelRecordLock k fd command lock) w).2.locking := by
  have hspec := recordLock_effects hV k fd command lock w rfl
  rcases hrun : exec (kernelRecordLock k fd command lock) w with ⟨e | a, w'⟩
  · exact hspec.2 e w' hrun
  · exact hspec.1 a w' hrun

/-- Every call but a lock call only loses locks and waits. -/
theorem perform_fewer (hV : w.locking.Ok) (hlive : (w.kernel k).live = true) {call : LockCall}
    (hcall : ∀ fd command lock, call ≠ .setLock fd command lock) :
    Fewer w.locking (call.perform k w).locking := by
  have hself : Shrunk w.locking w := .refl hV
  cases call with
  | setLock fd command lock => exact absurd rfl (hcall fd command lock)
  | close fd => exact (kernelClose_shrunk fd).exec_snd hself
  | cancelWait => exact hself.cancelWait k
  | clone => exact kernelClone_shrunk.exec_snd ⟨hself, hlive⟩
  | fork pid => exact (forkKernel_shrunk k).exec_snd ⟨hself, hlive⟩
  | exit => exact (kernelCloseAllFds_shrunk k).exec_snd hself
  | destroy => exact kernelDestroy_shrunk hself

theorem perform_ok (hV : w.locking.Ok) (hlive : (w.kernel k).live = true) (call : LockCall) :
    (call.perform k w).locking.Ok := by
  cases call with
  | setLock fd command lock => exact (recordLock_effect hV k fd command lock).ok hV hlive
  | _ => exact (perform_fewer hV hlive (by simp)).ok

/-! ## The run -/

/-- No file is locked, and no kernel waits for a lock. -/
structure Unlocked (w : World) : Prop where
  locks : ∀ f, (w.file f).locks = [] ∧ (w.file f).lockCount = 0
  records : ∀ o, (w.owner o).records = []
  wanted : ∀ k, (w.kernel k).wanted = none
  kernels : ∀ k, (w.kernel k).live = true → k < w.next ∧ (w.kernel k).lockOwner < w.next

theorem Unlocked.ok (h : Unlocked w) : w.locking.Ok := by
  have hlocks : ∀ f, w.locking.locks f = [] := fun f => (h.locks f).1
  have hrecords : ∀ o, w.locking.records o = [] := h.records
  refine ⟨fun f => ?_, fun f => ?_, fun f => ?_, fun o f r => ?_, fun o => ?_, fun f r hr => ?_,
    h.kernels, fun k f request hwanted => ?_⟩
  · rw [hlocks f]
    exact .nil
  · rw [hlocks f]
    exact (h.locks f).2
  · rw [hlocks f]
    exact Nat.zero_le _
  · rw [hlocks f, hrecords o]
    simp
  · rw [hrecords o]
    exact List.nodup_nil
  · rw [hlocks f] at hr
    exact absurd hr List.not_mem_nil
  · exact absurd ((h.wanted k).symm.trans hwanted) (by simp)

theorem step_ok (hV : w.locking.Ok) (x : Nat × LockCall) : (lockStep w x).locking.Ok := by
  unfold lockStep
  split
  · next hlive => exact perform_ok hV hlive x.2
  · exact hV

theorem run_ok (hV : w.locking.Ok) {calls : List (Nat × LockCall)} :
    (runLockCalls calls w).locking.Ok :=
  calls.foldlRecOn (motive := fun w : World => w.locking.Ok) _ hV fun _ hw x _ => step_ok hw x

/-! ## What it means for the records -/

/-- A record that is neither joined with another one nor apart from it. -/
theorem not_adjacent {a b : RecordLock} (ha : a.Valid) (hb : b.Valid) (h : a.touches b = false)
    (htype : a.type = b.type) : a.last + 1 ≠ b.first ∧ b.last + 1 ≠ a.first := by
  rw [Bool.eq_false_iff, Ne, touches_iff ha hb] at h
  have hale := ha.1
  have hble := hb.1
  have hnot : ¬(b.first ≤ a.last + 1 ∧ a.first ≤ b.last + 1) := fun hand => h ⟨htype, hand⟩
  omega

theorem recordReplace_map (hV : w.locking.Ok) {f o first last : Nat} {type : LockType}
    (hrange : Request first last) {w' : World}
    (hrun : exec (recordReplace f o type first last) w = (.ok (), w')) (f' o' byte : Nat) :
    lockAt (w'.file f').locks o' byte =
      if f' = f ∧ o' = o ∧ first ≤ byte ∧ byte ≤ last then
        (if type = .unlck then none else some type)
      else lockAt (w.file f').locks o' byte := by
  have hlocking := ((recordReplace_spec f o first last w rfl).1 () w' hrun).1
  have hlocks : (w'.file f').locks =
      if f' = f then replaced (w.file f).locks o type first last else (w.file f').locks := by
    show w'.locking.locks f' = _
    rw [hlocking]
    exact hV.replace_locks f o first last f'
  rw [hlocks]
  by_cases hf : f' = f
  · subst hf
    simp only [true_and]
    exact lockAt_replaced (hV.locks f').toTidy hrange o o' byte
  · rw [if_neg hf, if_neg fun hand => hf hand.1]

/-- An answer `ENOLCK` changes no record. -/
theorem LockEffect.enolck (h : LockEffect k command V (.error .enolck) V') :
    V'.locks = V.locks ∧ V'.count = V.count := by
  cases h with
  | same | cancelled => exact ⟨rfl, rfl⟩

/-- The records of every file, after any calls of any processes. -/
theorem record_lock_table (w : World) (hstart : Unlocked w) (calls : List (Nat × LockCall)) :
    let w' := runLockCalls calls w
    (∀ f, ∀ a ∈ (w'.file f).locks, ∀ b ∈ (w'.file f).locks, a.owner ≠ b.owner →
      a.first ≤ b.last → b.first ≤ a.last → a.type ≠ .wrlck ∧ b.type ≠ .wrlck) ∧
    (∀ f, (w'.file f).locks.Pairwise fun a b => a.owner = b.owner →
      (a.last < b.first ∨ b.last < a.first) ∧
      (a.type = b.type → a.last + 1 ≠ b.first ∧ b.last + 1 ≠ a.first)) ∧
    (∀ f o type first last w'', first ≤ last → last ≤ uint64Max →
      exec (recordReplace f o type first last) w' = (.ok (), w'') →
      ∀ f' o' byte, lockAt (w''.file f').locks o' byte =
        if f' = f ∧ o' = o ∧ first ≤ byte ∧ byte ≤ last then
          (if type = .unlck then none else some type)
        else lockAt (w'.file f').locks o' byte) ∧
    (∀ f, (w'.file f).lockCount = (w'.file f).locks.length ∧ (w'.file f).lockCount ≤ 64) ∧
    (∀ k fd command lock w'', exec (kernelRecordLock k fd command lock) w' = (.error .enolck, w'') →
      ∀ f, (w''.file f).locks = (w'.file f).locks ∧ (w''.file f).lockCount =
        (w'.file f).lockCount) := by
  intro w'
  have hok : w'.locking.Ok := run_ok hstart.ok
  refine ⟨fun f a ha b hb howner hab hba => ?_, fun f => ?_,
    fun f o type first last w'' hle hmax hrun f' o' byte => ?_, fun f => ⟨hok.count f, ?_⟩,
    fun k fd command lock w'' hrun f => ?_⟩
  · have hrdlck := (hok.locks f).exclusive a ha b hb howner ?_
    · rw [hrdlck.1, hrdlck.2]
      exact ⟨by decide, by decide⟩
    · simp only [recordOverlap, Bool.and_eq_true, decide_eq_true_eq]
      exact ⟨hab, hba⟩
  · refine (hok.locks f).apart.imp_of_mem fun {a b} ha hb hab howner =>
      ⟨(hab howner).1, fun htype => ?_⟩
    exact not_adjacent ((hok.locks f).valid a ha) ((hok.locks f).valid b hb) (hab howner).2 htype
  · exact recordReplace_map hok ⟨hle, hmax⟩ hrun f' o' byte
  · rw [show (w'.file f).lockCount = (w'.file f).locks.length from hok.count f]
    exact hok.max f
  · have heffect := recordLock_effect hok k fd command lock
    rw [hrun] at heffect
    have hsame := heffect.enolck
    exact ⟨congrFun hsame.1 f, congrFun hsame.2 f⟩

/-- One process that has a file open as descriptor 3. -/
def oneFile : World :=
  { World.initial with
    kernel := fun k => { PosixKernel.initial with
      live := k = 0
      fds := fun fd => if fd.val = 3 then some { ofd := 0, cloexec := false } else none }
    ofd := fun _ =>
      { kind := .regular
          { node := none, file := 0, offset := 0, readable := true, writable := true }
        refCount := 1, status := 0, inputHandle := -1, outputHandle := -1, streamMode := 0 } }

theorem oneFile_unlocked : Unlocked oneFile := by
  refine ⟨fun _ => ⟨rfl, rfl⟩, fun _ => rfl, fun _ => rfl, fun k hk => ?_⟩
  have hk' : k = 0 := of_decide_eq_true hk
  subst hk'
  exact ⟨zero_lt_one, zero_lt_one⟩

/-- A write lock on the bytes 0 to 9, of which the process gives 3 to 5 back. -/
def splitLock : List (Nat × LockCall) :=
  [(0, .setLock 3 .setlk { type := 1, whence := 0, start := 0, length := 10, pid := 0 }),
    (0, .setLock 3 .setlk { type := 2, whence := 0, start := 3, length := 3, pid := 0 })]

theorem record_lock_table_split :
    ((runLockCalls splitLock oneFile).file 0).locks =
        [⟨0, 0, 2, .wrlck⟩, ⟨0, 6, 9, .wrlck⟩] ∧
      ((runLockCalls splitLock oneFile).file 0).lockCount = 2 := by
  have hrun := record_lock_table oneFile oneFile_unlocked splitLock
  have hlocks : ((runLockCalls splitLock oneFile).file 0).locks =
      [⟨0, 0, 2, .wrlck⟩, ⟨0, 6, 9, .wrlck⟩] := by decide +kernel
  refine ⟨hlocks, ?_⟩
  rw [(hrun.2.2.2.1 0).1, hlocks]
  rfl

end Waste.Kernel
