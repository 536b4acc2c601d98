import Waste.Lib.Acyclic
import Waste.Kernel.LockRuns

/-!
# The waits-for graph of the lock owners

`World.Waits` has an edge from an owner whose kernel is blocked in `F_SETLKW` to every
owner of a record in the way of its request.  A blocked process makes no calls but the
retry, until it is interrupted or killed; `LockReach` are the interleavings with that
discipline.

The graph has no cycle in any state of such a run: records and waits that go take edges
away, a process that acquires a record is not blocked itself, and a wait begins only after
`record_wait_cycle` has found no way back.
-/

namespace Waste.Kernel

open StateExcept Relation Graph List Function Prod

variable {command : LockCommand} {type : LockType} {a b : Nat}

/-! ## The graph of a table -/

namespace LockView

def Edge (V : LockView) (o o' : Nat) : Prop :=
  ∃ k f request, V.owner k = o ∧ V.wanted k = some (f, request) ∧ o' ∈ V.conflictOwners o f request

def Runs (V : LockView) (o : Nat) : Prop := ∀ k, V.owner k = o → V.wanted k = none

variable {V V' : LockView} {o o' k f : Nat} {request : LockRequest}

theorem Runs.no_edge (h : V.Runs o) (o' : Nat) : ¬V.Edge o o' := by
  rintro ⟨k, f, request, howner, hwanted, -⟩
  exact absurd ((h k howner).symm.trans hwanted) (by simp)

/-- The search follows the edges of the graph. -/
theorem Single.mem_waitsFor (hs : V.Single) : o' ∈ V.waitsFor o ↔ V.Edge o o' := by
  rw [LockView.mem_waitsFor]
  constructor
  · rintro ⟨k, f, request, hwaiting, hwanted, hmem⟩
    exact ⟨k, f, request, (hs.owner o k hwaiting).1, hwanted, hmem⟩
  · rintro ⟨k, f, request, rfl, hwanted, hmem⟩
    exact ⟨k, f, request, hs.kernel k _ hwanted, hwanted, hmem⟩

theorem Single.step_eq (hs : V.Single) : DepthFirst.Step V.waitsFor = V.Edge := by
  funext o o'
  exact propext hs.mem_waitsFor

theorem SameWaits.trans {V1 : LockView} (h : V.SameWaits V1) (h' : V1.SameWaits V') :
    V.SameWaits V' :=
  ⟨h'.waiting.trans h.waiting, h'.wanted.trans h.wanted, h'.owner.trans h.owner,
    h'.live.trans h.live, h'.next.trans h.next⟩

theorem replace_waits (V : LockView) (f o : Nat) (type : LockType) (first last : Nat) :
    V.SameWaits (V.replace f o type first last) :=
  (removeAll_waits _ V).trans (publishAll_waits f _ _)

theorem SameWaits.single (h : V.SameWaits V') (hs : V.Single) : V'.Single := by
  refine ⟨?_, ?_⟩
  · rw [h.wanted, h.waiting, h.owner]
    exact hs.kernel
  · rw [h.waiting, h.owner, h.live]
    exact hs.owner

/-- A granted request gives its owner records, and takes none from another owner. -/
theorem replace_edge (hV : V.Ok) {first last : Nat} (hrange : Request first last)
    (h : (V.replace f o type first last).Edge a b) : V.Edge a b ∨ b = o := by
  obtain ⟨k, f', request, howner, hwanted, hmem⟩ := h
  have hwaits := replace_waits V f o type first last
  rw [hwaits.owner] at howner
  rw [hwaits.wanted] at hwanted
  obtain ⟨r, hr, hconflict, hb⟩ := mem_conflictOwners.mp hmem
  rw [hV.replace_locks] at hr
  by_cases hold : r ∈ V.locks f'
  · exact .inl ⟨k, f', request, howner, hwanted, mem_conflictOwners.mpr ⟨r, hold, hconflict, hb⟩⟩
  split_ifs at hr with hf
  · subst hf
    rcases mem_replaced.mp hr with hnew | hkept
    · exact .inr (hb.symm.trans (coalesced_mine (hV.locks f').toTidy hrange o type r hnew).2)
    · exact absurd hkept.1 hold
  · exact absurd hr hold

theorem Fewer.edge (h : Fewer V V') (hedge : V'.Edge a b) : V.Edge a b := by
  obtain ⟨k, f, request, howner, hwanted, hmem⟩ := hedge
  obtain ⟨hwanted', howner'⟩ := h.wanted k _ hwanted
  obtain ⟨r, hr, hconflict⟩ := mem_conflictOwners.mp hmem
  exact ⟨k, f, request, howner'.symm.trans howner, hwanted',
    mem_conflictOwners.mpr ⟨r, (h.locks f).subset hr, hconflict⟩⟩

theorem Single.register (hs : V.Single) (hlive : V.live k = true) (hruns : V.Runs (V.owner k)) :
    (V.register k (V.owner k) f request).Single := by
  refine ⟨fun k' x h => ?_, fun o k' h => ?_⟩
  · simp only [LockView.register, update_apply] at h ⊢
    split_ifs at h with hk
    · rw [hk, if_pos rfl]
    · have howner : V.owner k' ≠ V.owner k := fun heq =>
        absurd ((hruns k' heq).symm.trans h) (by simp)
      rw [if_neg howner]
      exact hs.kernel k' x h
  · simp only [LockView.register, update_apply] at h
    split_ifs at h with ho
    · obtain rfl := Option.some.inj h
      exact ⟨ho.symm, hlive⟩
    · exact hs.owner o k' h

theorem register_edge (h : (V.register k (V.owner k) f request).Edge a b) :
    Adding V.Edge (V.owner k) (· ∈ V.conflictOwners (V.owner k) f request) a b := by
  obtain ⟨k', f', request', howner, hwanted, hmem⟩ := h
  simp only [register, update_apply] at hwanted
  split_ifs at hwanted with hk
  · obtain ⟨rfl, rfl⟩ := Prod.mk.inj (Option.some.inj hwanted)
    subst hk
    have ha : V.owner k' = a := howner
    subst ha
    exact .inr ⟨rfl, hmem⟩
  · exact .inl ⟨k', f', request', howner, hwanted, hmem⟩

/-! ## One call -/

/-- The tables are in order and nobody waits for itself. -/
structure Safe (V : LockView) : Prop where
  ok : V.Ok
  single : V.Single
  acyclic : Acyclic V.Edge

theorem Safe.fewer (h : V.Safe) (hfewer : Fewer V V') : V'.Safe :=
  ⟨hfewer.ok, hfewer.single h.single, h.acyclic.mono fun _ _ => Fewer.edge hfewer⟩

theorem Safe.replace (h : V.Safe) {first last : Nat}
    (hok : (V.replace f o type first last).Ok) (hrange : Request first last) (hruns : V.Runs o) :
    (V.replace f o type first last).Safe := by
  have hwaits := replace_waits V f o type first last
  refine ⟨hok, hwaits.single h.single, h.acyclic.sink (fun a b => replace_edge h.ok hrange) ?_⟩
  refine Runs.no_edge fun k hk => ?_
  rw [hwaits.owner] at hk
  rw [hwaits.wanted]
  exact hruns k hk

theorem Safe.register (h : V.Safe) (hok : (V.register k (V.owner k) f request).Ok)
    (hlive : V.live k = true) (hruns : V.Runs (V.owner k)) {visited : List Nat}
    (hsearch : DepthFirst.visitAll (DepthFirst.visit V.waitsFor (V.owner k) recordLockMax
      (recordLockMax + 1)) (V.conflictOwners (V.owner k) f request) [] = some (false, visited)) :
    (V.register k (V.owner k) f request).Safe := by
  have hnone := DepthFirst.visitAll_false hsearch
  rw [h.single.step_eq] at hnone
  have hadding : Acyclic
      (Adding V.Edge (V.owner k) (· ∈ V.conflictOwners (V.owner k) f request)) := by
    intro a hcycle
    obtain ⟨c, hc, hpath⟩ := (cycle_adding_iff h.acyclic).mp ⟨a, hcycle⟩
    exact hnone c hc hpath
  exact ⟨hok, h.single.register hlive hruns, hadding.mono fun _ _ => register_edge⟩

end LockView

/-! ## Runs -/

/-- The calls that a process makes for a lock that it waits for. -/
def LockCall.waits : LockCall → Bool
  | .setLock _ .setlkw _ => true
  | .cancelWait => true
  | .exit => true
  | .destroy => true
  | _ => false

/-- A process that is blocked makes no other call. -/
def Allowed (w : World) (k : Nat) (call : LockCall) : Prop :=
  ∀ k', (w.kernel k').lockOwner = (w.kernel k).lockOwner → (w.kernel k').wanted ≠ none →
    k' = k ∧ call.waits = true

inductive LockReach (w : World) : World → Prop
  | start : LockReach w w
  | step {w1 : World} (hrun : LockReach w w1) {k : Nat} {call : LockCall}
    (hlive : (w1.kernel k).live = true) (hallowed : Allowed w1 k call) :
    LockReach w (call.perform k w1)

variable {w w' : World} {k f : Nat} {V V' : LockView}

theorem LockEffect.safe {answer : Except Errno Flock}
    (h : LockEffect k command V answer V') (hV : V.Safe) (hlive : V.live k = true)
    (hallowed : ∀ k', V.owner k' = V.owner k → V.wanted k' ≠ none → k' = k ∧ command = .setlkw) :
    V'.Safe := by
  have hok := h.ok hV.ok hlive
  cases h with
  | same => exact hV
  | cancelled => exact hV.fewer (.cancel hV.ok k)
  | granted _ f _ _ _ hcommand hrange _ _ =>
    rcases hcommand with ⟨rfl, rfl⟩ | ⟨-, rfl⟩
    · refine hV.replace hok hrange fun k' hk' => ?_
      by_contra hne
      exact absurd (hallowed k' hk' hne).2 (by decide)
    refine (hV.fewer (.cancel hV.ok k)).replace hok hrange fun k' hk' => ?_
    by_contra hne
    rw [cancel_wanted] at hne
    split_ifs at hne with hk
    · exact hne rfl
    · exact hk (hallowed k' hk' hne).1
  | registered f _ hcommand hrange _ hidle _ hsearch =>
    refine hV.register hok hlive (fun k' hk' => ?_) hsearch
    by_contra hne
    obtain ⟨rfl, -⟩ := hallowed k' hk' hne
    exact hne hidle

theorem perform_safe (hV : w.locking.Safe) (hlive : (w.kernel k).live = true) {call : LockCall}
    (hallowed : Allowed w k call) : (call.perform k w).locking.Safe := by
  cases call with
  | setLock fd command lock =>
    refine (recordLock_effect hV.ok k fd command lock).safe hV hlive fun k' hk' hne => ?_
    obtain ⟨hself, hwaits⟩ := hallowed k' hk' hne
    refine ⟨hself, ?_⟩
    cases command with
    | getlk | setlk => exact absurd hwaits Bool.false_ne_true
    | setlkw => rfl
  | _ => exact hV.fewer (perform_fewer hV.ok hlive (by simp))

theorem reach_safe (hV : w.locking.Safe) (h : LockReach w w') : w'.locking.Safe := by
  induction h with
  | start => exact hV
  | step _ hlive hallowed ih => exact perform_safe ih hlive hallowed

theorem Unlocked.safe (h : Unlocked w) (hwaiting : ∀ o, (w.owner o).waitingKernel = none) :
    w.locking.Safe := by
  have hruns : ∀ o, w.locking.Runs o := fun o k _ => h.wanted k
  refine ⟨h.ok, ⟨fun k x hx => ?_, fun o k hk => ?_⟩, fun o hcycle => ?_⟩
  · exact absurd ((h.wanted k).symm.trans hx) (by simp)
  · exact absurd ((hwaiting o).symm.trans hk) (by simp)
  · obtain ⟨o', hedge, -⟩ := TransGen.head'_iff.mp hcycle
    exact (hruns o).no_edge o' hedge

/-! ## The answer of `F_SETLKW` -/

/-- The file and the range that a call of `F_SETLKW` is about, if it passes the checks of
its descriptor and of its arguments. -/
def lockTarget (w : World) (k : Nat) (fd : Int) (lock : Flock) : Option (Nat × LockRequest) :=
  match w.entry k fd with
  | none => none
  | some entry =>
    match (w.ofd entry.ofd).kind with
    | .regular r =>
      match (exec (lockRequest k fd .setlkw lock r) w).1 with
      | .error _ => none
      | .ok request => if r.permits request.type then some (r.file, request) else none
    | _ => none

def inTheWay (w : World) (o f : Nat) (request : LockRequest) (o' : Nat) : Prop :=
  request.type ≠ .unlck ∧ o' ∈ conflictOwners w o f request

variable {fd : Int} {lock : Flock} {request : LockRequest}

theorem exec_lockRequest {r : Regular}
    (h : (exec (lockRequest k fd command lock r) w).1 = .ok request) :
    exec (lockRequest k fd command lock r) w = (.ok request, w) := by
  refine Prod.ext h ?_
  revert h
  unfold lockRequest
  simp only [exec_bind, exec_get]
  split
  · split_ifs
    · simp [giveUp]
    · simp
  · simp

theorem exec_setlkw (htarget : lockTarget w k fd lock = some (f, request))
    (hsignal : ((pollSignals k w).kernel k).firstUnmaskedPending = none) :
    exec (kernelRecordLock k fd .setlkw lock) w =
      exec (applyLock k fd .setlkw lock f request) (pollSignals k w) := by
  unfold lockTarget at htarget
  split at htarget
  · exact absurd htarget (by simp)
  next entry hentry =>
  split at htarget
  next r hr =>
    split at htarget
    · exact absurd htarget (by simp)
    next request' hrequest =>
    split_ifs at htarget with hpermits
    obtain ⟨rfl, rfl⟩ := mk.inj (Option.some.inj htarget)
    unfold kernelRecordLock
    simp only [exec_bind, exec_get, hentry, hr, exec_lockRequest hrequest]
    rw [if_neg (by simp [hpermits]), if_pos trivial, exec_bind, exec_interruptible hsignal]
  · exact absurd htarget (by simp)

theorem waitForLock_edeadlk : (exec (waitForLock k fd f request) w).1 = .error .edeadlk ↔
      findCycle w (w.kernel k).lockOwner f request = .ok true := by
  unfold waitForLock
  simp only [exec_bind, exec_get]
  rcases hsearch : findCycle w (w.kernel k).lockOwner f request with e | found
  · have he : e = .enolck := by
      unfold findCycle at hsearch
      split at hsearch
      · exact (Except.error.inj hsearch).symm
      · exact absurd hsearch (by simp)
    subst he
    simp [giveUp]
  · cases found
    · split_ifs <;> simp
    · simp [giveUp]

theorem applyLock_edeadlk : (exec (applyLock k fd .setlkw lock f request) w).1 = .error .edeadlk ↔
      (∃ o', inTheWay w (w.kernel k).lockOwner f request o') ∧
        findCycle w (w.kernel k).lockOwner f request = .ok true := by
  have hconflict : (if request.type = .unlck then none else recordConflict (w.file f).locks
      (w.kernel k).lockOwner request.type request.first request.last).isSome = true ↔
      ∃ o', inTheWay w (w.kernel k).lockOwner f request o' := by
    unfold inTheWay conflictOwners
    split_ifs with htype
    · simp [htype]
    · simp only [recordConflict, find?_isSome, mem_map, mem_filter, ne_eq, htype,
        not_false_eq_true, true_and]
      exact ⟨fun ⟨r, hr, h⟩ => ⟨r.owner, r, ⟨hr, h⟩, rfl⟩, fun ⟨_, r, ⟨hr, h⟩, _⟩ => ⟨r, hr, h⟩⟩
  rw [← hconflict]
  unfold applyLock
  simp only [exec_bind, exec_get]
  generalize (if request.type = .unlck then none else recordConflict (w.file f).locks
    (w.kernel k).lockOwner request.type request.first request.last) = conflict
  by_cases hsome : conflict.isSome = true
  · simp only [hsome, true_and]
    exact waitForLock_edeadlk
  rw [if_neg hsome]
  simp only [hsome, Bool.false_eq_true, false_and, iff_false, exec_bind, exec_modify]
  rcases hrun : exec (recordReplace f (w.kernel k).lockOwner request.type request.first
    request.last) (cancelWait k w) with ⟨e | a, w'⟩
  · rintro ⟨⟩
    exact absurd (recordReplace_error _ _ _ _ _ _ (congrArg fst hrun)) (by decide)
  · simp

/-- With at most 64 owners the search is exact. -/
theorem findCycle_true_iff (hs : w.locking.Single) (o : Nat) {owners : Finset Nat}
    (hcard : owners.card ≤ recordLockMax)
    (howners : ∀ f, ∀ r ∈ (w.file f).locks, r.owner ∈ owners) : findCycle w o f request = .ok true ↔
      ∃ c ∈ conflictOwners w o f request, ReflTransGen w.locking.Edge c o := by
  have hmem : ∀ o f request, ∀ c ∈ conflictOwners w o f request, c ∈ owners := by
    intro o f request c hc
    obtain ⟨r, hr, -, rfl⟩ := LockView.mem_conflictOwners (V := w.locking).mp hc
    exact howners f r hr
  have hclosed : ∀ x ∈ owners, ∀ y ∈ waitsFor w x, y ∈ owners := by
    intro x _ y hy
    obtain ⟨k, f', request', -, -, hc⟩ := LockView.mem_waitsFor (V := w.locking).mp hy
    exact hmem x f' request' y hc
  have hroom : DepthFirst.visitAll (DepthFirst.visit (waitsFor w) o recordLockMax
      (recordLockMax + 1)) (conflictOwners w o f request) [] ≠ none :=
    DepthFirst.visitAll_room hclosed hcard (hmem o f request)
  have hstep : DepthFirst.Step (waitsFor w) = w.locking.Edge := hs.step_eq
  unfold findCycle
  rcases hsearch : DepthFirst.visitAll (DepthFirst.visit (waitsFor w) o recordLockMax
    (recordLockMax + 1)) (conflictOwners w o f request) [] with _ | ⟨found, visited⟩
  · exact absurd hsearch hroom
  rw [← hstep]
  cases found
  · have hnone := DepthFirst.visitAll_false hsearch
    simp only [Except.ok.injEq, Bool.false_eq_true, false_iff, not_exists, not_and]
    exact hnone
  · simp only [true_iff]
    exact DepthFirst.visitAll_found (fun _ _ _ => DepthFirst.visit_true) hsearch

/-! ## The theorem -/

/-- An edge from an owner that is blocked in `F_SETLKW` to each owner of a record that is in
the way of its request. -/
def World.Waits (w : World) (o o' : Nat) : Prop :=
  ∃ k f request, (w.kernel k).lockOwner = o ∧ (w.kernel k).wanted = some (f, request) ∧
    o' ∈ conflictOwners w o f request

/-- Nobody waits for a lock, and nobody holds one. -/
structure Calm (w : World) : Prop extends Unlocked w where
  waiting : ∀ o, (w.owner o).waitingKernel = none

/-- In every interleaving the graph has no cycle, and a request that passes the checks and is
not interrupted gets `EDEADLK` just if it would close one. -/
theorem lock_waits_acyclic (w : World) (hstart : Calm w) (w' : World) (hreach : LockReach w w') :
    (∀ o, ¬TransGen w'.Waits o o) ∧
    ∀ (owners : Finset Nat), owners.card ≤ 64 →
      (∀ f, ∀ r ∈ (w'.file f).locks, r.owner ∈ owners) →
      ∀ k fd lock f request, lockTarget w' k fd lock = some (f, request) →
        ((pollSignals k w').kernel k).firstUnmaskedPending = none →
        ((exec (kernelRecordLock k fd .setlkw lock) w').1 = .error .edeadlk ↔
          ∃ o, TransGen (Adding w'.Waits (w'.kernel k).lockOwner
            (inTheWay w' (w'.kernel k).lockOwner f request)) o o) := by
  have hsafe := reach_safe (hstart.toUnlocked.safe hstart.waiting) hreach
  have hacyclic : Acyclic w'.Waits := hsafe.acyclic
  refine ⟨hacyclic, fun owners hcard howners k fd lock f request htarget hsignal => ?_⟩
  have hpoll : (pollSignals k w').locking = w'.locking := locking_pollSignals
  rw [exec_setlkw htarget hsignal, applyLock_edeadlk, cycle_adding_iff hacyclic]
  have hlocks : ∀ f, ((pollSignals k w').file f).locks = (w'.file f).locks :=
    fun f => congrFun (congrArg LockView.locks hpoll) f
  have howner : ((pollSignals k w').kernel k).lockOwner = (w'.kernel k).lockOwner :=
    congrFun (congrArg LockView.owner hpoll) k
  have hway : inTheWay (pollSignals k w') (w'.kernel k).lockOwner f request =
      inTheWay w' (w'.kernel k).lockOwner f request := by
    unfold inTheWay conflictOwners
    rw [hlocks f]
  have hsingle : (pollSignals k w').locking.Single := hpoll.symm ▸ hsafe.single
  rw [howner, hway, findCycle_true_iff hsingle _ hcard fun f r hr => howners f r (hlocks f ▸ hr)]
  rw [hpoll]
  have hconflicts : conflictOwners (pollSignals k w') (w'.kernel k).lockOwner f request =
      conflictOwners w' (w'.kernel k).lockOwner f request := by
    unfold conflictOwners
    rw [hlocks f]
  rw [hconflicts]
  constructor
  · rintro ⟨⟨o', htype, -⟩, c, hc, hpath⟩
    exact ⟨c, ⟨htype, hc⟩, hpath⟩
  · rintro ⟨c, hc, hpath⟩
    exact ⟨⟨c, hc⟩, c, hc.2, hpath⟩

/-! ## Two processes that lock each other out -/

/-- A parent and its child, which share a file.  The child may have a signal pending. -/
def twoProcesses (pending : SigSet) : World :=
  { oneFile with
    kernel := fun k => { oneFile.kernel 0 with
      live := k < 2
      lockOwner := k
      pendingSignals := if k = 1 then pending else 0
      signalDisposition := fun _ => .handler }
    next := 2 }

def byteLock (byte : Int) : Flock :=
  { type := 1, whence := 0, start := byte, length := 1, pid := 0 }

/-- Each has locked a byte, and the parent waits for the byte of the child. -/
def halfway (pending : SigSet) : World :=
  (LockCall.setLock 3 .setlkw (byteLock 1)).perform 0
    ((LockCall.setLock 3 .setlk (byteLock 1)).perform 1
      ((LockCall.setLock 3 .setlk (byteLock 0)).perform 0 (twoProcesses pending)))

theorem twoProcesses_calm (pending : SigSet) : Calm (twoProcesses pending) := by
  refine ⟨⟨fun _ => ⟨rfl, rfl⟩, fun _ => rfl, fun _ => rfl, fun k hk => ?_⟩, fun _ => rfl⟩
  have hk' : k < 2 := of_decide_eq_true hk
  exact ⟨hk', hk'⟩

/-- `F_SETLK` begins and ends no wait. -/
theorem setlk_wanted (hV : w.locking.Ok) (k : Nat) (fd : Int) (lock : Flock) (k' : Nat) :
    (((LockCall.setLock fd .setlk lock).perform k w).kernel k').wanted = (w.kernel k').wanted := by
  have hwanted : ∀ {answer V'}, LockEffect k .setlk w.locking answer V' →
      V'.wanted = w.locking.wanted := by
    intro answer V' heffect
    cases heffect with
    | same => rfl
    | cancelled _ hcommand => exact absurd hcommand (by decide)
    | granted lock f type first last hcommand =>
      rcases hcommand with ⟨-, rfl⟩ | ⟨hcommand, -⟩
      · exact (LockView.replace_waits _ f _ type first last).wanted
      · exact absurd hcommand (by decide)
    | registered f _ hcommand => exact absurd hcommand (by decide)
  exact congrFun (hwanted (recordLock_effect hV k fd .setlk lock)) k'

theorem halfway_reach (pending : SigSet) (h1 : ((((LockCall.setLock 3 .setlk (byteLock 0)).perform 0
      (twoProcesses pending)).kernel 1).live = true))
    (h2 : (((LockCall.setLock 3 .setlk (byteLock 1)).perform 1
      ((LockCall.setLock 3 .setlk (byteLock 0)).perform 0 (twoProcesses pending))).kernel 0).live =
        true) :
    LockReach (twoProcesses pending) (halfway pending) := by
  have hok0 := (twoProcesses_calm pending).toUnlocked.ok
  have hnone0 : ∀ k, ((twoProcesses pending).kernel k).wanted = none := fun _ => rfl
  have hok1 := perform_ok (k := 0) hok0 rfl (.setLock 3 .setlk (byteLock 0))
  have hnone1 := fun k => (setlk_wanted hok0 0 3 (byteLock 0) k).trans (hnone0 k)
  have hnone2 := fun k => (setlk_wanted hok1 1 3 (byteLock 1) k).trans (hnone1 k)
  refine .step (.step (.step .start rfl ?_) h1 ?_) h2 ?_
  · exact fun k _ hne => absurd (hnone0 k) hne
  · exact fun k _ hne => absurd (hnone1 k) hne
  · exact fun k _ hne => absurd (hnone2 k) hne

theorem halfway_next : (halfway 0).next = 2 := by decide +kernel

theorem lock_waits_acyclic_halfway :
    (exec (kernelRecordLock 1 3 .setlkw (byteLock 0)) (halfway 0)).1 = .error .edeadlk ∧
      ∃ o, TransGen (Adding (halfway 0).Waits 1 (inTheWay (halfway 0) 1 0 ⟨.wrlck, 0, 0⟩)) o o := by
  have hreach := halfway_reach 0 (by decide +kernel) (by decide +kernel)
  have hok := (reach_safe ((twoProcesses_calm 0).toUnlocked.safe (fun _ => rfl)) hreach).ok
  have hrun := (lock_waits_acyclic _ (twoProcesses_calm 0) _ hreach).2 (.range 2) (by decide)
    (fun f r hr => mem_range.mpr (halfway_next ▸ hok.owned f r hr))
    1 3 (byteLock 0) 0 ⟨.wrlck, 0, 0⟩ (by decide +kernel) (by decide +kernel)
  have hanswer : (exec (kernelRecordLock 1 3 .setlkw (byteLock 0)) (halfway 0)).1 =
      .error .edeadlk := by decide +kernel
  exact ⟨hanswer, hrun.mp hanswer⟩

/-- A pending signal ends the call before the search. -/
theorem signal_before_deadlock :
    LockReach (twoProcesses (signalBitSet 0 10)) (halfway (signalBitSet 0 10)) ∧
      lockTarget (halfway (signalBitSet 0 10)) 1 3 (byteLock 0) = some (0, ⟨.wrlck, 0, 0⟩) ∧
      (∃ o, TransGen (Adding (halfway (signalBitSet 0 10)).Waits 1
        (inTheWay (halfway (signalBitSet 0 10)) 1 0 ⟨.wrlck, 0, 0⟩)) o o) ∧
      (exec (kernelRecordLock 1 3 .setlkw (byteLock 0)) (halfway (signalBitSet 0 10))).1 =
        .error .eintr := by
  refine ⟨halfway_reach _ (by decide +kernel) (by decide +kernel), by decide +kernel, ⟨1, ?_⟩,
    by decide +kernel⟩
  have hfirst : Adding (halfway (signalBitSet 0 10)).Waits 1
      (inTheWay (halfway (signalBitSet 0 10)) 1 0 ⟨.wrlck, 0, 0⟩) 1 0 :=
    .inr ⟨rfl, by decide, by decide +kernel⟩
  have hsecond : (halfway (signalBitSet 0 10)).Waits 0 1 :=
    ⟨0, 0, ⟨.wrlck, 1, 1⟩, by decide +kernel, by decide +kernel, by decide +kernel⟩
  exact .tail (.single hfirst) (.inl hsecond)

end Waste.Kernel
