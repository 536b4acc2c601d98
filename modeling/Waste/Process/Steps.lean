import Waste.Process.Table

/-!
# What a step of the process table does

Every step of the table is one of four kinds.  A quiet step changes capsules, the
active process, or marks a process as ended.  A fork may add a child to a free
slot.  A wait may clear the slot of a child that has ended.  And a `waitpid(0)` of
a caller without children may return the pid that was waited for last, whoever
waited for it.

`step_cases` says which steps are of which kind.  The invariants of the table are
then proved for the kinds and not for the functions.
-/

namespace Waste.ProcessTable

open Function List Option

variable {s : Store}

/-! ## Looking up processes -/

variable {pid parent : Int} {i : Slot}
variable (exitCode status signal : Int)
variable {call : WaitpidCall} {answers : Slot → SignalAnswers}

theorem findProcess_eq_some (h : findProcess s pid = some i) :
    (s.processes i).used ∧ (s.processes i).pid = pid ∧ 0 < pid := by
  unfold findProcess at h
  split at h
  · cases h
  · have hfound := find?_some h
    rw [Bool.and_eq_true, beq_iff_eq] at hfound
    exact ⟨hfound.1, hfound.2, by omega⟩

theorem findProcess_isSome (hused : (s.processes i).used) (hpid : (s.processes i).pid = pid)
    (hpos : 0 < pid) : ∃ j, findProcess s pid = some j := by
  unfold findProcess
  rw [if_neg (by omega), ← isSome_iff_exists, find?_isSome]
  exact ⟨i, mem_finRange i, by simp [hused, hpid]⟩

/-- The scan finds no child only if there is none that it asks for. -/
theorem scanChildren_none {slots : List Slot} {candidate : Option Slot}
    (h : scanChildren s parent pid slots candidate = none) :
    candidate = none ∧ ∀ i ∈ slots, ¬ Matches parent pid (s.processes i) := by
  fun_induction scanChildren s parent pid slots candidate with
  | case1 candidate => exact ⟨h, by simp⟩
  | case2 candidate i rest hmatch hzombie => cases h
  | case3 candidate i rest hmatch hlive ih => cases (ih h).1
  | case4 candidate i rest hmatch ih =>
    exact ⟨(ih h).1, forall_mem_cons.2 ⟨hmatch, (ih h).2⟩⟩

/-- The child that a wait looks at is a child it asks for, and it has ended if any
such child has. -/
theorem scanChildren_some {slots : List Slot} {candidate : Option Slot}
    (h : scanChildren s parent pid slots candidate = some i) :
    (candidate = some i ∨ i ∈ slots ∧ Matches parent pid (s.processes i)) ∧
      ((s.processes i).zombie ∨
        ∀ j ∈ slots, Matches parent pid (s.processes j) → ¬ (s.processes j).zombie) := by
  fun_induction scanChildren s parent pid slots candidate with
  | case1 candidate => exact ⟨.inl h, .inr (by simp)⟩
  | case2 candidate j rest hmatch hzombie =>
    cases h
    exact ⟨.inr ⟨mem_cons_self, hmatch⟩, .inl hzombie⟩
  | case3 candidate j rest hmatch hlive ih =>
    obtain ⟨hfrom, hended⟩ := ih h
    refine ⟨.inr ?_, hended.imp_right fun hnone => forall_mem_cons.2 ⟨fun _ => hlive, hnone⟩⟩
    rcases hfrom with hlast | ⟨hmem, hi⟩
    · cases hlast
      exact ⟨mem_cons_self, hmatch⟩
    · exact ⟨mem_cons_of_mem _ hmem, hi⟩
  | case4 candidate j rest hmatch ih =>
    obtain ⟨hfrom, hended⟩ := ih h
    exact ⟨hfrom.imp_right fun hi => ⟨mem_cons_of_mem _ hi.1, hi.2⟩,
      hended.imp_right fun hnone => forall_mem_cons.2 ⟨fun hj => absurd hj hmatch, hnone⟩⟩

theorem scanChildren_eq_none (h : scanChildren s parent pid (finRange processMax) none = none)
    (i : Slot) : ¬ Matches parent pid (s.processes i) :=
  (scanChildren_none h).2 i (mem_finRange i)

theorem scanChildren_eq_some (h : scanChildren s parent pid (finRange processMax) none = some i) :
    Matches parent pid (s.processes i) ∧ ((s.processes i).zombie ∨
        ∀ j, Matches parent pid (s.processes j) → ¬ (s.processes j).zombie) := by
  obtain ⟨hfrom, hended⟩ := scanChildren_some h
  exact ⟨(hfrom.resolve_left nofun).2, hended.imp_right fun hnone j => hnone j (mem_finRange j)⟩

/-! ## Kinds of steps -/

/-- A change that neither adds nor removes a process. -/
inductive Quiet (s : Store) : Store → Prop
  | capsule (i : Slot) (c : Capsule) : Quiet s (s.setCapsule i c)
  | activate (i : Slot) (hused : (s.processes i).used) :
      Quiet s { s with activePid := (s.processes i).pid }
  | exit (i : Slot) (status : Int) (hused : (s.processes i).used) :
      Quiet s (recordExit s i status)

abbrev Quietly : Store → Store → Prop := Relation.ReflTransGen Quiet

/-- What a fork can leave. -/
inductive Forks (s : Store) : Store → Prop
  | refused : Forks s s
  | lock : Forks s { s with nextPid := forkPid s }
  | discarded (slot : Slot) (hfree : (s.processes slot).used = false) :
      Forks s ((advancePid s).setProcess slot {})
  | made (parent slot : Slot) (hparent : activeProcess s = some parent)
      (hfree : (s.processes slot).used = false) : Forks s (addChild s parent slot)

/-- The caller of `call` has no children, and the pid that was waited for last is
returned instead. -/
def Replays (s : Store) (call : WaitpidCall) : Prop :=
  call.timed = false ∧ call.pid = 0 ∧ 0 < s.lastWaitPid ∧
    ∀ i, ¬ Matches s.activePid (-1) (s.processes i)

/-! ## The quiet functions -/

theorem Quietly.capsule (i : Slot) (c : Capsule) : Quietly s (s.setCapsule i c) :=
  .single (.capsule i c)

theorem Quietly.exit (hused : (s.processes i).used) : Quietly s (recordExit s i status) :=
  .single (.exit i status hused)

/-- A check that refuses the call. -/
theorem Quietly.check {b : Prop} [Decidable b] {e : Int} {r : Int × Store}
    (h : ¬b → Quietly s r.2) : Quietly s (if b then (e, s) else r).2 := by
  split
  · exact .refl
  · exact h ‹_›

theorem used_of_activeProcess (h : activeProcess s = some i) : (s.processes i).used :=
  (findProcess_eq_some h).1

theorem setActiveProcess_quiet : Quietly s (setActiveProcess s pid).2 := by
  unfold setActiveProcess
  split
  · exact .refl
  · next i hfind =>
    refine .check fun _ => .tail (.single ?_) (.capsule i _)
    have hfound := findProcess_eq_some hfind
    rw [← hfound.2.1]
    exact .activate i hfound.1

theorem exitProcess_quiet : Quietly s (exitProcess s status).2 := by
  unfold exitProcess
  split
  · exact .refl
  · next i hactive => exact .check fun _ => .check fun _ => .exit _ (used_of_activeProcess hactive)

theorem signalProcess_quiet {signal : Int} {answers : SignalAnswers} :
    Quietly s (signalProcess s pid signal answers).2 := by
  refine .check fun _ => ?_
  split
  · exact .refl
  · next i hfind =>
    exact .check fun _ => .check fun _ => .check fun _ => .check fun _ =>
      .exit _ (findProcess_eq_some hfind).1

theorem signalMembers_quiet {member : Slot → Bool} {signal : Int} :
    ∀ (slots : List Slot) (delivered : Int) (s : Store),
      Quietly s (signalMembers member signal answers slots (delivered, s)).2 := by
  intro slots
  induction slots with
  | nil => intro _ _; exact .refl
  | cons i _ ih =>
    intro delivered s
    rw [signalMembers]
    split_ifs
    · exact ih delivered s
    · exact signalProcess_quiet.trans (ih _ _)

theorem signalForeground_quiet {terminal : Option (Slot → Bool)} :
    Quietly s (signalForeground s signal terminal answers).2 := by
  unfold signalForeground
  split
  · exact .check fun _ => signalMembers_quiet _ 0 s
  · split <;> exact signalProcess_quiet

theorem terminateProcess_quiet : Quietly s (terminateProcess s signal).2 := by
  unfold terminateProcess
  split
  · exact .refl
  · next i hactive => exact .check fun _ => .exit _ (used_of_activeProcess hactive)

theorem wakeProcess_quiet (pid result : Int) : Quietly s (wakeProcess s pid result).2 := by
  unfold wakeProcess
  split
  · exact .refl
  · refine .check fun _ => .check fun _ => ?_
    split
    · exact setActiveProcess_quiet
    · exact setActiveProcess_quiet.trans (Quietly.capsule _ _)

theorem completeProcessHandler_quiet : Quietly s (completeProcessHandler s exitCode).2 := by
  unfold completeProcessHandler
  split
  · exact .refl
  · exact .check fun _ => .check fun _ => .check fun _ =>
      (Quietly.capsule _ _).trans (exitProcess_quiet _)

variable {status : ExecStatus}

theorem completeProcessHandlerDefault_quiet :
    Quietly s (completeProcessHandlerDefault s status).2 := by
  unfold completeProcessHandlerDefault
  split
  · exact .refl
  · exact .check fun _ => completeProcessHandler_quiet _

theorem completeProcessHandlerSignal_quiet :
    Quietly s (completeProcessHandlerSignal s signal).2 := by
  unfold completeProcessHandlerSignal
  split
  · exact .refl
  · next i hactive =>
    refine .check fun _ => .check fun _ => (Quietly.capsule i _).trans (Quietly.exit _ ?_)
    simpa [Store.setCapsule, Store.setProcess] using used_of_activeProcess hactive

theorem completeProcessHandlerAndWake_quiet :
    Quietly s (completeProcessHandlerAndWake s exitCode).2 := by
  unfold completeProcessHandlerAndWake
  split
  · exact .refl
  refine .check fun _ => ?_
  split
  · exact .refl
  · refine .check fun _ => ?_
    dsimp only
    split
    · exact completeProcessHandler_quiet exitCode
    · exact (completeProcessHandler_quiet exitCode).trans (wakeProcess_quiet _ _)

theorem completeProcessHandlerAndWakeDefault_quiet :
    Quietly s (completeProcessHandlerAndWakeDefault s status).2 := by
  unfold completeProcessHandlerAndWakeDefault
  split
  · exact .refl
  · exact .check fun _ => completeProcessHandlerAndWake_quiet _

theorem completeProcessHandlerResultAndWake_quiet :
    Quietly s (completeProcessHandlerResultAndWake s).2 := by
  unfold completeProcessHandlerResultAndWake
  split
  · exact .refl
  · exact .check fun _ => completeProcessHandlerAndWake_quiet _

/-! ## Fork and wait -/

theorem forkProcess_forks (answers : ForkAnswers) : Forks s (forkProcess s answers).2 := by
  unfold forkProcess
  split
  · exact .refused
  next parent hparent =>
  split
  · exact .refused
  split
  · exact .refused
  next slot hslot =>
  have hfree : (s.processes slot).used = false := by simpa using find?_some hslot
  split_ifs
  · exact .refused
  · exact .lock
  · exact .discarded slot hfree
  · exact .made parent slot hparent hfree

theorem matches_selector {child : Process} :
    Matches parent (if pid = 0 then -1 else pid) child ↔ Matches parent pid child := by
  unfold Matches
  split_ifs with hzero
  · subst hzero
    simp
  · exact .rfl

/-- The answers of a wait that passes its argument checks. -/
inductive WaitCases (s : Store) (pid options : Int) (merge : MergeAnswer) :
    Int × Option Int × Store → Prop
  | noChild (hnone : ∀ i, ¬ Matches s.activePid pid (s.processes i)) :
      WaitCases s pid options merge (-echild, none, s)
  | running (i : Slot) (hchild : Matches s.activePid pid (s.processes i))
      (hnone : ∀ j, Matches s.activePid pid (s.processes j) → ¬ (s.processes j).zombie) :
      WaitCases s pid options merge (if hasWnohang options then 0 else -eagain, none, s)
  | mergeFails (i : Slot) (hchild : Matches s.activePid pid (s.processes i))
      (hmerge : merge ≠ .ok) : WaitCases s pid options merge (merge.code, none, s)
  | ended (i : Slot) (hmerge : merge = .ok)
      (hchild : Matches s.activePid pid (s.processes i)) (hended : (s.processes i).zombie) :
      WaitCases s pid options merge
        ((s.processes i).pid, some (s.processes i).exitStatus, collect s s.activePid i)

theorem waitProcess_cases {parent : Slot} (options : Int) (merge : MergeAnswer)
    (hparent : activeProcess s = some parent) (hpid : -1 ≤ pid) :
    WaitCases s pid options merge (waitProcess s pid options merge) := by
  simp only [waitProcess, hparent, if_neg (show ¬ pid < -1 by omega),
    (findProcess_eq_some hparent).2.1]
  split
  · next hscan =>
    apply WaitCases.noChild
    intro i
    rw [← matches_selector]
    exact scanChildren_eq_none hscan i
  · next i hscan =>
    have hscan := scanChildren_eq_some hscan
    simp only [matches_selector] at hscan
    by_cases hended : (s.processes i).zombie
    · by_cases hmerge : merge = .ok
      · simp only [hended, hmerge, not_true, if_false, ne_eq]
        exact .ended i rfl hscan.1 hended
      · simp only [hended, hmerge, ne_eq, not_false_eq_true, if_true]
        exact .mergeFails i hscan.1 hmerge
    · have hrunning := hscan.2.resolve_left hended
      simp only [hended]
      exact .running i hscan.1 hrunning

/-- Everything that a `waitpid` can answer, with the table it leaves. -/
inductive WaitpidCases (s : Store) (call : WaitpidCall) : WaitpidReply × Store → Prop
  | fails (errno : Int) (herrno : 0 < errno) :
      WaitpidCases s call (.value (-1) (some errno) none, s)
  | noChild (hnone : ∀ i, ¬ Matches s.activePid call.pid (s.processes i)) :
      WaitpidCases s call (.value (-1) (some echild) none, s)
  | nothing : WaitpidCases s call (.value 0 none none, s)
  | blocked (t : Store) (hquiet : Quietly s t) : WaitpidCases s call (.yields, t)
  | unwinds : WaitpidCases s call (.unwinds, s)
  | lost (i : Slot) (hchild : Matches s.activePid call.pid (s.processes i))
      (hended : (s.processes i).zombie) :
      WaitpidCases s call (.value (-1) (some efault) none, collect s s.activePid i)
  | returned (i : Slot) (hchild : Matches s.activePid call.pid (s.processes i))
      (hended : (s.processes i).zombie) :
      WaitpidCases s call (.value (s.processes i).pid none
            (if call.statusAddress = 0 then none else some (s.processes i).exitStatus),
          (collect s s.activePid i).record
            (.returned s.activePid (s.processes i).pid (s.processes i).exitStatus))
  | replayLost (hreplay : Replays s call) :
      WaitpidCases s call (.value (-1) (some efault) none, s)
  | replayed (hreplay : Replays s call) :
      WaitpidCases s call (.value s.lastWaitPid none
            (if call.statusAddress = 0 then none else some s.lastWaitStatus),
          s.record (.returned s.activePid s.lastWaitPid s.lastWaitStatus))

variable {answers : WaitpidAnswers}

theorem checkWaitpid_pos {errno : Int}
    (h : checkWaitpid call answers = some errno) : 0 < errno := by
  unfold checkWaitpid at h
  split_ifs at h <;> cases h <;> decide

theorem waitResult_neg {errno : Int} (h : 0 < errno) :
    waitResult (-errno) = .value (-1) (some errno) none := by
  rw [waitResult, if_pos (by omega), Int.neg_neg]

theorem blockInWait_cases :
    WaitpidCases s call (blockInWait s call answers) := by
  unfold blockInWait
  split
  · exact .nothing
  · split
    · exact .blocked _ .refl
    · exact .blocked _ (.capsule _ _)

theorem settleWaitpid_cases {waited : Int} (hwaited : waited ≤ 0)
    (hnone : waited = -echild → ∀ i, ¬ Matches s.activePid call.pid (s.processes i)) :
    WaitpidCases s call (settleWaitpid s s.activePid call answers waited none) := by
  unfold settleWaitpid
  split
  · split
    · split
      · exact .unwinds
      · exact .fails eintr (by decide)
      · exact blockInWait_cases
    · exact blockInWait_cases
  · dsimp only
    split
    · next hreplay =>
      have hreplays : Replays s call := by
        refine ⟨by simpa using hreplay.1, hreplay.2.2.1, hreplay.2.2.2, fun i hmatch => ?_⟩
        apply hnone hreplay.2.1 i
        rw [hreplay.2.2.1]
        exact ⟨hmatch.1, hmatch.2.1, fun h => absurd h (by decide)⟩
      unfold deliverStatus
      split
      · exact .replayLost hreplays
      · exact .replayed hreplays
    · rcases hwaited.lt_or_eq with hneg | rfl
      · have hpos : 0 < -waited := by omega
        rw [show waited = - -waited by omega, waitResult_neg hpos]
        exact .fails _ hpos
      · exact .nothing

theorem guestWaitpid_cases (hpids : ∀ i, (s.processes i).used → 0 < (s.processes i).pid)
    (call : WaitpidCall) (answers : WaitpidAnswers) :
    WaitpidCases s call (guestWaitpid s call answers) := by
  unfold guestWaitpid
  split
  · next errno hcheck =>
    have hpos := checkWaitpid_pos hcheck
    rw [waitResult_neg hpos]
    exact .fails errno hpos
  cases hactive : activeProcess s with
  | none =>
    rw [show waitProcess s call.pid call.options answers.merge = (-efault, none, s) by
      simp only [waitProcess, hactive]]
    exact settleWaitpid_cases (by decide) fun h => absurd h (by decide)
  | some _ =>
    by_cases hpid : call.pid < -1
    · rw [show waitProcess s call.pid call.options answers.merge = (-einval, none, s) by
        simp only [waitProcess, hactive, if_pos hpid]]
      exact settleWaitpid_cases (by decide) fun h => absurd h (by decide)
    have hcases := waitProcess_cases call.options answers.merge hactive
      (show -1 ≤ call.pid by omega)
    generalize waitProcess s call.pid call.options answers.merge = r at hcases ⊢
    cases hcases with
    | noChild hnone =>
      exact settleWaitpid_cases (by decide) fun _ => hnone
    | running i hchild hnone =>
      apply settleWaitpid_cases
      · split <;> decide
      · split <;> intro h <;> exact absurd h (by decide)
    | mergeFails i hchild hmerge =>
      apply settleWaitpid_cases
      · cases answers.merge <;> decide
      · cases answers.merge <;> intro h <;> exact absurd h (by decide)
    | ended i hmerge hchild hended =>
      have hpos := hpids i hchild.1
      have hnot : (s.processes i).pid ≠ -eagain := by
        rw [eagain]
        omega
      simp only [settleWaitpid, hnot, false_and, if_false, deliverStatus]
      split
      · exact .lost i hchild hended
      · exact .returned i hchild hended

/-- Every step but a fork and a `waitpid` is quiet. -/
theorem step_cases (op : Op) :
    (op.isFork = false ∧ Quietly s (step s op)) ∨ (∃ answers, op = .fork answers) ∨
      ∃ call answers, op = .waitpid call answers := by
  cases op with
  | fork answers => exact .inr (.inl ⟨answers, rfl⟩)
  | waitpid call answers => exact .inr (.inr ⟨call, answers, rfl⟩)
  | setActive pid => exact .inl ⟨rfl, setActiveProcess_quiet⟩
  | exit status => exact .inl ⟨rfl, exitProcess_quiet status⟩
  | signal pid signal answers => exact .inl ⟨rfl, signalProcess_quiet⟩
  | signalGroup pgid signal member answers =>
    exact .inl ⟨rfl, .check fun _ => signalMembers_quiet _ 0 s⟩
  | signalForeground signal terminal answers =>
    exact .inl ⟨rfl, signalForeground_quiet signal⟩
  | terminate signal => exact .inl ⟨rfl, terminateProcess_quiet signal⟩
  | completeHandler exitCode => exact .inl ⟨rfl, completeProcessHandler_quiet exitCode⟩
  | completeHandlerDefault status => exact .inl ⟨rfl, completeProcessHandlerDefault_quiet⟩
  | completeHandlerSignal signal => exact .inl ⟨rfl, completeProcessHandlerSignal_quiet signal⟩
  | completeHandlerAndWake exitCode =>
    exact .inl ⟨rfl, completeProcessHandlerAndWake_quiet exitCode⟩
  | completeHandlerAndWakeDefault status =>
    exact .inl ⟨rfl, completeProcessHandlerAndWakeDefault_quiet⟩
  | completeHandlerResultAndWake => exact .inl ⟨rfl, completeProcessHandlerResultAndWake_quiet⟩
  | wake pid result => exact .inl ⟨rfl, wakeProcess_quiet pid result⟩
  | capsule slot _ => exact .inl ⟨rfl, .capsule slot _⟩

/-! ## The fields after each kind of step -/

@[simp] theorem setProcess_self (i : Slot) (p : Process) : (s.setProcess i p).processes i = p :=
  update_self ..

@[simp] theorem setProcess_ne {j : Slot} {p : Process} (h : j ≠ i) :
    (s.setProcess i p).processes j = s.processes j :=
  update_of_ne h ..

@[simp] theorem addChild_self (parent slot : Slot) : (addChild s parent slot).processes slot =
      { used := true, pid := forkPid s, ppid := (s.processes parent).pid,
        capsule := cloneCapsule (s.processes parent).capsule } :=
  update_self ..

@[simp] theorem addChild_ne {parent slot : Slot} (h : i ≠ slot) :
    (addChild s parent slot).processes i = s.processes i :=
  update_of_ne h ..

@[simp] theorem collect_self (parent : Int) (i : Slot) : (collect s parent i).processes i = {} :=
  update_self ..

@[simp] theorem collect_ne {j : Slot} (h : j ≠ i) :
    (collect s parent i).processes j = s.processes j :=
  update_of_ne h ..

/-- What quiet steps leave alone. -/
structure SameTable (s t : Store) : Prop where
  used : ∀ i, (t.processes i).used = (s.processes i).used
  pid : ∀ i, (t.processes i).pid = (s.processes i).pid
  ppid : ∀ i, (t.processes i).ppid = (s.processes i).ppid
  processCount : t.processCount = s.processCount
  nextPid : t.nextPid = s.nextPid
  lastWaitPid : t.lastWaitPid = s.lastWaitPid

/-- A slot keeps what the table knows of its process when only the rest of the
process changes. -/
theorem SameTable.setProcess {p : Process} (hused : p.used = (s.processes i).used)
    (hpid : p.pid = (s.processes i).pid) (hppid : p.ppid = (s.processes i).ppid) :
    SameTable s (s.setProcess i p) := by
  have hfield {α : Type} (f : Process → α) (hf : f p = f (s.processes i)) (j : Slot) :
      f ((s.setProcess i p).processes j) = f (s.processes j) := by
    rcases eq_or_ne j i with rfl | hne
    · rw [setProcess_self, hf]
    · rw [setProcess_ne hne]
  exact ⟨hfield _ hused, hfield _ hpid, hfield _ hppid, rfl, rfl, rfl⟩

theorem Quiet.sameTable {t : Store} (h : Quiet s t) : SameTable s t := by
  cases h with
  | capsule i c => exact .setProcess rfl rfl rfl
  | activate i hused => exact ⟨fun _ => rfl, fun _ => rfl, fun _ => rfl, rfl, rfl, rfl⟩
  | exit i status hused =>
    have hset : SameTable s (s.setProcess i ((s.processes i).ended status)) :=
      .setProcess rfl rfl rfl
    exact ⟨hset.used, hset.pid, hset.ppid, rfl, rfl, rfl⟩

end Waste.ProcessTable
