import Waste.Process.Family

/-!
# Waiting for children

Two results about whole runs.

`waitpid_delivers` is about what a `waitpid` returns.  A child is returned once
for the fork that made it, to the process that forked it, and with the status it
ended with.  The exception is `Replays`: a `waitpid(0)` of a caller without
children answers with the child that was waited for last in the whole store.

`table_lineage` is about who can wait for whom.  The table does not move the
children of a process that has been collected to another parent, so a parent's
pid names a process of the table exactly until that parent is collected.
-/

namespace Waste.ProcessTable

open List

variable {s t : Store}
variable {call : WaitpidCall} {i : Slot}

/-! ## What `waitpid` returns -/

/-- `caller` forked `pid`, the child ended with `status`, and nobody was told yet. -/
def DeliveredOnce (history : List Event) (caller pid status : Int) : Prop :=
  ∃ since, Since history caller pid since ∧ lastStatus pid since = some status

theorem FamilyInv.deliveredOnce (hinv : FamilyInv s) {pid : Int}
    (hchild : Matches s.activePid pid (s.processes i)) (hended : (s.processes i).zombie) :
    DeliveredOnce s.history s.activePid (s.processes i).pid (s.processes i).exitStatus := by
  have h0 : i ≠ 0 := (hinv.table.root_ne_of_matches hchild).symm
  obtain ⟨since, hsince, hstatus⟩ := hinv.recorded i hchild.1 h0
  rw [hchild.2.1] at hsince
  exact ⟨since, hsince, hstatus hended⟩

theorem PidInv.exists_active (hinv : PidInv s) : ∃ i, activeProcess s = some i := by
  obtain ⟨i, hused, hpid⟩ := hinv.running
  exact findProcess_isSome hused hpid hinv.table.active

theorem PidInv.waitpid_noChild (hinv : PidInv s) {answers : WaitpidAnswers}
    (hcheck : checkWaitpid call answers = none) (hpid : -1 ≤ call.pid) (hreplay : ¬ Replays s call)
    (hnone : ∀ i, ¬ Matches s.activePid call.pid (s.processes i)) :
    guestWaitpid s call answers = (.value (-1) (some echild) none, s) := by
  obtain ⟨parent, hparent⟩ := hinv.exists_active
  have hcases := waitProcess_cases call.options answers.merge hparent hpid
  simp only [guestWaitpid, hcheck]
  generalize waitProcess s call.pid call.options answers.merge = r at hcases ⊢
  cases hcases with
  | running i hchild | mergeFails i hchild | ended i _ hchild => exact absurd hchild (hnone i)
  | noChild =>
    have hno : ¬ ((!call.timed) = true ∧ True ∧ call.pid = 0 ∧ s.lastWaitPid > 0) := by
      intro h
      apply hreplay
      refine ⟨by simpa using h.1, h.2.2.1, h.2.2.2, fun i hmatch => hnone i ?_⟩
      exact ⟨hmatch.1, hmatch.2.1, fun hpos => absurd h.2.2.1 (by omega)⟩
    simp only [settleWaitpid, show ¬ (-echild = -eagain) by decide, false_and, if_false]
    rw [if_neg hno]
    rfl

/-- In a run whose forks hand out fresh pids and whose `waitpid` calls are not
answered with the last pid waited for, a positive answer is a child that the
caller forked, that has ended, and that no `waitpid` has returned since that fork;
and a caller without a matching child gets `ECHILD`. -/
theorem waitpid_delivers (limit : Option Int) (ops : List Op)
    (hmeets : MeetsAll (init limit) ops) (call : WaitpidCall) (answers : WaitpidAnswers)
    (hcall : Meets (run (init limit) ops) (.waitpid call answers)) :
    let s := run (init limit) ops
    (∀ pid errno stored, (guestWaitpid s call answers).1 = .value pid errno stored → 0 < pid →
      ∃ status,
        (guestWaitpid s call answers).2.history =
          .returned s.activePid pid status :: .collected s.activePid pid :: s.history ∧
        DeliveredOnce s.history s.activePid pid status ∧
        stored = if call.statusAddress = 0 then none else some status) ∧
    (checkWaitpid call answers = none → -1 ≤ call.pid →
      (∀ i, ¬ Matches s.activePid call.pid (s.processes i)) →
      guestWaitpid s call answers = (.value (-1) (some echild) none, s)) := by
  intro s
  have hinv : FamilyInv s := familyInv_run (familyInv_init limit) hmeets
  refine ⟨fun pid errno stored hreply hpos => ?_, fun hcheck hpid hnone =>
    hinv.toPidInv.waitpid_noChild hcheck hpid (hcall hcheck) hnone⟩
  cases hcheck : checkWaitpid call answers with
  | some e =>
    simp only [guestWaitpid, hcheck, waitResult_neg (checkWaitpid_pos hcheck)] at hreply
    cases hreply
    exact absurd hpos (by decide)
  | none =>
    have hcases := guestWaitpid_cases hinv.table.positive call answers
    generalize guestWaitpid s call answers = r at hreply hcases ⊢
    cases hcases with
    | blocked | unwinds => cases hreply
    | fails | noChild | nothing | lost | replayLost =>
      cases hreply
      exact absurd hpos (by decide)
    | replayed h => exact absurd h (hcall hcheck)
    | returned i hchild hended =>
      cases hreply
      exact ⟨_, rfl, hinv.deliveredOnce hchild hended, rfl⟩

/-- The steps by which process 2 is forked and ends with code 7, back in process 1. -/
def oneChild : List Op :=
  [.fork ⟨true, true, true⟩, .setActive 2, .exit 7, .setActive 1]

theorem waitpid_delivers_oneChild :
    (guestWaitpid (run (init none) oneChild) ⟨false, 2, 8, 0⟩ {}).1 =
        .value 2 none (some 1792) ∧
      ∃ status, DeliveredOnce (run (init none) oneChild).history 1 2 status := by
  have hmeets : MeetsAll (init none) oneChild := by decide
  have hdelivers := (waitpid_delivers none oneChild hmeets ⟨false, 2, 8, 0⟩ {} (by decide)).1
  have hreply : (guestWaitpid (run (init none) oneChild) ⟨false, 2, 8, 0⟩ {}).1 =
      .value 2 none (some 1792) := by decide
  obtain ⟨status, -, honce, -⟩ := hdelivers 2 none (some 1792) hreply (by decide)
  exact ⟨hreply, status, honce⟩

/-- Process 1 has collected its only child.  Its next `waitpid(0)` returns the same
child with the same status again instead of `ECHILD`. -/
theorem waitpid_zero_replays : let s := run (init none) (oneChild ++ [.waitpid ⟨false, 2, 8, 0⟩ {}])
    (∀ i, ¬ Matches s.activePid 0 (s.processes i)) ∧
      (guestWaitpid s ⟨false, 0, 8, 0⟩ {}).1 = .value 2 none (some 1792) ∧
      ¬ ∃ status, DeliveredOnce s.history s.activePid 2 status := by
  refine ⟨by decide, by decide, ?_⟩
  rintro ⟨status, since, hsince, -⟩
  obtain ⟨before, hfork⟩ := hsince.fork
  cases since with
  | nil => cases hfork
  | cons e rest =>
    injection hfork with hhead
    apply hsince.unreturned 1 1792
    rw [← hhead]
    exact mem_cons_self

/-! ## Who can wait for whom -/

/-- How many pids there are: 2 to `INT32_MAX`. -/
def pidCount : Nat := 2147483646

/-- The invariant of a run with `forks` forks, at most as many as there are pids.
Nobody in the table has been collected, and a process that is not the root keeps the pid
of who forked it, who is in the table or has been collected. -/
structure LineageInv (s : Store) (forks : Nat) : Prop where
  counter : (2 ≤ s.nextPid ∧ s.nextPid ≤ forks + 2) ∨ (s.nextPid = -1 ∧ pidCount ≤ forks)
  known : 0 < s.nextPid → ∀ i, (s.processes i).used →
    (s.processes i).pid < s.nextPid ∧ (s.processes i).ppid < s.nextPid
  spent : 0 < s.nextPid → ∀ q pid, .collected q pid ∈ s.history → pid < s.nextPid
  present : ∀ i, (s.processes i).used → ∀ q, .collected q (s.processes i).pid ∉ s.history
  parent : ∀ i, (s.processes i).used → i ≠ 0 →
    (∃ j, (s.processes j).used ∧ (s.processes j).pid = (s.processes i).ppid) ∨
      ∃ q, .collected q (s.processes i).ppid ∈ s.history
  forked : ∀ i, (s.processes i).used → i ≠ 0 →
    .forked (s.processes i).ppid (s.processes i).pid ∈ s.history

theorem lineageInv_init {limit : Option Int} : LineageInv (init limit) 0 where
  counter := .inl ⟨le_refl _, le_refl _⟩
  known _ i hi := by
    rw [used_init hi]
    exact ⟨(by decide : (1 : Int) < 2), (by decide : (0 : Int) < 2)⟩
  spent _ _ _ h := absurd h not_mem_nil
  present _ _ _ h := absurd h not_mem_nil
  parent i hi h0 := absurd (used_init hi) h0
  forked i hi h0 := absurd (used_init hi) h0

theorem LineageInv.freshFork {forks : Nat} (h : LineageInv s forks) (hfew : forks < pidCount) :
    FreshFork s ∧ forkPid s = s.nextPid ∧ 2 ≤ s.nextPid ∧ s.nextPid ≤ forks + 2 := by
  have hcounter : 2 ≤ s.nextPid ∧ s.nextPid ≤ forks + 2 := by
    rcases h.counter with hin | ⟨-, hmany⟩
    · exact hin
    · omega
  have hpid : forkPid s = s.nextPid := if_neg (by omega)
  refine ⟨fun i hi => ?_, hpid, hcounter⟩
  have hknown := h.known (by omega) i hi
  exact ⟨by omega, by omega⟩

theorem collected_mem_of_quiet (h : Quiet s t) (q pid : Int) :
    .collected q pid ∈ t.history ↔ .collected q pid ∈ s.history := by
  cases h with
  | capsule | activate => exact .rfl
  | exit i status hused =>
    show .collected q pid ∈ .exited _ status :: s.history ↔ _
    simp

theorem Quiet.history_subset (h : Quiet s t) : s.history ⊆ t.history := by
  cases h with
  | capsule | activate => exact Subset.refl _
  | exit i status hused => exact subset_cons_self _ _

theorem LineageInv.quiet {forks : Nat} (hinv : LineageInv s forks) (h : Quiet s t) :
    LineageInv t forks := by
  have hsame := h.sameTable
  have hcollected := collected_mem_of_quiet h
  refine ⟨?_, ?_, ?_, ?_, fun i => ?_, fun i => ?_⟩
  · rw [hsame.nextPid]
    exact hinv.counter
  · intro hpos i
    rw [hsame.nextPid] at hpos ⊢
    rw [hsame.used, hsame.pid, hsame.ppid]
    exact hinv.known hpos i
  · intro hpos q pid hmem
    rw [hsame.nextPid] at hpos ⊢
    exact hinv.spent hpos q pid ((hcollected q pid).mp hmem)
  · intro i
    rw [hsame.used, hsame.pid]
    intro hi q hmem
    exact hinv.present i hi q ((hcollected q _).mp hmem)
  · rw [hsame.used, hsame.ppid]
    intro hi h0
    apply (hinv.parent i hi h0).imp
    · rintro ⟨j, hj, hpid⟩
      exact ⟨j, by rw [hsame.used]; exact hj, by rw [hsame.pid]; exact hpid⟩
    · rintro ⟨q, hmem⟩
      exact ⟨q, h.history_subset hmem⟩
  · rw [hsame.used, hsame.pid, hsame.ppid]
    exact fun hi h0 => h.history_subset (hinv.forked i hi h0)

theorem LineageInv.quietly {forks : Nat} (hinv : LineageInv s forks) (h : Quietly s t) :
    LineageInv t forks := by
  induction h with
  | refl => exact hinv
  | tail _ hlast ih => exact ih.quiet hlast

theorem advancePid_counter {forks : Nat} (hpid : forkPid s = s.nextPid) (hlow : 2 ≤ s.nextPid)
    (hhigh : s.nextPid ≤ forks + 2) :
    ((2 ≤ (advancePid s).nextPid ∧ (advancePid s).nextPid ≤ (forks + 1 : Nat) + 2) ∨
        ((advancePid s).nextPid = -1 ∧ pidCount ≤ forks + 1)) ∧
      (0 < (advancePid s).nextPid → s.nextPid < (advancePid s).nextPid) := by
  simp only [advancePid, hpid]
  split_ifs with hlast
  · refine ⟨.inr ⟨rfl, ?_⟩, fun h => absurd h (by decide)⟩
    rw [hlast, int32Max] at hhigh
    unfold pidCount
    omega
  · exact ⟨.inl ⟨by omega, by omega⟩, fun _ => by omega⟩

theorem LineageInv.forks {forks : Nat} (hinv : LineageInv s forks) (hfew : forks < pidCount)
    (h : Forks s t) : LineageInv t (forks + 1) := by
  obtain ⟨-, hpid, hlow, hhigh⟩ := hinv.freshFork hfew
  have hpos : 0 < s.nextPid := by omega
  obtain ⟨hcounter, hlater⟩ := advancePid_counter hpid hlow hhigh
  cases h with
  | refused =>
    exact { hinv with counter := .inl ⟨hlow, by omega⟩ }
  | lock =>
    rw [hpid]
    have hnext : s.nextPid ≤ (forks + 1 : Nat) + 2 := by omega
    exact { hinv with counter := .inl ⟨hlow, hnext⟩ }
  | discarded slot hfree =>
    refine ⟨hcounter, fun hnext i hi => ?_, fun hnext q pid hmem => ?_, fun i hi => ?_,
      fun i hi h0 => ?_, fun i hi h0 => ?_⟩
    · have hsame := discarded_of_used hi
      rw [hsame] at hi ⊢
      have hknown := hinv.known hpos i hi
      have hlt := hlater hnext
      exact ⟨hknown.1.trans hlt, hknown.2.trans hlt⟩
    · exact (hinv.spent hpos q pid hmem).trans (hlater hnext)
    · have hsame := discarded_of_used hi
      rw [hsame] at hi ⊢
      exact hinv.present i hi
    · have hsame := discarded_of_used hi
      rw [hsame] at hi ⊢
      apply (hinv.parent i hi h0).imp _ id
      rintro ⟨j, hj, hjpid⟩
      refine ⟨j, ?_⟩
      rw [setProcess_ne (ne_of_used_of_free hj hfree)]
      exact ⟨hj, hjpid⟩
    · have hsame := discarded_of_used hi
      rw [hsame] at hi ⊢
      exact hinv.forked i hi h0
  | made parent slot hparent hfree =>
    have hpused := used_of_activeProcess hparent
    have hold : ∀ {q pid}, .collected q pid ∈ (addChild s parent slot).history →
        .collected q pid ∈ s.history := fun hmem => (mem_cons.mp hmem).resolve_left nofun
    refine ⟨hcounter, fun hnext i => ?_, fun hnext q pid hmem => ?_, fun i => ?_, fun i => ?_,
      fun i => ?_⟩
    · have hlt := hlater hnext
      rcases eq_or_ne i slot with rfl | hne
      · rw [addChild_self]
        intro _
        refine ⟨?_, (hinv.known hpos parent hpused).1.trans hlt⟩
        rw [hpid]
        exact hlt
      · rw [addChild_ne hne]
        intro hi
        have hknown := hinv.known hpos i hi
        exact ⟨hknown.1.trans hlt, hknown.2.trans hlt⟩
    · exact (hinv.spent hpos q pid (hold hmem)).trans (hlater hnext)
    · rcases eq_or_ne i slot with rfl | hne
      · rw [addChild_self]
        intro _ q hmem
        have hlt := hinv.spent hpos q _ (hold hmem)
        rw [hpid] at hlt
        exact lt_irrefl _ hlt
      · rw [addChild_ne hne]
        exact fun hi q hmem => hinv.present i hi q (hold hmem)
    · have hkeeps : ∀ j, (s.processes j).used →
          (addChild s parent slot).processes j = s.processes j :=
        fun j hj => addChild_ne (ne_of_used_of_free hj hfree)
      rcases eq_or_ne i slot with rfl | hne
      · rw [addChild_self]
        intro _ _
        refine .inl ⟨parent, ?_⟩
        rw [hkeeps parent hpused]
        exact ⟨hpused, rfl⟩
      · rw [addChild_ne hne]
        intro hi h0
        apply (hinv.parent i hi h0).imp
        · rintro ⟨j, hj, hjpid⟩
          refine ⟨j, ?_⟩
          rw [hkeeps j hj]
          exact ⟨hj, hjpid⟩
        · rintro ⟨q, hmem⟩
          exact ⟨q, mem_cons_of_mem _ hmem⟩
    · rcases eq_or_ne i slot with rfl | hne
      · rw [addChild_self]
        exact fun _ _ => mem_cons_self
      · rw [addChild_ne hne]
        exact fun hi h0 => mem_cons_of_mem _ (hinv.forked i hi h0)

theorem LineageInv.collected {forks : Nat} (hinv : LineageInv s forks) (hpids : PidInv s)
    {pid : Int} (hchild : Matches s.activePid pid (s.processes i)) :
    LineageInv (collect s s.activePid i) forks := by
  refine ⟨hinv.counter, fun hpos j hj => ?_, fun hpos q p hmem => ?_, fun j hj q hmem => ?_,
    fun j hj h0 => ?_, fun j hj h0 => ?_⟩
  · have hsame := collect_of_used hj
    rw [hsame] at hj ⊢
    exact hinv.known hpos j hj
  · rcases mem_cons.mp hmem with heq | hmem
    · injection heq with _ hp
      rw [hp]
      exact (hinv.known hpos i hchild.1).1
    · exact hinv.spent hpos q p hmem
  · have hsame := collect_of_used hj
    have hji : j ≠ i := by
      intro heq
      rw [heq, collect_self] at hj
      cases hj
    rw [hsame] at hj hmem
    rcases mem_cons.mp hmem with heq | hmem
    · injection heq with _ hp
      exact hji (hpids.distinct j i hj hchild.1 hp)
    · exact hinv.present j hj q hmem
  · have hsame := collect_of_used hj
    rw [hsame] at hj ⊢
    rcases hinv.parent j hj h0 with ⟨k, hk, hkpid⟩ | ⟨q, hmem⟩
    · rcases eq_or_ne k i with rfl | hne
      · refine .inr ⟨s.activePid, ?_⟩
        rw [← hkpid]
        exact mem_cons_self
      · refine .inl ⟨k, ?_⟩
        rw [collect_ne hne]
        exact ⟨hk, hkpid⟩
    · exact .inr ⟨q, mem_cons_of_mem _ hmem⟩
  · have hsame := collect_of_used hj
    rw [hsame] at hj ⊢
    exact mem_cons_of_mem _ (hinv.forked j hj h0)

theorem LineageInv.returned {forks : Nat} (hinv : LineageInv s forks) (caller pid status : Int) :
    LineageInv (s.record (.returned caller pid status)) forks := by
  have hmem : ∀ q p, .collected q p ∈ (s.record (.returned caller pid status)).history →
      .collected q p ∈ s.history := fun _ _ h => (mem_cons.mp h).resolve_left nofun
  refine ⟨hinv.counter, hinv.known, fun hpos q p h => hinv.spent hpos q p (hmem q p h),
    fun i hi q h => hinv.present i hi q (hmem q _ h), fun i hi h0 => ?_,
    fun i hi h0 => mem_cons_of_mem _ (hinv.forked i hi h0)⟩
  apply (hinv.parent i hi h0).imp id
  rintro ⟨q, h⟩
  exact ⟨q, mem_cons_of_mem _ h⟩

theorem LineageInv.waitpid {forks : Nat} (hinv : LineageInv s forks) (hpids : PidInv s)
    {r : WaitpidReply × Store} (h : WaitpidCases s call r) : LineageInv r.2 forks := by
  cases h with
  | fails | noChild | nothing | unwinds | replayLost => exact hinv
  | blocked t hquiet => exact hinv.quietly hquiet
  | lost i hchild hended => exact hinv.collected hpids hchild
  | returned i hchild hended => exact (hinv.collected hpids hchild).returned _ _ _
  | replayed h => exact hinv.returned _ _ _

/-- Both invariants over a run that starts after `forks` forks. -/
theorem lineage_run {ops : List Op} {forks : Nat} (hpids : PidInv s)
    (hinv : LineageInv s forks) (hfew : forks + ops.countP Op.isFork ≤ pidCount) :
    PidInv (run s ops) ∧ LineageInv (run s ops) (forks + ops.countP Op.isFork) := by
  induction ops generalizing s forks with
  | nil => exact ⟨hpids, hinv⟩
  | cons op rest ih =>
    rcases step_cases op with ⟨hfork, hquiet⟩ | ⟨answers, rfl⟩ | ⟨call, answers, rfl⟩
    · rw [countP_cons_of_neg (by simp [hfork])] at hfew ⊢
      exact ih (hpids.quietly hquiet) (hinv.quietly hquiet) hfew
    · have hcount : (.fork answers :: rest).countP Op.isFork = rest.countP Op.isFork + 1 :=
        countP_cons_of_pos rfl
      rw [hcount] at hfew ⊢
      have hforks := forkProcess_forks (s := s) answers
      have hnow : forks < pidCount := by omega
      rw [show forks + (rest.countP Op.isFork + 1) = forks + 1 + rest.countP Op.isFork by omega]
      exact ih (hpids.forks (hinv.freshFork hnow).1 hforks) (hinv.forks hnow hforks) (by omega)
    · have hcases := guestWaitpid_cases hpids.table.positive call answers
      exact ih (hpids.waitpid hcases) (hinv.waitpid hpids hcases) hfew

/-- A child that has ended is returned to a `waitpid` for its pid. -/
theorem PidInv.waitpid_child (hinv : PidInv s) (hi : (s.processes i).used)
    (hended : (s.processes i).zombie) (hparent : (s.processes i).ppid = s.activePid) :
    (guestWaitpid s ⟨false, (s.processes i).pid, 0, 0⟩ {}).1 =
      .value (s.processes i).pid none none := by
  have hpos := hinv.table.positive i hi
  have hchild : Matches s.activePid (s.processes i).pid (s.processes i) :=
    ⟨hi, hparent, fun _ => rfl⟩
  have honly : ∀ j, Matches s.activePid (s.processes i).pid (s.processes j) → j = i :=
    fun j hj => hinv.distinct j i hj.1 hi (hj.2.2 hpos)
  obtain ⟨parent, hactive⟩ := hinv.exists_active
  have hwait : WaitCases s (s.processes i).pid 0 .ok
      (waitProcess s (s.processes i).pid 0 .ok) := waitProcess_cases 0 .ok hactive (by omega)
  have hcheck : checkWaitpid ⟨false, (s.processes i).pid, 0, 0⟩ {} = none := by
    simp [checkWaitpid]
  simp only [guestWaitpid, hcheck]
  generalize waitProcess s (s.processes i).pid 0 .ok = r at hwait ⊢
  cases hwait with
  | noChild hnone => exact absurd hchild (hnone i)
  | running _ _ hnone => exact absurd hended (hnone i hchild)
  | mergeFails _ _ hmerge => exact absurd rfl hmerge
  | ended j _ hj _ =>
    rw [honly j hj]
    have hnot : (s.processes i).pid ≠ -eagain := by
      rw [eagain]
      omega
    simp [settleWaitpid, deliverStatus, hnot]

theorem PidInv.setActive (hinv : PidInv s) {j : Slot} (hj : (s.processes j).used)
    (hlives : (s.processes j).zombie = false) :
    step s (.setActive (s.processes j).pid) =
      { s with activePid := (s.processes j).pid }.setCapsule j
        { (s.processes j).capsule with state := .runnable } := by
  obtain ⟨k, hk⟩ := findProcess_isSome hj rfl (hinv.table.positive j hj)
  have hfound := findProcess_eq_some hk
  have hkj : k = j := hinv.distinct k j hfound.1 hj hfound.2.1
  rw [hkj] at hk
  simp only [step, setActiveProcess, hk, hlives, Bool.false_eq_true, if_false]

theorem PidInv.collectable (hinv : PidInv s) {j : Slot} (hi : (s.processes i).used)
    (hended : (s.processes i).zombie) (hj : (s.processes j).used)
    (hlives : (s.processes j).zombie = false)
    (hparent : (s.processes j).pid = (s.processes i).ppid) :
    (guestWaitpid (step s (.setActive (s.processes j).pid))
      ⟨false, (s.processes i).pid, 0, 0⟩ {}).1 = .value (s.processes i).pid none none := by
  have hactive := hinv.setActive hj hlives
  have hij : i ≠ j := by
    rintro rfl
    rw [hended] at hlives
    cases hlives
  have hsame : (step s (.setActive (s.processes j).pid)).processes i = s.processes i := by
    rw [hactive]
    exact setProcess_ne hij
  have hpid : (step s (.setActive (s.processes j).pid)).activePid = (s.processes j).pid := by
    rw [hactive]
    rfl
  have hnext : PidInv (step s (.setActive (s.processes j).pid)) :=
    hinv.quietly setActiveProcess_quiet
  have hchild := hnext.waitpid_child (i := i)
  rw [hsame, hpid] at hchild
  exact hchild hi hended hparent.symm

/-- What the table keeps to in a run with at most as many forks as there are pids. -/
structure TableOk (s : Store) : Prop where
  count : s.processCount = (usedSlots s).card
  positive : ∀ i, (s.processes i).used → 0 < (s.processes i).pid
  distinct : ∀ i j, (s.processes i).used → (s.processes j).used →
    (s.processes i).pid = (s.processes j).pid → i = j
  /-- A parent's pid names a process of the table until the parent is collected. -/
  parent : ∀ i, (s.processes i).used → (s.processes i).pid ≠ 1 →
    ((∃ j, (s.processes j).used ∧ (s.processes j).pid = (s.processes i).ppid) ↔
      ∀ q, .collected q (s.processes i).ppid ∉ s.history)
  /-- The parent is who forked the process, collected or not. -/
  forked : ∀ i, (s.processes i).used → (s.processes i).pid ≠ 1 →
    .forked (s.processes i).ppid (s.processes i).pid ∈ s.history
  /-- A live parent collects a child that has ended. -/
  collectable : ∀ i j, (s.processes i).used → (s.processes i).zombie → (s.processes j).used →
    (s.processes j).zombie = false → (s.processes j).pid = (s.processes i).ppid →
    (guestWaitpid (step s (.setActive (s.processes j).pid))
      ⟨false, (s.processes i).pid, 0, 0⟩ {}).1 = .value (s.processes i).pid none none

/-- In every run with at most as many forks as there are pids, `process_count`
counts the used slots, the pids of the table are positive and distinct, a process
other than the root keeps as its parent who forked it, who is in the table until
collected, and a live parent can collect every child that has ended. -/
theorem table_lineage (limit : Option Int) (ops : List Op)
    (hfew : ops.countP Op.isFork ≤ pidCount) : TableOk (run (init limit) ops) := by
  obtain ⟨hpids, hlineage⟩ :=
    lineage_run (pidInv_init limit) lineageInv_init (by rwa [Nat.zero_add])
  have hroot : ∀ {i}, ((run (init limit) ops).processes i).pid ≠ 1 → i ≠ 0 := by
    rintro i h1 rfl
    exact h1 hpids.table.root.2.1
  refine ⟨hpids.table.count, hpids.table.positive, hpids.distinct, fun i hi h1 => ⟨?_, ?_⟩,
    fun i hi h1 => hlineage.forked i hi (hroot h1), fun i j => hpids.collectable⟩
  · intro hparent q
    obtain ⟨j, hj, hpid⟩ := hparent
    rw [← hpid]
    exact hlineage.present j hj q
  · intro hnone
    apply (hlineage.parent i hi (hroot h1)).resolve_right
    rintro ⟨q, hmem⟩
    exact hnone q hmem

/-- The steps by which process 2 forks process 3 and is then collected. -/
def orphaned : List Op :=
  [.fork ⟨true, true, true⟩, .setActive 2, .fork ⟨true, true, true⟩, .exit 0, .setActive 1,
    .waitpid ⟨false, 2, 0, 0⟩ {}]

theorem table_lineage_orphaned : TableOk (run (init none) orphaned) :=
  table_lineage none orphaned (by decide)

/-- Process 3 keeps the parent pid 2, which no process of the table has. -/
theorem orphan_keeps_parent : let s := run (init none) orphaned
    ∃ i, (s.processes i).used ∧ (s.processes i).pid = 3 ∧ (s.processes i).ppid = 2 ∧
      ¬ ∃ j, (s.processes j).used ∧ (s.processes j).pid = (s.processes i).ppid := by
  decide

end Waste.ProcessTable
