import Waste.Process.Steps

/-!
# Process families

The invariants of the process table over all runs.

Some of them hold in every run: the root keeps its slot, pids are positive, and
`process_count` counts the used slots.  The others need that a fork does not hand
out a pid that the table still knows.  The pid counter starts over after
`INT32_MAX` and does not look at the table, so this is a condition on the runs:
`FreshFork` at every fork, or fewer forks than there are pids.

`Since` is how the history tells two processes with one pid apart.  A process is
the fork that made it, and `Since` cuts the history at that fork.
-/

namespace Waste.ProcessTable

open Bool

variable {s t : Store}
variable {r : WaitpidReply × Store} {call : WaitpidCall}

/-! ## What holds in every run -/

def usedSlots (s : Store) : Finset Slot :=
  Finset.univ.filter fun i => (s.processes i).used

variable {i slot parent : Slot} {pid : Int} {history : List Event}
variable (limit : Option Int)

theorem mem_usedSlots : i ∈ usedSlots s ↔ (s.processes i).used := by
  simp [usedSlots]

structure TableInv (s : Store) : Prop where
  root : (s.processes 0).used ∧ (s.processes 0).pid = 1 ∧ (s.processes 0).ppid = 0
  positive : ∀ i, (s.processes i).used → 0 < (s.processes i).pid
  count : s.processCount = (usedSlots s).card
  active : 0 < s.activePid

theorem tableInv_init : TableInv (init limit) where
  root := ⟨rfl, rfl, rfl⟩
  positive := by
    intro i
    rcases eq_or_ne i 0 with rfl | hne
    · exact fun _ => one_pos
    · simp [init, hne]
  count := by
    rfl
  active := one_pos

theorem forkPid_pos : 0 < forkPid s := by
  unfold forkPid
  split_ifs <;> omega

theorem usedSlots_of_used_eq (h : ∀ i, (t.processes i).used = (s.processes i).used) :
    usedSlots t = usedSlots s := by
  ext i
  rw [mem_usedSlots, mem_usedSlots, h i]

theorem usedSlots_addChild (parent slot : Slot) :
    usedSlots (addChild s parent slot) = insert slot (usedSlots s) := by
  ext i
  rw [Finset.mem_insert, mem_usedSlots, mem_usedSlots]
  rcases eq_or_ne i slot with rfl | hne
  · simp
  · simp [hne]

theorem usedSlots_collect (parent : Int) (i : Slot) :
    usedSlots (collect s parent i) = (usedSlots s).erase i := by
  ext j
  rw [Finset.mem_erase, mem_usedSlots, mem_usedSlots]
  rcases eq_or_ne j i with rfl | hne
  · simp
  · simp [hne]

section

variable (hinv : TableInv s)
include hinv

theorem TableInv.of_sameTable (h : SameTable s t) (hactive : 0 < t.activePid) : TableInv t where
  root := by rw [h.used, h.pid, h.ppid]; exact hinv.root
  positive i := by rw [h.used, h.pid]; exact hinv.positive i
  count := by rw [h.processCount, usedSlots_of_used_eq h.used]; exact hinv.count
  active := hactive

theorem TableInv.root_ne_of_free (hfree : (s.processes slot).used = false) : (0 : Slot) ≠ slot := by
  intro h
  rw [← h, hinv.root.1] at hfree
  cases hfree

theorem TableInv.addChild (hfree : (s.processes slot).used = false) :
    TableInv (addChild s parent slot) where
  root := by
    rw [addChild_ne (hinv.root_ne_of_free hfree)]
    exact hinv.root
  positive i := by
    rcases eq_or_ne i slot with rfl | hne
    · rw [addChild_self]
      exact fun _ => forkPid_pos
    · rw [addChild_ne hne]
      exact hinv.positive i
  count := by
    have hnew : slot ∉ usedSlots s := by
      rw [mem_usedSlots, hfree]
      exact false_ne_true
    show s.processCount + 1 = _
    rw [usedSlots_addChild, Finset.card_insert_of_notMem hnew, hinv.count]
    rfl
  active := hinv.active

/-- Clearing a slot that is free changes nothing that the table knows. -/
theorem TableInv.discarded (hfree : (s.processes slot).used = false) :
    TableInv ((advancePid s).setProcess slot {}) where
  root := by
    rw [setProcess_ne (hinv.root_ne_of_free hfree)]
    exact hinv.root
  positive i := by
    rcases eq_or_ne i slot with rfl | hne
    · rw [setProcess_self]
      exact fun h => absurd h false_ne_true
    · rw [setProcess_ne hne]
      exact hinv.positive i
  count := by
    have hsame : usedSlots ((advancePid s).setProcess slot {}) = usedSlots s := by
      apply usedSlots_of_used_eq
      intro i
      rcases eq_or_ne i slot with rfl | hne
      · rw [setProcess_self, hfree]
      · rw [setProcess_ne hne]
        rfl
    rw [hsame]
    exact hinv.count
  active := hinv.active

theorem TableInv.forks (h : Forks s t) : TableInv t := by
  cases h with
  | refused => exact hinv
  | lock => exact { hinv with }
  | discarded slot hfree => exact hinv.discarded hfree
  | made _ slot _ hfree => exact hinv.addChild hfree

theorem TableInv.root_ne_of_matches (h : Matches s.activePid pid (s.processes i)) :
    (0 : Slot) ≠ i := by
  intro hi
  have hppid := h.2.1
  rw [← hi, hinv.root.2.2] at hppid
  exact absurd hinv.active (by omega)

theorem TableInv.collect (hchild : Matches s.activePid pid (s.processes i)) :
    TableInv (collect s s.activePid i) where
  root := by
    rw [collect_ne (hinv.root_ne_of_matches hchild)]
    exact hinv.root
  positive j := by
    rcases eq_or_ne j i with rfl | hne
    · rw [collect_self]
      exact fun h => absurd h false_ne_true
    · rw [collect_ne hne]
      exact hinv.positive j
  count := by
    have hmem : i ∈ usedSlots s := mem_usedSlots.mpr hchild.1
    have hcard := Finset.card_erase_of_mem hmem
    show (if s.processCount > 0 then s.processCount - 1 else s.processCount) = _
    rw [usedSlots_collect, hcard, hinv.count]
    split_ifs <;> omega
  active := hinv.active

theorem TableInv.record (e : Event) : TableInv (s.record e) :=
  { hinv with }

end

/-! ## The history since a fork -/

/-- The status that `pid` ended with last. -/
def lastStatus (pid : Int) : List Event → Option Int
  | [] => none
  | .exited p status :: rest => if p = pid then some status else lastStatus pid rest
  | _ :: rest => lastStatus pid rest

/-- `since` is what happened since `parent` forked `pid`: no later fork made a
process with one of the two pids, and no `waitpid` returned the child. -/
structure Since (history : List Event) (parent pid : Int) (since : List Event) : Prop where
  fork : ∃ before, history = since ++ .forked parent pid :: before
  child : ∀ q, .forked q pid ∉ since
  parent : ∀ q, .forked q parent ∉ since
  unreturned : ∀ caller status, .returned caller pid status ∉ since

theorem Since.cons {since : List Event} {parent : Int} {e : Event}
    (h : Since history parent pid since) (hchild : ∀ q, e ≠ .forked q pid)
    (hparent : ∀ q, e ≠ .forked q parent)
    (hreturned : ∀ caller status, e ≠ .returned caller pid status) :
    Since (e :: history) parent pid (e :: since) where
  fork := by
    obtain ⟨before, hbefore⟩ := h.fork
    exact ⟨before, by rw [hbefore]; rfl⟩
  child q hmem := by
    rcases List.mem_cons.mp hmem with heq | hmem
    · exact hchild q heq.symm
    · exact h.child q hmem
  parent q hmem := by
    rcases List.mem_cons.mp hmem with heq | hmem
    · exact hparent q heq.symm
    · exact h.parent q hmem
  unreturned caller status hmem := by
    rcases List.mem_cons.mp hmem with heq | hmem
    · exact hreturned caller status heq.symm
    · exact h.unreturned caller status hmem

/-- The history has the fork that made `p` and, once `p` has ended, its status. -/
def Recorded (history : List Event) (p : Process) : Prop :=
  ∃ since, Since history p.ppid p.pid since ∧
    (p.zombie → lastStatus p.pid since = some p.exitStatus)

theorem Recorded.cons {p : Process} {e : Event} (h : Recorded history p)
    (hchild : ∀ q, e ≠ .forked q p.pid) (hparent : ∀ q, e ≠ .forked q p.ppid)
    (hreturned : ∀ caller status, e ≠ .returned caller p.pid status)
    (hexited : ∀ status, e ≠ .exited p.pid status) : Recorded (e :: history) p := by
  obtain ⟨since, hsince, hstatus⟩ := h
  refine ⟨e :: since, hsince.cons hchild hparent hreturned, fun hended => ?_⟩
  rw [← hstatus hended]
  cases e with
  | exited _ status =>
    rw [lastStatus, if_neg]
    intro heq
    exact hexited status (by rw [heq])
  | forked | collected | returned => rfl

theorem Recorded.ended {p : Process} (h : Recorded history p) (status : Int) :
    Recorded (.exited p.pid status :: history) (p.ended status) := by
  obtain ⟨since, hsince, -⟩ := h
  refine ⟨.exited p.pid status :: since, hsince.cons ?_ ?_ ?_, fun _ => ?_⟩
  · intro q h
    cases h
  · intro q h
    cases h
  · intro caller status h
    cases h
  · exact if_pos rfl

/-! ## Runs with fresh pids -/

/-- The next fork hands out a pid that is neither the pid nor the parent's pid of
a process in the table. -/
def FreshFork (s : Store) : Prop :=
  ∀ i, (s.processes i).used → (s.processes i).pid ≠ forkPid s ∧ (s.processes i).ppid ≠ forkPid s

/-- The pids of the table tell its processes apart. -/
structure PidInv (s : Store) : Prop where
  table : TableInv s
  distinct : ∀ i j, (s.processes i).used → (s.processes j).used →
    (s.processes i).pid = (s.processes j).pid → i = j
  running : ∃ i, (s.processes i).used ∧ (s.processes i).pid = s.activePid
  notOwn : ∀ i, (s.processes i).used → (s.processes i).ppid ≠ (s.processes i).pid

theorem used_init {limit : Option Int} (h : ((init limit).processes i).used) : i = 0 := by
  by_contra hne
  simp [init, hne] at h

theorem pidInv_init : PidInv (init limit) := by
  refine ⟨tableInv_init limit, ?_, ⟨0, rfl, rfl⟩, ?_⟩
  · intro i j hi hj _
    rw [used_init hi, used_init hj]
  · intro i hi
    rw [used_init hi]
    exact (by decide : (0 : Int) ≠ 1)

section

variable (hinv : PidInv s)
include hinv

theorem PidInv.of_sameTable (h : SameTable s t)
    (hrunning : ∃ i, (s.processes i).used ∧ (s.processes i).pid = t.activePid) : PidInv t where
  table := by
    apply hinv.table.of_sameTable h
    obtain ⟨i, hused, hpid⟩ := hrunning
    rw [← hpid]
    exact hinv.table.positive i hused
  distinct i j := by
    rw [h.used, h.used, h.pid, h.pid]
    exact hinv.distinct i j
  running := by
    obtain ⟨i, hused, hpid⟩ := hrunning
    exact ⟨i, by rw [h.used]; exact hused, by rw [h.pid]; exact hpid⟩
  notOwn i := by
    rw [h.used, h.ppid, h.pid]
    exact hinv.notOwn i

theorem PidInv.quiet (h : Quiet s t) : PidInv t := by
  apply hinv.of_sameTable h.sameTable
  cases h with
  | capsule | exit => exact hinv.running
  | activate i hused => exact ⟨i, hused, rfl⟩

theorem PidInv.quietly (h : Quietly s t) : PidInv t := by
  induction h with
  | refl => exact hinv
  | tail _ hlast ih => exact ih.quiet hlast

omit hinv in
theorem ne_of_used_of_free (hused : (s.processes i).used)
    (hfree : (s.processes slot).used = false) : i ≠ slot := by
  intro heq
  rw [heq, hfree] at hused
  cases hused

theorem PidInv.forked (hparent : activeProcess s = some parent)
    (hfree : (s.processes slot).used = false) (hfresh : FreshFork s) :
    PidInv (addChild s parent slot) := by
  refine ⟨hinv.table.addChild hfree, ?_, ?_, ?_⟩
  · intro i j
    by_cases hi : i = slot
    · by_cases hj : j = slot
      · exact fun _ _ _ => hi.trans hj.symm
      · rw [hi, addChild_self, addChild_ne hj]
        exact fun _ hused heq => absurd heq.symm (hfresh j hused).1
    · by_cases hj : j = slot
      · rw [hj, addChild_self, addChild_ne hi]
        exact fun hused _ heq => absurd heq (hfresh i hused).1
      · rw [addChild_ne hi, addChild_ne hj]
        exact hinv.distinct i j
  · obtain ⟨i, hused, hpid⟩ := hinv.running
    refine ⟨i, ?_⟩
    rw [addChild_ne (ne_of_used_of_free hused hfree)]
    exact ⟨hused, hpid⟩
  · intro i
    rcases eq_or_ne i slot with rfl | hi
    · rw [addChild_self]
      exact fun _ => (hfresh parent (used_of_activeProcess hparent)).1
    · rw [addChild_ne hi]
      exact hinv.notOwn i

theorem PidInv.restrict (htable : TableInv t)
    (hsame : ∀ i, (t.processes i).used → t.processes i = s.processes i)
    (hrunning : ∃ i, (t.processes i).used ∧ (t.processes i).pid = t.activePid) : PidInv t where
  table := htable
  distinct i j hi hj := by
    rw [hsame i hi, hsame j hj]
    exact hinv.distinct i j (hsame i hi ▸ hi) (hsame j hj ▸ hj)
  running := hrunning
  notOwn i hi := by
    rw [hsame i hi]
    exact hinv.notOwn i (hsame i hi ▸ hi)

omit hinv in
theorem discarded_of_used (h : (((advancePid s).setProcess slot {}).processes i).used) :
    ((advancePid s).setProcess slot {}).processes i = s.processes i := by
  rcases eq_or_ne i slot with rfl | hne
  · rw [setProcess_self] at h
    cases h
  · rw [setProcess_ne hne]
    rfl

omit hinv in
theorem collect_of_used {parent : Int} {j : Slot} (h : ((collect s parent i).processes j).used) :
    (collect s parent i).processes j = s.processes j := by
  rcases eq_or_ne j i with rfl | hne
  · rw [collect_self] at h
    cases h
  · exact collect_ne hne

theorem PidInv.discarded (hfree : (s.processes slot).used = false) :
    PidInv ((advancePid s).setProcess slot {}) := by
  apply hinv.restrict (hinv.table.discarded hfree) fun _ => discarded_of_used
  obtain ⟨i, hused, hpid⟩ := hinv.running
  refine ⟨i, ?_⟩
  rw [setProcess_ne (ne_of_used_of_free hused hfree)]
  exact ⟨hused, hpid⟩

theorem PidInv.forks (hfresh : FreshFork s) (h : Forks s t) : PidInv t := by
  cases h with
  | refused => exact hinv
  | lock => exact { hinv with table := hinv.table.forks .lock }
  | discarded slot hfree => exact hinv.discarded hfree
  | made _ slot hparent hfree => exact hinv.forked hparent hfree hfresh

theorem PidInv.collected (hchild : Matches s.activePid pid (s.processes i)) :
    PidInv (collect s s.activePid i) := by
  apply hinv.restrict (hinv.table.collect hchild) fun _ => collect_of_used
  obtain ⟨j, hused, hpid⟩ := hinv.running
  have hne : j ≠ i := by
    intro heq
    rw [heq] at hpid
    exact hinv.notOwn i hchild.1 (hchild.2.1.trans hpid.symm)
  refine ⟨j, ?_⟩
  rw [collect_ne hne]
  exact ⟨hused, hpid⟩

theorem PidInv.record (e : Event) : PidInv (s.record e) :=
  { hinv with table := hinv.table.record e }

theorem PidInv.waitpid (h : WaitpidCases s call r) : PidInv r.2 := by
  cases h with
  | fails | noChild | nothing | unwinds | replayLost => exact hinv
  | blocked t hquiet => exact hinv.quietly hquiet
  | lost i hchild hended => exact hinv.collected hchild
  | returned i hchild hended => exact (hinv.collected hchild).record _
  | replayed h => exact hinv.record _

end

/-! ## The history tells where every process comes from -/

structure FamilyInv (s : Store) : Prop extends PidInv s where
  recorded : ∀ i, (s.processes i).used → i ≠ 0 → Recorded s.history (s.processes i)

theorem familyInv_init : FamilyInv (init limit) where
  toPidInv := pidInv_init limit
  recorded _ hi hne := absurd (used_init hi) hne

section

variable (hinv : FamilyInv s)
include hinv

theorem FamilyInv.quiet (h : Quiet s t) : FamilyInv t where
  toPidInv := hinv.toPidInv.quiet h
  recorded j hj h0 := by
    have hrec := hinv.recorded j (h.sameTable.used j ▸ hj) h0
    cases h with
    | activate i hused => exact hrec
    | capsule i c =>
      rcases eq_or_ne j i with rfl | hji
      · rw [Store.setCapsule, setProcess_self]
        exact hrec
      · rw [Store.setCapsule, setProcess_ne hji]
        exact hrec
    | exit i status hused =>
      rcases eq_or_ne j i with rfl | hji
      · show Recorded _ ((s.setProcess j _).processes j)
        rw [setProcess_self]
        exact hrec.ended status
      change ((s.setProcess i _).processes j).used at hj
      show Recorded _ ((s.setProcess i _).processes j)
      rw [setProcess_ne hji] at hj ⊢
      apply hrec.cons
      · intro q h
        cases h
      · intro q h
        cases h
      · intro caller status h
        cases h
      · intro status h
        injection h with hpid
        exact hji (hinv.distinct j i hj hused hpid.symm)

theorem FamilyInv.quietly (h : Quietly s t) : FamilyInv t := by
  induction h with
  | refl => exact hinv
  | tail _ hlast ih => exact ih.quiet hlast

theorem FamilyInv.forked (hparent : activeProcess s = some parent)
    (hfree : (s.processes slot).used = false) (hfresh : FreshFork s) :
    FamilyInv (addChild s parent slot) where
  toPidInv := hinv.toPidInv.forked hparent hfree hfresh
  recorded i := by
    rcases eq_or_ne i slot with rfl | hi
    · intro _ _
      rw [addChild_self]
      exact ⟨[], ⟨⟨_, rfl⟩, by simp, by simp, by simp⟩, fun h => absurd h false_ne_true⟩
    rw [addChild_ne hi]
    intro hused h0
    apply (hinv.recorded i hused h0).cons
    · intro q h
      injection h with _ hpid
      exact (hfresh i hused).1 hpid.symm
    · intro q h
      injection h with _ hpid
      exact (hfresh i hused).2 hpid.symm
    · intro caller status h
      cases h
    · intro status h
      cases h

theorem FamilyInv.forks (hfresh : FreshFork s) (h : Forks s t) : FamilyInv t := by
  cases h with
  | refused => exact hinv
  | lock => exact ⟨hinv.toPidInv.forks hfresh .lock, hinv.recorded⟩
  | discarded slot hfree =>
    refine ⟨hinv.toPidInv.discarded hfree, fun i hi h0 => ?_⟩
    have hsame := discarded_of_used hi
    rw [hsame] at hi ⊢
    exact hinv.recorded i hi h0
  | made _ slot hparent hfree => exact hinv.forked hparent hfree hfresh

theorem FamilyInv.collected (hchild : Matches s.activePid pid (s.processes i)) :
    FamilyInv (collect s s.activePid i) where
  toPidInv := hinv.toPidInv.collected hchild
  recorded j hj h0 := by
    have hsame := collect_of_used hj
    rw [hsame] at hj ⊢
    apply (hinv.recorded j hj h0).cons
    · intro q h
      cases h
    · intro q h
      cases h
    · intro caller status h
      cases h
    · intro status h
      cases h

/-- The child that a `waitpid` returns is no longer in the table, so recording
that it was returned says nothing of the processes that are. -/
theorem FamilyInv.returned (hchild : Matches s.activePid pid (s.processes i)) :
    FamilyInv ((collect s s.activePid i).record
      (.returned s.activePid (s.processes i).pid (s.processes i).exitStatus)) where
  toPidInv := (hinv.toPidInv.collected hchild).record _
  recorded j hused h0 := by
    change ((collect s s.activePid i).processes j).used at hused
    have hji : j ≠ i := by
      intro heq
      rw [heq, collect_self] at hused
      cases hused
    have hsame := collect_of_used hused
    apply ((hinv.collected hchild).recorded j hused h0).cons
    · intro q h
      cases h
    · intro q h
      cases h
    · intro caller status h
      injection h with _ hpid
      rw [hsame] at hpid hused
      exact hji (hinv.distinct j i hused hchild.1 hpid.symm)
    · intro status h
      cases h

theorem FamilyInv.waitpid
    (hreplay : ¬ Replays s call) (h : WaitpidCases s call r) : FamilyInv r.2 := by
  cases h with
  | fails | noChild | nothing | unwinds | replayLost => exact hinv
  | blocked t hquiet => exact hinv.quietly hquiet
  | lost i hchild hended => exact hinv.collected hchild
  | returned i hchild hended => exact hinv.returned hchild
  | replayed h => exact absurd h hreplay

/-- A fork hands out a fresh pid, and a `waitpid` does not answer with the pid
that was waited for last. -/
def Meets (s : Store) : Op → Prop
  | .fork _ => FreshFork s
  | .waitpid call answers => checkWaitpid call answers = none → ¬ Replays s call
  | _ => True

/-- Every step of the run meets the condition in the state it starts from. -/
def MeetsAll (s : Store) : List Op → Prop
  | [] => True
  | op :: rest => Meets s op ∧ MeetsAll (step s op) rest

instance : Decidable (FreshFork s) :=
  inferInstanceAs (Decidable (∀ _, _ → _))

instance (call : WaitpidCall) : Decidable (Replays s call) :=
  inferInstanceAs (Decidable (_ ∧ _ ∧ _ ∧ ∀ _, _))

instance (op : Op) : Decidable (Meets s op) :=
  match op with
  | .fork _ => inferInstanceAs (Decidable (FreshFork s))
  | .waitpid call answers =>
    inferInstanceAs (Decidable (checkWaitpid call answers = none → ¬ Replays s call))
  | .setActive _ | .exit _ | .signal .. | .signalGroup .. | .signalForeground .. | .terminate _
  | .completeHandler _ | .completeHandlerDefault _ | .completeHandlerSignal _
  | .completeHandlerAndWake _ | .completeHandlerAndWakeDefault _
  | .completeHandlerResultAndWake | .wake .. | .capsule .. => .isTrue trivial

instance decidableMeetsAll : (s : Store) → (ops : List Op) → Decidable (MeetsAll s ops)
  | _, [] => .isTrue trivial
  | s, op :: rest =>
    have := decidableMeetsAll (step s op) rest
    inferInstanceAs (Decidable (Meets s op ∧ MeetsAll (step s op) rest))

theorem FamilyInv.step {op : Op} (hmeets : Meets s op) : FamilyInv (step s op) := by
  rcases step_cases op with ⟨-, hquiet⟩ | ⟨answers, rfl⟩ | ⟨call, answers, rfl⟩
  · exact hinv.quietly hquiet
  · exact hinv.forks hmeets (forkProcess_forks answers)
  cases hcheck : checkWaitpid call answers with
  | none =>
    exact hinv.waitpid (hmeets hcheck) (guestWaitpid_cases hinv.table.positive call answers)
  | some _ =>
    simp only [ProcessTable.step, guestWaitpid, hcheck]
    exact hinv

theorem familyInv_run {ops : List Op} (hmeets : MeetsAll s ops) : FamilyInv (run s ops) := by
  induction ops generalizing s with
  | nil => exact hinv
  | cons _ _ ih => exact ih (hinv.step hmeets.1) hmeets.2

end

end Waste.ProcessTable
