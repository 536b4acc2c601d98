import Waste.Kernel.Frames

/-!
# What polling for signals changes

`Polled k w w'` is everything that the alarm and the terminal signals can change between
`w` and `w'`: the pending signals and the alarm of the kernel `k`, the signals that a
terminal holds back, and the number of clock readings.  Nothing that decides about
readiness is among it.
-/

namespace Waste.Kernel

open BitVec Bool List Option

variable {k : Nat} {w w' w'' : World}

theorem mapTerminal_id {ofd : Ofd} :
    ∃ s, ofd = ofd.mapTerminal fun t => { t with pendingSignals := s } := by
  obtain ⟨kind, -, -, -, -, -⟩ := ofd
  cases kind with
  | terminal t => exact ⟨t.pendingSignals, rfl⟩
  | stream t => exact ⟨t.pendingSignals, rfl⟩
  | _ => exact ⟨0, rfl⟩

theorem mapTerminal_mapTerminal (f g : Terminal → Terminal) (ofd : Ofd) :
    (ofd.mapTerminal f).mapTerminal g = ofd.mapTerminal fun t => g (f t) := by
  obtain ⟨kind, -, -, -, -, -⟩ := ofd
  cases kind <;> rfl

structure Polled (k : Nat) (w w' : World) : Prop where
  kernel : ∃ pending alarm,
    w'.kernel k = { w.kernel k with pendingSignals := pending, alarmActive := alarm }
  ofd : ∀ o, ∃ s, w'.ofd o = (w.ofd o).mapTerminal fun t => { t with pendingSignals := s }
  pipe : w'.pipe = w.pipe
  file : w'.file = w.file
  status : w'.status = w.status
  clock : w'.clock = w.clock
  reads : w.reads ≤ w'.reads

namespace Polled

theorem refl (k : Nat) (w : World) : Polled k w w :=
  ⟨⟨_, _, rfl⟩, fun _ => mapTerminal_id, rfl, rfl, rfl, rfl, le_refl _⟩

section

variable (h : Polled k w w')
include h

theorem trans (h' : Polled k w' w'') : Polled k w w'' := by
  refine ⟨?_, fun o => ?_, h'.pipe.trans h.pipe, h'.file.trans h.file, h'.status.trans h.status,
    h'.clock.trans h.clock, le_trans h.reads h'.reads⟩
  · obtain ⟨p, a, hk⟩ := h.kernel
    obtain ⟨p', a', hk'⟩ := h'.kernel
    rw [hk] at hk'
    exact ⟨p', a', hk'⟩
  · obtain ⟨s, ho⟩ := h.ofd o
    obtain ⟨s', ho'⟩ := h'.ofd o
    rw [ho, mapTerminal_mapTerminal] at ho'
    exact ⟨s', ho'⟩

theorem wait : (w'.kernel k).wait = (w.kernel k).wait := by
  obtain ⟨p, a, hk⟩ := h.kernel
  rw [hk]

theorem fds : (w'.kernel k).fds = (w.kernel k).fds := by
  obtain ⟨p, a, hk⟩ := h.kernel
  rw [hk]

theorem signalMask : (w'.kernel k).signalMask = (w.kernel k).signalMask := by
  obtain ⟨p, a, hk⟩ := h.kernel
  rw [hk]

theorem hasClock : (w'.kernel k).hasClock = (w.kernel k).hasClock := by
  obtain ⟨p, a, hk⟩ := h.kernel
  rw [hk]

theorem readiness (o : Nat) : readiness w' (w'.ofd o) = readiness w (w.ofd o) := by
  obtain ⟨s, ho⟩ := h.ofd o
  rw [ho]
  unfold Kernel.readiness
  rw [h.pipe, h.file]
  generalize w.ofd o = ofd
  obtain ⟨kind, -, -, -, -, -⟩ := ofd
  cases kind <;> rfl

theorem threshold (r : Readiness) (o minimum : Nat) :
    r.threshold (w'.ofd o) minimum = r.threshold (w.ofd o) minimum := by
  obtain ⟨s, ho⟩ := h.ofd o
  rw [ho]
  generalize w.ofd o = ofd
  obtain ⟨kind, -, -, -, -, -⟩ := ofd
  cases kind <;> rfl

theorem setKernel_raise {signal : Nat} :
    Polled k w (w'.setKernel k fun kernel => (kernel.signalRaise signal).2) := by
  refine { h with kernel := ?_ }
  obtain ⟨p, a, hk⟩ := h.kernel
  rw [World.setKernel_self]
  rcases signalRaise_cases (w'.kernel k) signal with hraise | hraise
  · rw [hraise, hk]
    exact ⟨_, _, rfl⟩
  · rw [hraise, hk]
    exact ⟨_, _, rfl⟩

end

end Polled

theorem clockNow_polled (k : Nat) (w : World) : Polled k w (clockNow w).2 :=
  ⟨⟨_, _, rfl⟩, fun _ => mapTerminal_id, rfl, rfl, rfl, rfl, Nat.le_succ _⟩

theorem alarmPoll_polled (k : Nat) (w : World) : Polled k w (alarmPoll k w) := by
  have hclock := clockNow_polled k w
  unfold alarmPoll
  dsimp only
  split
  · exact .refl k w
  split
  · exact hclock
  · refine ⟨?_, hclock.ofd, rfl, rfl, rfl, rfl, Nat.le_succ _⟩
    rw [World.setKernel_self]
    rcases signalRaise_cases { (clockNow w).2.kernel k with alarmActive := false } sigalrm with
      hraise | hraise <;> rw [hraise] <;> exact ⟨_, _, rfl⟩

theorem routeSignal_polled (k o : Nat) (w : World) (signal : Nat) :
    Polled k w (routeSignal k o w signal) := by
  unfold routeSignal
  split
  · have hset : Polled k w (w.setOfd o (·.mapTerminal fun t =>
        { t with pendingSignals := signalBitClear t.pendingSignals signal })) := by
      refine ⟨⟨_, _, rfl⟩, fun o' => ?_, rfl, rfl, rfl, rfl, le_refl _⟩
      by_cases ho : o' = o
      · subst ho
        rw [World.setOfd_self]
        generalize w.ofd o' = ofd
        obtain ⟨kind, -, -, -, -, -⟩ := ofd
        cases kind with
        | terminal t => exact ⟨signalBitClear t.pendingSignals signal, rfl⟩
        | stream t => exact ⟨signalBitClear t.pendingSignals signal, rfl⟩
        | _ => exact ⟨0, rfl⟩
      · have hother : (w.setOfd o (·.mapTerminal fun t =>
            { t with pendingSignals := signalBitClear t.pendingSignals signal })).ofd o' =
              w.ofd o' :=
          Function.update_of_ne ho _ _
        rw [hother]
        exact mapTerminal_id
    exact hset.setKernel_raise
  · exact .refl k w

theorem routeTerminalSignals_polled (k : Nat) (w : World) :
    Polled k w (routeTerminalSignals k w) := by
  unfold routeTerminalSignals
  dsimp only
  split
  · exact .refl k w
  split
  · exact .refl k w
  · exact foldlRecOn _ _ (.refl k w) fun w' hw a _ => hw.trans (routeSignal_polled k _ w' a)

theorem pollSignals_polled (k : Nat) (w : World) : Polled k w (pollSignals k w) :=
  (alarmPoll_polled k w).trans (routeTerminalSignals_polled k _)

/-! ## A terminal gives its signals up once -/

theorem signalBitTest_clear {set : SigSet} (signal other : Nat) :
    signalBitTest (signalBitClear set signal) other =
      (signalBitTest set other && !decide (other - 1 = signal - 1)) := by
  unfold signalBitTest signalBitClear
  rw [getLsbD_and, getLsbD_not, getLsbD_shiftLeft, getLsbD_one]
  by_cases hlt : other - 1 < 128
  · by_cases heq : other - 1 = signal - 1
    · simp [heq] at hlt ⊢
    · simp [hlt, heq]
      omega
  · rw [getLsbD_of_ge set _ (by omega)]
    simp

theorem routeSignal_pending (k o : Nat) (w : World) (signal other : Nat) :
    signalBitTest ((routeSignal k o w signal).ofd o).terminalPending other =
      (signalBitTest (w.ofd o).terminalPending other && !decide (other - 1 = signal - 1)) := by
  unfold routeSignal
  split
  · next htest =>
    have hself : ((w.setOfd o (·.mapTerminal fun t =>
        { t with pendingSignals := signalBitClear t.pendingSignals signal })).setKernel k
          fun kernel => (kernel.signalRaise signal).2).ofd o =
        (w.ofd o).mapTerminal fun t =>
          { t with pendingSignals := signalBitClear t.pendingSignals signal } :=
      Function.update_self _ _ _
    rw [hself]
    generalize w.ofd o = ofd at htest
    obtain ⟨kind, refs, status, input, output, mode⟩ := ofd
    cases kind with
    | terminal t => exact signalBitTest_clear signal other
    | _ => exact absurd htest (by simp [Ofd.terminalPending, signalBitTest])
  · next htest =>
    by_cases heq : other - 1 = signal - 1
    · have hother : signalBitTest (w.ofd o).terminalPending other = false := by
        rw [← not_eq_true]
        unfold signalBitTest at htest ⊢
        rw [heq]
        exact htest
      simp [hother]
    · simp [heq]

theorem foldl_pending (k o : Nat) {l : List Nat} (w : World) {signal : Nat} (h : signal ∈ l) :
    signalBitTest ((l.foldl (routeSignal k o) w).ofd o).terminalPending signal = false := by
  have hkeeps : ∀ (l : List Nat) (w : World),
      signalBitTest (w.ofd o).terminalPending signal = false →
      signalBitTest ((l.foldl (routeSignal k o) w).ofd o).terminalPending signal = false := by
    intro l w hw
    refine l.foldlRecOn (motive := fun w : World =>
      signalBitTest (w.ofd o).terminalPending signal = false) _ hw fun w' hw' s _ => ?_
    rw [routeSignal_pending, hw', Bool.false_and]
  induction l generalizing w with
  | nil => exact absurd h not_mem_nil
  | cons s rest ih =>
    rcases mem_cons.mp h with rfl | hrest
    · refine hkeeps rest _ ?_
      rw [routeSignal_pending]
      simp
    · exact ih _ hrest

theorem foldl_route_quiet (k o : Nat) {l : List Nat} (w : World)
    (h : ∀ signal ∈ l, signalBitTest (w.ofd o).terminalPending signal = false) :
    l.foldl (routeSignal k o) w = w := by
  induction l with
  | nil => rfl
  | cons s _ ih =>
    have hskip : routeSignal k o w s = w := by
      unfold routeSignal
      rw [if_neg]
      rw [h s mem_cons_self]
      exact false_ne_true
    rw [foldl_cons, hskip]
    exact ih fun signal hs => h signal (mem_cons_of_mem s hs)

theorem Polled.foregroundTerminal (h : Polled k w w') (fd : Fin fdMax) :
    foregroundTerminal w' k fd = foregroundTerminal w k fd := by
  obtain ⟨p, a, hk⟩ := h.kernel
  unfold Kernel.foregroundTerminal
  rw [hk]
  dsimp only
  cases (w.kernel k).fds fd with
  | none => rfl
  | some entry =>
    obtain ⟨s, ho⟩ := h.ofd entry.ofd
    simp only [bind_some]
    rw [ho]
    generalize w.ofd entry.ofd = ofd
    obtain ⟨kind, -, -, -, -, -⟩ := ofd
    cases kind <;> rfl

theorem routeTerminalSignals_idem (k : Nat) (w : World) :
    routeTerminalSignals k (routeTerminalSignals k w) = routeTerminalSignals k w := by
  have hpolled := routeTerminalSignals_polled k w
  by_cases hguard : (w.kernel k).processGroupId ≤ 0 ∨ (!(w.kernel k).hasControllingTerminal) = true
  · have hsame : routeTerminalSignals k w = w := by
      unfold routeTerminalSignals
      rw [if_pos hguard]
    rw [hsame, hsame]
  cases hfind : allFds.findSome? (foregroundTerminal w k) with
  | none =>
    have hsame : routeTerminalSignals k w = w := by
      unfold routeTerminalSignals
      rw [if_neg hguard, hfind]
    rw [hsame, hsame]
  | some o =>
    have hrun : routeTerminalSignals k w = signals.foldl (routeSignal k o) w := by
      unfold routeTerminalSignals
      rw [if_neg hguard, hfind]
    obtain ⟨p, a, hk⟩ := hpolled.kernel
    have hguard' : ¬(((routeTerminalSignals k w).kernel k).processGroupId ≤ 0 ∨
        (!((routeTerminalSignals k w).kernel k).hasControllingTerminal) = true) := by
      rw [hk]
      exact hguard
    have hfind' : allFds.findSome? (foregroundTerminal (routeTerminalSignals k w) k) = some o := by
      rw [← hfind]
      exact congrArg (allFds.findSome? ·) (funext hpolled.foregroundTerminal)
    rw [routeTerminalSignals.eq_def k (routeTerminalSignals k w)]
    rw [if_neg hguard', hfind']
    refine foldl_route_quiet k o _ fun signal hs => ?_
    rw [hrun]
    exact foldl_pending k o w hs

end Waste.Kernel
