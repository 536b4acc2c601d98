import Waste.Kernel.Waiting
import Waste.Kernel.Pipes

/-!
# What `select` reports and what a call would do

`posix_kernel_query_readiness` and the read and write paths are separate case analyses over
the kinds of descriptions.  They agree but in two places: a regular file at its end is not
readable, although a read answers 0 at once, as it does at the end of every other kind, and a
pipe without readers is not writable, although a write answers `EPIPE` at once; the pipe is in
the third set instead.
-/

namespace Waste.Kernel

open StateExcept Prod

variable {w : World} {k : Nat} {ofd : Ofd}

/-- Is the description open for reading? -/
def Ofd.opensRead (ofd : Ofd) : Bool :=
  match ofd.kind with
  | .stream _ => 0 ≤ ofd.inputHandle
  | .terminal _ => ofd.streamMode = 0 || 0 ≤ ofd.inputHandle
  | .pipeRead _ => true
  | .pipeWrite _ => false
  | .regular r => r.readable
  | .directory _ _ => true
  | .null _ readable _ => readable

def Ofd.opensWrite (ofd : Ofd) : Bool :=
  match ofd.kind with
  | .stream _ => 0 ≤ ofd.outputHandle
  | .terminal _ => ofd.streamMode = 0 || 0 ≤ ofd.outputHandle
  | .pipeRead _ => false
  | .pipeWrite _ => true
  | .regular r => r.writable
  | .directory _ _ => false
  | .null _ _ writable => writable

/-- A regular file whose offset is not below its size. -/
def Ofd.atFileEnd (w : World) (ofd : Ofd) : Prop :=
  ∃ r, ofd.kind = .regular r ∧ (w.file r.file).data.length ≤ r.offset

/-- The same world with `O_NONBLOCK` on the description `o`. -/
def World.withNonblock (w : World) (o : Nat) : World :=
  w.setStatus (w.ofd o).status fun status => { status with flags := status.flags ||| oNonblock }

/-- The answer of a read of one byte with `O_NONBLOCK`. -/
def readNow (w : World) (k : Nat) (fd : Int) (o : Nat) : Except Errno (List UInt8) :=
  (exec (kernelRead k fd 1) (w.withNonblock o)).1

def writeNow (w : World) (k : Nat) (fd : Int) (o : Nat) (byte : UInt8) : Except Errno Nat :=
  (exec (kernelWrite k fd [byte]) (w.withNonblock o)).1

/-! ## One call -/

theorem takeInput_now (k o : Nat) (t : Terminal) (n : Nat) (w : World) :
    (exec (takeInput k o t n) w).1 ≠ .error .eagain := nofun

theorem blockRead_now {α : Type} (k : Nat) (register : KernelM Unit) (w : World) :
    (exec (blockRead k true register : KernelM α) w).1 = .error .eagain := rfl

theorem readEmptyTerminal_now (fd : Int) (t : Terminal) :
    (exec (readEmptyTerminal k fd t true 1) w).1 = .error .eagain ↔ t.eof = false := by
  unfold readEmptyTerminal
  cases t.eof with
  | true => exact ⟨(nomatch ·), (nomatch ·)⟩
  | false => exact ⟨fun _ => rfl, fun _ => rfl⟩

theorem readRaw_now (fd : Int) (o : Nat) (t : Terminal) :
    (exec (readRaw k fd o t true 1) w).1 ≠ .error .eagain := by
  unfold readRaw
  rw [if_neg (by simp)]
  exact takeInput_now k o t _ w

theorem readTerminal_now (fd : Int) (o : Nat) (t : Terminal)
    (hopen : ¬(ofd.streamMode ≠ 0 ∧ ofd.inputHandle < 0)) :
    (exec (readTerminal k fd o ofd t true 1) w).1 = .error .eagain ↔ t.eof = false ∧
      (t.input.isEmpty = true ∨ t.canonical = true ∧ t.input.contains newline = false) := by
  unfold readTerminal
  rw [if_neg hopen]
  cases t.input.isEmpty with
  | true => simp [readEmptyTerminal_now]
  | false =>
    cases t.canonical <;> cases t.input.contains newline <;> cases t.eof <;>
      simp [takeInput_now, blockRead_now, readRaw_now]

theorem readPipe_now (fd : Int) (p : Nat) : (exec (readPipe k fd p true 1) w).1 = .error .eagain ↔
      (w.pipe p).buffer = [] ∧ (w.pipe p).writers ≠ 0 := by
  unfold readPipe
  rw [exec_bind, exec_get]
  dsimp only
  by_cases hempty : (w.pipe p).buffer = []
  · by_cases hwriters : (w.pipe p).writers = 0 <;> simp [hempty, hwriters, blockRead_now]
  · rw [if_neg (by simpa using hempty)]
    exact ⟨(nomatch ·), fun h => absurd h.1 hempty⟩

theorem readRegular_now (o : Nat) {r : Regular} (hopen : r.readable = true) :
    (exec (readRegular o r 1) w).1 ≠ .error .eagain := by
  unfold readRegular
  rw [hopen, Bool.not_true, if_neg Bool.false_ne_true, exec_bind, exec_get]
  dsimp only
  split <;> exact nofun

/-- `select` calls a description readable exactly when a read of one byte with `O_NONBLOCK`
does not answer `EAGAIN`, but for a file at its end. -/
theorem readKind_now (fd : Int) (o : Nat) (hread : ofd.opensRead = true) :
    ((readiness w ofd).pollIn || (readiness w ofd).pollHup) = true ↔
      (exec (readKind k fd o ofd true 1) w).1 ≠ .error .eagain ∧ ¬ofd.atFileEnd w := by
  obtain ⟨kind, refs, status, input, output, mode⟩ := ofd
  cases kind with
  | stream t =>
    have hopen : 0 ≤ input := of_decide_eq_true hread
    cases hempty : t.input.isEmpty <;> cases heof : t.eof <;>
      simp [readiness, readKind, readStream, Ofd.atFileEnd, hempty, heof, hopen,
        not_lt.mpr hopen, takeInput_now, blockRead_now]
  | terminal t =>
    have hopen : ¬(mode ≠ 0 ∧ input < 0) := by
      simpa [Ofd.opensRead, or_iff_not_imp_left] using hread
    rw [ne_eq, readKind, readTerminal_now fd o t hopen]
    cases hempty : t.input.isEmpty <;> cases heof : t.eof <;> cases hline : t.canonical <;>
      simp [readiness, Ofd.atFileEnd, hempty, heof, hline]
  | pipeRead p =>
    rw [ne_eq, readKind, readPipe_now]
    simp [readiness, Ofd.atFileEnd, or_iff_not_imp_left]
  | pipeWrite p => exact nomatch hread
  | regular r =>
    have hopen : r.readable = true := hread
    rw [readKind, and_iff_right (readRegular_now o hopen)]
    simp [readiness, Ofd.atFileEnd, hopen]
  | directory node index => simp [readiness, readKind, Ofd.atFileEnd]
  | null file readable writable =>
    have hopen : readable = true := hread
    simp [readiness, readKind, Ofd.atFileEnd, hopen]

theorem writePipe_now (i : Fin fdMax) (p : Nat) (byte : UInt8) :
    (exec (writePipe k i p true [byte]) w).1 =
      if (w.pipe p).readers = 0 then .error .epipe
      else if (w.pipe p).buffer.length < (w.pipe p).capacity then .ok 1 else .error .eagain := by
  unfold writePipe
  rw [exec_bind, exec_get]
  dsimp only
  split
  · rfl
  split
  · next hfull =>
    rw [if_neg (by simp at hfull; omega)]
    rfl
  · next hroom =>
    have hlt : 1 ≤ (w.pipe p).capacity - (w.pipe p).buffer.length := by omega
    rw [if_pos (by omega), List.length_singleton, min_eq_left hlt]
    rfl

/-- `select` calls a description writable exactly when a write of one byte with `O_NONBLOCK`
goes through, and puts it in the third set exactly when that answers `EPIPE`. -/
theorem writeKind_now {i : Fin fdMax} (o : Nat) {flags : BitVec 32} (byte : UInt8)
    (hflags : flags &&& oNonblock ≠ 0) (hwrite : ofd.opensWrite = true) :
    ((readiness w ofd).pollOut = true ↔
      (exec (writeKind k i o ofd flags [byte]) w).1 ≠ .error .eagain ∧
        (exec (writeKind k i o ofd flags [byte]) w).1 ≠ .error .epipe) ∧
    ((readiness w ofd).pollErr = true ↔
      (exec (writeKind k i o ofd flags [byte]) w).1 = .error .epipe) := by
  obtain ⟨kind, refs, status, input, output, mode⟩ := ofd
  cases kind with
  | stream t =>
    have hopen : 0 ≤ output := of_decide_eq_true hwrite
    simp [readiness, writeKind, hopen]
  | terminal t =>
    have hopen : ¬(mode ≠ 0 ∧ output < 0) := by
      simpa [Ofd.opensWrite, or_iff_not_imp_left] using hwrite
    dsimp only [writeKind]
    rw [if_neg hopen]
    exact ⟨iff_of_true hwrite ⟨nofun, nofun⟩, iff_of_false Bool.false_ne_true nofun⟩
  | pipeRead | directory => exact nomatch hwrite
  | pipeWrite p =>
    rw [writeKind, decide_eq_true hflags, writePipe_now]
    by_cases hreaders : (w.pipe p).readers = 0
    · simp [readiness, hreaders]
    · by_cases hroom : (w.pipe p).buffer.length < (w.pipe p).capacity <;>
        simp [readiness, hreaders, hroom]
  | regular r =>
    have hanswer := writeRegular_answer o r (flags &&& oAppend ≠ 0) [byte] w
    exact ⟨iff_of_true hwrite hanswer, iff_of_false Bool.false_ne_true hanswer.2⟩
  | null file readable writable =>
    have hopen : writable = true := hwrite
    simp [readiness, writeKind, hopen]

/-! ## Any descriptor -/

theorem withNonblock_flags (w : World) (o : Nat) :
    ((w.withNonblock o).status ((w.withNonblock o).ofd o).status).flags &&& oNonblock ≠ 0 := by
  have hset : ((w.withNonblock o).status ((w.withNonblock o).ofd o).status).flags =
      (w.status (w.ofd o).status).flags ||| oNonblock := by
    simp [World.withNonblock, World.setStatus]
  intro h
  have hbit := congrArg (·.getLsbD 11) h
  simp [hset, oNonblock] at hbit

theorem fdValid_val {fd : Fin fdMax} : fdValid fd = some fd := by
  exact dif_pos ⟨by omega, by omega⟩

section Descriptor

variable {fd : Fin fdMax} {entry : FdEntry} (hopen : (w.kernel k).fds fd = some entry)
include hopen

theorem readable_iff (hread : (w.ofd entry.ofd).opensRead = true) :
    ((readiness w (w.ofd entry.ofd)).pollIn || (readiness w (w.ofd entry.ofd)).pollHup) = true ↔
      readNow w k fd entry.ofd ≠ .error .eagain ∧ ¬(w.ofd entry.ofd).atFileEnd w := by
  have hrun : exec (kernelRead k fd 1) (w.withNonblock entry.ofd) = _ :=
    kernelRead_open fdValid_val hopen (by decide)
  unfold readNow
  rw [hrun, decide_eq_true (withNonblock_flags w entry.ofd)]
  exact readKind_now (w := w.withNonblock entry.ofd) fd entry.ofd hread

theorem writable_iff (byte : UInt8) (hwrite : (w.ofd entry.ofd).opensWrite = true) :
    ((readiness w (w.ofd entry.ofd)).pollOut = true ↔
      writeNow w k fd entry.ofd byte ≠ .error .eagain ∧
        writeNow w k fd entry.ofd byte ≠ .error .epipe) ∧
    ((readiness w (w.ofd entry.ofd)).pollErr = true ↔
      writeNow w k fd entry.ofd byte = .error .epipe) := by
  have hrun : exec (kernelWrite k fd [byte]) (w.withNonblock entry.ofd) = _ :=
    kernelWrite_open fdValid_val hopen nofun
  unfold writeNow
  rw [hrun]
  exact writeKind_now (w := w.withNonblock entry.ofd) entry.ofd byte
    (withNonblock_flags w entry.ofd) hwrite

end Descriptor

/-! ## `select` -/

/-- No wait is in progress but the call's own. -/
def WaitRecord.Fresh (wait : WaitRecord) (nfds : Nat) (sets : FdSets) : Prop :=
  wait.active = false ∨ wait.On nfds sets

/-- The answer shows what is granted.  Of an answer 0 this is said only if the call is `fresh`:
the deadline of another call may have come. -/
def Reported (fresh : Prop) (fd : Nat) (granted : Bool × Bool × Bool) : Except Errno Selected → Prop
  | .ok found => 0 < found.count ∨ fresh → found.bits fd = granted
  | .error e => e = .eagain → granted = ⊥

theorem Reported.imp {p q : Prop} {fd : Nat} {granted : Bool × Bool × Bool}
    {r : Except Errno Selected} (h : Reported p fd granted r) (hqp : q → p) :
    Reported q fd granted r := by
  cases r with
  | ok found => exact fun hq => h (hq.imp_right hqp)
  | error e => exact h

section Select

variable {sets : FdSets} {fd : Fin fdMax} {nfds : Nat} (hfd : fd.val < nfds) (timeout : Timeout)
  (hadWait : Bool) (mask : Option SigSet)

theorem Polled.granted {w' : World} (h : Polled k w w') :
    sets.granted w' k fd = sets.granted w k fd := by
  unfold FdSets.granted
  rw [h.fds]
  simp only [h.readiness]

/-- The sets of a wait are tested before its deadline. -/
theorem waitPoll_timeout (h : (waitPoll k w).1 = .timeout) :
    (w.kernel k).wait.active = true ∧
      waitSetsReady (pollSignals k w) k (w.kernel k).wait = false := by
  have hwait := (pollSignals_polled k w).wait
  unfold waitPoll at h
  dsimp only at h
  rw [hwait] at h
  split at h
  · cases h
  next hactive =>
  refine ⟨by simpa using hactive, ?_⟩
  split at h
  · cases h
  split at h
  · split at h
    · cases h
    split at h <;> cases h
  · split at h
    · cases h
    next hready => exact Bool.eq_false_iff.mpr hready

include hfd

theorem granted_of_timeout (h : (waitPoll k w).1 = .timeout)
    (hfresh : (w.kernel k).wait.Fresh nfds sets) : sets.granted w k fd = ⊥ := by
  obtain ⟨hactive, hready⟩ := waitPoll_timeout h
  rcases hfresh with hidle | hown
  · rw [hactive] at hidle
    cases hidle
  · rw [← (pollSignals_polled k w).granted]
    apply hown.granted.mpr
    have hnone := List.any_eq_false.mp hready fd (List.mem_finRange fd)
    rw [hown.nfds, decide_eq_true hfd, Bool.true_and] at hnone
    exact Bool.eq_false_iff.mpr hnone

theorem selectScan_reported (fresh : Prop) : Reported fresh fd (sets.granted w k fd)
    (exec (selectScan k nfds sets timeout hadWait mask) w).1 := by
  unfold selectScan
  simp only [exec_bind, exec_get]
  cases hscan : scanFds w k sets nfds with
  | error e =>
    obtain rfl := scanFds_error hscan
    exact (nomatch ·)
  | ok found =>
    obtain ⟨hbits, hnone⟩ := scanFds_ok hscan
    dsimp only
    rw [← hbits fd hfd]
    split
    · exact fun _ => rfl
    · next hcount =>
      obtain rfl := hnone.resolve_right hcount
      split
      · exact fun _ => rfl
      · exact fun _ => Selected.none_bits fd

theorem selectPoll_reported :
    Reported ((w.kernel k).wait.Fresh nfds sets) fd (sets.granted w k fd)
      (exec (selectPoll k nfds sets timeout hadWait mask) w).1 := by
  unfold selectPoll
  simp only [exec_bind, exec_get, exec_set]
  split
  · exact (nomatch ·)
  · next htimeout =>
    rintro (hcount | hfresh)
    · exact absurd hcount (by decide)
    · rw [granted_of_timeout hfd htimeout hfresh]
      exact Selected.none_bits fd
  · split
    · exact (nomatch ·)
    · rw [← waitPoll_polled.granted]
      exact selectScan_reported hfd timeout hadWait mask _

omit hfd in
theorem kernelSelectCore_reported {nfds : Int} (hfd : fd.val < nfds) :
    Reported ((w.kernel k).wait.Fresh nfds.toNat sets) fd (sets.granted w k fd)
      (exec (kernelSelectCore k nfds sets timeout mask) w).1 := by
  have hpolled := routeTerminalSignals_polled k w
  have hlt : fd.val < nfds.toNat := by omega
  unfold kernelSelectCore
  simp only [exec_bind, exec_modify]
  rw [← hpolled.wait, ← hpolled.granted]
  generalize routeTerminalSignals k w = w1
  split
  · exact (nomatch ·)
  simp only [exec_bind, exec_get, exec_modify]
  split
  · exact (nomatch ·)
  -- installing the mask changes neither the descriptors nor what a wait is for
  have hinstall (kernel : PosixKernel) : (kernel.installMask mask).fds = kernel.fds ∧
      (kernel.wait.Fresh nfds.toNat sets →
        (kernel.installMask mask).wait.Fresh nfds.toNat sets) := by
    cases mask <;> refine ⟨rfl, Or.imp_right fun h => ?_⟩ <;>
      exact ⟨h.nfds, h.readMinimum, h.readfds, h.writefds, h.exceptfds⟩
  have hsame : ∀ w2, w2 = w1 ∨ w2 = w1.setKernel k (·.installMask mask) →
      sets.granted w2 k fd = sets.granted w1 k fd ∧
        ((w1.kernel k).wait.Fresh nfds.toNat sets → (w2.kernel k).wait.Fresh nfds.toNat sets) := by
    rintro _ (rfl | rfl)
    · exact ⟨rfl, id⟩
    · unfold FdSets.granted
      rw [World.setKernel_self, (hinstall _).1]
      exact ⟨rfl, (hinstall _).2⟩
  obtain ⟨hgranted, hfresh⟩ := hsame _ (ite_eq_or_eq ((w1.kernel k).wait.active = true) _ _)
  rw [← hgranted]
  exact (selectPoll_reported hlt timeout _ mask).imp hfresh

end Select

/-- What `select` reports of an open descriptor, when it reports, and what is the case of one that
it waits for.  Files at their end are left out. -/
theorem select_agrees (w : World) (k : Nat) (nfds : Int) (sets : FdSets) (timeout : Option Duration)
    (fd : Fin fdMax) (hfd : fd.val < nfds) (entry : FdEntry)
    (hopen : (w.kernel k).fds fd = some entry) (byte : UInt8) :
    let ofd := w.ofd entry.ofd
    let reads := readNow w k fd entry.ofd
    let writes := writeNow w k fd entry.ofd byte
    let answer := (exec (kernelSelect k nfds sets timeout) w).1
    (∀ found, answer = .ok found →
      0 < found.count ∨ (w.kernel k).wait.Fresh nfds.toNat sets →
      (wants sets.readfds fd = true → ofd.opensRead = true → ¬ofd.atFileEnd w →
        (fdIsset fd found.readfds = true ↔ reads ≠ .error .eagain)) ∧
      (wants sets.writefds fd = true → ofd.opensWrite = true →
        (fdIsset fd found.writefds = true ↔ writes ≠ .error .eagain ∧ writes ≠ .error .epipe)) ∧
      (wants sets.exceptfds fd = true → ofd.opensWrite = true →
        (fdIsset fd found.exceptfds = true ↔ writes = .error .epipe))) ∧
    (answer = .error .eagain →
      (wants sets.readfds fd = true → ofd.opensRead = true → ¬ofd.atFileEnd w →
        reads = .error .eagain) ∧
      (wants sets.writefds fd = true → ofd.opensWrite = true →
        ¬(writes ≠ .error .eagain ∧ writes ≠ .error .epipe)) ∧
      (wants sets.exceptfds fd = true → ofd.opensWrite = true → writes ≠ .error .epipe)) := by
  intro ofd reads writes answer
  have hreported : Reported ((w.kernel k).wait.Fresh nfds.toNat sets) fd (sets.granted w k fd)
      answer := by
    show Reported _ _ _ (exec (kernelSelect k nfds sets timeout) w).1
    unfold kernelSelect
    rw [exec_bind]
    rcases readTimeout_cases k 1000000 1000 timeout w with hrun | ⟨t, w1, hrun, hpolled, -⟩
    · rw [hrun]
      rintro ⟨⟩
    · rw [hrun, ← hpolled.wait, ← hpolled.granted]
      exact kernelSelectCore_reported t none hfd
  simp only [FdSets.granted, hopen] at hreported
  have hreads (hopens : ofd.opensRead = true) (hend : ¬ofd.atFileEnd w) :=
    (readable_iff hopen hopens).trans (and_iff_left hend)
  have hwrites (hopens : ofd.opensWrite = true) := writable_iff hopen byte hopens
  refine ⟨fun found hok hfresh => ?_, fun heagain => ?_⟩
  · rw [hok] at hreported
    obtain ⟨hread, hbits⟩ := mk.inj (hreported hfresh)
    obtain ⟨hwrite, hexcept⟩ := mk.inj hbits
    rw [hread, hwrite, hexcept]
    refine ⟨fun hwants => ?_, fun hwants => ?_, fun hwants => ?_⟩ <;>
      rw [hwants, Bool.true_and]
    · exact hreads
    · exact fun hopens => (hwrites hopens).1
    · exact fun hopens => (hwrites hopens).2
  · rw [heagain] at hreported
    obtain ⟨hread, hbits⟩ := mk.inj (hreported rfl)
    obtain ⟨hwrite, hexcept⟩ := mk.inj hbits
    refine ⟨fun hwants hopens hend => ?_, fun hwants hopens => ?_, fun hwants hopens => ?_⟩
    · rw [hwants, Bool.true_and] at hread
      exact not_not.mp (mt (hreads hopens hend).mpr (Bool.eq_false_iff.mp hread))
    · rw [hwants, Bool.true_and] at hwrite
      exact mt (hwrites hopens).1.mpr (Bool.eq_false_iff.mp hwrite)
    · rw [hwants, Bool.true_and] at hexcept
      exact mt (hwrites hopens).2.mpr (Bool.eq_false_iff.mp hexcept)

/-- The pipe has a byte: `select` reports its end for reading, and a read does not wait. -/
theorem select_agrees_pipe :
    let w := runCalls [(0, .pipe), (0, .write 1 [7])] .initial
    let sets : FdSets := { readfds := some 1, writefds := none, exceptfds := none }
    (exec (kernelSelect 0 1 sets none) w).1 =
        .ok { count := 1, readfds := 1, writefds := 0, exceptfds := 0 } ∧
      readNow w 0 0 3 ≠ .error .eagain := by
  intro w sets
  have hanswer : (exec (kernelSelect 0 1 sets none) w).1 =
      .ok { count := 1, readfds := 1, writefds := 0, exceptfds := 0 } := by decide +kernel
  have hagrees := select_agrees w 0 1 sets none ⟨0, by decide⟩ (by decide)
    { ofd := 3, cloexec := false } (by decide +kernel) 0
  have hend : ¬(w.ofd 3).atFileEnd w := by
    rintro ⟨r, hkind, -⟩
    cases hkind
  have hread := (hagrees.1 _ hanswer (.inl one_pos)).1 (by decide +kernel) (by decide +kernel) hend
  exact ⟨hanswer, hread.mp (by decide +kernel)⟩

/-- A descriptor 0 of an empty file that is open for reading. -/
def emptyFileWorld : World :=
  (World.initial.setOfd 0 (.setRegular
    { node := none, file := 0, offset := 0, readable := true, writable := false })).setKernel 0
      fun kernel => { kernel with
        fds := fun fd => if fd.val = 0 then some { ofd := 0, cloexec := false } else none }

/-- A read from an empty file returns at once, and so does a write to a pipe without readers,
and `select` waits for both. -/
theorem select_waits_for_end_and_epipe :
    (readNow emptyFileWorld 0 0 0 = .ok [] ∧
      (exec (kernelSelect 0 1 { readfds := some 1, writefds := none, exceptfds := none } none)
        emptyFileWorld).1 = .error .eagain) ∧
    ((runCalls [(0, .pipe), (0, .close 0)] .initial).entry 0 1 =
        some { ofd := 5, cloexec := false } ∧
      writeNow (runCalls [(0, .pipe), (0, .close 0)] .initial) 0 1 5 0 = .error .epipe ∧
      (exec (kernelSelect 0 2 { readfds := none, writefds := some 2, exceptfds := none } none)
        (runCalls [(0, .pipe), (0, .close 0)] .initial)).1 = .error .eagain) := by
  decide +kernel

end Waste.Kernel
