import Waste.Kernel.Counts

/-!
# Pipes are bounded queues

A run is a list of calls by any of the kernels, in the order in which they happen.  The
bytes that the writes to a pipe accept and the bytes that the reads from it return are
recorded beside the run, and the buffer is always the part that is still to be read.
-/

namespace Waste.Kernel

open StateExcept PointerCount Option

variable {f : List UInt8 → List UInt8}

/-! ## Runs -/

/-- The calls that concern pipes and descriptors. -/
inductive PipeCall
  | pipe
  | read (fd count : Int)
  | write (fd : Int) (data : List UInt8)
  | dup (oldfd : Int)
  | dup2 (oldfd newfd : Int)
  | dupfd (oldfd minfd : Int) (cloexec : Bool)
  | close (fd : Int)
  | setCloexec (fd enabled : Int)
  | setStatusFlags (fd : Int) (flags : BitVec 32)
  | closeOnExec
  | closeAllFds
  | clone
  | fork (pid : Int)
  | destroy

/-- The world after a call of the kernel `k`. -/
def PipeCall.perform (k : Nat) (w : World) : PipeCall → World
  | .pipe => (exec (kernelPipe k) w).2
  | .read fd count => (exec (kernelRead k fd count) w).2
  | .write fd data => (exec (kernelWrite k fd data) w).2
  | .dup oldfd => (exec (kernelDup k oldfd) w).2
  | .dup2 oldfd newfd => (exec (kernelDup2 k oldfd newfd) w).2
  | .dupfd oldfd minfd cloexec => (exec (kernelDupfd k oldfd minfd cloexec) w).2
  | .close fd => (exec (kernelClose k fd) w).2
  | .setCloexec fd enabled => (exec (kernelSetCloexec k fd enabled) w).2
  | .setStatusFlags fd flags => (exec (kernelSetStatusFlags k fd flags) w).2
  | .closeOnExec => (exec (kernelCloseOnExec k) w).2
  | .closeAllFds => (exec (kernelCloseAllFds k) w).2
  | .clone => (exec (kernelClone k) w).2
  | .fork pid => (exec (forkKernel k pid) w).2
  | .destroy => kernelDestroy k w

def World.endOf (w : World) (k : Nat) (fd : Int) : Option PipeEnd :=
  (w.entry k fd).bind fun entry => (w.ofd entry.ofd).kind.pipeEnd

/-- The bytes that a call takes out of the pipe `p`. -/
def PipeCall.returned (p k : Nat) (w : World) : PipeCall → List UInt8
  | .read fd count =>
    match (exec (kernelRead k fd count) w).1 with
    | .ok bytes => if w.endOf k fd = some (.read p) then bytes else []
    | .error _ => []
  | _ => []

/-- The bytes that a call puts into the pipe `p`. -/
def PipeCall.accepted (p k : Nat) (w : World) : PipeCall → List UInt8
  | .write fd data =>
    match (exec (kernelWrite k fd data) w).1 with
    | .ok n => if w.endOf k fd = some (.write p) then data.take n else []
    | .error _ => []
  | _ => []

/-- The world after a run.  A number that has not been given out yet is no kernel and
makes no calls. -/
def runCalls : List (Nat × PipeCall) → World → World
  | [], w => w
  | (k, call) :: rest, w => runCalls rest (if k < w.next then call.perform k w else w)

/-- The bytes that the reads of a run return from the pipe `p`. -/
def bytesReturned (p : Nat) : List (Nat × PipeCall) → World → List UInt8
  | [], _ => []
  | (k, call) :: rest, w =>
    if k < w.next then call.returned p k w ++ bytesReturned p rest (call.perform k w)
    else bytesReturned p rest w

/-- The bytes that the writes of a run put into the pipe `p`. -/
def bytesAccepted (p : Nat) : List (Nat × PipeCall) → World → List UInt8
  | [], _ => []
  | (k, call) :: rest, w =>
    if k < w.next then call.accepted p k w ++ bytesAccepted p rest (call.perform k w)
    else bytesAccepted p rest w

/-! ## Reads and writes of a pipe -/

variable {w : World} {k : Nat} {fd : Int} {p : Nat} {e : PipeEnd}

theorem entry_eq {i : Fin fdMax} (hfd : fdValid fd = some i) :
    w.entry k fd = (w.kernel k).fds i := by
  unfold World.entry
  rw [hfd]
  rfl

/-- The description behind a descriptor of a pipe. -/
theorem open_of_endOf (h : w.endOf k fd = some e) :
    ∃ i entry, fdValid fd = some i ∧ (w.kernel k).fds i = some entry ∧
      (w.ofd entry.ofd).kind.pipeEnd = some e := by
  obtain ⟨entry, hentry, hkind⟩ := bind_eq_some_iff.mp h
  obtain ⟨i, hfd, hopen⟩ := bind_eq_some_iff.mp hentry
  exact ⟨i, entry, hfd, hopen, hkind⟩

theorem endOf_pointer (h : w.endOf k fd = some e) :
    ∃ x o, w.table.pointer x = some o ∧ w.table.pipeEnd o = some e := by
  obtain ⟨i, entry, -, hi, hend⟩ := open_of_endOf h
  exact ⟨(k, i), entry.ofd, pointer_eq hi, hend⟩

/-- A call that would block ends with `EAGAIN` or with `EINTR`. -/
def WouldBlock {α : Type} (c : KernelM α) : Prop :=
  Triple (fun _ => True) c (fun _ _ => False) fun e _ => e = .eagain ∨ e = .eintr

variable {α : Type} {count : Int} {data : List UInt8}

theorem giveUp_wouldBlock : WouldBlock (giveUp k .eagain : KernelM α) :=
  .modify_bind fun _ _ => .throw fun _ _ => .inl rfl

theorem interruptible_eintr (k : Nat) :
    Triple (fun _ => True) (interruptible k) (fun _ _ => True) fun e _ =>
      e = .eagain ∨ e = .eintr := by
  refine .get_bind fun w _ => .set_bind fun _ _ => ?_
  exact .ite (fun _ => .throw fun _ _ => .inr rfl) fun _ => .pure fun _ _ => trivial

/-- Whatever is registered before it, a call that waits answers so. -/
theorem interruptible_wouldBlock {register : KernelM Unit} :
    WouldBlock (interruptible k >>= fun _ => attempt register >>= fun _ =>
      (throw .eagain : KernelM α)) := by
  refine .bind (interruptible_eintr k) fun _ => ?_
  refine .bind (Q := fun _ _ => True) ?_ fun _ => .throw fun _ _ => .inl rfl
  exact .tryCatch .trivial fun _ => .pure fun _ _ => trivial

theorem WouldBlock.run {c : KernelM α} (h : WouldBlock c) (w : World) :
    ∃ e, (exec c w).1 = .error e ∧ (e = .eagain ∨ e = .eintr) := by
  rcases hrun : exec c w with ⟨e | a, w'⟩
  · exact ⟨e, rfl, (h w trivial).2 e w' hrun⟩
  · exact ((h w trivial).1 a w' hrun).elim

theorem readPipe_cases (k : Nat) (fd : Int) (p : Nat) (nonblock : Bool) (count : Nat) (w : World) :
    ((w.pipe p).buffer = [] ∧ (w.pipe p).writers = 0 ∧
      exec (readPipe k fd p nonblock count) w = (.ok [], w)) ∨
    ((w.pipe p).buffer = [] ∧ (w.pipe p).writers ≠ 0 ∧
      (∃ e, (exec (readPipe k fd p nonblock count) w).1 = .error e) ∧
      (exec (readPipe k fd p nonblock count) w).2.table = w.table) ∨
    ((w.pipe p).buffer ≠ [] ∧
      (exec (readPipe k fd p nonblock count) w).1 = .ok ((w.pipe p).buffer.take count) ∧
      (exec (readPipe k fd p nonblock count) w).2.table =
        w.table.setPipe p fun pipe => { pipe with buffer := pipe.buffer.drop count }) := by
  simp only [readPipe, exec_bind, exec_get]
  by_cases hempty : (w.pipe p).buffer = []
  · rw [if_pos (List.isEmpty_iff.mpr hempty)]
    split_ifs with hwriters
    · exact .inl ⟨hempty, hwriters, rfl⟩
    have hblock : WouldBlock (blockRead k nonblock (waitRead k fd) : KernelM (List UInt8)) :=
      .ite (fun _ => giveUp_wouldBlock) fun _ => interruptible_wouldBlock
    obtain ⟨e, he, -⟩ := hblock.run w
    exact .inr (.inl ⟨hempty, hwriters, ⟨e, he⟩,
      blockRead_fixes table_blind k nonblock (kernelWaitRead_fixes table_blind k fd) w⟩)
  · rw [if_neg (by rw [List.isEmpty_iff]; exact hempty)]
    refine .inr (.inr ⟨hempty, ?_, ?_⟩)
    · show Except.ok _ = _
      rw [← List.take_eq_take_min]
    refine (view_cancelWait table_blind k _).trans ?_
    have hdrop : ∀ l : List UInt8, l.drop (min count l.length) = l.drop count := by
      intro l
      rcases le_total count l.length with hle | hle
      · rw [min_eq_left hle]
      · rw [min_eq_right hle, List.drop_of_length_le hle, List.drop_length]
    simp only [hdrop]
    rfl

theorem writePipe_cases (k : Nat) (fd : Fin fdMax) (p : Nat) (nonblock : Bool) (data : List UInt8)
    (w : World) :
    ((w.pipe p).readers = 0 ∧ exec (writePipe k fd p nonblock data) w = (.error .epipe, w)) ∨
    ((w.pipe p).readers ≠ 0 ∧
      (∃ e, (exec (writePipe k fd p nonblock data) w).1 = .error e ∧ (e = .eagain ∨ e = .eintr)) ∧
      (exec (writePipe k fd p nonblock data) w).2.table = w.table) ∨
    ((w.pipe p).readers ≠ 0 ∧ ∃ n, n ≤ (w.pipe p).capacity - (w.pipe p).buffer.length ∧
      (exec (writePipe k fd p nonblock data) w).1 = .ok n ∧
      (exec (writePipe k fd p nonblock data) w).2.table =
        w.table.setPipe p fun pipe => { pipe with buffer := pipe.buffer ++ data.take n }) := by
  simp only [writePipe, exec_bind, exec_get]
  by_cases hreaders : (w.pipe p).readers = 0
  · rw [if_pos hreaders]
    exact .inl ⟨hreaders, rfl⟩
  rw [if_neg hreaders]
  split
  · have hblock : WouldBlock (blockWrite k fd nonblock) :=
      .ite (fun _ => giveUp_wouldBlock) fun _ => interruptible_wouldBlock
    exact .inr (.inl ⟨hreaders, hblock.run w, blockWrite_fixes table_blind k fd w⟩)
  · exact .inr (.inr ⟨hreaders, _, min_le_right _ _, rfl, view_cancelWait table_blind k _⟩)

/-- A read of nothing, or from no open descriptor, is answered at once. -/
theorem kernelRead_refused (h : count ≤ 0 ∨ w.entry k fd = none) :
    ∃ answer, exec (kernelRead k fd count) w = (answer, w) ∧ answer ≠ .error .eagain ∧
      ∀ bytes, answer = .ok bytes → bytes = [] := by
  unfold kernelRead
  split
  · exact ⟨_, rfl, nofun, nofun⟩
  next i hfd =>
  split
  · exact ⟨_, rfl, nofun, nofun⟩
  split
  · exact ⟨_, rfl, nofun, fun _ h => (Except.ok.inj h).symm⟩
  have hclosed : (w.kernel k).fds i = none := (entry_eq hfd).symm.trans (h.resolve_left (by omega))
  rw [exec_bind, exec_get]
  dsimp only
  rw [hclosed]
  exact ⟨_, rfl, nofun, nofun⟩

theorem kernelWrite_refused (h : data = [] ∨ w.entry k fd = none) :
    ∃ answer, exec (kernelWrite k fd data) w = (answer, w) ∧ answer ≠ .error .eagain ∧
      ∀ n, answer = .ok n → n = 0 := by
  unfold kernelWrite
  split
  · exact ⟨_, rfl, nofun, nofun⟩
  next i hfd =>
  split
  · exact ⟨_, rfl, nofun, fun _ h => (Except.ok.inj h).symm⟩
  next hdata =>
  have hclosed : (w.kernel k).fds i = none :=
    (entry_eq hfd).symm.trans (h.resolve_left fun h => hdata (List.isEmpty_iff.mpr h))
  rw [exec_bind, exec_get]
  dsimp only
  rw [hclosed]
  exact ⟨_, rfl, nofun, nofun⟩

section Open

variable {i : Fin fdMax} {entry : FdEntry} (hfd : fdValid fd = some i)
  (hopen : (w.kernel k).fds i = some entry)
include hfd hopen

theorem kernelRead_open (hcount : 0 < count) :
    exec (kernelRead k fd count) w = exec (readKind k fd entry.ofd (w.ofd entry.ofd)
      ((w.status (w.ofd entry.ofd).status).flags &&& oNonblock ≠ 0) count.toNat) w := by
  unfold kernelRead
  rw [hfd]
  dsimp only
  rw [if_neg (by omega), if_neg (by omega), exec_bind, exec_get]
  dsimp only
  rw [hopen]

theorem kernelWrite_open (hdata : data ≠ []) :
    exec (kernelWrite k fd data) w = exec (writeKind k i entry.ofd (w.ofd entry.ofd)
      (w.status (w.ofd entry.ofd).status).flags data) w := by
  unfold kernelWrite
  rw [hfd]
  dsimp only
  rw [if_neg (by simpa using hdata), exec_bind, exec_get]
  dsimp only
  rw [hopen]

end Open

theorem kernelRead_pipe (hend : w.endOf k fd = some (.read p)) (hcount : 0 < count) :
    ∃ nonblock, exec (kernelRead k fd count) w = exec (readPipe k fd p nonblock count.toNat) w := by
  obtain ⟨i, entry, hfd, hopen, hkind⟩ := open_of_endOf hend
  rw [kernelRead_open hfd hopen hcount]
  unfold readKind
  cases h : (w.ofd entry.ofd).kind <;> simp [h, Description.pipeEnd] at hkind
  rw [hkind]
  exact ⟨_, rfl⟩

theorem kernelWrite_pipe (hend : w.endOf k fd = some (.write p)) (hdata : data ≠ []) :
    ∃ i nonblock, exec (kernelWrite k fd data) w = exec (writePipe k i p nonblock data) w := by
  obtain ⟨i, entry, hfd, hopen, hkind⟩ := open_of_endOf hend
  rw [kernelWrite_open hfd hopen hdata]
  unfold writeKind
  cases h : (w.ofd entry.ofd).kind <;> simp [h, Description.pipeEnd] at hkind
  rw [hkind]
  exact ⟨_, _, rfl⟩

theorem kernelRead_table (h : ∀ p, w.endOf k fd = some (.read p) → count ≤ 0) :
    (exec (kernelRead k fd count) w).2.table = w.table := by
  by_cases hrefused : count ≤ 0 ∨ w.entry k fd = none
  · obtain ⟨answer, hrun, -⟩ := kernelRead_refused hrefused
    rw [hrun]
  obtain ⟨hcount, entry, hentry⟩ := (not_or.mp hrefused).imp_right ne_none_iff_exists'.mp
  obtain ⟨i, hfd, hopen⟩ := bind_eq_some_iff.mp hentry
  rw [kernelRead_open hfd hopen (by omega)]
  refine readKind_fixes table_blind rfl (fun p hp => ?_) k fd _ _
  exact absurd (h p (by simp [World.endOf, hentry, hp, Description.pipeEnd])) hcount

theorem kernelWrite_table (h : ∀ p, w.endOf k fd = some (.write p) → data = []) :
    (exec (kernelWrite k fd data) w).2.table = w.table := by
  by_cases hrefused : data = [] ∨ w.entry k fd = none
  · obtain ⟨answer, hrun, -⟩ := kernelWrite_refused hrefused
    rw [hrun]
  obtain ⟨hdata, entry, hentry⟩ := (not_or.mp hrefused).imp_right ne_none_iff_exists'.mp
  obtain ⟨i, hfd, hopen⟩ := bind_eq_some_iff.mp hentry
  rw [kernelWrite_open hfd hopen hdata]
  refine writeKind_fixes table_blind rfl (fun p hp => ?_) k i _ _
  exact hdata (h p (by simp [World.endOf, hentry, hp, Description.pipeEnd]))

/-! ## One call -/

/-- A step takes the bytes `taken` out of the pipes and puts the bytes `given` into
them. -/
structure Table.Moves (T T' : Table) (taken given : Nat → List UInt8) : Prop where
  counted : T'.Counted
  next : T.next ≤ T'.next
  queue : ∀ p, (T'.pipe p).allocated = true →
    ((T.pipe p).allocated = true ∧ (T.pipe p).buffer ++ given p = taken p ++ (T'.pipe p).buffer) ∨
      (T.next ≤ p ∧ (T'.pipe p).buffer = [] ∧ taken p = [] ∧ given p = [])
  idle : ∀ p, (T'.pipe p).allocated = false → taken p = [] ∧ given p = []

variable {T : Table}

theorem Safe.moves (h : Safe T w) : T.Moves w.table (fun _ => []) fun _ => [] := by
  refine ⟨h.1, h.2.next, fun p hp => ?_, fun p _ => ⟨rfl, rfl⟩⟩
  rcases h.2.buffer p hp with ⟨hold, hbuffer⟩ | ⟨hnew, hbuffer⟩
  · refine .inl ⟨hold, ?_⟩
    rw [hbuffer, List.append_nil]
    rfl
  · exact .inr ⟨hnew, hbuffer, rfl, rfl⟩

/-- A pipe that a descriptor refers to is there. -/
theorem Table.Counted.allocated_of_end (hT : w.table.Counted)
    (he : w.endOf k fd = some e) : (w.pipe e.pipe).allocated = true := by
  obtain ⟨x, o, hx, ho⟩ := endOf_pointer he
  exact hT.end_allocated hx ho

theorem Table.Counted.setBuffer (hT : T.Counted)
    (hp : (T.pipe p).allocated = true) (hlength : (f (T.pipe p).buffer).length ≤ pipeCapacity) :
    (T.setPipe p fun pipe => { pipe with buffer := f pipe.buffer }).Counted := by
  set U := T.setPipe p fun pipe => { pipe with buffer := f pipe.buffer } with hU
  have hself : U.pipe p = { T.pipe p with buffer := f (T.pipe p).buffer } := setPipe_self
  have hother : ∀ q, q ≠ p → U.pipe q = T.pipe q := fun q hq => setPipe_ne hq
  have hpipe : ∀ q, U.pipe q = { T.pipe q with buffer := (U.pipe q).buffer } := by
    intro q
    by_cases hq : q = p
    · rw [hq, hself]
    · rw [hother q hq]
  refine ⟨⟨hT.finite, hT.below, hT.refs, fun e => ?_, fun q hq => ?_, fun q hq => ?_⟩, fun q => ?_⟩
  · refine trans ?_ (hT.ends e)
    rw [Table.ends, Table.ends, hpipe]
    cases e <;> rfl
  · have hlt := hT.pipeBelow hp
    have hle : T.next ≤ q := hq
    rw [hother q (by omega)]
    exact hT.absent q hle
  · by_cases hqp : q = p
    · rw [hqp, hself]
      exact ⟨(hT.room p hp).1, hlength⟩
    · rw [hother q hqp] at hq ⊢
      exact hT.room q hq
  · rw [hpipe]
    exact hT.allocated q

/-- What one pipe takes and gives. -/
def only (p : Nat) (bytes : List UInt8) (q : Nat) : List UInt8 := if q = p then bytes else []

theorem Table.Counted.moves (hT : T.Counted) {taken given : List UInt8}
    (hp : (T.pipe p).allocated = true) (hlength : (f (T.pipe p).buffer).length ≤ pipeCapacity)
    (hf : (T.pipe p).buffer ++ given = taken ++ f (T.pipe p).buffer) :
    T.Moves (T.setPipe p fun pipe => { pipe with buffer := f pipe.buffer }) (only p taken)
      (only p given) := by
  refine ⟨hT.setBuffer hp hlength, le_refl _, fun q hq => .inl ?_, fun q hq => ?_⟩
  · by_cases hqp : q = p
    · subst hqp
      rw [setPipe_self, only, only, if_pos rfl, if_pos rfl]
      exact ⟨hp, hf⟩
    · rw [setPipe_ne hqp] at hq ⊢
      rw [only, only, if_neg hqp, if_neg hqp, List.append_nil]
      exact ⟨hq, rfl⟩
  · have hqp : q ≠ p := by
      rintro rfl
      rw [setPipe_self, hp] at hq
      exact absurd hq (by decide)
    rw [only, only, if_neg hqp, if_neg hqp]
    exact ⟨rfl, rfl⟩

theorem only_nil : only p [] = fun _ => [] := by
  funext q
  exact ite_self _

theorem Table.Counted.still (hT : T.Counted) : T.Moves T (fun _ => []) fun _ => [] := by
  refine ⟨hT, le_refl _, fun p hp => .inl ⟨hp, List.append_nil _⟩, fun _ _ => ⟨rfl, rfl⟩⟩

theorem returned_ok {bytes : List UInt8} (hend : w.endOf k fd = some (.read p))
    (hrun : (exec (kernelRead k fd count) w).1 = .ok bytes) :
    (fun q => PipeCall.returned q k w (.read fd count)) = only p bytes := by
  funext q
  simp only [PipeCall.returned, hrun, hend, only]
  by_cases hq : q = p
  · rw [hq, if_pos rfl, if_pos rfl]
  · rw [if_neg hq, if_neg fun heq => hq (PipeEnd.read.inj (some.inj heq)).symm]

theorem returned_error {e : Errno} (hrun : (exec (kernelRead k fd count) w).1 = .error e) :
    (fun q => PipeCall.returned q k w (.read fd count)) = fun _ => [] := by
  simp only [PipeCall.returned, hrun]

theorem accepted_ok {n : Nat} (hend : w.endOf k fd = some (.write p))
    (hrun : (exec (kernelWrite k fd data) w).1 = .ok n) :
    (fun q => PipeCall.accepted q k w (.write fd data)) = only p (data.take n) := by
  funext q
  simp only [PipeCall.accepted, hrun, hend, only]
  by_cases hq : q = p
  · rw [hq, if_pos rfl, if_pos rfl]
  · rw [if_neg hq, if_neg fun heq => hq (PipeEnd.write.inj (some.inj heq)).symm]

theorem accepted_error {e : Errno} (hrun : (exec (kernelWrite k fd data) w).1 = .error e) :
    (fun q => PipeCall.accepted q k w (.write fd data)) = fun _ => [] := by
  simp only [PipeCall.accepted, hrun]

theorem read_moves (hT : w.table.Counted) (k : Nat) (fd count : Int) :
    w.table.Moves (exec (kernelRead k fd count) w).2.table
      (fun p => PipeCall.returned p k w (.read fd count)) fun _ => [] := by
  by_cases hread : ∃ p, w.endOf k fd = some (.read p)
  · obtain ⟨p, hend⟩ := hread
    rcases lt_or_ge 0 count with hcount | hcount
    · obtain ⟨nonblock, hpipe⟩ := kernelRead_pipe hend hcount
      have hp : (w.pipe p).allocated = true := hT.allocated_of_end hend
      rcases readPipe_cases k fd p nonblock count.toNat w with
        ⟨-, -, hrun⟩ | ⟨-, -, ⟨e, hrun⟩, htable⟩ | ⟨-, hrun, htable⟩
      · rw [← hpipe] at hrun
        rw [returned_ok hend (by rw [hrun]), only_nil, hrun]
        exact hT.still
      · rw [← hpipe] at hrun htable
        rw [returned_error hrun, htable]
        exact hT.still
      rw [← hpipe] at hrun htable
      rw [returned_ok hend hrun, htable, ← only_nil]
      refine hT.moves hp ?_ ?_
      · have hroom := (hT.room p hp).2
        rw [List.length_drop]
        exact le_trans (Nat.sub_le _ _) hroom
      · rw [List.append_nil]
        exact (List.take_append_drop _ _).symm
    · obtain ⟨answer, hrun, -, hempty⟩ := kernelRead_refused (.inl hcount)
      cases answer with
      | error e =>
        rw [returned_error (by rw [hrun]), hrun]
        exact hT.still
      | ok bytes =>
        rw [returned_ok hend (by rw [hrun]), hempty bytes rfl, only_nil, hrun]
        exact hT.still
  · have hnone : (fun p => PipeCall.returned p k w (.read fd count)) = fun _ => [] := by
      funext q
      simp only [PipeCall.returned]
      split
      · exact if_neg fun heq => hread ⟨q, heq⟩
      · rfl
    rw [hnone, kernelRead_table fun p hp => absurd ⟨p, hp⟩ hread]
    exact hT.still

theorem write_moves (hT : w.table.Counted) (k : Nat) (fd : Int) :
    w.table.Moves (exec (kernelWrite k fd data) w).2.table (fun _ => [])
      fun p => PipeCall.accepted p k w (.write fd data) := by
  by_cases hwrite : ∃ p, w.endOf k fd = some (.write p)
  · obtain ⟨p, hend⟩ := hwrite
    by_cases hdata : data = []
    · obtain ⟨answer, hrun, -, hzero⟩ := kernelWrite_refused (.inl hdata)
      cases answer with
      | error e =>
        rw [accepted_error (by rw [hrun]), hrun]
        exact hT.still
      | ok n =>
        rw [accepted_ok hend (by rw [hrun]), hzero n rfl, List.take_zero, only_nil, hrun]
        exact hT.still
    · obtain ⟨i, nonblock, hpipe⟩ := kernelWrite_pipe hend hdata
      have hp : (w.pipe p).allocated = true := hT.allocated_of_end hend
      rcases writePipe_cases k i p nonblock data w with
        ⟨-, hrun⟩ | ⟨-, ⟨e, hrun, -⟩, htable⟩ | ⟨-, n, hn, hrun, htable⟩
      · rw [← hpipe] at hrun
        rw [accepted_error (by rw [hrun]), hrun]
        exact hT.still
      · rw [← hpipe] at hrun htable
        rw [accepted_error hrun, htable]
        exact hT.still
      rw [← hpipe] at hrun htable
      rw [accepted_ok hend hrun, htable, ← only_nil]
      refine hT.moves (f := fun buffer => buffer ++ data.take n) hp ?_ rfl
      have hroom := hT.room p hp
      have htake := List.length_take_le n data
      have hcapacity : (w.pipe p).capacity = pipeCapacity := hroom.1
      have hlength : (w.pipe p).buffer.length ≤ pipeCapacity := hroom.2
      rw [List.length_append]
      show (w.pipe p).buffer.length + _ ≤ _
      omega
  · have hnone : (fun p => PipeCall.accepted p k w (.write fd data)) = fun _ => [] := by
      funext q
      simp only [PipeCall.accepted]
      split
      · exact if_neg fun heq => hwrite ⟨q, heq⟩
      · rfl
    rw [hnone, kernelWrite_table fun p hp => absurd ⟨p, hp⟩ hwrite]
    exact hT.still

theorem kernelCloseAllFds_safe (k : Nat) : Keeps (Safe T) (kernelCloseAllFds k) :=
  .bind (Fixes.safe (cancelWait_fixes table_blind k)) fun _ => closeEach_keeps kernelClose_safe

theorem perform_moves (hT : w.table.Counted) (hk : k < w.next) (call : PipeCall) :
    w.table.Moves (call.perform k w).table (fun p => call.returned p k w)
      fun p => call.accepted p k w := by
  have hsafe : Safe w.table w := ⟨hT, Table.KeepsBuffers.refl _⟩
  have hkept {α : Type} {c : KernelM α} (hc : Keeps (Safe w.table) c) := (hc.exec_snd hsafe).moves
  cases call with
  | pipe => exact hkept (kernelPipe_safe hk)
  | read fd count => exact read_moves hT k fd count
  | write fd data => exact write_moves hT k fd
  | dup oldfd => exact hkept (kernelDupfd_safe k oldfd 0 false)
  | dup2 oldfd newfd => exact hkept (kernelDup2_safe k oldfd newfd)
  | dupfd oldfd minfd cloexec => exact hkept (kernelDupfd_safe k oldfd minfd cloexec)
  | close fd => exact hkept (kernelClose_safe fd)
  | setCloexec fd enabled => exact hkept (Fixes.safe (kernelSetCloexec_table k fd enabled))
  | setStatusFlags fd flags => exact hkept (Fixes.safe (kernelSetStatusFlags_table k fd))
  | closeOnExec => exact hkept (closeEach_keeps kernelClose_safe)
  | closeAllFds => exact hkept (kernelCloseAllFds_safe k)
  | clone => exact hkept kernelClone_safe
  | fork pid => exact hkept (forkKernel_safe k)
  | destroy => exact (kernelDestroy_safe hsafe).moves

/-! ## Every run -/

/-- After bytes `returned` and `accepted` so far, what is in the pipe is the rest. -/
structure Queued (T : Table) (p : Nat) (returned accepted : List UInt8) : Prop where
  begins : returned <+: accepted
  buffer : (T.pipe p).allocated = true → accepted = returned ++ (T.pipe p).buffer
  unused : T.next ≤ p → accepted = []

variable {returned accepted : List UInt8}

theorem Queued.move {T' : Table} {taken given : Nat → List UInt8}
    (h : Queued T p returned accepted) (hmove : T.Moves T' taken given) :
    Queued T' p (returned ++ taken p) (accepted ++ given p) := by
  rcases halloc : (T'.pipe p).allocated with _ | _
  · obtain ⟨htaken, hgiven⟩ := hmove.idle p halloc
    rw [htaken, hgiven, List.append_nil, List.append_nil]
    refine ⟨h.begins, fun hp => ?_, fun hp => h.unused (le_trans hmove.next hp)⟩
    rw [halloc] at hp
    exact absurd hp (by decide)
  have hlt := hmove.counted.pipeBelow halloc
  have hbuffer : accepted ++ given p = (returned ++ taken p) ++ (T'.pipe p).buffer := by
    rcases hmove.queue p halloc with ⟨hold, hqueue⟩ | ⟨hnew, hbuffer, htaken, hgiven⟩
    · rw [h.buffer hold, List.append_assoc, hqueue, List.append_assoc]
    have haccepted := h.unused hnew
    have hreturned : returned = [] := by
      have hbegins := h.begins
      rw [haccepted] at hbegins
      exact List.prefix_nil.mp hbegins
    rw [haccepted, hreturned, hbuffer, htaken, hgiven]
    rfl
  refine ⟨⟨_, hbuffer.symm⟩, fun _ => hbuffer, fun hp => ?_⟩
  omega

theorem run_queued (calls : List (Nat × PipeCall))
    (hT : w.table.Counted) (h : Queued w.table p returned accepted) :
    (runCalls calls w).table.Counted ∧
      Queued (runCalls calls w).table p (returned ++ bytesReturned p calls w)
        (accepted ++ bytesAccepted p calls w) := by
  induction calls generalizing w returned accepted with
  | nil =>
    rw [bytesReturned, bytesAccepted, List.append_nil, List.append_nil]
    exact ⟨hT, h⟩
  | cons event _ ih =>
    obtain ⟨k, call⟩ := event
    rw [runCalls, bytesReturned, bytesAccepted]
    split_ifs with hk
    · rw [← List.append_assoc, ← List.append_assoc]
      have hmove := perform_moves hT hk call
      exact ih hmove.counted (h.move hmove)
    · exact ih hT h

/-- A read of at least one byte returns nothing exactly at the end of the stream. -/
theorem read_eof_iff (hend : w.endOf k fd = some (.read p)) (hcount : 0 < count) :
    (exec (kernelRead k fd count) w).1 = .ok [] ↔
      (w.pipe p).writers = 0 ∧ (w.pipe p).buffer = [] := by
  obtain ⟨nonblock, hpipe⟩ := kernelRead_pipe hend hcount
  rw [hpipe]
  rcases readPipe_cases k fd p nonblock count.toNat w with
    ⟨hbuffer, hwriters, hrun⟩ | ⟨-, hwriters, ⟨e, hrun⟩, -⟩ | ⟨hbuffer, hrun, -⟩
  · rw [hrun]
    exact ⟨fun _ => ⟨hwriters, hbuffer⟩, fun _ => rfl⟩
  · rw [hrun]
    exact ⟨(nomatch ·), fun h => absurd h.1 hwriters⟩
  rw [hrun]
  constructor
  · intro h
    rcases List.take_eq_nil_iff.mp (Except.ok.inj h) with hzero | hempty
    · omega
    · exact absurd hempty hbuffer
  · intro h
    exact absurd h.2 hbuffer

/-- A write of at least one byte answers `EPIPE` exactly when there is no reader. -/
theorem write_epipe_iff (hend : w.endOf k fd = some (.write p)) (hdata : data ≠ []) :
    (exec (kernelWrite k fd data) w).1 = .error .epipe ↔ (w.pipe p).readers = 0 := by
  obtain ⟨i, nonblock, hpipe⟩ := kernelWrite_pipe hend hdata
  rw [hpipe]
  rcases writePipe_cases k i p nonblock data w with
    ⟨hreaders, hrun⟩ | ⟨hreaders, ⟨e, hrun, he⟩, -⟩ | ⟨hreaders, n, -, hrun, -⟩
  · rw [hrun]
    exact ⟨fun _ => hreaders, fun _ => rfl⟩
  · rw [hrun]
    refine ⟨fun h => ?_, fun h => absurd h hreaders⟩
    obtain rfl := Except.error.inj h
    exact absurd he (by decide)
  · rw [hrun]
    exact ⟨(nomatch ·), fun h => absurd h hreaders⟩

/-- Over every run, from a world without pipes, each pipe is a queue of at most 4096
bytes: what was accepted is what was returned and then the buffer, the counts are the
numbers of descriptors in all tables, and the pipe is there exactly as long as one of them
is not zero. -/
theorem pipes_are_bounded_queues (w : World) (hcounted : w.table.Counted)
    (hnone : ∀ p, (w.pipe p).allocated = false) (calls : List (Nat × PipeCall)) (p : Nat) :
    let pipe := (runCalls calls w).pipe p
    bytesReturned p calls w <+: bytesAccepted p calls w ∧
      (pipe.allocated = true →
        bytesAccepted p calls w = bytesReturned p calls w ++ pipe.buffer ∧
          pipe.buffer.length ≤ 4096) ∧
      pipe.readers = (runCalls calls w).table.descriptors (.read p) ∧
      pipe.writers = (runCalls calls w).table.descriptors (.write p) ∧
      (pipe.allocated = false ↔ pipe.readers = 0 ∧ pipe.writers = 0) ∧
      (∀ k fd count, (runCalls calls w).endOf k fd = some (.read p) → 0 < count →
        ((exec (kernelRead k fd count) (runCalls calls w)).1 = .ok [] ↔
          pipe.writers = 0 ∧ pipe.buffer = [])) ∧
      ∀ k fd data, (runCalls calls w).endOf k fd = some (.write p) → data ≠ [] →
        ((exec (kernelWrite k fd data) (runCalls calls w)).1 = .error .epipe ↔
          pipe.readers = 0) := by
  have hstart : Queued w.table p [] [] := by
    refine ⟨List.nil_prefix, fun hp => ?_, fun _ => rfl⟩
    rw [show w.table.pipe p = w.pipe p from rfl, hnone p] at hp
    exact absurd hp (by decide)
  obtain ⟨hT, hqueued⟩ := run_queued calls hcounted hstart
  refine ⟨hqueued.begins, fun hp => ⟨hqueued.buffer hp, (hT.room p hp).2⟩, hT.ends (.read p),
    hT.ends (.write p), ?_, fun k fd count hend hcount => read_eof_iff hend hcount,
    fun k fd data hend hdata => write_epipe_iff hend hdata⟩
  have halloc := hT.allocated p
  rw [← not_iff_not, Bool.not_eq_false, not_and_or]
  exact halloc

theorem initial_counted : World.initial.table.Counted := by
  have hnone : ∀ x o, World.initial.table.pointer x ≠ some o := nofun
  have hempty : ∀ p, World.initial.table.pipe p = .empty := fun _ => rfl
  have hfinite : FinitelyMany World.initial.table.pointer := by
    refine Set.finite_empty.subset ?_
    intro x hx
    exact (hx rfl).elim
  have hzero : ∀ P, count World.initial.table.pointer P = 0 := fun P =>
    (count_eq_zero hfinite).mpr fun x o hx => (hnone x o hx).elim
  refine ⟨⟨hfinite, fun x o hx => (hnone x o hx).elim, fun x o hx => (hnone x o hx).elim,
    fun e => ?_, fun p _ => rfl, fun p hp => ?_⟩, fun p => ?_⟩
  · rw [Table.descriptors, hzero]
    cases e <;> rfl
  · rw [hempty p] at hp
    exact absurd hp (by decide)
  · rw [hempty p]
    decide

/-- Over every run, a description counts the descriptors of all kernels that refer to it.  When
none is left, no pipe is. -/
theorem descriptors_counted (w : World) (hcounted : w.table.Counted)
    (calls : List (Nat × PipeCall)) :
    let T := (runCalls calls w).table
    (∀ x o, T.pointer x = some o → T.refCount o = PointerCount.count T.pointer (· = o)) ∧
      ((∀ x, T.pointer x = none) → ∀ p, (T.pipe p).allocated = false) := by
  intro T
  have hstart : Queued w.table w.next [] [] := by
    refine ⟨List.nil_prefix, fun hp => ?_, fun _ => rfl⟩
    exact absurd (hcounted.pipeBelow hp) (lt_irrefl _)
  have hT : T.Counted := (run_queued calls hcounted hstart).1
  refine ⟨hT.refs, fun hnone p => ?_⟩
  have hends (e : PipeEnd) : T.ends e = 0 := by
    rw [hT.ends, Table.descriptors, Nat.cast_eq_zero, count_eq_zero hT.finite]
    intro x o hx
    rw [hnone x] at hx
    cases hx
  rw [Bool.eq_false_iff, ne_eq, hT.allocated]
  exact fun hopen => hopen.elim (· (hends (.read p))) (· (hends (.write p)))

/-- One kernel opens a pipe, forks, writes three bytes, and its child reads two of
them. -/
def exampleRun : List (Nat × PipeCall) :=
  [(0, .pipe), (0, .clone), (0, .write 1 [10, 20, 30]), (6, .read 0 2)]

/-- Both processes have the end for reading, the description 3. -/
theorem descriptors_counted_example :
    (PointerCount.count (runCalls exampleRun .initial).table.pointer (· = 3) : Int) = 2 := by
  have hcounts := (descriptors_counted .initial initial_counted exampleRun).1
  rw [← hcounts (0, ⟨0, by decide⟩) 3 (by decide +kernel)]
  decide +kernel

theorem pipes_are_bounded_queues_example :
    bytesReturned 1 exampleRun .initial = [10, 20] ∧
      bytesAccepted 1 exampleRun .initial = [10, 20, 30] ∧
      ((runCalls exampleRun .initial).table.descriptors (.read 1) : Int) = 2 := by
  have hrun := pipes_are_bounded_queues .initial initial_counted (fun _ => rfl) exampleRun 1
  refine ⟨by decide +kernel, by decide +kernel, ?_⟩
  rw [← hrun.2.2.1]
  decide +kernel

/-- A read of no bytes returns 0 with a writer, and a write of no bytes is no `EPIPE`
without a reader. -/
theorem empty_transfers_answer_zero :
    ((runCalls [(0, .pipe)] .initial).endOf 0 0 = some (.read 1) ∧
      ((runCalls [(0, .pipe)] .initial).pipe 1).writers = 1 ∧
      (exec (kernelRead 0 0 0) (runCalls [(0, .pipe)] .initial)).1 = .ok []) ∧
    ((runCalls [(0, .pipe), (0, .close 0)] .initial).endOf 0 1 = some (.write 1) ∧
      ((runCalls [(0, .pipe), (0, .close 0)] .initial).pipe 1).readers = 0 ∧
      (exec (kernelWrite 0 1 []) (runCalls [(0, .pipe), (0, .close 0)] .initial)).1 = .ok 0) := by
  decide +kernel

end Waste.Kernel
