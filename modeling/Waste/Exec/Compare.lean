import Waste.Exec.Machine

/-!
# What a run changes, and how two runs compare

Two facts about every run of the interpreter, each proved once by induction on the
fuel.  `exec_follows` compares the runs of one job from two states that differ only
in the decisions to yield and in the trace: they go on in step until one of them is
interrupted.  `exec_extends` bounds the effect of one run: call depths are restored,
frames below the job stay saved as they are, decisions are consumed in order and
events are appended.
-/

namespace Waste.Exec

open List

variable {α β σ ε : Type}
variable {k k' : Frame → State σ → Completion ε × State σ} {func depth func' engine' : Nat}
  {instr : ExecInstr α β} {fr fr' : Frame} {answer : Completion ε} {before : σ} {m : Module α β}

/-! ## One round of the loop -/

section

variable (H : Handlers α β σ ε) (prog : Nat → Module α β)
  (host : Nat → Nat → List Value → σ → HostReply σ ε)

/-- The loop after a call: `instr` is the call, `fr` the frame before it and `fr'` the
frame without its operands. -/
def afterCall (engine depth func : Nat) (instr : ExecInstr α β) (fr fr' : Frame) (before : σ)
    (k : Frame → State σ → Completion ε × State σ) (result : Completion ε × State σ) :
    Completion ε × State σ :=
  match result.1 with
  | .yield => (.yield, suspend H prog engine depth func instr fr before result.2)
  | answer =>
    match handleCallResult H engine fr' result.2.shared answer with
    | .inl move => proceed (prog engine) func k result.2 move
    | .inr answer => (answer, result.2)

/-- The end of an activation that a tail call has replaced. -/
def afterTail (engine func' : Nat) (result : Completion ε × State σ) : Completion ε × State σ :=
  match result.1 with
  | .yield =>
    if func' < (prog engine).imports.length then (.yield, result.2.emit (.lost engine func'))
    else (.yield, result.2)
  | answer => (answer, result.2)

theorem afterTail_fst (engine func' : Nat) (result : Completion ε × State σ) :
    (afterTail prog engine func' result).1 = result.1 := by
  obtain ⟨answer, -⟩ := result
  cases answer with
  | yield =>
    show (if _ then _ else _ : Completion ε × State σ).1 = _
    split <;> rfl
  | values _ | fault _ | throw _ | status _ | outOfFuel => rfl

/-- The loop after a tail call to another engine. -/
def afterForeign (engine' func' : Nat) (k : State σ → Completion ε × State σ)
    (result : Completion ε × State σ) : Completion ε × State σ :=
  match result.1 with
  | .values _ => k result.2
  | .yield => (.yield, result.2.emit (.lost engine' func'))
  | answer => (answer, result.2)

/-- What the loop does with an instruction, when `rec` runs the jobs it starts. -/
def perform (rec : Job → State σ → Completion ε × State σ) (engine depth func : Nat)
    (instr : ExecInstr α β) (fr : Frame) (st : State σ) : Completion ε × State σ :=
  let continue_ (fr : Frame) (st : State σ) := rec (.loop engine depth func fr) st
  match dispatch H prog engine ((prog engine).resultCount func) instr fr st.shared with
  | .move move => proceed (prog engine) func continue_ st move
  | .call engine' func' args fr' =>
    afterCall H prog engine depth func instr fr fr' st.shared continue_
      (rec (.invoke engine' func' args) st)
  | .tail engine' func' args fr' =>
    if engine' = engine then afterTail prog engine func' (rec (.enter engine depth func' args) st)
    else
      afterForeign engine' func' (continue_ fr'.advance) (rec (.invoke engine' func' args) st)

/-- A round of the loop: the end of the code, a yield of the pump, or an instruction. -/
def round (rec : Job → State σ → Completion ε × State σ) (engine depth func : Nat) (fr : Frame)
    (st : State σ) : Completion ε × State σ :=
  match (prog engine).defined? func with
  | none => (.fault .functionIndex, st)
  | some body =>
    match body.code[fr.pc]? with
    | none => (finish (prog engine) func fr, st)
    | some instr =>
      if st.decision then (.yield, st.decided.setSaved engine depth (some ⟨func, fr⟩))
      else
        perform H prog rec engine depth func instr fr (st.decided.emit (.instr engine func fr))

theorem exec_loop (n engine depth func : Nat) (fr : Frame) (st : State σ) :
    exec H prog host (n + 1) (.loop engine depth func fr) st =
      round H prog (exec H prog host n) engine depth func fr st := by
  rfl

end

theorem afterCall_of_ne {H : Handlers α β σ ε} {prog : Nat → Module α β}
    {engine : Nat} {u : State σ}
    (hanswer : answer ≠ .yield) :
    afterCall H prog engine depth func instr fr fr' before k (answer, u) =
      match handleCallResult H engine fr' u.shared answer with
      | .inl move => proceed (prog engine) func k u move
      | .inr answer => (answer, u) := by
  cases answer with
  | yield => exact absurd rfl hanswer
  | values | fault | throw | status | outOfFuel => rfl

/-! ## Two runs -/

/-- A way to compare two runs: how their decisions and traces are related, and the
answers of the first run after which nothing is said about the second. -/
structure Comparison (ε : Type) where
  oracle : List Bool → List Bool → Prop
  trace : List Event → List Event → Prop
  escape : Completion ε → Prop
  tail : ∀ {o o'}, oracle o o' → oracle o.tail o'.tail
  decision : ∀ {o o'}, oracle o o' →
    o'.headD false = o.headD false ∨ o'.headD false = false ∧ escape .yield
  append : ∀ {t t'} (event : Event), trace t t' → trace (t ++ [event]) (t' ++ [event])
  interrupted : ∀ {answer}, escape answer → answer = .yield ∨ answer = .outOfFuel

namespace Comparison

variable (K : Comparison ε)

/-- The two states agree on everything a step reads, the decisions apart. -/
structure Same (st st' : State σ) : Prop where
  shared : st'.shared = st.shared
  active : st'.active = st.active
  saved : st'.saved = st.saved
  oracle : K.oracle st.oracle st'.oracle
  trace : K.trace st.trace st'.trace

/-- The second result is the first one, up to decisions and trace. -/
def Follows (r r' : Completion ε × State σ) : Prop :=
  K.escape r.1 ∨ r'.1 = r.1 ∧ K.Same r.2 r'.2

variable {K} {st st' : State σ}

namespace Same

section

variable (h : K.Same st st')
include h

theorem emit (event : Event) : K.Same (st.emit event) (st'.emit event) :=
  { h with trace := K.append event h.trace }

theorem decided : K.Same st.decided st'.decided :=
  { h with oracle := K.tail h.oracle }

theorem setShared (s : σ) : K.Same (st.setShared s) (st'.setShared s) :=
  { h with shared := rfl }

theorem setActive (engine depth : Nat) :
    K.Same (st.setActive engine depth) (st'.setActive engine depth) :=
  { h with active := by simp only [State.setActive, h.active] }

theorem setSaved (engine depth : Nat) (frame : Option SavedFrame) :
    K.Same (st.setSaved engine depth frame) (st'.setSaved engine depth frame) :=
  { h with saved := by simp only [State.setSaved, h.saved] }

theorem follows : K.Follows (answer, st) (answer, st') :=
  .inr ⟨rfl, h⟩

end

end Same

theorem proceed_follows
    (hk : ∀ fr st st', K.Same st st' → K.Follows (k fr st) (k' fr st')) (h : K.Same st st')
    {move : Move σ ε} : K.Follows (proceed m func k st move) (proceed m func k' st' move) := by
  cases move with
  | next fr s => exact hk fr _ _ (h.setShared s)
  | return_ fr s => exact (h.setShared s).follows
  | fault x s => exact (h.setShared s).follows
  | throw x s => exact (h.setShared s).follows

variable (H : Handlers α β σ ε) (prog : Nat → Module α β)
  (host : Nat → Nat → List Value → σ → HostReply σ ε)

/-- Either both runs take the same decision, or the first one yields and may. -/
theorem decision_cases (h : K.Same st st') :
    st.decision = st'.decision ∨ st.decision = true ∧ K.escape .yield := by
  show st.oracle.headD false = st'.oracle.headD false ∨ st.oracle.headD false = true ∧ _
  rcases K.decision h.oracle with heq | ⟨hfalse, hescape⟩
  · exact .inl heq.symm
  · cases hd : st.oracle.headD false with
    | false => exact .inl hfalse.symm
    | true => exact .inr ⟨rfl, hescape⟩

theorem callImport_follows (engine func : Nat) {args : List Value} (h : K.Same st st') :
    K.Follows (callImport prog host engine func args st)
      (callImport prog host engine func args st') := by
  unfold callImport
  cases (prog engine).funcType? func with
  | none => exact h.follows
  | some type =>
    by_cases hargs : args.length ≠ type.params.length
    · simp only [if_pos hargs]
      exact h.follows
    simp only [if_neg hargs]
    rcases decision_cases h with heq | ⟨hyield, hescape⟩
    · rw [← heq, h.shared]
      cases st.decision with
      | true => exact h.decided.follows
      | false => exact ((h.decided.setShared _).emit _).follows
    · left
      rw [if_pos hyield]
      exact hescape

variable {r r' : Completion ε × State σ}

theorem afterCall_follows {engine : Nat}
    (hk : ∀ fr st st', K.Same st st' → K.Follows (k fr st) (k' fr st')) (h : K.Follows r r') :
    K.Follows (afterCall H prog engine depth func instr fr fr' before k r)
      (afterCall H prog engine depth func instr fr fr' before k' r') := by
  obtain ⟨answer, st⟩ := r
  obtain ⟨answer', st'⟩ := r'
  rcases h with hescape | ⟨heq, hsame⟩
  · -- an interrupted callee interrupts the caller
    rcases K.interrupted hescape with heq | heq <;> cases heq <;> exact .inl hescape
  obtain rfl : answer' = answer := heq
  have hmove (answer : Completion ε) : K.Follows
      (match handleCallResult H engine fr' st.shared answer with
        | .inl move => proceed (prog engine) func k st move
        | .inr answer => (answer, st))
      (match handleCallResult H engine fr' st'.shared answer with
        | .inl move => proceed (prog engine) func k' st' move
        | .inr answer => (answer, st')) := by
    rw [hsame.shared]
    cases handleCallResult H engine fr' st.shared answer with
    | inl move => exact proceed_follows hk hsame
    | inr answer => exact hsame.follows
  cases answer' with
  | yield =>
    dsimp only [afterCall, suspend]
    rw [hsame.shared]
    exact ((hsame.setSaved _ _ _).emit _).follows
  | values values => exact hmove (.values values)
  | fault x => exact hmove (.fault x)
  | throw x => exact hmove (.throw x)
  | status code => exact hmove (.status code)
  | outOfFuel => exact hmove .outOfFuel

theorem afterTail_follows {engine : Nat} (h : K.Follows r r') :
    K.Follows (afterTail prog engine func' r) (afterTail prog engine func' r') := by
  obtain ⟨answer, st⟩ := r
  obtain ⟨answer', st'⟩ := r'
  rcases h with hescape | ⟨heq, hsame⟩
  · left
    rw [afterTail_fst]
    exact hescape
  obtain rfl : answer' = answer := heq
  cases answer' with
  | yield =>
    show K.Follows (if _ then _ else _) (if _ then _ else _)
    split
    · exact (hsame.emit _).follows
    · exact hsame.follows
  | values _ | fault _ | throw _ | status _ | outOfFuel => exact hsame.follows

theorem afterForeign_follows {k k' : State σ → Completion ε × State σ}
    (hk : ∀ st st', K.Same st st' → K.Follows (k st) (k' st')) (h : K.Follows r r') :
    K.Follows (afterForeign engine' func' k r) (afterForeign engine' func' k' r') := by
  obtain ⟨answer, st⟩ := r
  obtain ⟨answer', st'⟩ := r'
  rcases h with hescape | ⟨heq, hsame⟩
  · rcases K.interrupted hescape with heq | heq <;> cases heq <;> exact .inl hescape
  · obtain rfl : answer' = answer := heq
    cases answer' with
    | values _ => exact hk st st' hsame
    | yield => exact (hsame.emit _).follows
    | fault _ | throw _ | status _ | outOfFuel => exact hsame.follows

section

variable {rec rec' : Job → State σ → Completion ε × State σ}
  (hrec : ∀ job (st st' : State σ), K.Same st st' → K.Follows (rec job st) (rec' job st'))

include hrec

theorem perform_follows (engine depth func : Nat) (fr : Frame) (h : K.Same st st') :
    K.Follows (perform H prog rec engine depth func instr fr st)
      (perform H prog rec' engine depth func instr fr st') := by
  unfold perform
  rw [h.shared]
  cases dispatch H prog engine ((prog engine).resultCount func) instr fr st.shared with
  | move move => exact proceed_follows (fun fr => hrec (.loop engine depth func fr)) h
  | call engine' func' args fr' =>
    exact afterCall_follows H prog (fun fr => hrec (.loop engine depth func fr))
      (hrec (.invoke engine' func' args) st st' h)
  | tail engine' func' args fr' =>
    show K.Follows (if _ then _ else _) (if _ then _ else _)
    split_ifs
    · exact afterTail_follows prog (hrec (.enter engine depth func' args) st st' h)
    · exact afterForeign_follows (hrec (.loop engine depth func fr'.advance))
        (hrec (.invoke engine' func' args) st st' h)

theorem round_follows (engine depth func : Nat) (fr : Frame) (h : K.Same st st') :
    K.Follows (round H prog rec engine depth func fr st)
      (round H prog rec' engine depth func fr st') := by
  unfold round
  cases (prog engine).defined? func with
  | none => exact h.follows
  | some body =>
    show K.Follows (match body.code[fr.pc]? with | none => _ | some instr => _)
      (match body.code[fr.pc]? with | none => _ | some instr => _)
    cases body.code[fr.pc]? with
    | none => exact h.follows
    | some instr =>
      show K.Follows (if _ then _ else _) (if _ then _ else _)
      rcases decision_cases h with heq | ⟨hyield, hescape⟩
      · rw [← heq]
        cases st.decision with
        | true => exact (h.decided.setSaved _ _ _).follows
        | false =>
          exact perform_follows H prog hrec engine depth func fr (h.decided.emit _)
      · left
        rw [if_pos hyield]
        exact hescape

end

/-- Two runs of one job go on in step until the first one is interrupted. -/
theorem exec_follows {n n' : Nat} (hn : n = n' ∨ n ≤ n' ∧ K.escape .outOfFuel) (job : Job)
    (h : K.Same st st') : K.Follows (exec H prog host n job st) (exec H prog host n' job st') := by
  induction n generalizing n' job st st' with
  | zero =>
    rcases hn with rfl | ⟨-, hescape⟩
    · exact h.follows
    · exact .inl hescape
  | succ n ih =>
    obtain ⟨n', rfl⟩ : ∃ k, n' = k + 1 := ⟨n' - 1, by omega⟩
    have hn' : n = n' ∨ n ≤ n' ∧ K.escape .outOfFuel := by
      rcases hn with heq | ⟨hle, hescape⟩
      · exact .inl (by omega)
      · exact .inr ⟨by omega, hescape⟩
    have hrec (job : Job) (st st' : State σ) (h : K.Same st st') := ih hn' job h
    cases job with
    | invoke engine func args =>
      unfold exec
      rw [h.active]
      dsimp only
      split_ifs
      · exact h.follows
      · rcases hrec (.enter engine (st.active engine) func args) _ _
          (h.setActive engine (st.active engine + 1)) with hescape | ⟨heq, hsame⟩
        · exact .inl hescape
        · exact .inr ⟨heq, hsame.setActive _ _⟩
    | enter engine depth func args =>
      unfold exec
      split_ifs with himport
      · exact callImport_follows prog host engine func h
      cases (prog engine).defined? func with
      | none => exact h.follows
      | some body =>
        rw [h.saved]
        cases st.saved engine depth with
        | some _ => exact hrec _ _ _ (h.setSaved _ _ _)
        | none =>
          dsimp only
          cases checkEntry (prog engine) body args with
          | error fault => exact h.follows
          | ok _ => exact hrec _ _ _ (h.emit _)
    | loop engine depth func fr =>
      exact round_follows H prog hrec engine depth func fr h

end Comparison

/-! ## One run -/

def Event.ofYield : Event → Bool
  | .suspend .. | .lost .. => true
  | _ => false

/-- The frame that a job runs in. -/
def Job.Own : Job → Nat → Nat → Prop
  | .invoke .., _, _ => False
  | .enter e d .., engine, depth | .loop e d .., engine, depth => engine = e ∧ depth = d

/-- A job runs in the innermost frame of its engine. -/
def Job.Innermost (st : State σ) : Job → Prop
  | .invoke .. => True
  | .enter e d .. | .loop e d .. => st.active e = d + 1

/-- What a run may change, if the frame `own` is its own and `yielded` says whether it
was interrupted by a yield. -/
structure Extends (own : Nat → Nat → Prop) (yielded : Prop) (st st' : State σ) : Prop where
  active : st'.active = st.active
  saved : ∀ e d, d < st.active e → ¬ own e d → st'.saved e d = st.saved e d
  trace : ∃ events, st'.trace = st.trace ++ events ∧
    (¬ yielded → ∀ event ∈ events, event.ofYield = false)
  oracle : st'.oracle <:+ st.oracle
  spent : yielded → st'.oracle.count true < st.oracle.count true

namespace Extends

variable {own : Nat → Nat → Prop} {yielded : Prop} {st st1 st2 : State σ}

theorem refl (st : State σ) : Extends own False st st where
  active := rfl
  saved := fun _ _ _ _ => rfl
  trace := ⟨[], by simp, by simp⟩
  oracle := suffix_refl _
  spent := False.elim

theorem trans (h : Extends own False st st1) (h' : Extends own yielded st1 st2) :
    Extends own yielded st st2 where
  active := h'.active.trans h.active
  saved := by
    intro e d hlt hown
    rw [h'.saved e d (by rw [h.active]; exact hlt) hown, h.saved e d hlt hown]
  trace := by
    obtain ⟨events, htrace, hstep⟩ := h.trace
    obtain ⟨events', htrace', hstep'⟩ := h'.trace
    refine ⟨events ++ events', by rw [htrace', htrace, append_assoc], ?_⟩
    intro hy event hmem
    rcases mem_append.1 hmem with hmem | hmem
    · exact hstep id event hmem
    · exact hstep' hy event hmem
  oracle := h'.oracle.trans h.oracle
  spent := fun hy => Nat.lt_of_lt_of_le (h'.spent hy) (h.oracle.sublist.count_le true)

theorem mono {own' : Nat → Nat → Prop} (h : Extends own yielded st st1)
    (hle : ∀ e d, own e d → own' e d) : Extends own' yielded st st1 :=
  { h with saved := fun e d hlt hown => h.saved e d hlt fun h' => hown (hle e d h') }

theorem weaken (h : Extends own False st st1) (hy : ¬ yielded) : Extends own yielded st st1 := by
  obtain ⟨events, htrace, hstep⟩ := h.trace
  exact { h with
    trace := ⟨events, htrace, fun _ => hstep id⟩
    spent := fun hy' => absurd hy' hy }

theorem emit (h : Extends own yielded st st1) {event : Event}
    (hevent : ¬ yielded → event.ofYield = false) : Extends own yielded st (st1.emit event) := by
  obtain ⟨events, htrace, hstep⟩ := h.trace
  refine { h with trace := ⟨events ++ [event], by simp [State.emit, htrace], ?_⟩ }
  intro hy event' hmem
  rcases mem_append.1 hmem with hmem | hmem
  · exact hstep hy event' hmem
  · rw [mem_singleton.1 hmem]
    exact hevent hy

theorem setShared (h : Extends own yielded st st1) (s : σ) :
    Extends own yielded st (st1.setShared s) :=
  { h with }

theorem setSaved (h : Extends own yielded st st1) {e d : Nat} (hown : own e d)
    (frame : Option SavedFrame) : Extends own yielded st (st1.setSaved e d frame) := by
  refine { h with saved := fun e' d' hlt hne => ?_ }
  show (if e' = e ∧ d' = d then frame else st1.saved e' d') = _
  rw [if_neg (by rintro ⟨rfl, rfl⟩; exact hne hown)]
  exact h.saved e' d' hlt hne

theorem decided (st : State σ) : Extends own False st st.decided where
  active := rfl
  saved := fun _ _ _ _ => rfl
  trace := ⟨[], by simp [State.decided], by simp⟩
  oracle := tail_suffix _
  spent := False.elim

theorem decided_yield (h : st.decision = true) : Extends own yielded st st.decided := by
  refine { decided st with trace := ⟨[], by simp [State.decided], by simp⟩, spent := fun _ => ?_ }
  have hyield : st.oracle.headD false = true := h
  show st.oracle.tail.count true < st.oracle.count true
  cases horacle : st.oracle with
  | nil => simp [horacle] at hyield
  | cons decision _ =>
    rw [horacle] at hyield
    obtain rfl : decision = true := hyield
    simp

end Extends

/-- `Extends`, with the answer of the run. -/
def Ran (own : Nat → Nat → Prop) (st : State σ) (result : Completion ε × State σ) : Prop :=
  Extends own (result.1 = .yield) st result.2

section

variable {own : Nat → Nat → Prop} {st : State σ}

theorem Extends.ran {st' : State σ} (h : Extends own False st st')
    (hanswer : answer ≠ .yield) : Ran own st (answer, st') :=
  h.weaken hanswer

variable {result : Completion ε × State σ} {engine : Nat}

theorem Ran.settled (h : Ran own st result) (hanswer : result.1 ≠ .yield) :
    Extends own False st result.2 := by
  obtain ⟨events, htrace, hstep⟩ := h.trace
  exact { h with trace := ⟨events, htrace, fun _ => hstep hanswer⟩, spent := False.elim }

/-- An invocation restores the depth of its engine, and its frame was not in use. -/
theorem Ran.leave (h : Ran (fun e d => e = engine ∧ d = st.active engine)
      (st.setActive engine (st.active engine + 1)) result) :
    Ran (fun _ _ => False) st (result.1, result.2.setActive engine (st.active engine)) := by
  refine { h with active := ?_, saved := fun e d hlt _ => ?_ }
  · funext e
    show (if e = engine then st.active engine else result.2.active e) = st.active e
    rw [h.active]
    show (if e = engine then _ else if e = engine then _ else st.active e) = st.active e
    split
    case isTrue heq => rw [heq]
    case isFalse => rfl
  · have hlt' : d < (st.setActive engine (st.active engine + 1)).active e := by
      show d < if e = engine then st.active engine + 1 else st.active e
      split
      case isTrue heq =>
        rw [heq] at hlt
        omega
      case isFalse => exact hlt
    refine h.saved e d hlt' ?_
    intro ⟨he, hd⟩
    rw [he, hd] at hlt
    omega

theorem finish_ne_yield (m : Module α β) (func : Nat) (fr : Frame) :
    (finish m func fr : Completion ε) ≠ .yield := by
  unfold finish
  split <;> simp

theorem hostCompletion_ne_yield {results : Nat} {reply : HostReply σ ε} :
    (hostCompletion results reply).1 ≠ .yield := by
  cases reply with
  | values values s =>
    unfold hostCompletion
    dsimp only
    split <;> simp
  | fault | throw | status => simp [hostCompletion]

theorem proceed_ran {st' : State σ}
    (hk : ∀ fr s, Ran own (st'.setShared s) (k fr (st'.setShared s)))
    (h : Extends own False st st') {move : Move σ ε} : Ran own st (proceed m func k st' move) := by
  cases move with
  | next fr s => exact (h.setShared s).trans (hk fr s)
  | return_ fr s => exact (h.setShared s).ran (finish_ne_yield m func fr)
  | fault x s => exact (h.setShared s).ran nofun
  | throw x s => exact (h.setShared s).ran nofun

variable (H : Handlers α β σ ε) (prog : Nat → Module α β)
  (host : Nat → Nat → List Value → σ → HostReply σ ε)

theorem callImport_ran (engine func : Nat) (args : List Value) (st : State σ) :
    Ran own st (callImport prog host engine func args st) := by
  unfold callImport
  split
  · exact (Extends.refl st).ran nofun
  split
  · exact (Extends.refl st).ran nofun
  · split
    case isTrue hyield => exact .decided_yield hyield
    case isFalse =>
      refine .ran ?_ hostCompletion_ne_yield
      exact ((Extends.decided st).setShared _).emit fun _ => rfl

theorem handleCallResult_inr {s : σ} {answer' : Completion ε}
    (h : handleCallResult H engine fr s answer = .inr answer') : answer' = answer := by
  cases answer with
  | values values =>
    cases hpush : stackPushAll values.reverse fr.operands <;>
      simp [handleCallResult, hpush] at h
  | throw x => simp [handleCallResult] at h
  | fault | status | yield | outOfFuel => exact (Sum.inr.inj h).symm

theorem afterCall_ran (hown : own engine depth) (h : Ran own st result)
    (hk : ∀ fr s, Ran own (result.2.setShared s) (k fr (result.2.setShared s))) :
    Ran own st (afterCall H prog engine depth func instr fr fr' before k result) := by
  obtain ⟨answer, st'⟩ := result
  by_cases hyield : answer = .yield
  · subst hyield
    exact (Extends.setSaved h hown _).emit fun hy => absurd rfl hy
  have hsettled : Extends own False st st' := h.settled hyield
  rw [afterCall_of_ne hyield]
  cases hresult : handleCallResult H engine fr' st'.shared answer with
  | inl move => exact proceed_ran hk hsettled
  | inr _ =>
    rw [handleCallResult_inr H hresult]
    exact hsettled.ran hyield

theorem afterTail_ran (h : Ran own st result) :
    Ran own st (afterTail prog engine func' result) := by
  obtain ⟨answer, st'⟩ := result
  cases answer with
  | yield =>
    show Ran own st (if _ then _ else _)
    split
    · exact .emit h fun hy => absurd rfl hy
    · exact h
  | values _ | fault _ | throw _ | status _ | outOfFuel => exact h

theorem afterForeign_ran {k : State σ → Completion ε × State σ}
    (h : Ran own st result) (hk : Ran own result.2 (k result.2)) :
    Ran own st (afterForeign engine' func' k result) := by
  obtain ⟨answer, st'⟩ := result
  cases answer with
  | values _ => exact (h.settled nofun).trans hk
  | yield => exact .emit h fun hy => absurd rfl hy
  | fault _ | throw _ | status _ | outOfFuel => exact h

section

variable {rec : Job → State σ → Completion ε × State σ}
  (hrec : ∀ job (st : State σ), job.Innermost st → Ran job.Own st (rec job st))

include hrec

theorem perform_ran {st : State σ} (h : st.active engine = depth + 1) :
    Ran (fun e d => e = engine ∧ d = depth) st
      (perform H prog rec engine depth func instr fr st) := by
  have hloop (st' : State σ) (hactive : st'.active = st.active) (fr : Frame) :
      Ran (fun e d => e = engine ∧ d = depth) st' (rec (.loop engine depth func fr) st') :=
    hrec (.loop engine depth func fr) st' (by
      show st'.active engine = depth + 1
      rw [hactive, h])
  have hinvoke (engine' func' : Nat) (args : List Value) :
      Ran (fun e d => e = engine ∧ d = depth) st (rec (.invoke engine' func' args) st) :=
    (hrec (.invoke engine' func' args) st trivial).mono fun _ _ => False.elim
  unfold perform
  cases dispatch H prog engine ((prog engine).resultCount func) instr fr st.shared with
  | move move => exact proceed_ran (fun fr s => hloop (st.setShared s) rfl fr) (.refl st)
  | call engine' func' args fr' =>
    have hcall := hinvoke engine' func' args
    exact afterCall_ran H prog ⟨rfl, rfl⟩ hcall fun fr s =>
      hloop ((rec (.invoke engine' func' args) st).2.setShared s) hcall.active fr
  | tail engine' func' args fr' =>
    show Ran _ st (if _ then _ else _)
    split
    · exact afterTail_ran prog (hrec (.enter engine depth func' args) st h)
    · have hcall := hinvoke engine' func' args
      exact afterForeign_ran hcall (hloop _ hcall.active fr'.advance)

theorem round_ran {st : State σ} (h : st.active engine = depth + 1) :
    Ran (fun e d => e = engine ∧ d = depth) st (round H prog rec engine depth func fr st) := by
  unfold round
  split
  · exact (Extends.refl st).ran nofun
  split
  · exact (Extends.refl st).ran (finish_ne_yield _ _ _)
  · split
    case isTrue hyield => exact (Extends.decided_yield hyield).setSaved ⟨rfl, rfl⟩ _
    case isFalse =>
      exact ((Extends.decided st).emit fun _ => rfl).trans (perform_ran H prog hrec h)

end

/-- The effect of a run. -/
theorem exec_extends (n : Nat) (job : Job) (st : State σ) (h : job.Innermost st) :
    Ran job.Own st (exec H prog host n job st) := by
  induction n generalizing job st with
  | zero => exact (Extends.refl st).ran nofun
  | succ n ih =>
    cases job with
    | invoke engine func args =>
      unfold exec
      dsimp only
      split
      · exact (Extends.refl st).ran nofun
      · have hinner : (st.setActive engine (st.active engine + 1)).active engine =
            st.active engine + 1 := if_pos rfl
        exact (ih (.enter engine (st.active engine) func args) _ hinner).leave
    | enter engine depth func args =>
      have hloop (st' : State σ) (hactive : st'.active = st.active) (func : Nat) (fr : Frame) :
          Ran (fun e d => e = engine ∧ d = depth) st'
            (exec H prog host n (.loop engine depth func fr) st') :=
        ih (.loop engine depth func fr) st' ((congrFun hactive engine).trans h)
      unfold exec
      split
      · exact callImport_ran prog host engine func args st
      split
      · exact (Extends.refl st).ran nofun
      split
      · exact ((Extends.refl st).setSaved ⟨rfl, rfl⟩ none).trans
          (hloop (st.setSaved engine depth none) rfl _ _)
      · split
        · exact (Extends.refl st).ran nofun
        · exact ((Extends.refl st).emit fun _ => rfl).trans
            (hloop (st.emit (.enter engine func args)) rfl _ _)
    | loop engine depth func fr =>
      exact round_ran H prog ih h

end

end Waste.Exec
