import Waste.Exec.Compare
import Waste.Exec.Integer
import Waste.Lib.Fuel

/-!
# Yields are transparent

A run that yields is invoked again until it stops (`drive`).  `eval` is the answer of
a job with enough fuel.  A yield keeps what `eval` says of the root: the frames it has
saved, and the calls that are made again on the way to them, lead to the same answer,
the same shared state and the same events as if nothing had happened
(`exec_resumes`).  So a driven run ends as the run without yields does
(`drive_iff_exec`), under the condition that the source needs: a suspended call finds
the same target when it is made again, and no tail call that leaves the engine yields.

A call that is made again is dispatched a second time.  `logOf` leaves these second
dispatches out of a trace, and nothing else.
-/

namespace Waste.Exec

open Waste.Fuel Waste.Types List Option Prod

variable {α β σ ε : Type}
variable (trace : List Event)
variable {r result : Completion ε × State σ}
  {g : Nat → Completion ε × State σ → Completion ε × State σ}
  {k : Frame → State σ → Completion ε × State σ} {x y : Option (Completion ε × State σ)}
  {f : Nat → Completion ε × State σ} {event : Event} {results : Nat}

/-! ## Traces without the calls that are made again -/

/-- The suspended calls, the innermost last, and the events. -/
structure Log where
  pending : List (Nat × Nat × Frame)
  events : List Event

/-- An instruction that is the outermost suspended call is not recorded again. -/
def Log.record (log : Log) : Event → Log
  | .suspend engine func fr _ _ => { log with pending := (engine, func, fr) :: log.pending }
  | .instr engine func fr =>
    match log.pending with
    | [] => { log with events := log.events ++ [.instr engine func fr] }
    | call :: pending =>
      if call = (engine, func, fr) then { log with pending := pending }
      else { log with events := log.events ++ [.instr engine func fr] }
  | event => { log with events := log.events ++ [event] }

def logOf (trace : List Event) : Log := trace.foldl Log.record ⟨[], []⟩

theorem logOf_append (event : Event) : logOf (trace ++ [event]) = (logOf trace).record event := by
  simp [logOf, foldl_append]

theorem Log.record_of_step {events : List Event} (h : event.ofYield = false) :
    record ⟨[], events⟩ event = ⟨[], events ++ [event]⟩ := by
  cases event with
  | suspend | lost => simp [Event.ofYield] at h
  | instr | enter | host => rfl

theorem logOf_of_steps (h : ∀ event ∈ trace, event.ofYield = false) :
    logOf trace = ⟨[], trace⟩ := by
  induction trace using reverseRecOn with
  | nil => rfl
  | append_singleton trace event ih =>
    rw [logOf_append, ih fun event hmem => h event (mem_append_left _ hmem)]
    exact Log.record_of_step (h event (by simp))

/-! ## The states as a resumed run sees them -/

/-- A state with the log in the place of its trace. -/
structure View (σ : Type) where
  shared : σ
  active : Nat → Nat
  saved : Nat → Nat → Option SavedFrame
  oracle : List Bool
  log : Log

def State.view (st : State σ) : View σ :=
  ⟨st.shared, st.active, st.saved, st.oracle, logOf st.trace⟩

def seen (result : Completion ε × State σ) : Completion ε × View σ := (result.1, result.2.view)

namespace Comparison

def moreFuel : Comparison ε where
  oracle := Eq
  trace := Eq
  escape := (· = .outOfFuel)
  tail := congrArg _
  decision := by rintro o _ rfl; exact .inl rfl
  append := by rintro t _ event rfl; rfl
  interrupted := .inr

def sameLog : Comparison ε where
  oracle := Eq
  trace t t' := logOf t = logOf t'
  escape _ := False
  tail := congrArg _
  decision := by rintro o _ rfl; exact .inl rfl
  append := by
    intro t t' event h
    rw [logOf_append, logOf_append, h]
  interrupted := False.elim

/-- No decision to yield in the second run. -/
def noYield : Comparison ε where
  oracle _ o' := o' = []
  trace := Eq
  escape := (· = .yield)
  tail := by rintro _ _ rfl; rfl
  decision := by rintro _ _ rfl; exact .inr ⟨rfl, rfl⟩
  append := by rintro t _ event rfl; rfl
  interrupted := .inl

variable {st st' : State σ}

theorem Same.eq (h : (moreFuel : Comparison ε).Same st st') : st' = st := by
  obtain ⟨hshared, hactive, hsaved, horacle, htrace⟩ := h
  cases st
  cases st'
  simp only [moreFuel] at horacle htrace
  simp_all

theorem Follows.seen_eq {r' : Completion ε × State σ} (h : sameLog.Follows r r') :
    seen r = seen r' := by
  obtain ⟨answer, st⟩ := r
  obtain ⟨answer', st'⟩ := r'
  rcases h with h | ⟨heq, hsame⟩
  · exact h.elim
  · obtain rfl : answer' = answer := heq
    show (_, State.view st) = (_, State.view st')
    unfold State.view
    rw [hsame.shared, hsame.active, hsame.saved, hsame.oracle, hsame.trace]

theorem same_of_view (h : st.view = st'.view) :
    (sameLog : Comparison ε).Same st st' := by
  simp only [State.view, View.mk.injEq] at h
  obtain ⟨hshared, hactive, hsaved, horacle, hlog⟩ := h
  exact ⟨hshared.symm, hactive.symm, hsaved.symm, horacle, hlog⟩

end Comparison

/-- A state in which nothing will yield. -/
def State.quiet (st : State σ) : State σ := { st with oracle := [] }

variable {engine depth : Nat}

theorem State.setSaved_none (st : State σ) (frame : Option SavedFrame)
    (h : st.saved engine depth = none) :
    (st.setSaved engine depth frame).setSaved engine depth none = st := by
  have hsaved : (fun e d => if e = engine ∧ d = depth then none
      else if e = engine ∧ d = depth then frame else st.saved e d) = st.saved := by
    funext e d
    split
    case isTrue heq => rw [heq.1, heq.2, h]
    case isFalse => rfl
  exact congrArg (fun saved => { st with saved := saved }) hsaved

theorem State.setActive_setActive (st : State σ) (depth' : Nat)
    (h : st.active engine = depth) : (st.setActive engine depth').setActive engine depth = st := by
  have hactive : (fun e => if e = engine then depth
      else if e = engine then depth' else st.active e) = st.active := by
    funext e
    split
    case isTrue heq => rw [heq, h]
    case isFalse => rfl
  exact congrArg (fun active => { st with active := active }) hactive

/-! ## The answer with enough fuel -/

def Completion.settled : Completion ε → Bool
  | .outOfFuel => false
  | _ => true

theorem Completion.settled_iff {answer : Completion ε} :
    answer.settled = true ↔ answer ≠ .outOfFuel := by
  cases answer <;> simp [settled]

/-- A result, unless the fuel has run out. -/
def settledPart (result : Completion ε × State σ) : Option (Completion ε × State σ) :=
  if result.1.settled then some result else none

theorem settledPart_eq_some : settledPart result = some r ↔ result = r ∧ r.1 ≠ .outOfFuel := by
  unfold settledPart
  rw [ite_none_right_eq_some, Completion.settled_iff, some_inj]
  constructor
  · rintro ⟨hne, rfl⟩
    exact ⟨rfl, hne⟩
  · rintro ⟨rfl, hne⟩
    exact ⟨hne, rfl⟩

theorem settledPart_of_ne (h : r.1 ≠ .outOfFuel) : settledPart r = some r :=
  settledPart_eq_some.2 ⟨rfl, h⟩

theorem settledPart_of_eq (h : r.1 = .outOfFuel) : settledPart r = none := by
  unfold settledPart
  rw [h]
  rfl

/-- Results that only more fuel changes. -/
def Growing (f : Nat → Completion ε × State σ) : Prop :=
  ∀ n, Comparison.moreFuel.Follows (f n) (f (n + 1))

theorem Growing.stable (h : Growing f) : Stable fun n => settledPart (f n) := by
  intro n r hr
  obtain ⟨rfl, hne⟩ := settledPart_eq_some.1 hr
  rcases h n with hescape | ⟨heq, hsame⟩
  · exact absurd hescape hne
  · have hsucc : f (n + 1) = f n := Prod.ext heq hsame.eq
    show settledPart (f (n + 1)) = some (f n)
    rw [hsucc]
    exact hr

/-- Two sequences that are seen alike have limits that are seen alike. -/
theorem limit_seen {g : Nat → Completion ε × State σ} (hf : Growing f) (hg : Growing g)
    (h : ∀ n, seen (f n) = seen (g n)) :
    (limit fun n => settledPart (f n)).map seen = (limit fun n => settledPart (g n)).map seen := by
  have hne (n : Nat) : (f n).1 = (g n).1 := (mk.inj (h n)).1
  apply ext
  intro v
  simp only [map_eq_some_iff]
  constructor
  · rintro ⟨r, hr, rfl⟩
    obtain ⟨n, hn⟩ := (limit_eq_some hf.stable).1 hr
    obtain ⟨rfl, hsettled⟩ := settledPart_eq_some.1 hn
    exact ⟨g n, limit_eq_of_stable hg.stable (settledPart_of_ne (hne n ▸ hsettled)), (h n).symm⟩
  · rintro ⟨r, hr, rfl⟩
    obtain ⟨n, hn⟩ := (limit_eq_some hg.stable).1 hr
    obtain ⟨rfl, hsettled⟩ := settledPart_eq_some.1 hn
    exact ⟨f n, limit_eq_of_stable hf.stable (settledPart_of_ne (hne n ▸ hsettled)), h n⟩

theorem bind_seen (h : x.map seen = y.map seen)
    {f : Nat → Completion ε × State σ → Completion ε × State σ} (hf : ∀ r, Growing (f · r))
    (hg : ∀ r, Growing (g · r))
    (hfg : ∀ r r', seen r = seen r' → ∀ n, seen (f n r) = seen (g n r')) :
    (x.bind fun r => limit fun n => settledPart (f n r)).map seen =
      (y.bind fun r => limit fun n => settledPart (g n r)).map seen := by
  cases x with
  | none =>
    cases y with
    | none => rfl
    | some r => simp at h
  | some r =>
    cases y with
    | none => simp at h
    | some r' => exact limit_seen (hf r) (hg r') (hfg r r' (some.inj h))

section

variable (H : Handlers α β σ ε) (prog : Nat → Module α β)
  (host : Nat → Nat → List Value → σ → HostReply σ ε)

theorem exec_growing (job : Job) (st : State σ) :
    Growing fun n => exec H prog host n job st := fun n =>
  Comparison.exec_follows H prog host (.inr ⟨n.le_succ, rfl⟩) job ⟨rfl, rfl, rfl, rfl, rfl⟩

/-- The answer of a job, when it has one. -/
noncomputable def eval (job : Job) (st : State σ) : Option (Completion ε × State σ) :=
  limit fun n => settledPart (exec H prog host n job st)

variable {H prog host}

variable {job : Job} {st st' u : State σ} {n engine depth func func' engine' fuel rounds : Nat}
  {instr : ExecInstr α β} {fr fr' : Frame} {before s : σ} {answer : Completion ε}
  {args : List Value}

theorem eval_eq_some : eval H prog host job st = some r ↔
      ∃ n, exec H prog host n job st = r ∧ r.1 ≠ .outOfFuel := by
  unfold eval
  rw [limit_eq_some (exec_growing H prog host job st).stable]
  simp only [settledPart_eq_some]

theorem exec_mono {k : Nat} (hle : n ≤ k) (h : (exec H prog host n job st).1 ≠ .outOfFuel) :
    exec H prog host k job st = exec H prog host n job st :=
  (settledPart_eq_some.1 ((exec_growing H prog host job st).stable.le (settledPart_of_ne h) hle)).1

/-- Jobs from states that are seen alike have answers that are seen alike. -/
theorem eval_seen (job : Job) (h : st.view = st'.view) :
    (eval H prog host job st).map seen = (eval H prog host job st').map seen :=
  limit_seen (exec_growing H prog host job st) (exec_growing H prog host job st') fun _ =>
    (Comparison.exec_follows H prog host (.inl rfl) job (Comparison.same_of_view h)).seen_eq

variable {job' : Job}

theorem eval_of_succ
    (h : ∀ n, exec H prog host (n + 1) job st = exec H prog host n job' st') :
    eval H prog host job st = eval H prog host job' st' := by
  refine limit_of_succ (exec_growing H prog host job st).stable
    (exec_growing H prog host job' st').stable rfl ?_
  intro n
  rw [h n]

theorem eval_of_bind
    (h : ∀ n, exec H prog host (n + 1) job st = g n (exec H prog host n job' st'))
    (hg : ∀ r, Growing (g · r)) (hfuel : ∀ n r, r.1 = .outOfFuel → (g n r).1 = .outOfFuel) :
    eval H prog host job st =
      (eval H prog host job' st').bind fun r => limit fun n => settledPart (g n r) := by
  have hrest (r : Completion ε × State σ) : Stable fun n => settledPart (g n r) := (hg r).stable
  have hjob := (exec_growing H prog host job' st').stable
  refine (limit_of_succ (exec_growing H prog host job st).stable (hjob.bind hrest) rfl ?_).trans
    (limit_bind hjob hrest)
  intro n
  rw [h n]
  by_cases hr : (exec H prog host n job' st').1 = .outOfFuel
  · rw [settledPart_of_eq hr, settledPart_of_eq (hfuel n _ hr)]
    rfl
  · rw [settledPart_of_ne hr]
    rfl

/-! ### The answer of a loop -/

/-- The state in which an instruction runs. -/
def State.fetched (st : State σ) (engine func : Nat) (fr : Frame) : State σ :=
  st.decided.emit (.instr engine func fr)

@[simp]
theorem State.fetched_shared : (st.fetched engine func fr).shared = st.shared := rfl

theorem afterCall_growing (r : Completion ε × State σ) :
    Growing fun n => afterCall H prog engine depth func instr fr fr' before
      (fun fr => exec H prog host n (.loop engine depth func fr)) r := by
  intro n
  apply Comparison.afterCall_follows
  · intro fr st st' hsame
    exact Comparison.exec_follows H prog host (.inr ⟨n.le_succ, rfl⟩) _ hsame
  · exact .inr ⟨rfl, ⟨rfl, rfl, rfl, rfl, rfl⟩⟩

/-- The answer of a tail call to a function of the engine is handed on. -/
theorem afterTail_of_defined (hfunc : ¬ func' < (prog engine).imports.length)
    (r : Completion ε × State σ) : afterTail prog engine func' r = r := by
  obtain ⟨answer, -⟩ := r
  cases answer with
  | yield => exact if_neg hfunc
  | values _ | fault _ | throw _ | status _ | outOfFuel => rfl

section Loop

variable (st) {body : Func α β} (hbody : (prog engine).defined? func = some body)
  (hinstr : body.code[fr.pc]? = some instr) (hgo : st.decision = false)

include hbody hinstr hgo

theorem exec_instr (n : Nat) : exec H prog host (n + 1) (.loop engine depth func fr) st =
      perform H prog (exec H prog host n) engine depth func instr fr
        (st.fetched engine func fr) := by
  rw [exec_loop]
  simp only [round, hbody, hinstr, hgo, Bool.false_eq_true, if_false]
  rfl

theorem eval_next (h : dispatch H prog engine ((prog engine).resultCount func) instr fr st.shared =
      .move (.next fr' s)) : eval H prog host (.loop engine depth func fr) st =
      eval H prog host (.loop engine depth func fr') ((st.fetched engine func fr).setShared s) := by
  apply eval_of_succ
  intro n
  rw [exec_instr st hbody hinstr hgo]
  simp only [perform, State.fetched_shared, h, proceed]

theorem eval_call (h : dispatch H prog engine ((prog engine).resultCount func) instr fr st.shared =
      .call engine' func' args fr') :
    eval H prog host (.loop engine depth func fr) st =
      (eval H prog host (.invoke engine' func' args) (st.fetched engine func fr)).bind fun r =>
        limit fun n => settledPart (afterCall H prog engine depth func instr fr fr' st.shared
          (fun fr => exec H prog host n (.loop engine depth func fr)) r) := by
  apply eval_of_bind
  · intro n
    rw [exec_instr st hbody hinstr hgo]
    simp only [perform, State.fetched_shared, h]
  · exact afterCall_growing
  · rintro n ⟨answer, st'⟩ hr
    obtain rfl : answer = .outOfFuel := hr
    rfl

theorem eval_tail (h : dispatch H prog engine ((prog engine).resultCount func) instr fr st.shared =
      .tail engine func' args fr') (hfunc : ¬ func' < (prog engine).imports.length) :
    eval H prog host (.loop engine depth func fr) st =
      eval H prog host (.enter engine depth func' args) (st.fetched engine func fr) := by
  apply eval_of_succ
  intro n
  rw [exec_instr st hbody hinstr hgo]
  simp only [perform, State.fetched_shared, h, if_true]
  exact afterTail_of_defined hfunc _

theorem eval_foreign
    (h : dispatch H prog engine ((prog engine).resultCount func) instr fr st.shared =
      .tail engine' func' args fr') (hne : engine' ≠ engine) :
    eval H prog host (.loop engine depth func fr) st =
      (eval H prog host (.invoke engine' func' args) (st.fetched engine func fr)).bind fun r =>
        limit fun n => settledPart (afterForeign engine' func'
          (exec H prog host n (.loop engine depth func fr'.advance)) r) := by
  apply eval_of_bind
  · intro n
    rw [exec_instr st hbody hinstr hgo]
    simp only [perform, State.fetched_shared, h, if_neg hne]
  · intro r n
    exact Comparison.afterForeign_follows
      (fun st st' hsame => Comparison.exec_follows H prog host (.inr ⟨n.le_succ, rfl⟩) _ hsame)
      (.inr ⟨rfl, ⟨rfl, rfl, rfl, rfl, rfl⟩⟩)
  · rintro n ⟨answer, st'⟩ hr
    obtain rfl : answer = .outOfFuel := hr
    rfl

end Loop

/-- A run that does not yield is the run without yields. -/
theorem eval_quiet (h : exec H prog host n job st = (answer, st')) (hyield : answer ≠ .yield)
    (hfuel : answer ≠ .outOfFuel) : eval H prog host job st.quiet = some (answer, st'.quiet) := by
  have hsame : (.noYield : Comparison ε).Same st st.quiet := ⟨rfl, rfl, rfl, rfl, rfl⟩
  rcases Comparison.exec_follows H prog host (.inl rfl) job hsame with hescape | ⟨heq, hsame'⟩
  · rw [h] at hescape
    exact absurd hescape hyield
  rw [h] at heq hsame'
  have hstate : (exec H prog host n job st.quiet).2 = st'.quiet := by
    obtain ⟨hshared, hactive, hsaved, horacle, htrace⟩ := hsame'
    cases hst : (exec H prog host n job st.quiet).2
    simp only [hst, Comparison.noYield] at hshared hactive hsaved horacle htrace
    simp [State.quiet, hshared, hactive, hsaved, horacle, htrace]
  exact eval_eq_some.2 ⟨n, Prod.ext heq hstate, hfuel⟩

/-! ## One yield -/

/-- A suspended call finds the same target again, and no frame is lost. -/
def Event.Resumable : Event → Prop
  | .suspend _ _ _ site again => again = site
  | .lost .. => False
  | _ => True

def Resumable (trace : List Event) : Prop := ∀ event ∈ trace, event.Resumable

variable (H prog host) in
/-- What can be seen of the answer of a job. -/
noncomputable def sees (job : Job) (st : State σ) : Option (Completion ε × View σ) :=
  (eval H prog host job st).map seen

variable (H prog host) in
/-- A frame waits in `st'`, and to continue it comes to the same as the job in `st`. -/
def Waits (job : Job) (engine depth : Nat) (st st' : State σ) : Prop :=
  ∃ saved, st'.saved engine depth = some saved ∧ sees H prog host job st.quiet =
      sees H prog host (.loop engine depth saved.func saved.frame)
        (st'.setSaved engine depth none).quiet

theorem Waits.of_eval {st1 : State σ} (h : Waits H prog host job' engine depth st1 st')
    (heval : eval H prog host job st.quiet = eval H prog host job' st1.quiet) :
    Waits H prog host job engine depth st st' := by
  obtain ⟨saved, hsaved, hsees⟩ := h
  exact ⟨saved, hsaved, (congrArg (Option.map seen) heval).trans hsees⟩

variable (H prog host) in
/-- A job that has yielded in `st'` comes to the same when it is invoked again. -/
def Resumes (st st' : State σ) : Job → Prop
  | .invoke engine func args =>
    sees H prog host (.invoke engine func args) st.quiet =
      sees H prog host (.invoke engine func args) st'.quiet
  | .enter engine depth func args =>
    if func < (prog engine).imports.length then
      sees H prog host (.enter engine depth func args) st.quiet =
        sees H prog host (.enter engine depth func args) st'.quiet
    else Waits H prog host (.enter engine depth func args) engine depth st st'
  | .loop engine depth func fr => Waits H prog host (.loop engine depth func fr) engine depth st st'

/-- A job runs in the innermost frame, and a loop has taken its frame out of those that
wait. -/
def Job.Ready (st : State σ) : Job → Prop
  | .invoke .. => True
  | .enter e d .. => st.active e = d + 1
  | .loop e d .. => st.active e = d + 1 ∧ st.saved e d = none

/-- A frame that is not innermost stays out of those that wait while its callee runs. -/
theorem Job.Ready.after (h : (loop engine depth func fr).Ready st)
    (hexec : exec H prog host n (.invoke engine' func' args) st = (answer, u)) (fr' : Frame) :
    (loop engine depth func fr').Ready u := by
  have hran := exec_extends H prog host n (.invoke engine' func' args) st trivial
  rw [hexec] at hran
  have hactive : st.active engine = depth + 1 := h.1
  constructor
  · rw [hran.active]
    exact hactive
  · rw [hran.saved engine depth (by omega) id]
    exact h.2

/-- A call that is ready does not depend on the shared state any more. -/
theorem executeCall_call {site : Except Fault CallSite} {s' : σ}
    (h : (executeCall false site fr s : Action σ ε) = .call engine' func' args fr') :
    (executeCall false site fr s' : Action σ ε) = .call engine' func' args fr' := by
  cases site with
  | error => simp [executeCall] at h
  | ok site => exact h

theorem executeCall_tail_ne (site : Except Fault CallSite) (fr : Frame) (s : σ) :
    (executeCall true site fr s : Action σ ε) ≠ .call engine' func' args fr' := by
  cases site <;> simp [executeCall]

theorem executeCall_call_ne (site : Except Fault CallSite) (fr : Frame) (s : σ) :
    (executeCall false site fr s : Action σ ε) ≠ .tail engine' func' args fr' := by
  cases site <;> simp [executeCall]

theorem callSite_target {operands : List Value} {site : CallSite}
    (h : callSite prog engine func operands = .ok site) :
    site.engine = engine ∧ site.func = func := by
  unfold callSite at h
  split at h
  · simp at h
  rename_i type _
  cases hpop : popArgs "call arguments missing" (paramCount prog engine type) operands with
  | error _ => simp [hpop, bind, Except.bind] at h
  | ok _ =>
    simp only [hpop, bind, bind] at h
    obtain rfl := Except.ok.inj h
    exact ⟨rfl, rfl⟩

variable (H prog) in
/-- The call of an instruction, as `suspend` records it. -/
def siteOf (engine : Nat) (instr : ExecInstr α β) (fr : Frame) (s : σ) : Except Fault CallSite :=
  match instr.op with
  | .basic basic =>
    ((basic.site? H prog engine fr.operands s).map (·.2)).getD (.error .functionIndex)
  | _ => .error .functionIndex

theorem dispatch_call_again {s' : σ}
    (h : dispatch H prog engine results instr fr s = .call engine' func' args fr')
    (hsite : siteOf H prog engine instr fr s' = siteOf H prog engine instr fr s) :
    dispatch H prog engine results instr fr s' = .call engine' func' args fr' := by
  unfold dispatch at h ⊢
  cases hop : instr.op with
  | block | else_ | end_ => simp [hop] at h
  | basic basic =>
    rw [hop] at h
    simp only [siteOf, hop] at hsite
    cases basic with
    | callIndirect type table =>
      have hsite : callIndirectSite H prog engine type table fr.operands s' =
        callIndirectSite H prog engine type table fr.operands s := hsite
      show executeCall false (callIndirectSite H prog engine type table fr.operands s') fr s' = _
      rw [hsite]
      exact executeCall_call h
    | returnCall | returnCallIndirect | returnCallRef => exact absurd h (executeCall_tail_ne _ _ _)
    | call | callRef => exact executeCall_call h
    | _ => simp [dispatchBasic] at h

theorem Resumable.of_emit (h : Resumable (st.emit event).trace) :
    Resumable st.trace ∧ event.Resumable :=
  ⟨fun event hmem => h event (mem_append_left _ hmem),
    h event (mem_append_right _ (mem_singleton.2 rfl))⟩

/-- What follows a call sees only the answer of the call, whatever the state before it
was. -/
theorem afterCall_seen {before' : σ} (h : x.map seen = y.map seen) :
    (x.bind fun r => limit fun n => settledPart (afterCall H prog engine depth func instr fr fr'
        before (fun fr => exec H prog host n (.loop engine depth func fr)) r)).map seen =
      (y.bind fun r => limit fun n => settledPart (afterCall H prog engine depth func instr fr fr'
        before' (fun fr => exec H prog host n (.loop engine depth func fr)) r)).map seen := by
  refine bind_seen h afterCall_growing afterCall_growing ?_
  rintro ⟨answer, st⟩ ⟨answer', st'⟩ hseen n
  obtain ⟨rfl, hview⟩ := mk.inj hseen
  have hbefore : seen (afterCall H prog engine depth func instr fr fr' before
        (fun fr => exec H prog host n (.loop engine depth func fr)) (answer, st')) =
      seen (afterCall H prog engine depth func instr fr fr' before'
        (fun fr => exec H prog host n (.loop engine depth func fr)) (answer, st')) := by
    cases answer with
    | yield =>
      -- the recorded target differs, but the log does not keep it
      simp only [afterCall, suspend, seen, State.view, State.emit, logOf_append]
      rfl
    | values _ | fault _ | throw _ | status _ | outOfFuel => rfl
  rw [← hbefore]
  apply Comparison.Follows.seen_eq
  apply Comparison.afterCall_follows
  · intro fr st st' hsame
    exact Comparison.exec_follows H prog host (.inl rfl) _ hsame
  · exact .inr ⟨rfl, Comparison.same_of_view hview⟩

/-- A loop that yields after its callee has answered goes on behind the call. -/
theorem afterCall_yield (hanswer : answer ≠ .yield)
    (h : afterCall H prog engine depth func instr fr fr' before k (answer, u) = (.yield, st')) :
    ∃ fr'' s, handleCallResult H engine fr' u.shared answer = .inl (.next fr'' s) ∧
      k fr'' (u.setShared s) = (.yield, st') := by
  rw [afterCall_of_ne hanswer] at h
  cases hresult : handleCallResult H engine fr' u.shared answer with
  | inr _ =>
    rw [hresult] at h
    obtain rfl := handleCallResult_inr H hresult
    exact absurd (mk.inj h).1 hanswer
  | inl move =>
    rw [hresult] at h
    cases move with
    | next fr'' s => exact ⟨fr'', s, rfl, h⟩
    | return_ fr'' s => exact absurd (mk.inj h).1 (finish_ne_yield _ _ _)
    | fault | throw => exact nomatch h

/-- A tail call to an import that yields leaves no frame. -/
theorem afterTail_import_lost (hfunc : func' < (prog engine).imports.length)
    (h : afterTail prog engine func' result = (.yield, st')) : ¬ Resumable st'.trace := by
  obtain ⟨answer, u⟩ := result
  cases answer with
  | yield =>
    have h : (if func' < (prog engine).imports.length then _ else _) = _ := h
    rw [if_pos hfunc] at h
    obtain rfl : u.emit (.lost engine func') = st' := (mk.inj h).2
    exact fun hcond => hcond.of_emit.2
  | values | fault | throw | status | outOfFuel => exact nomatch h

section Yield

variable
  (ih : ∀ job (st st' : State σ), job.Ready st → exec H prog host n job st = (.yield, st') →
    Resumable st'.trace → Resumes H prog host st st' job)
  {body : Func α β} (hbody : (prog engine).defined? func = some body)
  (hinstr : body.code[fr.pc]? = some instr)
  (hready : (Job.loop engine depth func fr).Ready st)

include hbody hinstr

/-- The frame is suspended at a call: the call is made again and finds what has become
of the callee. -/
theorem suspended_waits (hdispatch : dispatch H prog engine ((prog engine).resultCount func) instr
      fr st.shared = .call engine' func' args fr') (hsaved : u.saved engine depth = none)
    (hcallee : sees H prog host (.invoke engine' func' args) (st.fetched engine func fr).quiet =
      sees H prog host (.invoke engine' func' args) u.quiet)
    (hsite : siteOf H prog engine instr fr u.shared = siteOf H prog engine instr fr st.shared) :
    Waits H prog host (.loop engine depth func fr) engine depth st
      (suspend H prog engine depth func instr fr st.shared u) := by
  refine ⟨⟨func, fr⟩, if_pos ⟨rfl, rfl⟩, ?_⟩
  -- the state in which the call is made again, seen from outside, is that of the callee
  have hview : (((suspend H prog engine depth func instr fr st.shared u).setSaved engine depth
      none).quiet.fetched engine func fr).view = u.quiet.view := by
    have hslot := congrArg State.saved (u.setSaved_none (some ⟨func, fr⟩) hsaved)
    have hlog : ∀ site again, logOf (u.trace ++ [.suspend engine func fr site again] ++
        [.instr engine func fr]) = logOf u.trace := by
      intro site again
      rw [logOf_append, logOf_append]
      simp [Log.record]
    exact View.mk.injEq .. ▸ ⟨rfl, rfl, hslot, rfl, hlog _ _⟩
  have hagain : dispatch H prog engine ((prog engine).resultCount func) instr fr
      ((suspend H prog engine depth func instr fr st.shared u).setSaved engine depth
        none).quiet.shared = .call engine' func' args fr' := dispatch_call_again hdispatch hsite
  unfold sees
  rw [eval_call st.quiet hbody hinstr rfl hdispatch, eval_call _ hbody hinstr rfl hagain]
  exact afterCall_seen (hcallee.trans (eval_seen _ hview).symm)

include hready ih

/-- What a loop waits for when one of its instructions has yielded. -/
theorem perform_waits (h : perform H prog (exec H prog host n) engine depth func instr fr
      (st.fetched engine func fr) = (.yield, st')) (hcond : Resumable st'.trace) :
    Waits H prog host (.loop engine depth func fr) engine depth st st' := by
  -- a loop that goes on in the same frame waits for what the rest of it waits for
  have hrest (fr' : Frame) (st1 : State σ) (hready1 : (Job.loop engine depth func fr').Ready st1)
      (hexec : exec H prog host n (.loop engine depth func fr') st1 = (.yield, st'))
      (heval : eval H prog host (.loop engine depth func fr) st.quiet =
        eval H prog host (.loop engine depth func fr') st1.quiet) :
      Waits H prog host (.loop engine depth func fr) engine depth st st' :=
    .of_eval (ih (.loop engine depth func fr') st1 st' hready1 hexec hcond) heval
  unfold perform at h
  cases hdispatch : dispatch H prog engine ((prog engine).resultCount func) instr fr st.shared with
  | move move =>
    simp only [State.fetched_shared, hdispatch] at h
    cases move with
    | next fr' s =>
      exact hrest fr' ((st.fetched engine func fr).setShared s) hready h
        (eval_next _ hbody hinstr rfl hdispatch)
    | return_ fr' s => exact absurd (mk.inj h).1 (finish_ne_yield _ _ _)
    | fault | throw => cases h
  | call engine' func' args fr' =>
    simp only [State.fetched_shared, hdispatch] at h
    have hready1 : (Job.loop engine depth func fr).Ready (st.fetched engine func fr) := hready
    rcases hresult : exec H prog host n (.invoke engine' func' args) (st.fetched engine func fr)
      with ⟨answer, u⟩
    rw [hresult] at h
    by_cases hanswer : answer = .yield
    · subst hanswer
      obtain rfl : suspend H prog engine depth func instr fr st.shared u = st' := (mk.inj h).2
      obtain ⟨hcond, hsite⟩ := hcond.of_emit
      exact suspended_waits hbody hinstr hdispatch (hready1.after hresult fr).2
        (ih (.invoke engine' func' args) _ _ trivial hresult hcond) hsite
    · obtain ⟨fr'', s, hmove, hexec⟩ := afterCall_yield hanswer h
      have hfuel : answer ≠ .outOfFuel := by
        rintro rfl
        simp [handleCallResult] at hmove
      refine hrest fr'' (u.setShared s) (hready1.after hresult fr'') hexec ?_
      rw [eval_call st.quiet hbody hinstr rfl hdispatch]
      have hcallee : eval H prog host (.invoke engine' func' args)
        (st.quiet.fetched engine func fr) = some (answer, u.quiet) :=
        eval_quiet hresult hanswer hfuel
      rw [hcallee]
      show (limit fun n => settledPart (afterCall H prog engine depth func instr fr fr' _
        (fun fr => exec H prog host n (.loop engine depth func fr)) (answer, u.quiet))) = _
      have hmove' : handleCallResult H engine fr' u.quiet.shared answer = .inl (.next fr'' s) :=
        hmove
      simp only [afterCall_of_ne hanswer, hmove']
      rfl
  | tail engine' func' args fr' =>
    simp only [State.fetched_shared, hdispatch] at h
    have hready1 : (Job.loop engine depth func fr).Ready (st.fetched engine func fr) := hready
    by_cases hown : engine' = engine
    · subst hown
      rw [if_pos rfl] at h
      by_cases himport : func' < (prog engine').imports.length
      · exact (afterTail_import_lost himport h hcond).elim
      rw [afterTail_of_defined himport] at h
      have hwaits := ih (.enter engine' depth func' args) _ _ hready1.1 h hcond
      simp only [Resumes, if_neg himport] at hwaits
      exact hwaits.of_eval (eval_tail st.quiet hbody hinstr rfl hdispatch himport)
    · rw [if_neg hown] at h
      rcases hresult : exec H prog host n (.invoke engine' func' args)
        (st.fetched engine func fr) with ⟨answer, u⟩
      rw [hresult] at h
      cases answer with
      | values values =>
        refine hrest fr'.advance u (hready1.after hresult fr'.advance) h ?_
        rw [eval_foreign st.quiet hbody hinstr rfl hdispatch hown]
        have hcallee : eval H prog host (.invoke engine' func' args)
          (st.quiet.fetched engine func fr) = some (.values values, u.quiet) :=
          eval_quiet hresult (by simp) (by simp)
        rw [hcallee]
        rfl
      | yield =>
        obtain rfl : u.emit (.lost engine' func') = st' := (mk.inj h).2
        exact hcond.of_emit.2.elim
      | fault | throw | status | outOfFuel => cases h

end Yield

/-! ### Calls and entries -/

theorem callImport_yield (h : callImport prog host engine func args st = (.yield, st')) :
    st' = st.decided := by
  unfold callImport at h
  split at h
  · exact nomatch h
  · split at h
    · exact nomatch h
    · split at h
      · exact (mk.inj h).2.symm
      · exact absurd (mk.inj h).1 hostCompletion_ne_yield

theorem enter_defined (himport : ¬ func < (prog engine).imports.length)
    (h : exec H prog host n (.enter engine depth func args) st = (.yield, st')) :
    ∃ body, (prog engine).defined? func = some body := by
  cases n with
  | zero => exact nomatch h
  | succ n =>
    cases hbody : (prog engine).defined? func with
    | none =>
      simp only [exec, if_neg himport, hbody] at h
      exact nomatch h
    | some body => exact ⟨body, rfl⟩

section

variable {body : Func α β} (himport : ¬ func < (prog engine).imports.length)
  (hbody : (prog engine).defined? func = some body)

include himport hbody

theorem eval_enter_saved {saved : SavedFrame} (hsaved : st.saved engine depth = some saved) :
    eval H prog host (.enter engine depth func args) st.quiet =
      eval H prog host (.loop engine depth saved.func saved.frame)
        (st.setSaved engine depth none).quiet := by
  apply eval_of_succ
  intro n
  have hsaved' : st.quiet.saved engine depth = some saved := hsaved
  simp only [exec, if_neg himport, hbody, hsaved']
  rfl

theorem eval_enter_fresh (hsaved : st.saved engine depth = none)
    (hcheck : checkEntry (prog engine) body args = .ok ()) :
    eval H prog host (.enter engine depth func args) st.quiet =
      eval H prog host (.loop engine depth func (freshFrame body args))
        (st.emit (.enter engine func args)).quiet := by
  apply eval_of_succ
  intro n
  have hsaved' : st.quiet.saved engine depth = none := hsaved
  simp only [exec, if_neg himport, hbody, hsaved', hcheck]
  rfl

end

/-- An entry that has yielded comes to the same when it is entered again. -/
theorem enter_sees (h : exec H prog host n (.enter engine depth func args) st = (.yield, st'))
    (hresumes : Resumes H prog host st st' (.enter engine depth func args)) :
    sees H prog host (.enter engine depth func args) st.quiet =
      sees H prog host (.enter engine depth func args) st'.quiet := by
  by_cases himport : func < (prog engine).imports.length
  · simp only [Resumes, if_pos himport] at hresumes
    exact hresumes
  · simp only [Resumes, if_neg himport] at hresumes
    obtain ⟨saved, hsaved, hsees⟩ := hresumes
    obtain ⟨body, hbody⟩ := enter_defined himport h
    rw [hsees]
    exact congrArg (Option.map seen) (eval_enter_saved himport hbody hsaved).symm

theorem eval_invoke (hactive : st.active engine = depth) (hdepth : ¬ depth ≥ execMaxCallDepth) :
    eval H prog host (.invoke engine func args) st =
      (eval H prog host (.enter engine depth func args)
        (st.setActive engine (depth + 1))).bind fun r =>
          limit fun _ => settledPart (r.1, r.2.setActive engine depth) := by
  subst hactive
  apply eval_of_bind
  · intro n
    simp only [exec, if_neg hdepth]
  · exact fun r n => .inr ⟨rfl, ⟨rfl, rfl, rfl, rfl, rfl⟩⟩
  · exact fun n r hr => hr

theorem invoke_resumes (hdepth : ¬ st.active engine ≥ execMaxCallDepth)
    (hactive : u.active = (st.setActive engine (st.active engine + 1)).active)
    (hsees : sees H prog host (.enter engine (st.active engine) func args)
        (st.setActive engine (st.active engine + 1)).quiet =
      sees H prog host (.enter engine (st.active engine) func args) u.quiet) :
    sees H prog host (.invoke engine func args) st.quiet =
      sees H prog host (.invoke engine func args)
        (u.setActive engine (st.active engine)).quiet := by
  have hinner : u.active engine = st.active engine + 1 := by
    rw [hactive]
    exact if_pos rfl
  have hdepth' : (u.setActive engine (st.active engine)).quiet.active engine =
      st.active engine := if_pos rfl
  have hagain := u.setActive_setActive (st.active engine) hinner
  have houter : st.quiet.active engine = st.active engine := rfl
  unfold sees
  rw [eval_invoke houter hdepth, eval_invoke hdepth' hdepth]
  refine bind_seen ?_ (fun r n => .inr ⟨rfl, ⟨rfl, rfl, rfl, rfl, rfl⟩⟩)
    (fun r n => .inr ⟨rfl, ⟨rfl, rfl, rfl, rfl, rfl⟩⟩) ?_
  · have hquiet : (u.setActive engine (st.active engine)).quiet.setActive engine
        (st.active engine + 1) = u.quiet := congrArg State.quiet hagain
    rw [hquiet]
    exact hsees
  · rintro ⟨answer, v⟩ ⟨answer', v'⟩ hseen n
    obtain ⟨rfl, hview⟩ := mk.inj hseen
    have hsame : (.sameLog : Comparison ε).Same v v' := Comparison.same_of_view hview
    exact Comparison.Follows.seen_eq (.inr ⟨rfl, hsame.setActive _ _⟩)

/-- A yield keeps the answer of the run that goes on without yields. -/
theorem exec_resumes (n : Nat) (job : Job) (st st' : State σ) (hready : job.Ready st)
    (h : exec H prog host n job st = (.yield, st')) (hcond : Resumable st'.trace) :
    Resumes H prog host st st' job := by
  induction n generalizing job st st' with
  | zero => cases h
  | succ n ih =>
    cases job with
    | invoke engine func args =>
      unfold exec at h
      dsimp only at h
      split at h
      · cases h
      rename_i hdepth
      rcases hresult : exec H prog host n (.enter engine (st.active engine) func args)
        (st.setActive engine (st.active engine + 1)) with ⟨answer, u⟩
      rw [hresult] at h
      obtain ⟨rfl, rfl⟩ := mk.inj h
      have hactive : u.active = (st.setActive engine (st.active engine + 1)).active := by
        have hran := exec_extends H prog host n (.enter engine (st.active engine) func args)
          (st.setActive engine (st.active engine + 1)) (if_pos rfl)
        rw [hresult] at hran
        exact hran.active
      exact invoke_resumes hdepth hactive (enter_sees hresult (ih _ _ _ (if_pos rfl) hresult hcond))
    | enter engine depth func args =>
      by_cases himport : func < (prog engine).imports.length
      · simp only [exec, if_pos himport] at h
        obtain rfl := callImport_yield h
        simp only [Resumes, if_pos himport]
        rfl
      simp only [Resumes, if_neg himport]
      obtain ⟨body, hbody⟩ := enter_defined himport h
      simp only [exec, if_neg himport, hbody] at h
      cases hsaved : st.saved engine depth with
      | some saved =>
        rw [hsaved] at h
        have hwaits := ih (.loop engine depth saved.func saved.frame)
          (st.setSaved engine depth none) st' ⟨hready, if_pos ⟨rfl, rfl⟩⟩ h hcond
        exact .of_eval hwaits (eval_enter_saved himport hbody hsaved)
      | none =>
        simp only [hsaved] at h
        split at h
        · cases h
        rename_i hcheck
        have hwaits := ih (.loop engine depth func (freshFrame body args))
          (st.emit (.enter engine func args)) st' ⟨hready, hsaved⟩ h hcond
        exact .of_eval hwaits (eval_enter_fresh himport hbody hsaved hcheck)
    | loop engine depth func fr =>
      rw [exec_loop] at h
      unfold round at h
      split at h
      · cases h
      split at h
      · exact absurd (mk.inj h).1 (finish_ne_yield _ _ _)
      rename_i body hbody _ instr hinstr
      split at h
      · -- the pump yields before the instruction
        obtain rfl : st.decided.setSaved engine depth (some ⟨func, fr⟩) = st' := (mk.inj h).2
        refine ⟨⟨func, fr⟩, if_pos ⟨rfl, rfl⟩, ?_⟩
        rw [st.decided.setSaved_none _ hready.2]
        rfl
      · exact perform_waits ih hbody hinstr hready h hcond

/-! ## Driven runs -/

theorem drive_trace (fuel rounds : Nat) (st : State σ) :
    ∃ events, (drive H prog host fuel rounds (.invoke engine func args) st).2.trace =
      st.trace ++ events := by
  induction rounds generalizing st with
  | zero => exact ⟨[], (append_nil _).symm⟩
  | succ rounds ih =>
    obtain ⟨events, hround, -⟩ :=
      (exec_extends H prog host fuel (.invoke engine func args) st trivial).trace
    unfold drive
    dsimp only
    split
    · obtain ⟨events', hrest⟩ := ih (exec H prog host fuel (.invoke engine func args) st).2
      exact ⟨events ++ events', by rw [hrest, hround, append_assoc]⟩
    · exact ⟨events, hround⟩

theorem drive_of_yield (h : exec H prog host fuel job st = (.yield, u)) :
    drive H prog host fuel (rounds + 1) job st = drive H prog host fuel rounds job u := by
  simp only [drive, h]

theorem drive_of_answer (h : exec H prog host fuel job st = (answer, u))
    (hanswer : answer ≠ .yield) : drive H prog host fuel (rounds + 1) job st = (answer, u) := by
  unfold drive
  simp only [h]

/-- A call that is resumed until it answers leaves the depth of every engine and the
frames saved below it as they were.  One round more than there are decisions to yield is
enough. -/
theorem drive_restores (rounds : Nat) (st : State σ) :
    let run := drive H prog host fuel rounds (.invoke engine func args) st
    run.2.active = st.active ∧ (∀ e d, d < st.active e → run.2.saved e d = st.saved e d) ∧
      run.2.oracle <:+ st.oracle ∧ (st.oracle.count true < rounds →
        ∀ k, drive H prog host fuel (rounds + k) (.invoke engine func args) st = run) := by
  induction rounds generalizing st with
  | zero => exact ⟨rfl, fun _ _ _ => rfl, suffix_refl _, fun h => absurd h (Nat.not_lt_zero _)⟩
  | succ rounds ih =>
    have hround := exec_extends H prog host fuel (.invoke engine func args) st trivial
    rcases hresult : exec H prog host fuel (.invoke engine func args) st with ⟨answer, u⟩
    rw [hresult] at hround
    by_cases hanswer : answer = .yield
    · subst hanswer
      obtain ⟨hactive, hsaved, horacle, henough⟩ := ih u
      have hspent : u.oracle.count true < st.oracle.count true := hround.spent rfl
      simp only [Nat.succ_add, drive_of_yield hresult]
      refine ⟨hactive.trans hround.active, fun e d hd => ?_, horacle.trans hround.oracle,
        fun hk => henough (by omega)⟩
      rw [hsaved e d (hround.active ▸ hd)]
      exact hround.saved e d hd id
    · simp only [Nat.succ_add, drive_of_answer hresult hanswer]
      exact ⟨hround.active, fun e d hd => hround.saved e d hd id, hround.oracle, fun _ _ => trivial⟩

theorem Resumable.of_drive (hcond : Resumable st'.trace)
    (h : drive H prog host fuel rounds (.invoke engine func args) st = (answer, st')) :
    Resumable st.trace := by
  obtain ⟨events, htrace⟩ : ∃ events,
      (drive H prog host fuel rounds (.invoke engine func args) st).2.trace =
        st.trace ++ events := drive_trace fuel rounds st
  rw [h] at htrace
  intro event hmem
  exact hcond event (htrace ▸ mem_append_left _ hmem)

/-- A driven run ends with the answer of the run without yields. -/
theorem drive_sees (h : drive H prog host fuel rounds (.invoke engine func args) st = (answer, st'))
    (hanswer : answer ≠ .outOfFuel) (hcond : Resumable st'.trace) :
    sees H prog host (.invoke engine func args) st.quiet = some (seen (answer, st'.quiet)) := by
  induction rounds generalizing st with
  | zero => exact absurd (mk.inj h).1.symm hanswer
  | succ rounds ih =>
    rcases hround : exec H prog host fuel (.invoke engine func args) st with ⟨answer1, u⟩
    by_cases hyield : answer1 = .yield
    · subst hyield
      rw [drive_of_yield hround] at h
      have hcond1 : Resumable u.trace := hcond.of_drive h
      exact (exec_resumes fuel (.invoke engine func args) st u trivial hround hcond1).trans (ih h)
    · rw [drive_of_answer hround hyield] at h
      obtain ⟨rfl, rfl⟩ := mk.inj h
      exact congrArg (Option.map seen) (eval_quiet hround hyield hanswer)

/-- The run without yields does not outlast a run that may yield. -/
theorem exec_settled_of_quiet (h : (exec H prog host n job st.quiet).1 ≠ .outOfFuel) :
    (exec H prog host n job st).1 ≠ .outOfFuel := by
  have hsame : (.noYield : Comparison ε).Same st st.quiet := ⟨rfl, rfl, rfl, rfl, rfl⟩
  rcases Comparison.exec_follows H prog host (.inl rfl) job hsame with hescape | ⟨heq, -⟩
  · rw [hescape]
    exact nofun
  · rw [← heq]
    exact h

/-- Every yield uses up a decision to yield, so a driven run ends when the run without
yields does. -/
theorem drive_settles {least : Nat} (hcond : ∀ fuel rounds, least ≤ fuel → Resumable
      (drive H prog host fuel rounds (.invoke engine func args) st).2.trace)
    (h : (eval H prog host (.invoke engine func args) st.quiet).isSome) :
    ∃ fuel rounds, least ≤ fuel ∧
      (drive H prog host fuel rounds (.invoke engine func args) st).1 ≠ .outOfFuel := by
  -- induction on the number of decisions to yield that are left
  induction hk : st.oracle.count true using Nat.strongRecOn generalizing st least with
  | ind k ih =>
    obtain ⟨r, hr⟩ := isSome_iff_exists.1 h
    obtain ⟨n, hn, hsettled⟩ := eval_eq_some.1 hr
    have hlong : (exec H prog host (max n least) (.invoke engine func args) st).1 ≠ .outOfFuel := by
      apply exec_settled_of_quiet
      rw [exec_mono (le_max_left n least) (hn ▸ hsettled), hn]
      exact hsettled
    rcases hround : exec H prog host (max n least) (.invoke engine func args) st with ⟨answer, u⟩
    rw [hround] at hlong
    by_cases hyield : answer = .yield
    · subst hyield
      have hagain (fuel : Nat) (hle : max n least ≤ fuel) :
          exec H prog host fuel (.invoke engine func args) st = (.yield, u) := by
        rw [exec_mono hle (by rw [hround]; exact nofun), hround]
      have hspent : u.oracle.count true < k := by
        have hran := exec_extends H prog host (max n least) (.invoke engine func args) st trivial
        rw [hround] at hran
        rw [← hk]
        exact hran.spent rfl
      have hcond' (fuel rounds : Nat) (hle : max n least ≤ fuel) : Resumable
          (drive H prog host fuel rounds (.invoke engine func args) u).2.trace := by
        rw [← drive_of_yield (hagain fuel hle)]
        exact hcond fuel (rounds + 1) (by omega)
      have hsees := exec_resumes _ (.invoke engine func args) st u trivial hround
        (hcond' _ 0 (le_refl _))
      have hsome : (eval H prog host (.invoke engine func args) u.quiet).isSome := by
        have hmap := congrArg isSome hsees
        simp only [sees, isSome_map] at hmap
        rw [← hmap]
        exact h
      obtain ⟨fuel, rounds, hle, hdone⟩ := ih _ hspent hcond' hsome rfl
      refine ⟨fuel, rounds + 1, by omega, ?_⟩
      rw [drive_of_yield (hagain fuel hle)]
      exact hdone
    · refine ⟨max n least, 1, le_max_right n least, ?_⟩
      rw [drive_of_answer hround hyield]
      exact hlong

theorem exec_fresh_quiet {v : State σ}
    (h : exec H prog host n (.invoke engine func args) (.fresh s []) = (answer, v)) :
    answer ≠ .yield ∧ logOf v.trace = ⟨[], v.trace⟩ := by
  have hran := exec_extends H prog host n (.invoke engine func args) (.fresh s []) trivial
  rw [h] at hran
  have hyield : answer ≠ .yield := by
    intro hyield
    exact absurd (hran.spent hyield) (Nat.not_lt_zero _)
  obtain ⟨events, htrace, hsteps⟩ := hran.trace
  obtain rfl : v.trace = events := htrace
  exact ⟨hyield, logOf_of_steps _ (hsteps hyield)⟩

/-- A driven run ends exactly as the run without yields: with the same answer, the same
shared state and the same events, when the calls that are made again are left out. -/
theorem drive_iff_exec {engine func : Nat} {args : List Value} {s : σ} {oracle : List Bool}
    (hrun : ∀ fuel rounds, Resumable (drive H prog host fuel rounds (.invoke engine func args)
      (.fresh s oracle)).2.trace)
    (answer : Completion ε) (hanswer : answer ≠ .outOfFuel) (s' : σ) (events : List Event) :
    (∃ fuel rounds st', drive H prog host fuel rounds (.invoke engine func args)
        (.fresh s oracle) = (answer, st') ∧ st'.shared = s' ∧
          logOf st'.trace = ⟨[], events⟩) ↔
      ∃ fuel st', exec H prog host fuel (.invoke engine func args) (.fresh s []) =
        (answer, st') ∧ st'.shared = s' ∧ st'.trace = events := by
  constructor
  · rintro ⟨fuel, rounds, st', hdrive, rfl, hlog⟩
    have hcond : Resumable st'.trace := by
      have hcond := hrun fuel rounds
      rw [hdrive] at hcond
      exact hcond
    have hsees := drive_sees hdrive hanswer hcond
    obtain ⟨⟨answer', v⟩, heval, hseen⟩ := map_eq_some_iff.1 hsees
    obtain ⟨n, hexec, -⟩ := eval_eq_some.1 heval
    obtain ⟨hanswers, hview⟩ := mk.inj hseen
    subst hanswers
    have hlogs : logOf v.trace = logOf st'.trace := congrArg View.log hview
    refine ⟨n, v, hexec, congrArg View.shared hview, ?_⟩
    rw [(exec_fresh_quiet hexec).2, hlog] at hlogs
    exact congrArg Log.events hlogs
  · rintro ⟨n, v, hexec, rfl, rfl⟩
    have heval : eval H prog host (.invoke engine func args) (State.fresh s oracle).quiet =
      some (answer, v) := eval_eq_some.2 ⟨n, hexec, hanswer⟩
    obtain ⟨fuel, rounds, -, hdone⟩ := drive_settles (fun fuel rounds (_ : 0 ≤ fuel) =>
      hrun fuel rounds) (by rw [heval]; rfl)
    rcases hdrive : drive H prog host fuel rounds (.invoke engine func args)
      (.fresh s oracle) with ⟨answer', st'⟩
    have hcond := hrun fuel rounds
    rw [hdrive] at hdone hcond
    have hsees := drive_sees hdrive hdone hcond
    rw [sees, heval] at hsees
    obtain ⟨hanswers, hview⟩ := mk.inj (some.inj hsees)
    subst hanswers
    have hlogs : logOf v.trace = logOf st'.trace := congrArg View.log hview
    refine ⟨fuel, rounds, st', hdrive, (congrArg View.shared hview).symm, ?_⟩
    rw [← hlogs]
    exact (exec_fresh_quiet hexec).2

/-! ## Programs that can always be resumed -/

variable (H prog) in
/-- An instruction whose call, once suspended, finds the same target again, and whose
tail calls stay among the functions of the engine. -/
def ExecInstr.Steady (engine : Nat) (instr : ExecInstr α β) : Prop :=
  match instr.op with
  | .basic (.returnCall func) => ¬ func < (prog engine).imports.length
  | .basic (.callIndirect _ table) =>
    ∀ value s s', H.slot engine table value s = H.slot engine table value s'
  | .basic (.returnCallIndirect ..) | .basic (.returnCallRef ..) => False
  | _ => True

variable (H prog) in
def SteadyProgram : Prop :=
  ∀ engine func body, (prog engine).defined? func = some body →
    ∀ instr ∈ body.code, instr.Steady H prog engine

section Steady

variable (hsteady : instr.Steady H prog engine)

include hsteady

theorem siteOf_steady (s s' : σ) :
    siteOf H prog engine instr fr s' = siteOf H prog engine instr fr s := by
  unfold ExecInstr.Steady at hsteady
  unfold siteOf
  cases hop : instr.op with
  | block | else_ | end_ => rfl
  | basic basic =>
    rw [hop] at hsteady
    cases basic with
    | callIndirect type table =>
      have hslot (value : Value) : H.slot engine table value s' = H.slot engine table value s :=
        hsteady value s' s
      show callIndirectSite H prog engine type table fr.operands s' =
        callIndirectSite H prog engine type table fr.operands s
      unfold callIndirectSite
      simp only [hslot]
    | returnCallIndirect => exact hsteady.elim
    | _ => rfl

theorem tail_steady (h : dispatch H prog engine results instr fr s = .tail engine' func' args fr') :
    engine' = engine ∧ ¬ func' < (prog engine).imports.length := by
  unfold ExecInstr.Steady at hsteady
  unfold dispatch at h
  cases hop : instr.op with
  | block | else_ | end_ => simp [hop] at h
  | basic basic =>
    rw [hop] at hsteady h
    cases basic with
    | returnCall func =>
      have h : executeCall true (callSite prog engine func fr.operands) fr s = _ := h
      cases hsite : callSite prog engine func fr.operands with
      | error _ => simp [hsite, executeCall] at h
      | ok _ =>
        obtain ⟨hengine, hfunc⟩ := callSite_target hsite
        rw [hsite] at h
        obtain ⟨rfl, rfl, -, -⟩ := Action.tail.inj h
        rw [hengine, hfunc]
        exact ⟨rfl, hsteady⟩
    | returnCallIndirect | returnCallRef => exact hsteady.elim
    | call | callIndirect | callRef => exact absurd h (executeCall_call_ne _ _ _)
    | _ => simp [dispatchBasic] at h

variable {rec : Job → State σ → Completion ε × State σ}
  (hrec : ∀ job (st : State σ), Resumable st.trace → Resumable (rec job st).2.trace)

include hrec

theorem perform_resumable {st : State σ} (h : Resumable st.trace) :
    Resumable (perform H prog rec engine depth func instr fr st).2.trace := by
  have hproceed (st' : State σ) (hst' : Resumable st'.trace) (move : Move σ ε) :
      Resumable (proceed (prog engine) func (fun fr => rec (.loop engine depth func fr)) st'
        move).2.trace := by
    cases move with
    | next fr s => exact hrec _ _ hst'
    | return_ | fault | throw => exact hst'
  unfold perform
  cases hdispatch : dispatch H prog engine ((prog engine).resultCount func) instr fr st.shared with
  | move move => exact hproceed st h move
  | call engine' func' args fr' =>
    rcases hresult : rec (.invoke engine' func' args) st with ⟨answer, u⟩
    have hu : Resumable u.trace := by
      have hu := hrec (.invoke engine' func' args) st h
      rw [hresult] at hu
      exact hu
    show Resumable (afterCall H prog engine depth func instr fr fr' st.shared _
      (rec (.invoke engine' func' args) st)).2.trace
    rw [hresult]
    by_cases hanswer : answer = .yield
    · subst hanswer
      intro event hmem
      rcases mem_append.1 hmem with hmem | hmem
      · exact hu event hmem
      · rw [mem_singleton.1 hmem]
        exact siteOf_steady hsteady st.shared u.shared
    · rw [afterCall_of_ne hanswer]
      split
      · exact hproceed u hu _
      · exact hu
  | tail engine' func' args fr' =>
    obtain ⟨rfl, hfunc⟩ := tail_steady hsteady hdispatch
    show Resumable (if _ then _ else _ : Completion ε × State σ).2.trace
    rw [if_pos rfl, afterTail_of_defined hfunc]
    exact hrec _ _ h

end Steady

/-- A program whose suspended calls always find their targets. -/
theorem exec_resumable (hprog : SteadyProgram H prog) (n : Nat) (job : Job) (st : State σ)
    (h : Resumable st.trace) : Resumable (exec H prog host n job st).2.trace := by
  have hemit {st : State σ} (h : Resumable st.trace) {event : Event} (hevent : event.Resumable) :
      Resumable (st.emit event).trace := by
    intro event' hmem
    rcases mem_append.1 hmem with hmem | hmem
    · exact h event' hmem
    · rw [mem_singleton.1 hmem]
      exact hevent
  induction n generalizing job st with
  | zero => exact h
  | succ n ih =>
    cases job with
    | invoke engine func args =>
      unfold exec
      dsimp only
      split
      · exact h
      · exact ih (.enter engine (st.active engine) func args)
          (st.setActive engine (st.active engine + 1)) h
    | enter engine depth func args =>
      unfold exec
      split
      · unfold callImport
        split
        · exact h
        · split
          · exact h
          · split
            · exact h
            · exact hemit h trivial
      · split
        · exact h
        · split
          · exact ih _ _ h
          · split
            · exact h
            · exact ih _ _ (hemit h trivial)
    | loop engine depth func _ =>
      rw [exec_loop]
      unfold round
      split
      · exact h
      rename_i body hbody
      split
      · exact h
      · rename_i instr hinstr
        split
        · exact h
        · exact perform_resumable (hprog engine func body hbody instr (mem_of_getElem? hinstr)) ih
            (hemit h trivial)

theorem drive_resumable (hprog : SteadyProgram H prog) (fuel rounds : Nat) (job : Job)
    (st : State σ) (h : Resumable st.trace) :
    Resumable (drive H prog host fuel rounds job st).2.trace := by
  induction rounds generalizing st with
  | zero => exact h
  | succ rounds ih =>
    have hround : Resumable (exec H prog host fuel job st).2.trace :=
      exec_resumable hprog fuel job st h
    unfold drive
    dsimp only
    split
    · exact ih _ hround
    · exact hround

end

/-! ## A guest with a host function -/

namespace Guest

/-- Function 0 is imported; the others have the bodies given. -/
def types : TypeSection := layoutGroups 0 [[{ kind := .func, results := [.i32] }]]

def context (funcs : Nat) : Context Op Empty where
  types _ := types
  engine := 0
  params := []
  results := [.i32]
  locals := []
  typeIndex? func := if func ≤ funcs then some 0 else none
  tableOperand? _ := some .i32
  rule := Op.rule (fun _ => types) 0 [⟨.i32, true⟩]
  branchRule op := op.elim
  catchTypes? _ := none

/-- The functions are valid, and these are their bodies. -/
def Loads (funcs : List (List (Instr Op Empty))) (mod : Module Op Empty) : Prop :=
  (∀ instrs ∈ funcs, validateFunctionBody (context funcs.length) instrs = true) ∧
    ∃ codes, funcs.mapM (parseBody types) = some codes ∧
      mod = { types := types, imports := [0], funcs := codes.map (⟨0, [], ·⟩) }

/-- The only engine has the module, with one global and one table. -/
def program (mod : Module Op Empty) : Nat → Module Op Empty := ClosedModule.program mod

def handlers : Handlers Op Empty Store Empty :=
  ClosedModule.handlers
    { types := types, globals := [⟨.i32, true⟩], tables := [⟨.funcref, false⟩], funcs := [] }

/-- The host function answers 5 and clears the table. -/
def host (_ _ : Nat) (_ : List Value) (s : Store) : HostReply Store Empty :=
  .values [i32Value 5] { s with tables := [[none]] }

/-- The table holds function 2. -/
def start : Store := { globals := [i32Value 0], tables := [[some 2]] }

/-- It counts its runs, and calls the host function. -/
def counting : List (Instr Op Empty) :=
  [.basic (.plain (.globalGet 0)), .basic (.plain (.const .i32 1)),
    .basic (.plain (.bin .i32 .add)), .basic (.plain (.globalSet 0)), .basic (.call 0), .end_]

/-- The same, with a tail call. -/
def countingTail : List (Instr Op Empty) :=
  [.basic (.plain (.globalGet 0)), .basic (.plain (.const .i32 1)),
    .basic (.plain (.bin .i32 .add)), .basic (.plain (.globalSet 0)), .basic (.returnCall 0), .end_]

/-- It calls the function in the table. -/
def indirect : List (Instr Op Empty) :=
  [.basic (.plain (.const .i32 0)), .basic (.callIndirect 0 0), .end_]

def callHost : List (Instr Op Empty) := [.basic (.call 0), .end_]

/-- The host function yields once, and so does the pump before the last instruction. -/
def yielding : List Bool := [false, false, false, false, false, true, false, false, true]

theorem counting_steady {mod : Module Op Empty} (h : Loads [counting] mod) :
    SteadyProgram handlers (program mod) := by
  obtain ⟨-, codes, hcodes, rfl⟩ := h
  obtain rfl := some.inj hcodes
  intro engine func body hbody instr hmem
  cases engine with
  | zero =>
    have hbody : (if func < 1 then none else [_][func - 1]?) = some body := hbody
    split at hbody
    · simp at hbody
    · obtain rfl := mem_singleton.1 (mem_of_getElem? hbody)
      have hop : instr.op ∈ counting := mem_map_of_mem hmem
      simp only [counting, mem_cons, not_mem_nil, or_false] at hop
      rcases hop with hop | hop | hop | hop | hop | hop <;>
        simp [ExecInstr.Steady, hop]
  | succ engine =>
    have hbody : (if func < 0 then none else [][func]?) = some body := hbody
    simp at hbody

/-- The host function yields and the pump yields; the driven run is the run without
yields. -/
theorem counting_drive_iff_exec : ∃ mod, Loads [counting] mod ∧
    (drive handlers (program mod) host 20 3 (.invoke 0 1 []) (.fresh start yielding)).1 =
      .values [i32Value 5] ∧
    (drive handlers (program mod) host 20 2 (.invoke 0 1 []) (.fresh start yielding)).1 =
      .outOfFuel ∧
    ∀ s' events,
      (∃ fuel rounds st', drive handlers (program mod) host fuel rounds (.invoke 0 1 [])
        (.fresh start yielding) = (.values [i32Value 5], st') ∧ st'.shared = s' ∧
          logOf st'.trace = ⟨[], events⟩) ↔
      ∃ fuel st', exec handlers (program mod) host fuel (.invoke 0 1 []) (.fresh start []) =
        (.values [i32Value 5], st') ∧ st'.shared = s' ∧ st'.trace = events := by
  have hloads : Loads [counting] _ := ⟨by decide, _, rfl, rfl⟩
  refine ⟨_, hloads, rfl, rfl, drive_iff_exec (fun fuel rounds => ?_) _ nofun⟩
  exact drive_resumable (counting_steady hloads) fuel rounds _ _ (by simp [State.fresh, Resumable])

/-- A tail call to a host function that yields starts its caller again, and a suspended
`call_indirect` reads the table again. -/
theorem yield_not_transparent :
    (∃ mod, Loads [countingTail] mod ∧
      let driven := drive handlers (program mod) host 20 3 (.invoke 0 1 []) (.fresh start yielding)
      let plain := exec handlers (program mod) host 20 (.invoke 0 1 []) (.fresh start [])
      driven.1 = .values [i32Value 5] ∧ driven.2.shared.globals = [i32Value 2] ∧
        plain.1 = .values [i32Value 5] ∧ plain.2.shared.globals = [i32Value 1]) ∧
    ∃ mod, Loads [indirect, callHost] mod ∧
      let driven := drive handlers (program mod) host 20 2 (.invoke 0 1 [])
        (.fresh start [false, false, false, false, true])
      let plain := exec handlers (program mod) host 20 (.invoke 0 1 []) (.fresh start [])
      driven.1 = .fault (.trap "uninitialized element") ∧ plain.1 = .values [i32Value 5] := by
  refine ⟨⟨_, ⟨by decide, _, rfl, rfl⟩, rfl, rfl, rfl, rfl⟩, _, ⟨by decide, _, rfl, rfl⟩, rfl, rfl⟩

end Guest

end Waste.Exec
