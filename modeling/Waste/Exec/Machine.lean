import Waste.Exec.Frame

/-!
# The instruction loop, calls and yields

`exec_invoke_managed` and `exec_invoke_frame` of `op/execute.c`.  Every engine has
an array of frames, indexed by its call depth.  A frame that yields is marked in
`yield_frames`, with its operands as they were before the call that yielded, and
the next invocation at that depth continues it; the call instruction then runs
again and reaches the frame below.

The machine is a function with fuel.  `exec n job st` spends one unit on every
instruction, call and entry, and `outOfFuel` is its answer when `n` is too small.
Whether a host function or the pump yields is read from `oracle`, one decision for
each opportunity.  `trace` records what the run did; no step reads it.

Left out are `setjmp` and `longjmp` (the imports `SIGSETJMP` and `SIGLONGJMP` and the branch of
`handle_call_result` for them), the delivery of signals, synchronous callbacks and the
instruction budget.
-/

namespace Waste.Exec

open Waste.Types

def execMaxCallDepth : Nat := 256

/-- An entry of `yield_frames` with the frame storage of its depth. -/
structure SavedFrame where
  func : Nat
  frame : Frame
deriving DecidableEq

/-- What a run records: an instruction before it runs, a fresh activation, a host
call that completed, a frame that was saved because the call it makes yielded,
with the call as it would be made again, and a yield that no frame is saved for. -/
inductive Event
  | instr (engine func : Nat) (fr : Frame)
  | enter (engine func : Nat) (args : List Value)
  | host (engine func : Nat) (args : List Value)
  | suspend (engine func : Nat) (fr : Frame) (site again : Except Fault CallSite)
  | lost (engine func : Nat)

structure State (σ : Type) where
  shared : σ
  /-- `active_call_depth` of every engine. -/
  active : Nat → Nat
  /-- `yield_frames` of every engine. -/
  saved : Nat → Nat → Option SavedFrame
  oracle : List Bool
  trace : List Event

/-- How an invocation ends. -/
inductive Completion (ε : Type)
  | values (values : List Value)
  | fault (x : Fault)
  | throw (x : ε)
  /-- Any other status of a host function, such as `EXEC_ERROR_EXIT`. -/
  | status (code : Nat)
  | yield
  | outOfFuel
deriving DecidableEq

/-- What a host function answers when it completes. -/
inductive HostReply (σ ε : Type)
  | values (values : List Value) (s : σ)
  | fault (x : Fault) (s : σ)
  | throw (x : ε) (s : σ)
  | status (code : Nat) (s : σ)

variable {α β σ ε : Type}

namespace State

/-- No call is active and no frame waits. -/
def fresh (s : σ) (oracle : List Bool) : State σ :=
  { shared := s, active := fun _ => 0, saved := fun _ _ => none, oracle := oracle, trace := [] }

variable (st : State σ)

def emit (event : Event) : State σ := { st with trace := st.trace ++ [event] }

def setShared (s : σ) : State σ := { st with shared := s }

def setActive (engine depth : Nat) : State σ :=
  { st with active := fun e => if e = engine then depth else st.active e }

def setSaved (engine depth : Nat) (frame : Option SavedFrame) : State σ :=
  { st with saved := fun e d => if e = engine ∧ d = depth then frame else st.saved e d }

/-- The next decision to yield. -/
def decision : Bool := st.oracle.headD false

def decided : State σ := { st with oracle := st.oracle.tail }

end State

/-- A piece of work of the interpreter: `exec_invoke_managed`, `exec_invoke_frame`
from `tail_entry`, and its loop from an instruction on. -/
inductive Job
  | invoke (engine func : Nat) (args : List Value)
  | enter (engine depth func : Nat) (args : List Value)
  | loop (engine depth func : Nat) (fr : Frame)

/-- The locals a frame starts with: the arguments, and zeros of the declared types. -/
def freshLocals (func : Func α β) (args : List Value) : List Value :=
  args ++ func.locals.map fun type => ⟨type, 0⟩

def freshFrame (func : Func α β) (args : List Value) : Frame :=
  { pc := 0, operands := [], controls := [], locals := freshLocals func args }

/-- The checks before a fresh activation. -/
def checkEntry (m : Module α β) (func : Func α β) (args : List Value) : Except Fault Unit :=
  match m.types[func.typeIndex]? with
  | none => .error .functionIndex
  | some type =>
    if args.length ≠ type.params.length then .error .argumentCount
    else if args.length + func.locals.length > execMaxLocals then
      .error (.trap "too many runtime locals")
    else .ok ()

/-- The number of results of a function. -/
def Module.resultCount (m : Module α β) (func : Nat) : Nat :=
  ((m.funcType? func).map (·.results.length)).getD 0

/-- The answer of a host function that completes. -/
def hostCompletion (results : Nat) : HostReply σ ε → Completion ε × σ
  | .values values s =>
    if values.length ≠ results then (.fault (.trap "import result count mismatch"), s)
    else (.values values, s)
  | .fault x s => (.fault x, s)
  | .throw x s => (.throw x, s)
  | .status code s => (.status code, s)

/-- `func_return`. -/
def finish (m : Module α β) (func : Nat) (fr : Frame) : Completion ε :=
  match collectResults (m.resultCount func) fr with
  | .error fault => .fault fault
  | .ok values => .values values

/-- `handle_call_result`, for a callee that did not yield: push the results, look
for a handler of the exception, or stop with the status of the callee. -/
def handleCallResult (H : Handlers α β σ ε) (engine : Nat) (fr : Frame) (s : σ) :
    Completion ε → Move σ ε ⊕ Completion ε
  | .values values =>
    match stackPushAll values.reverse fr.operands with
    | none => .inl (.fault .stackOverflow s)
    | some operands => .inl (.next { fr with operands := operands }.advance s)
  | .throw x => .inl (handleException H engine fr x s)
  | other => .inr other

/-- The loop after a handler that stays in the frame; `k` goes on with the next
instruction. -/
def proceed (m : Module α β) (func : Nat) (k : Frame → State σ → Completion ε × State σ)
    (st : State σ) : Move σ ε → Completion ε × State σ
  | .next fr s => k fr (st.setShared s)
  | .return_ fr s => (finish m func fr, st.setShared s)
  | .fault x s => (.fault x, st.setShared s)
  | .throw x s => (.throw x, st.setShared s)

variable (H : Handlers α β σ ε) (prog : Nat → Module α β)
  (host : Nat → Nat → List Value → σ → HostReply σ ε)

def callImport (engine func : Nat) (args : List Value) (st : State σ) : Completion ε × State σ :=
  match (prog engine).funcType? func with
  | none => (.fault .functionIndex, st)
  | some type =>
    if args.length ≠ type.params.length then
      (.fault (.trap "import argument count mismatch"), st)
    else if st.decision then (.yield, st.decided)
    else
      let reply := hostCompletion type.results.length (host engine func args st.shared)
      (reply.1, (st.decided.setShared reply.2).emit (.host engine func args))

/-- A frame whose callee yielded: `save_yield_frame`, with the operands that the
handler has put back. -/
def suspend (engine depth func : Nat) (instr : ExecInstr α β) (fr : Frame) (before : σ)
    (st : State σ) : State σ :=
  let site (s : σ) : Except Fault CallSite :=
    match instr.op with
    | .basic basic =>
      ((basic.site? H prog engine fr.operands s).map (·.2)).getD (.error .functionIndex)
    | _ => .error .functionIndex
  (st.setSaved engine depth (some ⟨func, fr⟩)).emit
    (.suspend engine func fr (site before) (site st.shared))

/-- The interpreter. -/
def exec : Nat → Job → State σ → Completion ε × State σ
  | 0, _, st => (.outOfFuel, st)
  | n + 1, .invoke engine func args, st =>
    let depth := st.active engine
    if depth ≥ execMaxCallDepth then (.fault (.trap "call stack exhausted"), st)
    else
      let result := exec n (.enter engine depth func args) (st.setActive engine (depth + 1))
      (result.1, result.2.setActive engine depth)
  | n + 1, .enter engine depth func args, st =>
    if func < (prog engine).imports.length then callImport prog host engine func args st
    else
      match (prog engine).defined? func with
      | none => (.fault .functionIndex, st)
      | some body =>
        match st.saved engine depth with
        | some saved =>
          exec n (.loop engine depth saved.func saved.frame) (st.setSaved engine depth none)
        | none =>
          match checkEntry (prog engine) body args with
          | .error fault => (.fault fault, st)
          | .ok () =>
            exec n (.loop engine depth func (freshFrame body args))
              (st.emit (.enter engine func args))
  | n + 1, .loop engine depth func fr, st =>
    match (prog engine).defined? func with
    | none => (.fault .functionIndex, st)
    | some body =>
      match body.code[fr.pc]? with
      | none => (finish (prog engine) func fr, st)
      | some instr =>
        -- the pump may yield before any instruction
        if st.decision then (.yield, st.decided.setSaved engine depth (some ⟨func, fr⟩))
        else
          let st := st.decided.emit (.instr engine func fr)
          let continue_ (fr : Frame) (st : State σ) := exec n (.loop engine depth func fr) st
          match dispatch H prog engine ((prog engine).resultCount func) instr fr st.shared with
          | .move move => proceed (prog engine) func continue_ st move
          | .call engine' func' args fr' =>
            let result := exec n (.invoke engine' func' args) st
            match result.1 with
            | .yield =>
              (.yield, suspend H prog engine depth func instr fr st.shared result.2)
            | answer =>
              match handleCallResult H engine fr' result.2.shared answer with
              | .inl move => proceed (prog engine) func continue_ result.2 move
              | .inr answer => (answer, result.2)
          | .tail engine' func' args fr' =>
            if engine' = engine then
              let result := exec n (.enter engine depth func' args) st
              match result.1 with
              | .yield =>
                if func' < (prog engine).imports.length then
                  (.yield, result.2.emit (.lost engine func'))
                else (.yield, result.2)
              | answer => (answer, result.2)
            else
              -- the status of another engine is the status of the handler, so the
              -- loop goes on when the callee returns
              let result := exec n (.invoke engine' func' args) st
              match result.1 with
              | .values _ => continue_ fr'.advance result.2
              | .yield => (.yield, result.2.emit (.lost engine' func'))
              | answer => (answer, result.2)

/-- Invoke again while the answer is a yield. -/
def drive (fuel : Nat) : Nat → Job → State σ → Completion ε × State σ
  | 0, _, st => (.outOfFuel, st)
  | rounds + 1, job, st =>
    let result := exec H prog host fuel job st
    match result.1 with
    | .yield => drive fuel rounds job result.2
    | answer => (answer, result.2)

end Waste.Exec
