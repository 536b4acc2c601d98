import Waste.Exec.Instr

/-!
# One frame of the interpreter

The handlers of `op/execute.c` that work on one frame: the operand stack, the
control stack with its absolute jump targets, the locals and the program
counter.  `dispatch` runs the handler of one instruction and says what the
instruction loop does next; calls are handed to the loop, because they need the
other frames.

Stacks are lists with the top first.  A handler that sets the program counter
to one before its target, for the loop to add one, sets it to the target here.
-/

namespace Waste.Exec

open Waste.Types

/-- `EXEC_MAX_STACK`, which is also `WASM_VALIDATION_STACK`. -/
def execMaxStack : Nat := 256

def execMaxLocals : Nat := 2048

/-- `wasm_value`: the type and the bytes of the union. -/
structure Value where
  type : ValType
  bits : BitVec 128
deriving DecidableEq, Repr

def Value.i32 (value : Value) : BitVec 32 := value.bits.setWidth 32

def Value.i64 (value : Value) : BitVec 64 := value.bits.setWidth 64

def i32Value (bits : BitVec 32) : Value := ⟨.i32, bits.setWidth 128⟩

def i64Value (bits : BitVec 64) : Value := ⟨.i64, bits.setWidth 128⟩

/-- The reference that is null, `UINT32_MAX`. -/
def nullRef : BitVec 32 := BitVec.allOnes 32

/-- Why a run stops with `EXEC_ERROR_TRAP`.  The failures of the interpreter itself
have their own constructors, `trap` is the rest. -/
inductive Fault
  | operandMissing (text : String)
  | stackOverflow
  | controlOverflow
  | blockResultsMissing
  | branchDepth
  | branchValuesMissing
  | missingResult
  | argumentCount
  | unchecked
  | functionIndex
  | trap (text : String)
deriving DecidableEq, Repr

/-! ## The operand stack -/

def stackPush (value : Value) (stack : List Value) : Option (List Value) :=
  if stack.length ≥ execMaxStack then none else some (value :: stack)

/-- Push the values of a list, the last one first, so that they end up on the
stack as they stand. -/
def stackPushAll : List Value → List Value → Option (List Value)
  | [], stack => some stack
  | value :: values, stack => (stackPushAll values stack).bind (stackPush value)

/-- Pop `n` values. -/
def stackPopN (n : Nat) (stack : List Value) : Option (List Value × List Value) :=
  if n ≤ stack.length then some (stack.take n, stack.drop n) else none

/-- `stack_carry`: keep `arity` values and drop those between them and `height`.  The source
copies the values through a buffer of `WAST_MAX_RESULTS` entries and does not check that there
are no more; the buffer is left out here. -/
def stackCarry (arity height : Nat) (stack : List Value) : Option (List Value) :=
  if arity + height > stack.length then none
  else stackPushAll (stack.take arity) (stack.drop (stack.length - height))

/-! ## Frames -/

/-- `exec_control`. -/
structure Control where
  kind : BlockKind
  startPc : Nat
  endPc : Nat
  stackHeight : Nat
  branchArity : Nat
  endArity : Nat
deriving DecidableEq, Repr

/-- The part of `waste_exec_context` that belongs to one activation. -/
structure Frame where
  pc : Nat
  operands : List Value
  controls : List Control
  locals : List Value
deriving DecidableEq, Repr

def Frame.advance (fr : Frame) : Frame := { fr with pc := fr.pc + 1 }

/-- What the body of a handler computes: values to push, a fault, or an
exception. -/
inductive Outcome (σ ε : Type)
  | ok (s : σ) (values : List Value)
  | fault (x : Fault) (s : σ)
  | throw (x : ε) (s : σ)

/-- A handler that pops operands, tests them, and pushes what it computes.  The
values that are popped stand with the top first. -/
structure Handler (σ ε : Type) where
  pops : Nat
  missing : String
  accepts : List Value → Bool
  compute : σ → List Value → Outcome σ ε

/-- A handler of `execute_op_branch` that decides from the popped operands whether
to branch and which values to push first. -/
structure BranchHandler (σ : Type) where
  pops : Nat
  missing : String
  accepts : List Value → Bool
  compute : σ → List Value → Bool × List Value

/-- The handlers that the frame does not depend on: for every engine the
instructions `α` and `β`, the table slot `call_indirect` reads, and the catch
clauses.  `σ` is the state of memories, globals, tables and objects, `ε` the
exceptions. -/
structure Handlers (α β σ ε : Type) where
  plain : Nat → α → Handler σ ε
  branch : Nat → β → BranchHandler σ
  /-- The owner and the function index in the slot of a table. -/
  slot : Nat → Nat → Value → σ → Except Fault (Nat × Nat)
  /-- Does a clause match an exception? -/
  catches : Nat → Catch → ε → Bool
  /-- The values a matching clause pushes. -/
  caught : Nat → Catch → ε → σ → Except Fault (σ × List Value)

/-- An `exec_func` after `parse_body`. -/
structure Func (α β : Type) where
  typeIndex : Nat
  locals : List ValType
  code : List (ExecInstr α β)

/-- The static part of a `waste_exec_engine`: types, the type indices of the
imported functions, and the functions. -/
structure Module (α β : Type) where
  types : TypeSection
  imports : List Nat
  funcs : List (Func α β)

variable {α β σ ε : Type}

/-- `direct_call_type_index`. -/
def Module.typeIndex? (m : Module α β) (func : Nat) : Option Nat :=
  if func < m.imports.length then m.imports[func]?
  else (m.funcs[func - m.imports.length]?).map (·.typeIndex)

def Module.funcType? (m : Module α β) (func : Nat) : Option DefinedType :=
  (m.typeIndex? func).bind (m.types[·]?)

def Module.defined? (m : Module α β) (func : Nat) : Option (Func α β) :=
  if func < m.imports.length then none else m.funcs[func - m.imports.length]?

/-- What the instruction loop does after a handler that stays in the frame. -/
inductive Move (σ ε : Type)
  | next (fr : Frame) (s : σ)
  /-- `WASM_DISPATCH_RETURN`. -/
  | return_ (fr : Frame) (s : σ)
  | fault (x : Fault) (s : σ)
  /-- An exception no clause of the frame catches. -/
  | throw (x : ε) (s : σ)

/-- What the instruction loop does after a handler. -/
inductive Action (σ ε : Type)
  | move (move : Move σ ε)
  /-- Invoke a function of an engine; the frame has its arguments popped. -/
  | call (engine func : Nat) (args : List Value) (fr : Frame)
  /-- `WASM_DISPATCH_TAIL_CALL`, or the invocation of another engine. -/
  | tail (engine func : Nat) (args : List Value) (fr : Frame)

/-! ## Structured control -/

def executeOpEnd (fr : Frame) (s : σ) : Move σ ε :=
  match fr.controls with
  | [] => .return_ fr s
  | target :: controls =>
    if target.endArity + target.stackHeight > fr.operands.length then
      .fault .blockResultsMissing s
    else
      match stackCarry target.endArity target.stackHeight fr.operands with
      | none => .fault .stackOverflow s
      | some operands => .next { fr with operands := operands, controls := controls }.advance s

/-- The condition of an `if`; the other blocks are always entered. -/
def blockCondition (kind : BlockKind) (operands : List Value) : Option (Bool × List Value) :=
  match kind, operands with
  | .if_, value :: operands => some (value.i32 ≠ 0, operands)
  | .if_, [] => none
  | _, operands => some (true, operands)

/-- `execute_op_block`, for the four kinds of blocks. -/
def executeOpBlock (instr : ExecInstr α β) (kind : BlockKind) (fr : Frame) (s : σ) : Move σ ε :=
  match blockCondition kind fr.operands with
  | none => .fault (.operandMissing "if condition missing") s
  | some (condition, operands) =>
    if fr.controls.length ≥ execMaxControl then .fault .controlOverflow s
    else if instr.blockParamCount > operands.length then
      .fault (.operandMissing "block parameters missing") s
    else
      let control : Control :=
        { kind := kind
          startPc := fr.pc + 1
          endPc := instr.simdOp
          stackHeight := operands.length - instr.blockParamCount
          branchArity := if kind = .loop then instr.blockParamCount else instr.blockResultCount
          endArity := instr.blockResultCount }
      .next { fr with
        pc := if condition then fr.pc + 1 else instr.u32Imm
        operands := operands
        controls := control :: fr.controls } s

def executeOpElse (instr : ExecInstr α β) (fr : Frame) (s : σ) : Move σ ε :=
  .next { fr with pc := instr.u32Imm } s

/-- The jump at the end of `execute_op_branch`; the label of the function is the
one outside all blocks. -/
def branchTo (resultCount : Nat) (fr : Frame) (depth : Nat) (s : σ) : Move σ ε :=
  if depth > fr.controls.length then .fault .branchDepth s
  else
    match fr.controls.drop depth with
    | [] =>
      match stackCarry resultCount 0 fr.operands with
      | none => .fault .branchValuesMissing s
      | some operands => .return_ { fr with operands := operands } s
    | target :: outer =>
      match stackCarry target.branchArity target.stackHeight fr.operands with
      | none => .fault .branchValuesMissing s
      | some operands =>
        if target.kind = .loop then
          .next { fr with
            pc := target.startPc, operands := operands, controls := target :: outer } s
        else .next { fr with pc := target.endPc + 1, operands := operands, controls := outer } s

/-! ## Exceptions -/

variable (H : Handlers α β σ ε)

/-- The innermost `try_table` with a matching clause, the clause, and the blocks
around it. -/
def findCatch (engine : Nat) (x : ε) : List Control → Option (Control × Catch × List Control)
  | [] => none
  | control :: outer =>
    match control.kind with
    | .tryTable catches =>
      match catches.find? (H.catches engine · x) with
      | some clause => some (control, clause, outer)
      | none => findCatch engine x outer
    | _ => findCatch engine x outer

def handleException (engine : Nat) (fr : Frame) (x : ε) (s : σ) : Move σ ε :=
  match findCatch H engine x fr.controls with
  | none => .throw x s
  | some (control, clause, outer) =>
    if clause.depth > outer.length then .fault (.trap "catch branch depth out of range") s
    else
      match H.caught engine clause x s with
      | .error fault => .fault fault s
      | .ok (s, values) =>
        match stackPushAll values (fr.operands.drop (fr.operands.length - control.stackHeight)) with
        | none => .fault .stackOverflow s
        | some operands =>
          match outer.drop clause.depth with
          | [] => .return_ { fr with operands := operands, controls := outer } s
          | target :: outer =>
            match stackCarry target.branchArity target.stackHeight operands with
            | none => .fault (.trap "catch branch values missing") s
            | some operands =>
              if target.kind = .loop then
                .next { fr with
                  pc := target.startPc, operands := operands, controls := target :: outer } s
              else
                .next { fr with
                  pc := target.endPc + 1, operands := operands, controls := outer } s

/-! ## The other handlers of a frame -/

/-- A handler of `α`: pop, test, compute and push. -/
def executePlain (engine : Nat) (op : α) (fr : Frame) (s : σ) : Move σ ε :=
  let handler := H.plain engine op
  match stackPopN handler.pops fr.operands with
  | none => .fault (.operandMissing handler.missing) s
  | some (popped, operands) =>
    if handler.accepts popped then
      match handler.compute s popped with
      | .fault x s => .fault x s
      | .throw x s => handleException H engine { fr with operands := operands } x s
      | .ok s values =>
        match stackPushAll values operands with
        | none => .fault .stackOverflow s
        | some operands => .next { fr with operands := operands }.advance s
    else .fault (.operandMissing handler.missing) s

/-- `execute_op_branch` for the instructions of `β`. -/
def executeBranchOn (engine resultCount : Nat) (op : β) (depth : Nat) (fr : Frame) (s : σ) :
    Move σ ε :=
  let handler := H.branch engine op
  match stackPopN handler.pops fr.operands with
  | none => .fault (.operandMissing handler.missing) s
  | some (popped, operands) =>
    if handler.accepts popped then
      match handler.compute s popped with
      | (taken, values) =>
        match stackPushAll values operands with
        | none => .fault .stackOverflow s
        | some operands =>
          if taken then branchTo resultCount { fr with operands := operands } depth s
          else .next { fr with operands := operands }.advance s
    else .fault (.operandMissing handler.missing) s

/-- `execute_op_branch` for `br_if`. -/
def executeBranchIf (resultCount depth : Nat) (fr : Frame) (s : σ) : Move σ ε :=
  match fr.operands with
  | [] => .fault (.operandMissing "br_if condition missing") s
  | condition :: operands =>
    if condition.i32 = 0 then .next { fr with operands := operands }.advance s
    else branchTo resultCount { fr with operands := operands } depth s

/-- `execute_op_branch` for `br_table`. -/
def executeBranchTable (resultCount : Nat) (depths : List Nat) (fallback : Nat) (fr : Frame)
    (s : σ) : Move σ ε :=
  match fr.operands with
  | [] => .fault (.operandMissing "br_table index missing") s
  | index :: operands =>
    branchTo resultCount { fr with operands := operands }
      ((depths[index.i32.toNat]?).getD fallback) s

def executeOpLocalGet (index : Nat) (fr : Frame) (s : σ) : Move σ ε :=
  match fr.locals[index]? with
  | none => .fault .unchecked s
  | some value =>
    match stackPush value fr.operands with
    | none => .fault .stackOverflow s
    | some operands => .next { fr with operands := operands }.advance s

/-- `execute_op_local_set` for `local.set` and, with `tee`, for `local.tee`. -/
def executeOpLocalSet (tee : Bool) (index : Nat) (fr : Frame) (s : σ) : Move σ ε :=
  match fr.operands with
  | [] => .fault (.operandMissing "local value missing") s
  | value :: operands =>
    if index < fr.locals.length then
      let locals := fr.locals.set index value
      if tee then
        match stackPush value operands with
        | none => .fault .stackOverflow s
        | some operands => .next { fr with operands := operands, locals := locals }.advance s
      else .next { fr with operands := operands, locals := locals }.advance s
    else .fault .unchecked s

/-! ## Calls -/

variable (prog : Nat → Module α β)

/-- The type sections of all engines. -/
def typeStore : TypeStore := fun engine => (prog engine).types

/-- A call that is ready: the target, the arguments in the order of the
parameters, and the operands below them. -/
structure CallSite where
  engine : Nat
  func : Nat
  args : List Value
  operands : List Value
deriving DecidableEq

/-- Pop the arguments of a call. -/
def popArgs (missing : String) (count : Nat) (operands : List Value) :
    Except Fault (List Value × List Value) :=
  match stackPopN count operands with
  | none => .error (.operandMissing missing)
  | some (args, operands) => .ok (args.reverse, operands)

/-- The target of an indirect call must exist and have a subtype of the expected
type. -/
def checkTarget (range mismatch : String) (engine type : Nat) (target : Nat × Nat) :
    Except Fault Unit :=
  match (prog target.1).typeIndex? target.2 with
  | none => .error (.trap range)
  | some actual =>
    if funcTypeIsSubtype (typeStore prog) ⟨target.1, actual⟩ ⟨engine, type⟩ then .ok ()
    else .error (.trap mismatch)

/-- The parameters a call with this type index pops. -/
def paramCount (engine type : Nat) : Nat :=
  (((prog engine).types[type]?).map (·.params.length)).getD 0

/-- `execute_op_call` up to the invocation. -/
def callSite (engine func : Nat) (operands : List Value) : Except Fault CallSite := do
  match (prog engine).typeIndex? func with
  | none => .error .functionIndex
  | some type =>
    let (args, operands) ← popArgs "call arguments missing" (paramCount prog engine type) operands
    .ok ⟨engine, func, args, operands⟩

/-- `execute_op_call_indirect` up to the invocation. -/
def callIndirectSite (engine type table : Nat) (operands : List Value) (s : σ) :
    Except Fault CallSite := do
  match operands with
  | [] => .error (.operandMissing "call_indirect table operand missing")
  | operand :: operands =>
    let target ← H.slot engine table operand s
    checkTarget prog "call_indirect target out of range" "indirect call type mismatch" engine type
      target
    let (args, operands) ←
      popArgs "call_indirect arguments missing" (paramCount prog engine type) operands
    .ok ⟨target.1, target.2, args, operands⟩

/-- `execute_op_call_ref` up to the invocation. -/
def callRefSite (engine type : Nat) (operands : List Value) : Except Fault CallSite := do
  match operands with
  | [] => .error (.operandMissing "call_ref target missing")
  | reference :: operands =>
    if reference.i32 = nullRef then .error (.trap "null function reference")
    else
      let target := (engine, reference.i32.toNat)
      checkTarget prog "call_ref target out of range" "call_ref type mismatch" engine type target
      let (args, operands) ←
        popArgs "call_ref arguments missing" (paramCount prog engine type) operands
      .ok ⟨target.1, target.2, args, operands⟩

/-- The call an instruction makes and whether it is a tail call; `none` for the
other instructions. -/
def Basic.site? (engine : Nat) (operands : List Value) (s : σ) :
    Basic α β → Option (Bool × Except Fault CallSite)
  | .call func => some (false, callSite prog engine func operands)
  | .callIndirect type table => some (false, callIndirectSite H prog engine type table operands s)
  | .callRef type => some (false, callRefSite prog engine type operands)
  | .returnCall func => some (true, callSite prog engine func operands)
  | .returnCallIndirect type table =>
    some (true, callIndirectSite H prog engine type table operands s)
  | .returnCallRef type => some (true, callRefSite prog engine type operands)
  | _ => none

/-- The handlers of the calls, up to the invocation. -/
def executeCall (tail : Bool) (site : Except Fault CallSite) (fr : Frame) (s : σ) : Action σ ε :=
  match site with
  | .error fault => .move (.fault fault s)
  | .ok site =>
    let fr := { fr with operands := site.operands }
    if tail then .tail site.engine site.func site.args fr
    else .call site.engine site.func site.args fr

/-- The handler of an instruction that is not a bracket. -/
def dispatchBasic (engine resultCount : Nat) (instr : Basic α β) (fr : Frame) (s : σ) :
    Action σ ε :=
  match instr with
  | .unreachable => .move (.fault (.trap "unreachable") s)
  | .nop => .move (.next fr.advance s)
  | .br depth => .move (branchTo resultCount fr depth s)
  | .brIf depth => .move (executeBranchIf resultCount depth fr s)
  | .brTable depths fallback => .move (executeBranchTable resultCount depths fallback fr s)
  | .brOn op depth => .move (executeBranchOn H engine resultCount op depth fr s)
  | .return_ => .move (.return_ fr s)
  | .localGet index => .move (executeOpLocalGet index fr s)
  | .localSet index => .move (executeOpLocalSet false index fr s)
  | .localTee index => .move (executeOpLocalSet true index fr s)
  | .plain op => .move (executePlain H engine op fr s)
  | .call func => executeCall false (callSite prog engine func fr.operands) fr s
  | .callIndirect type table =>
    executeCall false (callIndirectSite H prog engine type table fr.operands s) fr s
  | .callRef type => executeCall false (callRefSite prog engine type fr.operands) fr s
  | .returnCall func => executeCall true (callSite prog engine func fr.operands) fr s
  | .returnCallIndirect type table =>
    executeCall true (callIndirectSite H prog engine type table fr.operands s) fr s
  | .returnCallRef type => executeCall true (callRefSite prog engine type fr.operands) fr s

/-- One entry of the dispatch table. -/
def dispatch (engine resultCount : Nat) (instr : ExecInstr α β) (fr : Frame) (s : σ) : Action σ ε :=
  match instr.op with
  | .block kind _ => .move (executeOpBlock instr kind fr s)
  | .else_ => .move (executeOpElse instr fr s)
  | .end_ => .move (executeOpEnd fr s)
  | .basic basic => dispatchBasic H prog engine resultCount basic fr s

/-- The end of `exec_invoke_frame`: take the results from the stack. -/
def collectResults (resultCount : Nat) (fr : Frame) : Except Fault (List Value) :=
  if fr.operands.length < resultCount then .error .missingResult
  else .ok (fr.operands.take resultCount).reverse

end Waste.Exec
