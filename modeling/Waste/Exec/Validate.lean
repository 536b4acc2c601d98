import Waste.Exec.Frame

/-!
# The validator

`validate_function_body` of `op/validate.c`: one pass over the instructions with a
stack of types and a stack of blocks.  After an unconditional branch the rest of a
block is unreachable, and a pop at the height of the block then yields the bottom
type.

`WASM_VALIDATION_INVALID` and `WASM_VALIDATION_UNSUPPORTED` both refuse the body and
are one answer here.  Stacks are lists with the top first, and the record for the
function itself, which the source keeps as `controls[0]`, is only its flag
`unreachable`: its height is 0 and it has no kind.
-/

namespace Waste.Exec

open Waste.Types

/-- A type on the stack of the validator; `bottom` is `WASM_BOTTOM_TYPE`. -/
inductive StackType
  | bottom
  | type (type : ValType)
deriving DecidableEq, Repr

/-- The types of a signature as they stand on the stack, with the top first. -/
def onStack (types : List ValType) : List StackType := types.reverse.map .type

@[simp] theorem length_onStack {types : List ValType} : (onStack types).length = types.length := by
  simp [onStack]

/-- `wasm_validation_control` of a block. -/
structure BlockControl where
  kind : BlockKind
  height : Nat
  params : List ValType
  results : List ValType
  unreachable : Bool
  hasElse : Bool
  entryInitialized : List Bool
deriving DecidableEq, Repr

/-- What the handlers of the validator change. -/
structure ValidState where
  stack : List StackType
  blocks : List BlockControl
  funcUnreachable : Bool
  initialized : List Bool
deriving DecidableEq, Repr

/-- `validate` for an instruction of `α`: how many types it pops, the types it pushes
when it accepts them, first the one that ends up on top, and whether the rest of the
block is unreachable, as behind a `throw`. -/
structure Rule where
  pops : Nat
  check : List StackType → Option (List StackType)
  ends : Bool := false

/-- `validate` for an instruction of `β`: on top of the rest of the label's types
it pushes `taken` for the branch and `fall` for the next instruction. -/
structure BranchRule where
  pops : Nat
  check : List StackType → Option (List ValType × List StackType)

/-- What the validator reads from the engine and the function. -/
structure Context (α β : Type) where
  types : TypeStore
  engine : Nat
  params : List ValType
  results : List ValType
  locals : List ValType
  typeIndex? : Nat → Option Nat
  /-- The type of the operand of `call_indirect` on a table, for a table of
  functions. -/
  tableOperand? : Nat → Option ValType
  rule : α → Rule
  branchRule : β → BranchRule
  /-- The types a catch clause hands to its label. -/
  catchTypes? : Catch → Option (List ValType)

variable {α β : Type} (C : Context α β)

namespace ValidState

def height (v : ValidState) : Nat := (v.blocks.head?.map (·.height)).getD 0

def unreachable (v : ValidState) : Bool :=
  match v.blocks with
  | [] => v.funcUnreachable
  | block :: _ => block.unreachable

/-- Drop the operands of the innermost block and mark its rest unreachable. -/
def setUnreachable (v : ValidState) : ValidState :=
  let stack := v.stack.drop (v.stack.length - v.height)
  match v.blocks with
  | [] => { v with stack := stack, funcUnreachable := true }
  | block :: blocks =>
    { v with stack := stack, blocks := { block with unreachable := true } :: blocks }

/-- `validation_pop`. -/
def pop (v : ValidState) : Option (StackType × ValidState) :=
  match v.stack with
  | top :: stack =>
    if v.height < v.stack.length then some (top, { v with stack := stack })
    else if v.unreachable then some (.bottom, v) else none
  | [] => if v.unreachable then some (.bottom, v) else none

/-- `validation_pop`, `n` times, first the top. -/
def popN : Nat → ValidState → Option (List StackType × ValidState)
  | 0, v => some ([], v)
  | n + 1, v => do
    let (top, v) ← v.pop
    let (tops, v) ← v.popN n
    some (top :: tops, v)

/-- `validation_push`. -/
def push (type : StackType) (v : ValidState) : Option ValidState :=
  if v.stack.length ≥ execMaxStack then none else some { v with stack := type :: v.stack }

/-- Push types, the last one of the list first. -/
def pushAll : List StackType → ValidState → Option ValidState
  | [], v => some v
  | type :: types, v => (v.pushAll types).bind (push type)

def pushTypes (types : List ValType) (v : ValidState) : Option ValidState :=
  v.pushAll (onStack types)

end ValidState

/-- The types `validation_pop_type` accepts for an expected one. -/
def acceptsType (T : TypeStore) (engine : Nat) (actual expected : ValType) : Bool :=
  globalTypeIsCompat T engine actual engine expected false ||
    (actual = .funcrefNonnull && expected = .funcref) ||
    (actual = .externrefNonnull && expected = .externref) ||
    (actual.index?.isSome && expected = .funcref) ||
    match actual, expected with
    | .typeRef i, .typeRefNull j => i = j
    | _, _ => false

/-- The same for a type on the stack; the bottom type is accepted everywhere. -/
def acceptsStack (T : TypeStore) (engine : Nat) : StackType → ValType → Bool
  | .bottom, _ => true
  | .type actual, expected => acceptsType T engine actual expected

def accepts (actual : StackType) (expected : ValType) : Bool :=
  acceptsStack C.types C.engine actual expected

/-- `validation_pop_type`. -/
def popType (expected : ValType) (v : ValidState) : Option ValidState := do
  let (actual, v) ← v.pop
  if accepts C actual expected then some v else none

/-- Pop the types of a list, the first one first. -/
def popEach : List ValType → ValidState → Option ValidState
  | [], v => some v
  | expected :: types, v => (popType C expected v).bind (popEach types)

/-- Pop the types of a signature, from the last one on. -/
def popTypes (types : List ValType) (v : ValidState) : Option ValidState :=
  popEach C types.reverse v

/-- `validation_resolve_label`. -/
def resolveLabel (v : ValidState) (depth : Nat) : Option (List ValType) :=
  if depth > v.blocks.length then none
  else
    match v.blocks[depth]? with
    | none => some C.results
    | some block => some (if block.kind = .loop then block.params else block.results)

/-- `validation_local_type`. -/
def localType? (index : Nat) : Option ValType := (C.params ++ C.locals)[index]?

def signature? (typeIndex : Nat) : Option (List ValType × List ValType) :=
  ((C.types C.engine)[typeIndex]?).map fun type => (type.params, type.results)

/-! ## Blocks -/

/-- The catch clauses of a `try_table`: the label of a clause takes as many types
as the clause hands over, each below the one of the label. -/
def validateCatches (catches : List Catch) (v : ValidState) : Bool :=
  catches.all fun clause =>
    match resolveLabel C v clause.depth, C.catchTypes? clause with
    | some label, some types =>
      allSame (fun type expected =>
        globalTypeIsCompat C.types C.engine type C.engine expected false) types label
    | _, _ => false

/-- The condition of an `if` and the clauses of a `try_table`. -/
def validateBlockHead (kind : BlockKind) (v : ValidState) : Option ValidState :=
  match kind with
  | .if_ => popType C .i32 v
  | .tryTable catches => if validateCatches C catches v then some v else none
  | _ => some v

def wastMaxParams : Nat := 128

def wastMaxResults : Nat := 32

def validateOpBlock (kind : BlockKind) (type : BlockType) (v : ValidState) : Option ValidState := do
  let (params, results) ← type.signature (C.types C.engine)
  let v ← validateBlockHead C kind v
  let v ← popTypes C params v
  if params.length > wastMaxParams then none
  else if v.blocks.length ≥ execMaxControl then none
  else
    let block : BlockControl :=
      { kind := kind, height := v.stack.length, params := params, results := results,
        unreachable := false, hasElse := false, entryInitialized := v.initialized }
    ValidState.pushTypes params { v with blocks := block :: v.blocks }

/-- The results of a block must be on the stack, and nothing else. -/
def popResults (block : BlockControl) (v : ValidState) : Option ValidState := do
  let v ← popTypes C block.results v
  if v.stack.length ≠ block.height then none else some v

def validateOpElse (v : ValidState) : Option ValidState :=
  match v.blocks with
  | [] => none
  | block :: blocks =>
    if block.kind ≠ .if_ ∨ block.hasElse then none
    else do
      let v ← popResults C block v
      ValidState.pushTypes block.params { v with
          blocks := { block with unreachable := false, hasElse := true } :: blocks
          initialized := block.entryInitialized }

/-- `validate_op_end` for a block. -/
def validateBlockEnd (block : BlockControl) (blocks : List BlockControl) (v : ValidState) :
    Option ValidState :=
  if block.kind = .if_ ∧ block.hasElse = false ∧ block.params ≠ block.results then none
  else do
    let v ← popResults C block v
    ValidState.pushTypes block.results
      { v with blocks := blocks, initialized := block.entryInitialized }

/-- `validate_op_end` for the function. -/
def validateFuncEnd (v : ValidState) : Bool :=
  match popTypes C C.results v with
  | none => false
  | some v => v.stack.isEmpty

/-! ## Branches -/

/-- The last part of the unconditional branches. -/
def popThenUnreachable (types : List ValType) (v : ValidState) : Option ValidState :=
  (popTypes C types v).map (·.setUnreachable)

/-- `validate_op_br` for `br`. -/
def validateOpBr (depth : Nat) (v : ValidState) : Option ValidState := do
  let label ← resolveLabel C v depth
  popThenUnreachable C label v

/-- `validate_op_br` for `br_if`. -/
def validateOpBrIf (depth : Nat) (v : ValidState) : Option ValidState := do
  let v ← popType C .i32 v
  let label ← resolveLabel C v depth
  let v ← popTypes C label v
  v.pushTypes label

/-- The operands of a `br_table`, first the top, against the types of one label. -/
def acceptsLabel (operands : List StackType) (label : List ValType) : Bool :=
  (operands.reverse.zip label).all fun (operand, expected) =>
    match operand with
    | .bottom => true
    | .type type => globalTypeIsCompat C.types C.engine type C.engine expected false

def validateOpBrTable (depths : List Nat) (fallback : Nat) (v : ValidState) :
    Option ValidState := do
  let v ← popType C .i32 v
  let labels ← (depths ++ [fallback]).mapM (resolveLabel C v)
  let count := (labels.head?.map (·.length)).getD 0
  if labels.any (·.length ≠ count) then none
  else
    let (operands, v) ← v.popN count
    if labels.all (acceptsLabel C operands) then some v.setUnreachable else none

def validateOpReturn (v : ValidState) : Option ValidState := popThenUnreachable C C.results v

/-- `validate_op_br_on_null` and the branches of `validate_op_gc`. -/
def validateOpBrOn (op : β) (depth : Nat) (v : ValidState) : Option ValidState := do
  let rule := C.branchRule op
  let (popped, v) ← v.popN rule.pops
  let (taken, fall) ← rule.check popped
  let label ← resolveLabel C v depth
  if label.length < taken.length then none
  else
    let carried := label.take (label.length - taken.length)
    if allSame (fun type expected =>
        globalTypeIsCompat C.types C.engine type C.engine expected false) taken
        (label.drop carried.length) then
      let v ← popTypes C carried v
      let v ← v.pushTypes carried
      v.pushAll fall
    else none

/-! ## Calls, locals and the rest -/

/-- `validation_tail_call`. -/
def validateTailCall (results : List ValType) (v : ValidState) : Option ValidState :=
  if allSame (fun type expected =>
      globalTypeIsCompat C.types C.engine type C.engine expected false) results C.results then
    some v.setUnreachable
  else none

/-- The common end of the calls: pop the parameters, then push the results or, for
a tail call, compare them with those of the function. -/
def validateCallee (tail : Bool) (typeIndex : Nat) (v : ValidState) : Option ValidState := do
  let (params, results) ← signature? C typeIndex
  let v ← popTypes C params v
  if tail then validateTailCall C results v else v.pushTypes results

def validateOpCall (tail : Bool) (func : Nat) (v : ValidState) : Option ValidState := do
  let typeIndex ← C.typeIndex? func
  validateCallee C tail typeIndex v

def validateOpCallIndirect (tail : Bool) (type table : Nat) (v : ValidState) :
    Option ValidState := do
  let operand ← C.tableOperand? table
  let v ← popType C operand v
  validateCallee C tail type v

def validateOpCallRef (tail : Bool) (type : Nat) (v : ValidState) : Option ValidState := do
  let (reference, v) ← v.pop
  let ok : Bool := match reference with
    | .bottom => true
    | .type reference =>
      reference.index?.any fun i => funcTypeIsSubtype C.types ⟨C.engine, i⟩ ⟨C.engine, type⟩
  if ok then validateCallee C tail type v else none

def validateOpLocalGet (index : Nat) (v : ValidState) : Option ValidState := do
  let type ← localType? C index
  if v.initialized.getD index false then v.push (.type type) else none

/-- `validate_op_local_set`, also for `local.tee`. -/
def validateOpLocalSet (tee : Bool) (index : Nat) (v : ValidState) : Option ValidState := do
  let type ← localType? C index
  let v ← popType C type v
  let v := { v with initialized := v.initialized.set index true }
  if tee then v.push (.type type) else some v

/-- The rule of an instruction of `α`. -/
def validatePlain (op : α) (v : ValidState) : Option ValidState := do
  let rule := C.rule op
  let (popped, v) ← v.popN rule.pops
  let pushed ← rule.check popped
  let v ← v.pushAll pushed
  some (if rule.ends then v.setUnreachable else v)

/-- The handler of an instruction that is not a bracket. -/
def validateBasic (instr : Basic α β) (v : ValidState) : Option ValidState :=
  match instr with
  | .unreachable => some v.setUnreachable
  | .nop => some v
  | .br depth => validateOpBr C depth v
  | .brIf depth => validateOpBrIf C depth v
  | .brTable depths fallback => validateOpBrTable C depths fallback v
  | .brOn op depth => validateOpBrOn C op depth v
  | .return_ => validateOpReturn C v
  | .call func => validateOpCall C false func v
  | .callIndirect type table => validateOpCallIndirect C false type table v
  | .callRef type => validateOpCallRef C false type v
  | .returnCall func => validateOpCall C true func v
  | .returnCallIndirect type table => validateOpCallIndirect C true type table v
  | .returnCallRef type => validateOpCallRef C true type v
  | .localGet index => validateOpLocalGet C index v
  | .localSet index => validateOpLocalSet C false index v
  | .localTee index => validateOpLocalSet C true index v
  | .plain op => validatePlain C op v

/-- `WASM_VALIDATION_CONTINUE`, `WASM_VALIDATION_VALID` or a refusal. -/
inductive Verdict
  | next (v : ValidState)
  | valid
  | refused

def Verdict.ofOption : Option ValidState → Verdict
  | none => .refused
  | some v => .next v

/-- One entry of the dispatch table. -/
def validateInstr (instr : Instr α β) (v : ValidState) : Verdict :=
  match instr with
  | .block kind type => .ofOption (validateOpBlock C kind type v)
  | .else_ => .ofOption (validateOpElse C v)
  | .end_ =>
    match v.blocks with
    | block :: blocks => .ofOption (validateBlockEnd C block blocks v)
    | [] => if validateFuncEnd C v then .valid else .refused
  | .basic instr => .ofOption (validateBasic C instr v)

/-- The loop of `validate_function_body`. -/
def validateLoop : ValidState → List (Instr α β) → Bool
  | _, [] => false
  | v, instr :: instrs =>
    match validateInstr C instr v with
    | .next v => validateLoop v instrs
    | .valid => true
    | .refused => false

def isReferenceType : ValType → Bool
  | .i32 | .i64 | .f32 | .f64 | .v128 => false
  | _ => true

def isNullableReferenceType : ValType → Bool
  | .funcref | .externref | .anyref | .eqref | .i31ref | .structref | .arrayref | .exnref
  | .nullref | .nullfuncref | .nullexnref | .nullexternref | .typeRefNull _ => true
  | _ => false

/-- The state before the first instruction. -/
def ValidState.initial : ValidState :=
  { stack := []
    blocks := []
    funcUnreachable := false
    initialized := C.params.map (fun _ => true) ++
      C.locals.map fun type => !isReferenceType type || isNullableReferenceType type }

def validateFunctionBody (instrs : List (Instr α β)) : Bool :=
  if C.params.length + C.locals.length > execMaxLocals then false
  else validateLoop C (.initial C) instrs

/-- The state of the validator after instructions that it goes on after. -/
def validateRun : ValidState → List (Instr α β) → Option ValidState
  | v, [] => some v
  | v, instr :: instrs =>
    match validateInstr C instr v with
    | .next v => validateRun v instrs
    | _ => none

/-- The state of `validate_function_body` before the instruction at `pc`. -/
def stateAt (instrs : List (Instr α β)) (pc : Nat) : Option ValidState :=
  validateRun C (.initial C) (instrs.take pc)

end Waste.Exec
