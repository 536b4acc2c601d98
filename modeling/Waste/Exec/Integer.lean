import Waste.Exec.Machine
import Waste.Exec.Validate

/-!
# Integer, parametric and global instructions

The rows of `op/opcodes.tab` for `i32` and `i64`, the handlers that
`gen-dispatch.awk` writes for them, and `drop`, `select`, `global.get` and
`global.set`.  The rows that differ by their width only are one definition with the
width as a parameter.

`ClosedModule` is a module without imports that uses only these instructions.  Its
tables hold its own functions, so an element is only an index.
-/

namespace Waste.Exec

open Waste.Types

/-! ## Integers -/

inductive Width
  | i32 | i64
deriving DecidableEq, Repr

namespace Width

def bits : Width → Nat
  | i32 => 32
  | i64 => 64

def type : Width → ValType
  | i32 => .i32
  | i64 => .i64

def name : Width → String
  | i32 => "i32"
  | i64 => "i64"

def get (w : Width) (value : Value) : BitVec w.bits := value.bits.setWidth w.bits

/-- `i32_value` and `i64_value`. -/
def value (w : Width) (bits : BitVec w.bits) : Value := ⟨w.type, bits.setWidth 128⟩

end Width

/-- The expressions of the rows with `I32_UN` and `I64_UN`, tests apart. -/
inductive UnOp
  | clz | ctz | popcnt
  | extend8 | extend16
deriving DecidableEq, Repr

def UnOp.eval {n : Nat} (b : BitVec n) : UnOp → BitVec n
  | clz => b.clz
  | ctz => b.ctz
  | popcnt => b.cpop
  | extend8 => (b.setWidth 8).signExtend n
  | extend16 => (b.setWidth 16).signExtend n

/-- The expressions of the comparisons. -/
inductive RelOp
  | eq | ne
  | ltS | ltU | gtS | gtU | leS | leU | geS | geU
deriving DecidableEq, Repr

def RelOp.eval {n : Nat} (a b : BitVec n) : RelOp → Bool
  | eq => a == b
  | ne => a != b
  | ltS => a.slt b
  | ltU => a.ult b
  | gtS => b.slt a
  | gtU => b.ult a
  | leS => a.sle b
  | leU => a.ule b
  | geS => b.sle a
  | geU => b.ule a

/-- The rows with `I32_BIN` and `I64_BIN`, the divisions and the rotations. -/
inductive BinOp
  | add | sub | mul
  | divS | divU | remS | remU
  | and | or | xor
  | shl | shrS | shrU
  | rotl | rotr
deriving DecidableEq, Repr

/-- `gen_rotl32` and the rotation of `emit_i64_rot`. -/
def rotateLeft {n : Nat} (a : BitVec n) (c : Nat) : BitVec n :=
  if c ≠ 0 then (a <<< c) ||| (a >>> (n - c)) else a

def rotateRight {n : Nat} (a : BitVec n) (c : Nat) : BitVec n :=
  if c ≠ 0 then (a >>> c) ||| (a <<< (n - c)) else a

def BinOp.eval {n : Nat} (a b : BitVec n) : BinOp → Except Fault (BitVec n)
  | add => .ok (a + b)
  | sub => .ok (a - b)
  | mul => .ok (a * b)
  | divS =>
    if b = 0 then .error (.trap "integer divide by zero")
    else if a = BitVec.intMin n ∧ b = BitVec.allOnes n then .error (.trap "integer overflow")
    else .ok (a.sdiv b)
  | divU => if b = 0 then .error (.trap "integer divide by zero") else .ok (a / b)
  | remS =>
    if b = 0 then .error (.trap "integer divide by zero")
    else if a = BitVec.intMin n ∧ b = BitVec.allOnes n then .ok 0
    else .ok (a.srem b)
  | remU => if b = 0 then .error (.trap "integer divide by zero") else .ok (a % b)
  | and => .ok (a &&& b)
  | or => .ok (a ||| b)
  | xor => .ok (a ^^^ b)
  | shl => .ok (a <<< (b.toNat % n))
  | shrS => .ok (a.sshiftRight (b.toNat % n))
  | shrU => .ok (a >>> (b.toNat % n))
  | rotl => .ok (rotateLeft a (b.toNat % n))
  | rotr => .ok (rotateRight a (b.toNat % n))

/-! ## Instructions -/

/-- The instructions without control, locals and calls. -/
inductive Op
  | drop
  /-- The type of a typed `select`. -/
  | select (type : Option ValType)
  | globalGet (index : Nat)
  | globalSet (index : Nat)
  | const (w : Width) (bits : BitVec w.bits)
  | eqz (w : Width)
  | rel (w : Width) (op : RelOp)
  | un (w : Width) (op : UnOp)
  | bin (w : Width) (op : BinOp)
  | i64Extend32
  | i32WrapI64
  | i64ExtendI32 (signed : Bool)
deriving DecidableEq, Repr

/-- `exec_global` without its value. -/
structure GlobalType where
  type : ValType
  isMutable : Bool
deriving DecidableEq, Repr

/-- `exec_table` without its elements. -/
structure TableType where
  elementType : ValType
  is64 : Bool
deriving DecidableEq, Repr

def TableType.width (table : TableType) : Width := if table.is64 then .i64 else .i32

/-- The part of an engine that the instructions change or read: the values of the
globals, and the elements of the tables, where `none` has no owner. -/
structure Store where
  globals : List Value
  tables : List (List (Option Nat))
deriving DecidableEq, Repr

/-! ## Handlers -/

/-- A handler that computes one value from operands of one width. -/
def computeHandler (pops : Nat) (w : Width) (missing : String)
    (f : List (BitVec w.bits) → Except Fault Value) : Handler Store Empty where
  pops := pops
  missing := missing
  accepts popped := popped.all (·.type = w.type)
  compute s popped :=
    match f (popped.map w.get) with
    | .ok value => .ok s [value]
    | .error x => .fault x s

/-- `emit_i32_un`, `emit_i64_un` and `emit_i64_test`. -/
def unaryHandler (w : Width) (f : BitVec w.bits → Value) : Handler Store Empty :=
  computeHandler 1 w (w.name ++ " operand missing") fun operands =>
    .ok (f (operands.getD 0 0))

/-- `emit_i32_bin`, `emit_i64_bin`, `emit_i64_cmp`, the divisions and the rotations;
the right operand is on top. -/
def binaryHandler (w : Width) (f : BitVec w.bits → BitVec w.bits → Except Fault Value) :
    Handler Store Empty :=
  computeHandler 2 w (w.name ++ " operands missing") fun operands =>
    f (operands.getD 1 0) (operands.getD 0 0)

/-- `emit_conv`. -/
def conversionHandler (w : Width) (f : BitVec w.bits → Value) : Handler Store Empty :=
  computeHandler 1 w "conversion operand missing" fun operands => .ok (f (operands.getD 0 0))

/-- `execute_op_drop`. -/
def dropHandler : Handler Store Empty where
  pops := 1
  missing := "drop operand missing"
  accepts _ := true
  compute s _ := .ok s []

/-- `execute_op_select`. -/
def selectHandler : Handler Store Empty where
  pops := 3
  missing := "select operands missing"
  accepts _ := true
  compute s popped :=
    match popped with
    | [condition, second, first] => .ok s [if condition.i32 ≠ 0 then first else second]
    | _ => .ok s []

/-- `execute_op_global` for `global.get`. -/
def globalGetHandler (index : Nat) : Handler Store Empty where
  pops := 0
  missing := ""
  accepts _ := true
  compute s _ :=
    match s.globals[index]? with
    | none => .fault .unchecked s
    | some value => .ok s [value]

/-- `execute_op_global` for `global.set`: the global keeps its type. -/
def globalSetHandler (index : Nat) : Handler Store Empty where
  pops := 1
  missing := "global value mismatch"
  accepts _ := true
  compute s popped :=
    match popped, s.globals[index]? with
    | value :: _, some global =>
      .ok { s with globals := s.globals.set index { value with type := global.type } } []
    | _, _ => .fault .unchecked s

def Op.handler : Op → Handler Store Empty
  | .drop => dropHandler
  | .select _ => selectHandler
  | .globalGet index => globalGetHandler index
  | .globalSet index => globalSetHandler index
  | .const w bits =>
    { pops := 0, missing := "", accepts := fun _ => true
      compute := fun s _ => .ok s [w.value bits] }
  | .eqz w => unaryHandler w fun b => i32Value (BitVec.ofBool (b == 0) |>.setWidth 32)
  | .rel w op => binaryHandler w fun a b =>
      .ok (i32Value (BitVec.ofBool (op.eval a b) |>.setWidth 32))
  | .un w op => unaryHandler w fun b => w.value (op.eval b)
  | .bin w op => binaryHandler w fun a b => (op.eval a b).map w.value
  | .i64Extend32 => unaryHandler .i64 fun b => i64Value ((b.setWidth 32).signExtend 64)
  | .i32WrapI64 => conversionHandler .i64 fun b => i32Value (b.setWidth 32)
  | .i64ExtendI32 signed => conversionHandler .i32 fun b =>
      i64Value (if signed then b.signExtend 64 else b.setWidth 64)

/-! ## Rules of the validator -/

/-- `validation_unary` and `validation_binary`: operands of one type and a result. -/
def typedRule (T : TypeStore) (engine pops : Nat) (operand : ValType) (results : List StackType) :
    Rule where
  pops := pops
  check types := if types.all (acceptsStack T engine · operand) then some results else none

/-- The check of a typed `select`. -/
def acceptsSelected (T : TypeStore) (engine : Nat) (type : ValType) : StackType → Bool
  | .bottom => true
  | .type actual => globalTypeIsCompat T engine actual engine type false

/-- `validate_op_select`. -/
def selectRule (T : TypeStore) (engine : Nat) (type : Option ValType) : Rule where
  pops := 3
  check types :=
    match types with
    | [condition, second, first] =>
      if condition ≠ .bottom ∧ condition ≠ .type .i32 then none
      else
        match type with
        | none =>
          let result := if first = .bottom then second else first
          if second ≠ .bottom ∧ first ≠ .bottom ∧ first ≠ second then none
          else
            match result with
            | .bottom => some [result]
            | .type actual => if isReferenceType actual then none else some [result]
        | some type =>
          if acceptsSelected T engine type first && acceptsSelected T engine type second then
            some [.type type]
          else none
    | _ => none

def Op.rule (T : TypeStore) (engine : Nat) (globals : List GlobalType) : Op → Rule
  | .drop => { pops := 1, check := fun _ => some [] }
  | .select type => selectRule T engine type
  | .globalGet index =>
    { pops := 0, check := fun _ => globals[index]?.map fun global => [.type global.type] }
  | .globalSet index =>
    { pops := 1
      check := fun types =>
        match globals[index]? with
        | none => none
        | some global =>
          if global.isMutable ∧ types.all (acceptsStack T engine · global.type) then some []
          else none }
  | .const w _ => { pops := 0, check := fun _ => some [.type w.type] }
  | .eqz w => typedRule T engine 1 w.type [.type .i32]
  | .rel w _ => typedRule T engine 2 w.type [.type .i32]
  | .un w _ => typedRule T engine 1 w.type [.type w.type]
  | .bin w _ => typedRule T engine 2 w.type [.type w.type]
  | .i64Extend32 => typedRule T engine 1 .i64 [.type .i64]
  | .i32WrapI64 => typedRule T engine 1 .i64 [.type .i32]
  | .i64ExtendI32 _ => typedRule T engine 1 .i32 [.type .i64]

/-! ## Modules without imports -/

/-- A function as the binary has it: its type, its locals and its instructions. -/
structure FuncDecl where
  typeIndex : Nat
  locals : List ValType
  instrs : List (Instr Op Empty)
deriving DecidableEq, Repr

structure ClosedModule where
  types : TypeSection
  globals : List GlobalType
  tables : List TableType
  funcs : List FuncDecl

def isFunctionReferenceType : ValType → Bool
  | .funcref | .funcrefNonnull | .nullfuncref | .typeRefNull _ | .typeRef _ => true
  | _ => false

namespace ClosedModule

variable (m : ClosedModule)

/-- The types of the module, in engine 0; there is no other engine. -/
def store : TypeStore
  | 0 => m.types
  | _ + 1 => []

/-- What the validator reads for a function of the type. -/
def context (type : DefinedType) (func : FuncDecl) : Context Op Empty where
  types := m.store
  engine := 0
  params := type.params
  results := type.results
  locals := func.locals
  typeIndex? i := m.funcs[i]?.map (·.typeIndex)
  tableOperand? table :=
    match m.tables[table]? with
    | none => none
    | some table =>
      if isFunctionReferenceType table.elementType then some table.width.type else none
  rule := Op.rule m.store 0 m.globals
  branchRule op := op.elim
  -- there are no tags
  catchTypes? clause :=
    if clause.kind < 2 then none
    else some (if clause.kind % 2 = 1 then [.exnrefNonnull] else [])

/-- `wasm_validate_function`. -/
def validateFunction (func : FuncDecl) : Bool :=
  match m.types[func.typeIndex]? with
  | none => false
  | some type => validateFunctionBody (m.context type func) func.instrs

/-- `parse_body` for a function. -/
def loadFunc (func : FuncDecl) : Option (Func Op Empty) :=
  (parseBody m.types func.instrs).map fun code =>
    { typeIndex := func.typeIndex, locals := func.locals, code := code }

def load : Option (Module Op Empty) :=
  (m.funcs.mapM m.loadFunc).map fun funcs => { types := m.types, imports := [], funcs := funcs }

def program (mod : Module Op Empty) : Nat → Module Op Empty
  | 0 => mod
  | _ + 1 => { types := [], imports := [], funcs := [] }

/-- The element `call_indirect` reads: the index must have the type of the table and
name an element that has an owner. -/
def slot (table : Nat) (operand : Value) (s : Store) : Except Fault (Nat × Nat) :=
  match m.tables[table]?, s.tables[table]? with
  | some type, some elements =>
    if operand.type ≠ type.width.type then
      .error (.operandMissing "call_indirect table operand missing")
    else
      match elements[(type.width.get operand).toNat]? with
      | none => .error (.trap "undefined element")
      | some none => .error (.trap "uninitialized element")
      | some (some func) => .ok (0, func)
  | _, _ => .error .unchecked

def handlers : Handlers Op Empty Store Empty where
  plain _ op := op.handler
  branch _ op := op.elim
  slot _ := m.slot
  catches _ _ x := x.elim
  caught _ _ x := x.elim

end ClosedModule

end Waste.Exec
