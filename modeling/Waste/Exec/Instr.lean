import Waste.Types.Model

/-!
# Instructions and their jump targets

The instructions of a function body as `parse_body` of `wasm/load.c` decodes
them, and the part of `parse_body` that resolves structured control: it keeps
a stack of the indices of the open blocks and patches the target of a block
when its `else` or `end` is read.

Instructions that only pop operands and push results are the parameter `α`,
the ones that also decide a branch the parameter `β`.  `Basic` is every
instruction that is not a bracket.
-/

namespace Waste.Exec

open Waste.Types

def execMaxControl : Nat := 4096

/-- `exec_catch`: one clause of a `try_table`.  Odd kinds also carry the exception
reference, kinds from 2 on match every exception. -/
structure Catch where
  kind : Nat
  tagIndex : Nat
  depth : Nat
deriving DecidableEq, Repr

/-- The opcodes `0x02`, `0x03`, `0x04` and `0x1f`. -/
inductive BlockKind
  | block | loop | if_
  | tryTable (catches : List Catch)
deriving DecidableEq, Repr

/-- `block_type_index`, `has_block_result_type` and `block_result_type`. -/
inductive BlockType
  | empty
  | value (type : ValType)
  | index (i : Nat)
deriving DecidableEq, Repr

def BlockType.signature (types : TypeSection) : BlockType → Option (List ValType × List ValType)
  | .empty => some ([], [])
  | .value type => some ([], [type])
  | .index i => types[i]?.map fun type => (type.params, type.results)

/-- The instructions that are not brackets. -/
inductive Basic (α β : Type)
  | unreachable
  | nop
  | br (depth : Nat)
  | brIf (depth : Nat)
  | brTable (depths : List Nat) (fallback : Nat)
  /-- `br_on_null`, `br_on_non_null`, `br_on_cast` and `br_on_cast_fail`. -/
  | brOn (op : β) (depth : Nat)
  | return_
  | call (func : Nat)
  | callIndirect (type table : Nat)
  | callRef (type : Nat)
  | returnCall (func : Nat)
  | returnCallIndirect (type table : Nat)
  | returnCallRef (type : Nat)
  | localGet (index : Nat)
  | localSet (index : Nat)
  | localTee (index : Nat)
  | plain (op : α)
deriving DecidableEq, Repr

/-- A decoded instruction. -/
inductive Instr (α β : Type)
  | block (kind : BlockKind) (type : BlockType)
  | else_
  | end_
  | basic (instr : Basic α β)
deriving DecidableEq, Repr

/-- `exec_instr`.  For an `if` and an `else` the field `u32Imm` is a jump target;
for the opening of a block `simdOp` is the index of its `end`. -/
structure ExecInstr (α β : Type) where
  op : Instr α β
  u32Imm : Nat := 0
  simdOp : Nat := 0
  blockParamCount : Nat := 0
  blockResultCount : Nat := 0
deriving DecidableEq, Repr

variable {α β : Type}

/-! ## The resolution of targets in `parse_body` -/

/-- `code`, `controls` (innermost first) and `function_ended`. -/
structure ParseState (α β : Type) where
  code : List (ExecInstr α β) := []
  controls : List Nat := []
  ended : Bool := false

def ExecInstr.isIf (instr : ExecInstr α β) : Bool :=
  match instr.op with
  | .block .if_ _ => true
  | _ => false

/-- What the `end` at `index` patches: the target of its block and, for an `if`,
the target of the `if` without an `else` or of the `else`. -/
def closeBlock (code : List (ExecInstr α β)) (opened index : Nat) : List (ExecInstr α β) :=
  let code := code.modify opened fun instr => { instr with simdOp := index }
  match code[opened]? with
  | none => code
  | some instr =>
    if instr.isIf then
      if instr.u32Imm = 0 then
        code.modify opened fun instr => { instr with u32Imm := index }
      else code.modify (instr.u32Imm - 1) fun instr => { instr with u32Imm := index }
    else code

/-- One instruction of the loop of `parse_body`. -/
def parseInstr (types : TypeSection) (st : ParseState α β) : Instr α β → Option (ParseState α β)
  | .block kind type =>
    if st.controls.length ≥ execMaxControl then none
    else
      (type.signature types).map fun (params, results) =>
        { st with
          code := st.code ++ [{ op := .block kind type, blockParamCount := params.length,
                                blockResultCount := results.length }]
          controls := st.code.length :: st.controls }
  | .else_ =>
    match st.controls with
    | [] => none
    | opened :: _ =>
      if (st.code[opened]?).any (·.isIf) then
        some { st with
          code := (st.code.modify opened fun instr =>
            { instr with u32Imm := st.code.length + 1 }) ++ [{ op := .else_ }] }
      else none
  | .end_ =>
    let code := st.code ++ [{ op := .end_ }]
    match st.controls with
    | [] => some { st with code := code, ended := true }
    | opened :: controls =>
      some { st with code := closeBlock code opened st.code.length, controls := controls }
  | .basic instr => some { st with code := st.code ++ [{ op := .basic instr }] }

/-- The loop of `parse_body`: nothing may follow the `end` of the function, and
the body may not stop before it. -/
def parseLoop (types : TypeSection) :
    ParseState α β → List (Instr α β) → Option (List (ExecInstr α β))
  | st, [] => if st.ended then some st.code else none
  | st, instr :: instrs =>
    if st.ended then none else (parseInstr types st instr).bind (parseLoop types · instrs)

/-- The instruction array of a function body. -/
def parseBody (types : TypeSection) (instrs : List (Instr α β)) : Option (List (ExecInstr α β)) :=
  parseLoop types {} instrs

end Waste.Exec
