import Waste.Exec.Soundness
import Waste.Exec.Structured

/-!
# Locals of a fresh activation

`exec_invoke_frame` keeps the locals of an activation in the storage of its call depth,
`local_frames[depth]`, which an earlier activation may have used.  It clears the storage,
copies the arguments and writes the declared types.  The rest of the interpreter, from
`default_value` to `ref.is_null`, takes the reference with all bits set for null.

A local that an activation has not set is therefore zero of its type, whatever was in the
storage before (`prepareLocals_take`, `History.local_eq`): the default of a number or a
vector, and a reference that no test takes for null.
-/

namespace Waste.Exec

open Waste.Types Simulation List Option

variable {α β σ ε : Type}
variable {move : Move σ ε}

/-! ## The storage of a call depth -/

/-- A `wasm_value` whose bytes are all zero; `WASM_VALTYPE_I32` is `0`. -/
def zeroValue : Value := ⟨.i32, 0⟩

/-- What `exec_invoke_frame` leaves in the storage of a call depth: zeros in as many
values as the activation needs, at least one, then the arguments, then the types of the
declared locals.  `stale` is what the storage held before. -/
def prepareLocals (stale args : List Value) (locals : List ValType) : List Value :=
  let localCount := args.length + locals.length
  let storageCount := if localCount = 0 then 1 else localCount
  let storage := List.replicate storageCount zeroValue ++ stale.drop storageCount
  let storage := args.zipIdx.foldl (fun storage (value, i) => storage.set i value) storage
  locals.zipIdx.foldl (fun storage (type, i) =>
      storage.modify (args.length + i) fun value => { value with type := type })
    storage

/-- A loop that rewrites consecutive entries of an array. -/
theorem foldl_modify_zipIdx {γ δ : Type} (f : γ → δ → δ) (zero : δ) (base start : Nat)
    (xs : List γ) (front rest : List δ) (hfront : front.length = base + start) :
    (xs.zipIdx start).foldl (fun storage (x, i) => storage.modify (base + i) (f x))
      (front ++ (replicate xs.length zero ++ rest)) =
    front ++ (xs.map (f · zero) ++ rest) := by
  induction xs generalizing front start with
  | nil => rfl
  | cons x xs ih =>
    have hmodify : (front ++ (replicate (xs.length + 1) zero ++ rest)).modify (base + start)
        (f x) = (front ++ [f x zero]) ++ (replicate xs.length zero ++ rest) := by
      rw [← hfront, modify_eq_take_drop, replicate_succ]
      simp
    have hrest := ih (start + 1) (front ++ [f x zero]) (by simp [hfront]; omega)
    simp only [length_cons, zipIdx_cons, foldl_cons, hmodify, hrest]
    simp

theorem foldl_set_args (args rest : List Value) :
    args.zipIdx.foldl (fun storage (value, i) => storage.set i value)
      (replicate args.length zeroValue ++ rest) = args ++ rest := by
  have hloop := foldl_modify_zipIdx (fun value _ => value) zeroValue 0 0 args [] rest rfl
  simpa [set_eq_modify] using hloop

/-- The locals of a fresh activation do not depend on what the storage held. -/
theorem prepareLocals_take (stale args : List Value) (locals : List ValType) :
    (prepareLocals stale args locals).take (args.length + locals.length) =
      args ++ locals.map fun type => ⟨type, 0⟩ := by
  by_cases hcount : args.length + locals.length = 0
  · have hargs : args = [] := eq_nil_of_length_eq_zero (by omega)
    have hlocals : locals = [] := eq_nil_of_length_eq_zero (by omega)
    simp [hargs, hlocals]
  unfold prepareLocals
  simp only [if_neg hcount, ← replicate_append_replicate, append_assoc]
  rw [foldl_set_args,
    foldl_modify_zipIdx (fun type (value : Value) => { value with type := type }) _ _ _ _ _ _ rfl,
    ← append_assoc, take_left' (by simp)]
  rfl

/-- The frame of an activation whose depth has used its storage before. -/
def reusedFrame (stale : List Value) (body : Func α β) (args : List Value) : Frame :=
  { pc := 0
    operands := []
    controls := []
    locals := (prepareLocals stale args body.locals).take (args.length + body.locals.length) }

theorem reusedFrame_eq (stale : List Value) (body : Func α β) (args : List Value) :
    reusedFrame stale body args = freshFrame body args := by
  unfold reusedFrame freshFrame freshLocals
  rw [prepareLocals_take]

/-! ## Null references -/

def defaultValue (type : ValType) : Value :=
  if isReferenceType type then ⟨type, nullRef.setWidth 128⟩ else ⟨type, 0⟩

/-- `execute_op_ref_is_null`. -/
def refIsNull : Handler σ ε where
  pops := 1
  missing := "ref.is_null operand missing"
  accepts popped := popped.all (isReferenceType ·.type)
  compute s popped := .ok s
    (popped.map fun value => i32Value (if value.i32 = nullRef then 1 else 0))

def nonnullableReferenceType : ValType → ValType
  | .funcref => .funcrefNonnull
  | .externref => .externrefNonnull
  | .anyref => .anyrefNonnull
  | .eqref => .eqrefNonnull
  | .i31ref => .i31refNonnull
  | .structref => .structrefNonnull
  | .arrayref => .arrayrefNonnull
  | .exnref => .exnrefNonnull
  | .typeRefNull i => .typeRef i
  | type => type

/-- `execute_op_ref_as_non_null`. -/
def refAsNonNull : Handler σ ε where
  pops := 1
  missing := "ref.as_non_null operand missing"
  accepts popped := popped.all (isReferenceType ·.type)
  compute s popped :=
    if popped.any (·.i32 = nullRef) then .fault (.trap "null reference") s
    else .ok s (popped.map fun value => { value with type := nonnullableReferenceType value.type })

/-- `execute_op_branch` for `br_on_null`. -/
def brOnNull : BranchHandler σ where
  pops := 1
  missing := "reference branch operand missing"
  accepts popped := popped.all (isReferenceType ·.type)
  compute _ popped :=
    if popped.any (·.i32 = nullRef) then (true, [])
    else
      (false, popped.map fun value =>
        { value with type := nonnullableReferenceType value.type })

/-- `execute_op_branch` for `br_on_non_null`. -/
def brOnNonNull : BranchHandler σ where
  pops := 1
  missing := "reference branch operand missing"
  accepts popped := popped.all (isReferenceType ·.type)
  compute _ popped :=
    if popped.any (·.i32 = nullRef) then (false, [])
    else
      (true, popped.map fun value =>
        { value with type := nonnullableReferenceType value.type })

/-- A heap type of a cast: an index, or one of the codes from `-16` down to `-22`; the
others have no values but null. -/
inductive HeapType
  | index (i : Nat)
  | func | extern_ | any | eq | i31 | struct | array
  | other
deriving DecidableEq, Repr

/-- Is a value of this dynamic type an object of a type of the module that `kind` accepts? -/
def isObjectOf (T : TypeStore) (engine : Nat) (dynamic : ValType) (kind : TypeKind → Bool) : Bool :=
  dynamic.index?.any fun i => (kindAt T ⟨engine, i⟩).any kind

/-- `reference_matches_heap`; `dynamic` is the `reference_dynamic_type` of the value. -/
def referenceMatchesHeap (T : TypeStore) (engine : Nat) (dynamic : ValType) (value : Value)
    (heapType : HeapType) (nullable : Bool) : Bool :=
  if !isReferenceType value.type then false
  else if value.i32 = nullRef then nullable
  else
    match heapType with
    | .index i =>
      i < (T engine).length && dynamic.index?.isSome &&
        globalTypeIsCompat T engine dynamic engine (.typeRef i) false
    | .func =>
      dynamic = .funcref || dynamic = .funcrefNonnull || dynamic = .nullfuncref ||
        dynamic.index?.isSome
    | .extern_ => value.type = .externref || value.type = .externrefNonnull
    | .any =>
      value.type ≠ .funcref && value.type ≠ .funcrefNonnull && value.type ≠ .exnref &&
        value.type ≠ .exnrefNonnull
    | .eq =>
      dynamic = .i31ref || dynamic = .i31refNonnull || dynamic = .structref ||
        dynamic = .structrefNonnull || dynamic = .arrayref || dynamic = .arrayrefNonnull ||
        isObjectOf T engine dynamic (· ≠ .func)
    | .i31 => dynamic = .i31ref || dynamic = .i31refNonnull
    | .struct =>
      dynamic = .structref || dynamic = .structrefNonnull ||
        isObjectOf T engine dynamic (· = .struct)
    | .array =>
      dynamic = .arrayref || dynamic = .arrayrefNonnull || isObjectOf T engine dynamic (· = .array)
    | .other => false

/-- Every instruction that asks whether a reference is null takes this one for null. -/
structure TreatedAsNull (α β σ ε : Type) (value : Value) : Prop where
  isNull : ∀ s : σ, (refIsNull : Handler σ ε).compute s [value] = .ok s [i32Value 1]
  asNonNull : ∀ s : σ,
    (refAsNonNull : Handler σ ε).compute s [value] = .fault (.trap "null reference") s
  onNull : ∀ s : σ, brOnNull.compute s [value] = (true, [])
  onNonNull : ∀ s : σ, brOnNonNull.compute s [value] = (false, [])
  callRef : ∀ (prog : Nat → Module α β) (engine type : Nat) (operands : List Value),
    callRefSite prog engine type (value :: operands) = .error (.trap "null function reference")
  cast : ∀ T engine dynamic heapType nullable,
    referenceMatchesHeap T engine dynamic value heapType nullable = nullable

theorem treatedAsNull_iff {value : Value} (href : isReferenceType value.type = true) :
    TreatedAsNull α β σ ε value ↔ value.i32 = nullRef := by
  constructor
  · intro h
    by_contra hne
    -- a cast to a heap type without values only lets null pass
    have hcast := h.cast (fun _ => []) 0 value.type .other true
    simp [referenceMatchesHeap, href, hne] at hcast
  · intro hnull
    exact {
      isNull := fun s => by simp [refIsNull, hnull]
      asNonNull := fun s => by simp [refAsNonNull, hnull]
      onNull := fun s => by simp [brOnNull, hnull]
      onNonNull := fun s => by simp [brOnNonNull, hnull]
      callRef := fun prog engine type operands => if_pos hnull
      cast := fun T engine dynamic heapType nullable => by
        simp [referenceMatchesHeap, href, hnull] }

/-! ## Histories of an activation -/

/-- Does an instruction write this local? -/
def Basic.setsLocal (index : Nat) : Basic α β → Bool
  | .localSet i => i = index
  | .localTee i => i = index
  | _ => false

/-- How an activation got from its first frame to the frame before its next instruction:
the instructions that it ran, without the brackets.  Calls may answer anything, and the
shared state may change between two instructions, because the activation may have been
suspended there. -/
inductive History (H : Handlers α β σ ε) (prog : Nat → Module α β) (engine results : Nat)
    (code : List (ExecInstr α β)) (start : Frame) : List (Basic α β) → Frame → Prop
  | start : History H prog engine results code start [] start
  | step {ran : List (Basic α β)} {fr fr' : Frame} {s s' : σ}
      (callee : Nat → Nat → List Value → σ → Completion ε × σ)
      (h : History H prog engine results code start ran fr)
      (hstep : flatStep ⟨H, prog, engine, results, callee⟩ code fr s = .next fr' s') :
      History H prog engine results code start (ran ++ ((flatObserve code fr).map (·.1)).toList) fr'

/-- If a move goes on with a frame, `P` holds of its locals. -/
def Move.Leaves (P : List Value → Prop) : Move σ ε → Prop
  | .next fr _ => P fr.locals
  | _ => True

/-- If a handler goes on with a frame, `P` holds of its locals. -/
def Action.Leaves (P : List Value → Prop) : Action σ ε → Prop
  | .move move => move.Leaves P
  | .call _ _ _ fr | .tail _ _ _ fr => P fr.locals

section

variable {P : List Value → Prop} {fr fr' : Frame} {s s' : σ} (hP : P fr.locals)
variable (H : Handlers α β σ ε) (engine results : Nat)

include hP

theorem branchTo_leaves (depth : Nat) : (branchTo results fr depth s : Move σ ε).Leaves P := by
  unfold branchTo
  repeat' split
  all_goals trivial

theorem handleException_leaves {x : ε} : (handleException H engine fr x s).Leaves P := by
  unfold handleException
  repeat' split
  all_goals trivial

/-- An instruction writes at most the local it names. -/
theorem dispatchBasic_leaves (prog : Nat → Module α β) {instr : Basic α β}
    (hset : ∀ index value, instr.setsLocal index = true → P (fr.locals.set index value)) :
    (dispatchBasic H prog engine results instr fr s).Leaves P := by
  cases instr with
  | unreachable | return_ => trivial
  | nop => exact hP
  | br depth => exact branchTo_leaves hP _ _
  | brIf | brTable | brOn =>
    simp only [dispatchBasic, executeBranchIf, executeBranchTable, executeBranchOn]
    repeat' split
    all_goals first | trivial | (apply branchTo_leaves; exact hP)
  | localSet index | localTee index =>
    have hset (value : Value) := hset index value (decide_eq_true rfl)
    simp only [dispatchBasic, executeOpLocalSet]
    repeat' split
    all_goals first | trivial | exact hset _
  | localGet | plain | call | callIndirect | callRef | returnCall | returnCallIndirect
  | returnCallRef =>
    simp only [dispatchBasic, executeOpLocalGet, executePlain, executeCall]
    repeat' split
    all_goals first | trivial | (apply handleException_leaves; exact hP)

theorem dispatch_leaves (prog : Nat → Module α β) {instr : ExecInstr α β}
    (hset : ∀ basic index value, instr.op = .basic basic → basic.setsLocal index = true →
      P (fr.locals.set index value)) :
    (dispatch H prog engine results instr fr s).Leaves P := by
  unfold dispatch
  cases hop : instr.op with
  | basic basic =>
    exact dispatchBasic_leaves hP _ _ _ _ fun index value => hset basic index value hop
  | block | else_ | end_ =>
    simp only [executeOpBlock, executeOpElse, executeOpEnd]
    repeat' split
    all_goals trivial

theorem handleCallResult_leaves {answer : Completion ε}
    (h : handleCallResult H engine fr s answer = .inl move) : move.Leaves P := by
  cases answer with
  | values values =>
    cases hpush : stackPushAll values.reverse fr.operands with
    | none =>
      simp only [handleCallResult, hpush, Sum.inl.injEq] at h
      exact h ▸ trivial
    | some _ =>
      simp only [handleCallResult, hpush, Sum.inl.injEq] at h
      exact h ▸ hP
  | throw x => exact Sum.inl.inj h ▸ handleException_leaves hP H engine
  | fault | status | yield | outOfFuel => simp [handleCallResult] at h

omit hP

theorem settle_leaves (hsettle : settle results move = .next fr' s') (h : move.Leaves P) :
    P fr'.locals := by
  cases move with
  | next fr s =>
    obtain ⟨rfl, -⟩ := Progress.next.inj hsettle
    exact h
  | return_ fr s =>
    dsimp only [settle] at hsettle
    split at hsettle <;> cases hsettle
  | fault | throw => simp [settle] at hsettle

variable {a : Activation α β σ ε}

theorem act_leaves {action : Action σ ε} (h : action.Leaves P)
    (hact : act a s action = .next fr' s') : P fr'.locals := by
  cases action with
  | move move => exact settle_leaves _ hact h
  | call engine func args fr =>
    unfold act at hact
    dsimp only at hact
    split at hact
    · rename_i move hresult
      exact settle_leaves _ hact (handleCallResult_leaves h _ _ hresult)
    · simp at hact
  | tail engine func args fr =>
    unfold act at hact
    dsimp only at hact
    split at hact
    · simp at hact
    · split at hact
      · obtain ⟨rfl, -⟩ := Progress.next.inj hact
        exact h
      · simp at hact

/-- A step of the loop writes at most the local that its instruction names. -/
theorem flatStep_local {code : List (ExecInstr α β)} {index : Nat}
    (hstep : flatStep a code fr s = .next fr' s')
    (hset : ∀ instr ∈ (flatObserve code fr).map (·.1), instr.setsLocal index = false) :
    fr'.locals[index]? = fr.locals[index]? := by
  unfold flatStep at hstep
  cases hinstr : code[fr.pc]? with
  | none =>
    rw [hinstr] at hstep
    exact settle_leaves (P := (·[index]? = fr.locals[index]?)) _ hstep trivial
  | some instr =>
    rw [hinstr] at hstep
    refine act_leaves (dispatch_leaves (P := (·[index]? = fr.locals[index]?)) rfl _ _ _ _ ?_) hstep
    intro basic i value hop hsets
    refine getElem?_set_ne ?_
    rintro rfl
    obtain ⟨op, u32Imm, simdOp, params, results⟩ := instr
    obtain rfl : op = .basic basic := hop
    have := hset basic (by simp [flatObserve, hinstr])
    simp_all

end

/-- A local that an activation has not written is as it was in its first frame. -/
theorem History.local_eq {H : Handlers α β σ ε} {prog : Nat → Module α β} {engine results : Nat}
    {code : List (ExecInstr α β)} {start fr : Frame} {ran : List (Basic α β)} {index : Nat}
    (h : History H prog engine results code start ran fr)
    (hunset : ∀ instr ∈ ran, instr.setsLocal index = false) :
    fr.locals[index]? = start.locals[index]? := by
  induction h with
  | start => rfl
  | step _ h hstep ih =>
    rw [flatStep_local hstep fun instr hinstr => hunset instr (by simp_all), ih]
    exact fun instr hinstr => hunset instr (mem_append_left _ hinstr)

/-! ## Locals that are not set -/

/-- `local.get` of a frame pushes this value. -/
def LocalGetYields (σ ε : Type) (fr : Frame) (index : Nat) (value : Value) : Prop :=
  ∀ s : σ, (executeOpLocalGet index fr s : Move σ ε) =
    match stackPush value fr.operands with
    | none => .fault .stackOverflow s
    | some operands => .next { fr with operands := operands }.advance s

theorem localGetYields_of_eq {fr : Frame} {index : Nat} {value : Value}
    (h : fr.locals[index]? = some value) : LocalGetYields σ ε fr index value := by
  intro s
  cases hpush : stackPush value fr.operands <;> simp only [executeOpLocalGet, h, hpush]

/-- A local that its activation has not set is zero of its type.  That is the default of
its type, and null where it is a reference, exactly for the types of numbers and
vectors: an unset reference is the reference `0`, which no instruction takes for null. -/
theorem unset_local_default_iff (H : Handlers α β σ ε) (prog : Nat → Module α β)
    (engine results : Nat) (body : Func α β) (stale args : List Value) {ran : List (Basic α β)}
    {fr : Frame} {k : Nat} {type : ValType}
    (hist : History H prog engine results body.code (reusedFrame stale body args) ran fr)
    (htype : body.locals[k]? = some type)
    (hunset : ∀ instr ∈ ran, instr.setsLocal (args.length + k) = false) :
    ∃ value, LocalGetYields σ ε fr (args.length + k) value ∧
      ((value = defaultValue type ∧
          (isReferenceType type = true → TreatedAsNull α β σ ε value)) ↔
        isReferenceType type = false) := by
  have hvalue : fr.locals[args.length + k]? = some ⟨type, 0⟩ := by
    rw [hist.local_eq hunset, reusedFrame_eq]
    show (args ++ body.locals.map fun type => (⟨type, 0⟩ : Value))[args.length + k]? = _
    rw [getElem?_append_right (Nat.le_add_right _ _), Nat.add_sub_cancel_left,
      getElem?_map, htype, map_some]
  refine ⟨⟨type, 0⟩, localGetYields_of_eq hvalue, ?_, ?_⟩
  · rintro ⟨-, hnull⟩
    by_contra href
    have href : isReferenceType type = true := by simpa using href
    have hzero : (0 : BitVec 128).setWidth 32 = nullRef := (treatedAsNull_iff href).1 (hnull href)
    exact absurd hzero (by decide)
  · intro hnumber
    simp [defaultValue, hnumber]

/-- A function with a declared local that it reads after a `nop`. -/
def counterFunc : Func Op Empty where
  typeIndex := 0
  locals := [.i64]
  code := [{ op := .basic .nop }, { op := .basic (.localGet 1) }, { op := .end_ }]

theorem counterFunc_local_default :
    LocalGetYields Store Empty
      (reusedFrame [i64Value 9, i64Value 9] counterFunc [i32Value 5]).advance 1
      (defaultValue .i64) := by
  obtain ⟨value, hyields, hdefault⟩ :=
    unset_local_default_iff ClosedModule.factorialModule.handlers
      (ClosedModule.program { types := [], imports := [], funcs := [] }) 0 0 counterFunc
      [i64Value 9, i64Value 9] [i32Value 5] (k := 0)
      (.step (s := ⟨[], []⟩) (fun _ _ _ s => (.outOfFuel, s)) .start rfl) rfl (by decide)
  exact (hdefault.2 rfl).1 ▸ hyields

/-- A function that calls the function in a local it never sets. -/
def unsetLocalModule : ClosedModule where
  types := layoutGroups 0 [[{ kind := .func, results := [.i32] }]]
  globals := []
  tables := []
  funcs := [
    { typeIndex := 0
      locals := []
      instrs := [.basic (.plain (.const .i32 7)), .end_] },
    { typeIndex := 0
      locals := [.typeRefNull 0]
      instrs := [.basic (.localGet 0), .basic (.callRef 0), .end_] }]

/-- The unset local of a validated function is no null reference: `call_ref` calls the
first function of the module. -/
theorem unset_local_calls_first_function : ∃ mod, unsetLocalModule.Validated mod ∧
    (exec unsetLocalModule.handlers (ClosedModule.program mod) (fun _ _ _ s => .status 0 s) 20
      (.invoke 0 1 []) (.fresh ⟨[], []⟩ [])).1 = .values [i32Value 7] ∧
    callRefSite (ClosedModule.program mod) 0 0 [defaultValue (.typeRefNull 0)] =
      .error (.trap "null function reference") := by
  have hm : unsetLocalModule.Validated (unsetLocalModule.load.get (by decide)) :=
    ⟨⟨⟨_, by decide, rfl⟩, by decide, by decide⟩, by decide, by simp⟩
  exact ⟨_, hm, rfl, rfl⟩

end Waste.Exec
