import Mathlib

/-!
# Value types and type sections

Value types, defined types and the comparisons on them from
`op/validate.c`, with the checks that `parse_types` of `wasm/load.c` makes
once a type section has been read.

`sameTypeIndexCtx` compares two recursive groups member by member and keeps
the pairs of groups that are being compared in a list.  The source bounds the
list by `WAST_MAX_TYPES` and refuses a comparison that would need more; this
bound is the recursion argument here.

A type index only has a meaning in an engine, and the comparisons also run
between the types of two engines.  `TypeStore` gives every engine its type
section.
-/

namespace Waste.Types

/-- `WAST_MAX_TYPES`, which is also `EXEC_MAX_TYPES`. -/
def wastMaxTypes : Nat := 512

/-- `wasm_valtype`.  The two families of numbers for indexed reference types,
from `WASM_VALTYPE_TYPE_REF_NULL_BASE` and `WASM_VALTYPE_TYPE_REF_BASE` on, are
`typeRefNull` and `typeRef`. -/
inductive ValType
  | i32 | i64 | f32 | f64 | v128
  | funcref | externref | funcrefNonnull | externrefNonnull
  | anyref | eqref | i31ref | structref | arrayref
  | anyrefNonnull | eqrefNonnull | i31refNonnull | structrefNonnull | arrayrefNonnull
  | exnref | exnrefNonnull
  | nullref | nullfuncref | nullexnref | nullexternref
  | typeRefNull (index : Nat)
  | typeRef (index : Nat)
deriving DecidableEq, Repr

/-- `WASM_VALTYPE_IS_TYPE_REF` with `WASM_VALTYPE_TYPE_REF_INDEX`. -/
def ValType.index? : ValType → Option Nat
  | .typeRefNull i => some i
  | .typeRef i => some i
  | _ => none

/-- Is an indexed reference type from `WASM_VALTYPE_TYPE_REF_BASE` on? -/
def ValType.indexedNonnull : ValType → Bool
  | .typeRef _ => true
  | _ => false

inductive TypeKind
  | func | struct | array
deriving DecidableEq, Repr

structure FieldType where
  type : ValType
  isMutable : Bool
  /-- `0` for a full value, `1` for `i8`, `2` for `i16`. -/
  packed : Nat
deriving DecidableEq, Repr

/-- `exec_func_type`: a defined type, whatever its kind. -/
structure DefinedType where
  kind : TypeKind
  params : List ValType := []
  results : List ValType := []
  fields : List FieldType := []
  supertype : Option Nat := none
  isFinal : Bool := true
  recGroupStart : Nat
  recGroupSize : Nat
deriving DecidableEq, Repr

abbrev TypeSection := List DefinedType

abbrev TypeStore := Nat → TypeSection

structure TypeAt where
  engine : Nat
  index : Nat
deriving DecidableEq, Repr

variable (T : TypeStore)

/-! ## Equality of defined types -/

/-- `exec_type_pair`: two groups that are being compared, each named by its
engine and its first index. -/
structure GroupPair where
  left : TypeAt
  right : TypeAt
deriving DecidableEq, Repr

/-- `rec_group_size` of the type at a place, `0` outside the section. -/
def groupSize (a : TypeAt) : Nat :=
  match (T a.engine)[a.index]? with
  | none => 0
  | some type => type.recGroupSize

/-- Does the index lie in the group that starts at `group`? -/
def inGroup (group a : TypeAt) : Bool :=
  a.engine = group.engine ∧ group.index ≤ a.index ∧ a.index < group.index + groupSize T group

/-- The verdict of the first pair of the list that has one of the two indices
in its group: both must be in their group, at the same position. -/
def intraVerdict : List GroupPair → TypeAt → TypeAt → Option Bool
  | [], _, _ => none
  | pair :: pairs, a, b =>
    if inGroup T pair.left a ∨ inGroup T pair.right b then
      some (inGroup T pair.left a ∧ inGroup T pair.right b ∧
        a.index - pair.left.index = b.index - pair.right.index)
    else intraVerdict pairs a b

/-- `same_value_type_ctx`, given the comparison of indices. -/
def sameValueTypeWith (sameIndex : TypeAt → TypeAt → Bool) (pairs : List GroupPair)
    (leftEngine : Nat) (left : ValType) (rightEngine : Nat) (right : ValType) : Bool :=
  match left.index?, right.index? with
  | some li, some ri =>
    if left.indexedNonnull ≠ right.indexedNonnull then false
    else
      match intraVerdict T pairs ⟨leftEngine, li⟩ ⟨rightEngine, ri⟩ with
      | some verdict => verdict
      | none =>
        if leftEngine = rightEngine ∧ li = ri then true
        else sameIndex ⟨leftEngine, li⟩ ⟨rightEngine, ri⟩
  | _, _ => left = right

/-- Same length, and the comparison holds position by position. -/
def allSame {α : Type} (same : α → α → Bool) : List α → List α → Bool
  | [], [] => true
  | a :: as, b :: bs => same a b && allSame same as bs
  | _, _ => false

/-- Both types have a supertype or neither has. -/
def sameSupertype (same : ValType → ValType → Bool) : Option Nat → Option Nat → Bool
  | some x, some y => same (.typeRef x) (.typeRef y)
  | none, none => true
  | _, _ => false

def sameComponents (same : ValType → ValType → Bool) (a b : DefinedType) : Bool :=
  match a.kind with
  | .func => allSame same a.params b.params && allSame same a.results b.results
  | _ => allSame (fun f g => f.isMutable = g.isMutable && f.packed = g.packed &&
      same f.type g.type) a.fields b.fields

/-- The comparison of two members of two groups. -/
def sameMember (same : ValType → ValType → Bool) (a b : DefinedType) : Bool :=
  a.kind = b.kind && a.isFinal = b.isFinal && sameSupertype same a.supertype b.supertype &&
    sameComponents same a b

/-- `same_type_index_ctx`; the recursion argument is the number of pairs that
still fit in the list. -/
def sameTypeIndexCtx : Nat → List GroupPair → TypeAt → TypeAt → Bool
  | room, pairs, a, b =>
    match (T a.engine)[a.index]?, (T b.engine)[b.index]? with
    | some left, some right =>
      if left.recGroupSize = 0 ∨ right.recGroupSize = 0 ∨
          left.recGroupStart + left.recGroupSize > (T a.engine).length ∨
          right.recGroupStart + right.recGroupSize > (T b.engine).length ∨
          left.recGroupSize ≠ right.recGroupSize ∨
          a.index - left.recGroupStart ≠ b.index - right.recGroupStart then false
      else
        let pair : GroupPair := ⟨⟨a.engine, left.recGroupStart⟩, ⟨b.engine, right.recGroupStart⟩⟩
        if pair ∈ pairs ∨ ⟨pair.right, pair.left⟩ ∈ pairs then true
        else
          match room with
          | 0 => false
          | room + 1 =>
            (List.range left.recGroupSize).all fun member =>
              match (T a.engine)[left.recGroupStart + member]?,
                  (T b.engine)[right.recGroupStart + member]? with
              | some x, some y =>
                sameMember (fun l r =>
                  sameValueTypeWith T (sameTypeIndexCtx room (pairs ++ [pair])) (pairs ++ [pair])
                    a.engine l b.engine r) x y
              | _, _ => false
    | _, _ => false

/-- `same_type_index_ctx` with an empty list. -/
def sameTypeIndex (a b : TypeAt) : Bool := sameTypeIndexCtx T wastMaxTypes [] a b

def sameValueType (leftEngine : Nat) (left : ValType) (rightEngine : Nat) (right : ValType) :
    Bool :=
  sameValueTypeWith T (sameTypeIndex T) [] leftEngine left rightEngine right

/-! ## Subtyping -/

/-- The walk of `type_index_is_subtype` up the declared supertypes; the
recursion argument counts the steps that are left. -/
def subtypeWalk (required : TypeAt) : Nat → TypeAt → Bool
  | 0, _ => false
  | steps + 1, current =>
    if sameTypeIndex T current required then true
    else
      match (T current.engine)[current.index]? with
      | none => false
      | some type =>
        match type.supertype with
        | none => false
        | some parent =>
          if parent ≥ (T current.engine).length ∨ parent = current.index then false
          else subtypeWalk required steps ⟨current.engine, parent⟩

def typeIndexIsSubtype (actual required : TypeAt) : Bool :=
  if actual.index ≥ (T actual.engine).length ∨ required.index ≥ (T required.engine).length then
    false
  else subtypeWalk T required ((T actual.engine).length + 1) actual

def kindAt (a : TypeAt) : Option TypeKind := (T a.engine)[a.index]?.map (·.kind)

def funcTypeIsSubtype (actual required : TypeAt) : Bool :=
  kindAt T actual = some .func && kindAt T required = some .func &&
    typeIndexIsSubtype T actual required

/-- Non-null builtins are below their nullable counterparts. -/
def nonnullBelowNullable : ValType → ValType → Bool
  | .funcrefNonnull, .funcref => true
  | .externrefNonnull, .externref => true
  | .anyrefNonnull, .anyref => true
  | .eqrefNonnull, .eqref => true
  | .i31refNonnull, .i31ref => true
  | .structrefNonnull, .structref => true
  | .arrayrefNonnull, .arrayref => true
  | .exnrefNonnull, .exnref => true
  | _, _ => false

/-- Bottom types are below the nullable builtins of their hierarchy. -/
def bottomBelowNullable : ValType → ValType → Bool
  | .nullfuncref, .funcref => true
  | .nullexternref, .externref => true
  | .nullexnref, .exnref => true
  | .nullref, .anyref => true
  | .nullref, .eqref => true
  | .nullref, .i31ref => true
  | .nullref, .structref => true
  | .nullref, .arrayref => true
  | _, _ => false

/-- Struct and array types are below the builtins of their hierarchy. -/
def aggregateBelow (kind : TypeKind) (nonnull : Bool) : ValType → Bool
  | .arrayref => kind = .array
  | .arrayrefNonnull => kind = .array && nonnull
  | .structref => kind = .struct
  | .structrefNonnull => kind = .struct && nonnull
  | .eqref | .anyref => kind ≠ .func
  | .eqrefNonnull | .anyrefNonnull => kind ≠ .func && nonnull
  | _ => false

/-- `i31ref`, `structref` and `arrayref` are below `eqref` and `anyref`. -/
def builtinBelowEq : ValType → ValType → Bool
  | .i31ref, .eqref | .i31ref, .anyref => true
  | .i31refNonnull, .eqref | .i31refNonnull, .anyref | .i31refNonnull, .i31refNonnull
  | .i31refNonnull, .eqrefNonnull | .i31refNonnull, .anyrefNonnull => true
  | .structref, .eqref | .structref, .anyref => true
  | .structrefNonnull, .eqref | .structrefNonnull, .anyref
  | .structrefNonnull, .eqrefNonnull | .structrefNonnull, .anyrefNonnull => true
  | .arrayref, .eqref | .arrayref, .anyref => true
  | .arrayrefNonnull, .eqref | .arrayrefNonnull, .anyref
  | .arrayrefNonnull, .eqrefNonnull | .arrayrefNonnull, .anyrefNonnull => true
  | _, _ => false

/-- The branch for an indexed struct or array type below a builtin. -/
def aggregateCompat (actualEngine : Nat) (actual required : ValType) : Bool :=
  match actual.index? with
  | none => false
  | some i =>
    match (T actualEngine)[i]? with
    | none => false
    | some heap => aggregateBelow heap.kind actual.indexedNonnull required

/-- The branch for two indexed types. -/
def indexedCompat (actualEngine : Nat) (actual : ValType) (requiredEngine : Nat)
    (required : ValType) : Bool :=
  match actual.index?, required.index? with
  | some i, some j =>
    (!required.indexedNonnull || actual.indexedNonnull) &&
      typeIndexIsSubtype T ⟨actualEngine, i⟩ ⟨requiredEngine, j⟩
  | _, _ => false

/-- The last branch: a non-null indexed type against the nullable type of an
equal index. -/
def nullableCompat (actualEngine : Nat) (actual : ValType) (requiredEngine : Nat)
    (required : ValType) : Bool :=
  match actual, required with
  | .typeRef i, .typeRefNull j =>
    sameValueType T actualEngine (.typeRefNull i) requiredEngine (.typeRefNull j)
  | _, _ => false

/-- `global_type_is_compat`.  The branches between two builtins are grouped, the
others stand in the order of the source; a branch that returns ends the
chain. -/
def globalTypeIsCompat (actualEngine : Nat) (actual : ValType) (requiredEngine : Nat)
    (required : ValType) (mutable_ : Bool) : Bool :=
  if mutable_ then sameValueType T actualEngine actual requiredEngine required
  else if sameValueType T actualEngine actual requiredEngine required then true
  else if nonnullBelowNullable actual required then true
  else if bottomBelowNullable actual required then true
  else if actual = .nullfuncref ∧ required.index?.isSome then
    required.index?.any (· < (T requiredEngine).length)
  else if indexedCompat T actualEngine actual requiredEngine required then true
  else if aggregateCompat T actualEngine actual required then true
  else if builtinBelowEq actual required then true
  else if actual.index?.isSome ∧ required = .funcref then true
  else if actual.index?.isSome ∧ required = .funcrefNonnull then actual.indexedNonnull
  else nullableCompat T actualEngine actual requiredEngine required

/-! ## Accepting a type section -/

def fieldIsSubtype (engine : Nat) (sub super : FieldType) : Bool :=
  sub.isMutable = super.isMutable && sub.packed = super.packed &&
    (if sub.isMutable then sameValueType T engine sub.type engine super.type
      else globalTypeIsCompat T engine sub.type engine super.type false)

/-- Position by position, up to the length of the second list. -/
def coversFields (le : FieldType → FieldType → Bool) : List FieldType → List FieldType → Bool
  | _, [] => true
  | f :: fs, g :: gs => le f g && coversFields le fs gs
  | [], _ :: _ => false

def validateDeclaredSubtype (engine : Nat) (index : Nat) (sub : DefinedType) : Bool :=
  match sub.supertype with
  | none => true
  | some superIndex =>
    if superIndex ≥ (T engine).length ∨ superIndex = index then false
    else
      match (T engine)[superIndex]? with
      | none => false
      | some super =>
        if super.isFinal ∨ sub.kind ≠ super.kind then false
        else
          match sub.kind with
          | .func =>
            allSame (fun p q => globalTypeIsCompat T engine q engine p false)
              sub.params super.params &&
            allSame (fun p q => globalTypeIsCompat T engine p engine q false)
              sub.results super.results
          | .struct => coversFields (fieldIsSubtype T engine) sub.fields super.fields
          | .array =>
            match sub.fields, super.fields with
            | f :: _, g :: _ => fieldIsSubtype T engine f g
            | _, _ => false

def typeReferenceInScope (type : DefinedType) (value : ValType) (total : Nat) : Bool :=
  match value.index? with
  | none => true
  | some target => target < total && target < type.recGroupStart + type.recGroupSize

/-- The second loop of `parse_types`. -/
def checkTypes (engine : Nat) : Bool :=
  (List.range (T engine).length).all fun i =>
    match (T engine)[i]? with
    | none => false
    | some type =>
      type.params.all (typeReferenceInScope type · (T engine).length) &&
        type.results.all (typeReferenceInScope type · (T engine).length) &&
        type.fields.all (fun f => typeReferenceInScope type f.type (T engine).length) &&
        validateDeclaredSubtype T engine i type

/-- A composite type as the first loop of `parse_types` reads it, before it
knows its group. -/
structure CompositeType where
  kind : TypeKind
  params : List ValType := []
  results : List ValType := []
  fields : List FieldType := []
  supertype : Option Nat := none
  isFinal : Bool := true
deriving DecidableEq, Repr

def CompositeType.inGroupOf (type : CompositeType) (start size : Nat) : DefinedType :=
  { kind := type.kind, params := type.params, results := type.results, fields := type.fields,
    supertype := type.supertype, isFinal := type.isFinal,
    recGroupStart := start, recGroupSize := size }

/-- The first loop of `parse_types`: number the types and tell every type its
group. -/
def layoutGroups : Nat → List (List CompositeType) → TypeSection
  | _, [] => []
  | start, group :: groups =>
    group.map (·.inGroupOf start group.length) ++ layoutGroups (start + group.length) groups

/-- A type section that `parse_types` accepts: it comes from a list of groups
that are not empty, has at most `EXEC_MAX_TYPES` types, and passes the checks.
-/
structure AcceptedTypes (engine : Nat) : Prop where
  groups : ∃ groups : List (List CompositeType),
    (∀ group ∈ groups, group ≠ []) ∧ T engine = layoutGroups 0 groups
  bound : (T engine).length ≤ wastMaxTypes
  checked : checkTypes T engine = true

end Waste.Types
