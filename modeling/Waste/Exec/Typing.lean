import Waste.Exec.Integer
import Waste.Exec.Preserve
import Waste.Types.Subtyping

/-!
# Types at run time

What the types of the validator say about the values of a module without imports: a
value has a type below the one on the validator's stack, along the subtyping steps it
accepts.  The handlers of the module keep these types (`laws`), and a function that an
indirect call accepts takes its arguments and returns the expected results
(`funcLe_of_subtype`).
-/

namespace Waste.Exec

open Waste.Types Relation Bool List Option

variable {result : ValType} {value : Value}

/-! ## Types of values at run time -/

/-- One step of the subtyping of the validator, or an equality of types. -/
def TypeLe (T : TypeStore) (actual expected : ValType) : Prop :=
  acceptsType T 0 actual expected = true ∨
    ValRel (fun i j => TypeEquiv T ⟨0, i⟩ ⟨0, j⟩) actual expected

/-- The type a value has at run time is below the type of the validator. -/
def Below (T : TypeStore) : ValType → ValType → Prop := ReflTransGen (TypeLe T)

/-- What a type on the stack of the validator says about a value. -/
def Carries (T : TypeStore) (value : Value) : StackType → Prop
  | .bottom => False
  | .type type => Below T value.type type

section Numbers

variable {T : TypeStore} {a b : ValType}

theorem aggregateCompat_eq_false (hb : isReferenceType b = false) (e : Nat) :
    aggregateCompat T e a b = false := by
  unfold aggregateCompat
  split
  · rfl
  · split
    · rfl
    · cases b <;> simp [isReferenceType, aggregateBelow] at hb ⊢

theorem eq_of_acceptsType_of_number (hb : isReferenceType b = false)
    (h : acceptsType T 0 a b = true) : a = b := by
  have haggregate := aggregateCompat_eq_false (T := T) (a := a) hb 0
  cases b <;> simp only [isReferenceType, reduceCtorEq] at hb <;> cases a <;>
    simp_all [acceptsType, globalTypeIsCompat, sameValueType, sameValueTypeWith,
      nonnullBelowNullable, bottomBelowNullable, indexedCompat, builtinBelowEq, nullableCompat,
      ValType.index?]

theorem index?_of_number (ha : isReferenceType a = false) : a.index? = none := by
  cases a <;> simp [isReferenceType, ValType.index?] at ha ⊢

theorem TypeLe.eq_of_number (hb : isReferenceType b = false) (h : TypeLe T a b) : a = b := by
  rcases h with h | h
  · exact eq_of_acceptsType_of_number hb h
  · unfold ValRel at h
    rw [index?_of_number hb] at h
    split at h
    · simp_all
    · exact h

theorem Below.eq_of_number (hb : isReferenceType b = false) (h : Below T a b) : a = b := by
  induction h with
  | refl => rfl
  | tail _ hstep ih =>
    obtain rfl := hstep.eq_of_number hb
    exact ih hb

end Numbers

/-! ## The handlers keep the types -/

/-- The globals have their types, and every table has its elements. -/
structure ClosedModule.StoreOk (m : ClosedModule) (s : Store) : Prop where
  globals : s.globals.map (·.type) = m.globals.map (·.type)
  tables : s.tables.length = m.tables.length

/-- The only faults are traps of the instructions themselves. -/
def ClosedModule.meaning (m : ClosedModule) : Meaning Store Empty where
  Holds := Carries m.store
  Inv := m.StoreOk
  Raised x := x.elim
  Fine x := ∃ text, x = .trap text

section Handlers

variable {m : ClosedModule} {type : DefinedType} {func : FuncDecl}

theorem subsumes_context : m.meaning.Subsumes (m.context type func) := by
  intro value actual expected hholds haccepts
  cases actual with
  | bottom => exact hholds.elim
  | type actual => exact hholds.tail (.inl haccepts)

theorem type_eq_of_accepts {w : Width} {popped : List Value} {types : List StackType}
    (hpopped : Forall₂ (Carries m.store) popped types)
    (haccepts : types.all (acceptsStack m.store 0 · w.type) = true) :
    ∀ value ∈ popped, value.type = w.type := by
  have hnumber : isReferenceType w.type = false := by cases w <;> rfl
  induction hpopped with
  | nil => simp
  | @cons _ type _ _ hholds _ ih =>
    rw [all_cons, and_eq_true] at haccepts
    intro x hx
    rcases mem_cons.1 hx with rfl | hx
    · cases type with
      | bottom => exact hholds.elim
      | type _ =>
        have hbelow : Below m.store x.type w.type := hholds.tail (.inl haccepts.1)
        exact hbelow.eq_of_number hnumber
    · exact ih haccepts.2 x hx

theorem computeHandler_ok {pops : Nat} {w : Width} {missing : String}
    {f : List (BitVec w.bits) → Except Fault Value}
    (hf : ∀ operands, match f operands with
      | .ok value => value.type = result
      | .error x => ∃ text, x = .trap text) :
    PlainOk m.meaning (typedRule m.store 0 pops w.type [.type result])
      (computeHandler pops w missing f) := by
  refine ⟨rfl, fun popped types pushed hpopped hcheck hrefuse => ?_,
    fun popped types pushed s _ hpopped hcheck _ hs => ?_⟩
  · obtain ⟨haccepts, -⟩ := ite_none_right_eq_some.1 hcheck
    have htypes := type_eq_of_accepts hpopped haccepts
    have haccept : popped.all (·.type = w.type) = true := by simpa using htypes
    rw [show (computeHandler pops w missing f).accepts popped = true from haccept] at hrefuse
    simp at hrefuse
  · obtain ⟨-, hpushed⟩ := ite_none_right_eq_some.1 hcheck
    obtain rfl := some.inj hpushed
    have hvalue := hf (popped.map w.get)
    simp only [computeHandler]
    cases hcompute : f (popped.map w.get) with
    | ok _ =>
      rw [hcompute] at hvalue
      exact ⟨hs, .cons (hvalue ▸ .refl) .nil⟩
    | error x =>
      rw [hcompute] at hvalue
      exact hvalue

theorem BinOp.eval_error {n : Nat} {a b : BitVec n} {op : BinOp} {x : Fault}
    (h : op.eval a b = .error x) : ∃ text, x = .trap text := by
  cases op <;> simp only [eval, reduceCtorEq] at h
  all_goals split_ifs at h <;> exact ⟨_, (Except.error.inj h).symm⟩

theorem binaryHandler_bin_ok (w : Width) (op : BinOp) :
    PlainOk m.meaning (typedRule m.store 0 2 w.type [.type w.type])
      (binaryHandler w fun a b => (op.eval a b).map w.value) := by
  refine computeHandler_ok fun operands => ?_
  cases heval : op.eval (operands.getD 1 0) (operands.getD 0 0) with
  | ok _ =>
    simp only [heval]
    rfl
  | error x =>
    simp only [heval]
    exact op.eval_error heval

theorem dropHandler_ok :
    PlainOk m.meaning { pops := 1, check := fun _ => some [] } dropHandler := by
  refine ⟨rfl, fun _ _ _ _ _ h => ?_, fun popped types pushed s _ _ hcheck _ hs => ?_⟩
  · simp [dropHandler] at h
  · obtain rfl := some.inj hcheck
    exact ⟨hs, .nil⟩

theorem acceptsSelected_holds {actual : StackType} {selected : ValType}
    (hholds : Carries m.store value actual)
    (haccepts : acceptsSelected m.store 0 selected actual = true) :
    Carries m.store value (.type selected) := by
  cases actual with
  | bottom => exact hholds.elim
  | type actual =>
    have haccepts : globalTypeIsCompat m.store 0 actual 0 selected false = true := haccepts
    exact hholds.tail (.inl (by simp [acceptsType, haccepts]))

variable {selected : Option ValType}

/-- The two operands of a `select` hold the type it pushes. -/
theorem selectRule_holds {condition second first : StackType}
    {pushed : List StackType} {x y : Value} (hx : Carries m.store x first)
    (hy : Carries m.store y second)
    (hcheck : (selectRule m.store 0 selected).check [condition, second, first] = some pushed) :
    ∃ result, pushed = [result] ∧ Carries m.store x result ∧ Carries m.store y result := by
  obtain ⟨-, hcheck⟩ := ite_none_left_eq_some.1 hcheck
  cases selected with
  | some selected =>
    obtain ⟨haccepts, hpushed⟩ := ite_none_right_eq_some.1 hcheck
    rw [and_eq_true] at haccepts
    exact ⟨_, (some.inj hpushed).symm, acceptsSelected_holds hx haccepts.1,
      acceptsSelected_holds hy haccepts.2⟩
  | none =>
    obtain ⟨hsame, hcheck⟩ := ite_none_left_eq_some.1 hcheck
    cases first with
    | bottom => exact hx.elim
    | type actual =>
      cases second with
      | bottom => exact hy.elim
      | type actual' =>
        obtain rfl : actual = actual' := by simpa using hsame
        obtain ⟨-, hpushed⟩ := ite_none_left_eq_some.1 hcheck
        exact ⟨_, (some.inj hpushed).symm, hx, hy⟩

theorem selectHandler_ok :
    PlainOk m.meaning (selectRule m.store 0 selected) selectHandler := by
  refine ⟨rfl, fun _ _ _ _ _ h => ?_, fun popped types pushed s hlen hpopped hcheck _ hs => ?_⟩
  · simp [selectHandler] at h
  rw [hpopped.length_eq] at hlen
  obtain ⟨condition, second, first, rfl⟩ := length_eq_three.1 hlen
  obtain ⟨c, popped1, -, hpopped1, rfl⟩ := forall₂_cons_right_iff.1 hpopped
  obtain ⟨y, popped2, hy, hpopped2, rfl⟩ := forall₂_cons_right_iff.1 hpopped1
  obtain ⟨x, popped3, hx, hnil, rfl⟩ := forall₂_cons_right_iff.1 hpopped2
  obtain rfl := forall₂_nil_right_iff.1 hnil
  obtain ⟨result, rfl, hx, hy⟩ := selectRule_holds hx hy hcheck
  refine ⟨hs, .cons ?_ .nil⟩
  split
  · exact hx
  · exact hy

theorem globalGetHandler_ok {index : Nat} :
    PlainOk m.meaning ((Op.globalGet index).rule m.store 0 m.globals) (globalGetHandler index) := by
  refine ⟨rfl, fun _ _ _ _ _ h => ?_, fun popped types pushed s _ _ hcheck _ hs => ?_⟩
  · simp [globalGetHandler] at h
  obtain ⟨global, hget, rfl⟩ := map_eq_some_iff.1 hcheck
  have htype := congrArg (·[index]?) hs.globals
  simp only [getElem?_map, hget, map_some, map_eq_some_iff] at htype
  obtain ⟨value, hvalue, htype⟩ := htype
  simp only [globalGetHandler, hvalue]
  exact ⟨hs, .cons (htype ▸ .refl) .nil⟩

theorem globalSetHandler_ok {index : Nat} :
    PlainOk m.meaning ((Op.globalSet index).rule m.store 0 m.globals) (globalSetHandler index) := by
  refine ⟨rfl, fun _ _ _ _ _ h => ?_, fun popped types pushed s hlen hpopped hcheck _ hs => ?_⟩
  · simp [globalSetHandler] at h
  obtain ⟨-, rfl⟩ := length_eq_one_iff.1 hlen
  simp only [Op.rule] at hcheck
  split at hcheck
  · simp at hcheck
  rename_i global hget
  obtain ⟨-, hpushed⟩ := ite_none_right_eq_some.1 hcheck
  obtain rfl := some.inj hpushed
  have htype := congrArg (·[index]?) hs.globals
  simp only [getElem?_map, hget, map_some, map_eq_some_iff] at htype
  obtain ⟨old, hold, htype⟩ := htype
  simp only [globalSetHandler, hold]
  refine ⟨⟨?_, hs.tables⟩, .nil⟩
  rw [map_set, ← hs.globals]
  apply ext_getElem?
  intro i
  by_cases hi : index = i
  · subst hi
    rw [getElem?_set_self' , getElem?_map, hold]
    rfl
  · rw [getElem?_set_ne hi]

theorem plainOk_handler (op : Op) : PlainOk m.meaning (op.rule m.store 0 m.globals) op.handler := by
  cases op with
  | drop => exact dropHandler_ok
  | select selected => exact selectHandler_ok
  | globalGet index => exact globalGetHandler_ok
  | globalSet index => exact globalSetHandler_ok
  | const w _ =>
    refine ⟨rfl, fun _ _ _ _ _ h => ?_, fun popped types pushed s _ _ hcheck _ hs => ?_⟩
    · simp [Op.handler] at h
    · obtain rfl := some.inj hcheck
      exact ⟨hs, .cons .refl .nil⟩
  | eqz | rel | un =>
    unfold Op.rule Op.handler
    exact computeHandler_ok fun _ => rfl
  | bin w op => exact binaryHandler_bin_ok w op
  | i64Extend32 | i32WrapI64 =>
    unfold Op.rule Op.handler
    exact computeHandler_ok (w := .i64) fun _ => rfl
  | i64ExtendI32 _ =>
    unfold Op.rule Op.handler
    exact computeHandler_ok (w := .i32) fun _ => rfl

theorem slot_ok {table : Nat} {operand : ValType} {s : Store} {x : Fault}
    (hoperand : (m.context type func).tableOperand? table = some operand)
    (hholds : Carries m.store value (.type operand)) (hs : m.StoreOk s)
    (hslot : m.slot table value s = .error x) : ∃ text, x = .trap text := by
  simp only [ClosedModule.context] at hoperand
  split at hoperand
  · simp at hoperand
  rename_i tableType htable
  obtain ⟨-, hwidth⟩ := ite_none_right_eq_some.1 hoperand
  obtain rfl := some.inj hwidth
  have htype : value.type = tableType.width.type :=
    Below.eq_of_number (by cases tableType.width <;> rfl) hholds
  have hlt : table < s.tables.length := by
    rw [hs.tables]
    exact (List.getElem?_eq_some_iff.1 htable).1
  simp only [ClosedModule.slot, htable, getElem?_eq_getElem hlt, htype, ne_eq,
    not_true_eq_false, if_false] at hslot
  split at hslot
  · exact ⟨_, (Except.error.inj hslot).symm⟩
  · exact ⟨_, (Except.error.inj hslot).symm⟩
  · simp at hslot

/-- The handlers of the module keep what the rules of the validator say. -/
theorem laws : Laws m.meaning (m.context type func) m.handlers where
  subsumes := subsumes_context
  trap text := ⟨text, rfl⟩
  overflow x := x.elim
  caught _ _ x := x.elim
  plain := plainOk_handler
  ends op hends := absurd hends (by cases op <;> exact false_ne_true)
  branch op := op.elim
  slot _ _ _ _ _ hoperand hholds hs hslot := slot_ok hoperand hholds hs hslot

end Handlers

/-! ## Subtypes of function types -/

/-- A function of type `x` can stand where one of type `y` is expected. -/
structure FuncLe (T : TypeStore) (x y : DefinedType) : Prop where
  params : List.Forall₂ (Below T) y.params x.params
  results : List.Forall₂ (Below T) x.results y.results

section FuncSubtype

variable {T : TypeStore} {x y z : DefinedType}

theorem FuncLe.refl (x : DefinedType) : FuncLe T x x :=
  ⟨forall₂_same.2 fun _ _ => .refl, forall₂_same.2 fun _ _ => .refl⟩

theorem forall₂_below_trans {as bs cs : List ValType} (h : Forall₂ (Below T) as bs)
    (h' : Forall₂ (Below T) bs cs) : Forall₂ (Below T) as cs :=
  (forall₂_comp h h').imp fun _ _ ⟨_, hab, hbc⟩ => hab.trans hbc

theorem FuncLe.trans (h : FuncLe T x y) (h' : FuncLe T y z) : FuncLe T x z :=
  ⟨forall₂_below_trans h'.params h.params, forall₂_below_trans h.results h'.results⟩

theorem below_of_compat {a b : ValType} (h : globalTypeIsCompat T 0 a 0 b false = true) :
    Below T a b :=
  .single (.inl (by simp [acceptsType, h]))

theorem below_of_valRel {a b : ValType}
    (h : ValRel (RefRel (TypeEquiv T) 0 0 x y) a b) : Below T a b :=
  .single (.inr (h.imp fun _ _ _ _ href => href.2))

/-- What `func_type_is_subtype` accepts at a call. -/
theorem funcLe_of_subtype (hT : ∀ e, AcceptedTypes T e) {i j : Nat}
    (h : funcTypeIsSubtype T ⟨0, i⟩ ⟨0, j⟩ = true) (hx : (T 0)[i]? = some x)
    (hy : (T 0)[j]? = some y) : FuncLe T x y := by
  refine funcTypeIsSubtype_induction hT .refl (fun _ _ _ => .trans) ?_ ?_ h hx hy
  · intro x y hparams hresults
    exact ⟨(hparams.imp fun _ _ => below_of_compat).flip, hresults.imp fun _ _ => below_of_compat⟩
  · intro x y hparams hresults
    exact ⟨hparams.imp fun _ _ => below_of_valRel, hresults.imp fun _ _ => below_of_valRel⟩

end FuncSubtype

end Waste.Exec
