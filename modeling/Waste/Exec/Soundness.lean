import Waste.Exec.Typing

/-!
# Soundness of the validator

For a module without imports the states of the validator describe every run: before
each instruction the operands have the types of the validator's stack, up to the
subtyping it accepts, and the control stack has its blocks, with their heights and
arities (`runsAsValidated`).  No handler then misses an operand, and a call that
returns has its declared results.
-/

namespace Waste.Exec

open Waste.Types Bool List Option

variable {code : List (ExecInstr Op Empty)} {results' : List ValType} {controls : List Control}
  {C : Context Op Empty}

namespace ClosedModule

/-- A module whose types and function bodies are accepted, and what is loaded for it. -/
structure Validated (m : ClosedModule) (mod : Module Op Empty) : Prop where
  types : AcceptedTypes m.store 0
  funcs : ∀ func ∈ m.funcs, m.validateFunction func = true
  load : m.load = some mod

/-- The buffer of `stack_carry` and of `end` holds the results and the block parameters of the
module.  The loader refuses a type with more results; nothing refuses a `loop` with more
parameters. -/
structure Buffered (m : ClosedModule) : Prop where
  results : ∀ type ∈ m.types, type.results.length ≤ wastMaxResults
  params : ∀ func ∈ m.funcs, ∀ instr ∈ func.instrs, ∀ sig ∈ instr.signature? m.types,
    sig.1.length ≤ wastMaxResults

/-- A function of the module, with its type and the code that is loaded for it. -/
structure Defined (m : ClosedModule) (mod : Module Op Empty) (func : Nat) (decl : FuncDecl)
    (type : DefinedType) (body : Func Op Empty) : Prop where
  decl_eq : m.funcs[func]? = some decl
  type_eq : m.types[decl.typeIndex]? = some type
  body_eq : mod.defined? func = some body
  load : m.loadFunc decl = some body

variable {m : ClosedModule} {mod : Module Op Empty} {func : Nat} {decl : FuncDecl}
  {type : DefinedType} {body : Func Op Empty}

/-! ## Modules -/

theorem accepted_store (h : AcceptedTypes m.store 0) (e : Nat) : AcceptedTypes m.store e := by
  cases e with
  | zero => exact h
  | succ e => exact ⟨⟨[], by simp, rfl⟩, Nat.zero_le _, rfl⟩

variable (hm : m.Validated mod)
include hm

theorem Validated.eq : ∃ funcs, mod = { types := m.types, imports := [], funcs := funcs } ∧
      Forall₂ (fun decl body => m.loadFunc decl = some body) m.funcs funcs := by
  obtain ⟨funcs, hfuncs, rfl⟩ := map_eq_some_iff.1 hm.load
  exact ⟨funcs, rfl, forall₂_of_mapM hfuncs⟩

theorem Validated.typeIndex?_eq (func : Nat) :
    mod.typeIndex? func = m.funcs[func]?.map (·.typeIndex) := by
  obtain ⟨funcs, rfl, hfuncs⟩ := hm.eq
  have hindices : m.funcs.map (·.typeIndex) = funcs.map (·.typeIndex) := by
    rw [← forall₂_eq_eq_eq, forall₂_map_left_iff, forall₂_map_right_iff]
    refine hfuncs.imp fun decl body hload => ?_
    obtain ⟨-, -, rfl⟩ := map_eq_some_iff.1 hload
    rfl
  have hindex := congrArg (·[func]?) hindices
  simpa [Module.typeIndex?] using hindex.symm

/-- The interpreter sees the types and the functions that the validator sees. -/
theorem Validated.linked : Linked (m.context type decl) (program mod) := by
  refine ⟨?_, fun func => (hm.typeIndex?_eq func).symm⟩
  obtain ⟨-, rfl, -⟩ := hm.eq
  funext engine
  cases engine <;> rfl

theorem Validated.exists_defined {index : Nat} (hindex : mod.typeIndex? func = some index) :
    ∃ decl type body, m.Defined mod func decl type body ∧ decl.typeIndex = index := by
  rw [hm.typeIndex?_eq, map_eq_some_iff] at hindex
  obtain ⟨decl, hdecl, rfl⟩ := hindex
  obtain ⟨funcs, rfl, hfuncs⟩ := hm.eq
  obtain ⟨body, hbody, hload⟩ := forall₂_getElem? hfuncs hdecl
  have hvalid := hm.funcs decl (mem_of_getElem? hdecl)
  unfold validateFunction at hvalid
  split at hvalid
  · simp at hvalid
  · rename_i type htype
    exact ⟨decl, type, body, ⟨hdecl, htype, by simpa [Module.defined?] using hbody, hload⟩, rfl⟩

theorem Validated.types_eq : mod.types = m.types := by
  obtain ⟨-, rfl, -⟩ := hm.eq
  rfl

theorem Validated.imports_eq : mod.imports = [] := by
  obtain ⟨-, rfl, -⟩ := hm.eq
  rfl

theorem Defined.resultCount (h : m.Defined mod func decl type body) :
    mod.resultCount func = type.results.length := by
  simp [Module.resultCount, Module.funcType?, hm.typeIndex?_eq, h.decl_eq, hm.types_eq, h.type_eq]

theorem Defined.exists_accepted (h : m.Defined mod func decl type body) :
    body.typeIndex = decl.typeIndex ∧ body.locals = decl.locals ∧
      ∃ A : Accepted (m.context type decl) body.code, A.body.instrs = decl.instrs := by
  have hvalid := hm.funcs decl (mem_of_getElem? h.decl_eq)
  simp only [validateFunction, h.type_eq] at hvalid
  obtain ⟨code, hparse, hbody⟩ := map_eq_some_iff.1 h.load
  obtain rfl := hbody
  exact ⟨rfl, rfl, exists_accepted hvalid hparse⟩

/-! ## The invariant of a run -/

/-- A frame of a function is as the validator says. -/
def Running (m : ClosedModule) (mod : Module Op Empty) (func : Nat) (type : DefinedType)
    (fr : Frame) : Prop :=
  ∃ decl body, m.Defined mod func decl type body ∧
    ∃ A : Accepted (m.context type decl) body.code, A.body.instrs = decl.instrs ∧
      FrameOk m.meaning A fr

def Typed (m : ClosedModule) (values : List Value) (types : List ValType) : Prop :=
  List.Forall₂ (fun value type => Below m.store value.type type) values types

/-- Before every instruction of a run its frame was as the validator says. -/
def TraceOk (m : ClosedModule) (mod : Module Op Empty) (st : State Store) : Prop :=
  ∀ engine func fr, .instr engine func fr ∈ st.trace → ∃ type, m.Running mod func type fr

/-- No yield happens and no frame waits. -/
structure StateOk (m : ClosedModule) (mod : Module Op Empty) (st : State Store) : Prop where
  shared : m.StoreOk st.shared
  oracle : st.oracle = []
  saved : ∀ engine depth, st.saved engine depth = none
  trace : m.TraceOk mod st

/-- The work of an activation of a function of a type. -/
def JobOk (m : ClosedModule) (mod : Module Op Empty) (type : DefinedType) : Job → Prop
  | .invoke engine func args | .enter engine _ func args =>
    engine = 0 ∧ (∃ decl body, m.Defined mod func decl type body) ∧ m.Typed args type.params
  | .loop engine _ func fr => engine = 0 ∧ m.Running mod func type fr

/-- How an activation may end. -/
def CompletionOk (m : ClosedModule) (results : List ValType) : Completion Empty → Prop
  | .values values => m.Typed values results
  | .fault x => ∃ text, x = .trap text
  | .outOfFuel => True
  | _ => False

/-- What holds after an activation; its caller goes on only with values. -/
structure ResultOk (m : ClosedModule) (mod : Module Op Empty) (results : List ValType)
    (result : Completion Empty × State Store) : Prop where
  completion : m.CompletionOk results result.1
  trace : m.TraceOk mod result.2
  state : ∀ values, result.1 = .values values → m.StateOk mod result.2

omit hm in
theorem Typed.below {values : List Value} {types types' : List ValType} (h : m.Typed values types)
    (hle : Forall₂ (Below m.store) types types') : m.Typed values types' := by
  have hmap : Forall₂ (Below m.store) (values.map (·.type)) types :=
    forall₂_map_left_iff.2 h
  exact forall₂_map_left_iff.1 (forall₂_below_trans hmap hle)

variable {results : List ValType} {args : List Value} {fr : Frame} {v : ValidState}
  {st : State Store} {s : Store}

omit hm in
theorem CompletionOk.below {answer : Completion Empty}
    (h : m.CompletionOk results answer) (hle : Forall₂ (Below m.store) results results') :
    m.CompletionOk results' answer := by
  cases answer with
  | values values => exact Typed.below h hle
  | fault x => exact h
  | outOfFuel => trivial
  | throw x => exact x.elim
  | status | yield => exact h.elim

/-! ## Steps -/

/-- A fresh activation is as the validator says before the first instruction. -/
theorem Defined.fresh (h : m.Defined mod func decl type body) (hargs : m.Typed args type.params) :
    m.Running mod func type (freshFrame body args) := by
  obtain ⟨-, hlocals, A, hA⟩ := h.exists_accepted hm
  have htyped : Forall₂ (fun value type => m.meaning.Holds value (.type type))
      (freshFrame body args).locals (type.params ++ decl.locals) := by
    refine rel_append hargs ?_
    rw [hlocals, forall₂_map_left_iff]
    exact forall₂_same.2 fun _ _ => .refl
  exact ⟨decl, body, h, A, hA, frameOk_start htyped⟩

theorem Defined.checkEntry (h : m.Defined mod func decl type body)
    (hargs : m.Typed args type.params) : checkEntry (program mod 0) body args = .ok () := by
  obtain ⟨hindex, hlocals, A, -⟩ := h.exists_accepted hm
  have hle : type.params.length + decl.locals.length ≤ execMaxLocals := A.locals_le
  have htype : (program mod 0).types[body.typeIndex]? = some type := by
    rw [hindex, show (program mod 0).types = m.types from hm.types_eq, h.type_eq]
  have hlen : args.length = type.params.length := hargs.length_eq
  unfold Exec.checkEntry
  simp only [htype, hlen, hlocals, ne_eq, not_true_eq_false, if_false]
  rw [if_neg (by omega)]

theorem finish_ok (h : m.Defined mod func decl type body)
    (hreturn : ReturnOk m.meaning (m.context type decl) fr) :
    m.CompletionOk type.results (finish (program mod 0) func fr) := by
  obtain ⟨results, rest, hops, hresults⟩ := hreturn
  have hlen : results.length = type.results.length := by
    rw [hresults.length_eq, length_onStack]
    rfl
  have hcollect : collectResults ((program mod 0).resultCount func) fr = .ok results.reverse := by
    unfold collectResults
    rw [show (program mod 0).resultCount func = type.results.length from h.resultCount hm, hops,
      if_neg (by rw [length_append]; omega), ← hlen, take_left]
  unfold finish
  rw [hcollect]
  rw [onStack, forall₂_map_right_iff, ← forall₂_reverse_iff, reverse_reverse] at hresults
  exact hresults

omit hm in
theorem engine_of_slot {table : Nat} {value : Value} {engine : Nat}
    (h : m.slot table value s = .ok (engine, func)) : engine = 0 := by
  unfold slot at h
  split at h
  · split at h
    · simp at h
    · split at h
      · simp at h
      · simp at h
      · exact (congrArg Prod.fst (Except.ok.inj h)).symm
  · simp at h

variable {A : Accepted (m.context type decl) body.code}

/-- The function of a call accepts the arguments and has the results the caller
expects. -/
theorem Validated.callee {engine : Nat} {index : Nat}
    {params : List ValType}
    (h : SiteOk m.meaning A m.handlers (program mod) engine func args fr index params results v) :
    engine = 0 ∧ ∃ type', (∃ decl' body', m.Defined mod func decl' type' body') ∧
      m.Typed args type'.params ∧ Forall₂ (Below m.store) type'.results results := by
  obtain ⟨actual, htarget⟩ := h.target
  have hengine : engine = 0 := by
    rcases htarget.owner with howner | ⟨table, value, s, hslot⟩
    · exact howner
    · exact engine_of_slot hslot
  subst hengine
  obtain ⟨decl', type', body', hdefined, rfl⟩ := hm.exists_defined htarget.typeIndex
  obtain ⟨expected, hexpected, hsignature⟩ := map_eq_some_iff.1 h.signature
  obtain ⟨rfl, rfl⟩ := Prod.mk.inj hsignature
  have hle : FuncLe m.store type' expected := by
    rcases htarget.subtype with ⟨-, hsame⟩ | hsubtype
    · rw [← hsame] at hexpected
      obtain rfl := some.inj (hdefined.type_eq.symm.trans hexpected)
      exact .refl _
    · exact funcLe_of_subtype (accepted_store hm.types) hsubtype hdefined.type_eq hexpected
  exact ⟨rfl, type', ⟨decl', body', hdefined⟩, .below h.args hle.params, hle.results⟩

theorem proceed_ok (h : m.Defined mod func decl type body) (hA : A.body.instrs = decl.instrs)
    {k : Frame → State Store → Completion Empty × State Store}
    (hk : ∀ fr st, m.Running mod func type fr → m.StateOk mod st →
      m.ResultOk mod type.results (k fr st)) (hst : m.StateOk mod st) {move : Move Store Empty}
    (hmove : MoveOk m.meaning A move) :
    m.ResultOk mod type.results (proceed (program mod 0) func k st move) := by
  cases move with
  | next fr s => exact hk fr _ ⟨decl, body, h, A, hA, hmove.1⟩ { hst with shared := hmove.2 }
  | return_ fr s => exact ⟨finish_ok hm h hmove.1, hst.trace,
    fun _ _ => { hst with shared := hmove.2 }⟩
  | fault x s => exact ⟨hmove, hst.trace, fun _ hvalues => by simp [proceed] at hvalues⟩
  | throw x s => exact x.elim

omit hm in
/-- A result of an activation is one for larger result types. -/
theorem ResultOk.below {result : Completion Empty × State Store}
    (h : m.ResultOk mod results result) (hle : Forall₂ (Below m.store) results results') :
    m.ResultOk mod results' result :=
  ⟨h.completion.below hle, h.trace, h.state⟩

variable (host : Nat → Nat → List Value → Store → HostReply Store Empty)

section

variable {n depth : Nat} (ih : ∀ job type st, m.JobOk mod type job → m.StateOk mod st →
  m.ResultOk mod type.results (exec m.handlers (program mod) host n job st))
  (hst : m.StateOk mod st)

include ih hst

theorem enter_ok (hjob : m.JobOk mod type (.enter 0 depth func args)) :
    m.ResultOk mod type.results
      (exec m.handlers (program mod) host (n + 1) (.enter 0 depth func args) st) := by
  obtain ⟨-, ⟨decl, body, hdefined⟩, hargs⟩ := hjob
  have himports : (program mod 0).imports.length = 0 := by
    rw [show (program mod 0).imports = [] from hm.imports_eq, length_nil]
  have hbody : (program mod 0).defined? func = some body := hdefined.body_eq
  unfold exec
  rw [himports, if_neg (Nat.not_lt_zero _), hbody, hst.saved]
  simp only [hdefined.checkEntry hm hargs]
  refine ih _ type _ ⟨rfl, hdefined.fresh hm hargs⟩ { hst with trace := ?_ }
  intro engine func fr hmem
  rcases mem_append.1 hmem with hmem | hmem
  · exact hst.trace engine func fr hmem
  · simp at hmem

theorem loop_ok (hrun : m.Running mod func type fr) : m.ResultOk mod type.results
      (exec m.handlers (program mod) host (n + 1) (.loop 0 depth func fr) st) := by
  obtain ⟨decl, body, hdefined, A, hA, hframe⟩ := id hrun
  have hbody : (program mod 0).defined? func = some body := hdefined.body_eq
  obtain ⟨v, hstate, -⟩ := id hframe
  obtain ⟨instr, hinstr⟩ := A.exists_instr hstate
  have hdecision : st.decision = false := by
    unfold State.decision
    rw [hst.oracle]
    rfl
  have hst' : m.StateOk mod (st.decided.emit (.instr 0 func fr)) := by
    refine ⟨hst.shared, ?_, hst.saved, fun engine func' fr' hmem => ?_⟩
    · show st.oracle.tail = []
      rw [hst.oracle]
      rfl
    · rcases mem_append.1 hmem with hmem | hmem
      · exact hst.trace engine func' fr' hmem
      · obtain ⟨-, rfl, rfl⟩ : engine = 0 ∧ func' = func ∧ fr' = fr := by simpa using hmem
        exact ⟨type, hrun⟩
  have hcontinue : ∀ fr st, m.Running mod func type fr → m.StateOk mod st →
      m.ResultOk mod type.results
        (exec m.handlers (program mod) host n (.loop 0 depth func fr) st) :=
    fun fr st hfr hst => ih _ type st ⟨rfl, hfr⟩ hst
  have hresults : (program mod 0).resultCount func = type.results.length := hdefined.resultCount hm
  have haction : ActionOk m.meaning A m.handlers (program mod)
      (dispatch m.handlers (program mod) 0 type.results.length instr fr
        (st.decided.emit (.instr 0 func fr)).shared) :=
    dispatch_ok laws hm.linked hst'.shared hframe hinstr
  unfold exec
  simp only [hbody, hinstr, hdecision, false_eq_true, if_false, hresults]
  generalize dispatch m.handlers (program mod) 0 type.results.length instr fr
    (st.decided.emit (.instr 0 func fr)).shared = action at haction ⊢
  cases action with
  | move move => exact proceed_ok hm hdefined hA hcontinue hst' haction
  | call engine func' args fr' =>
    obtain ⟨index, params, results, v, hsite, v', hpush, hstate'⟩ := haction
    obtain ⟨rfl, type', hdefined', hargs, hle⟩ := hm.callee hsite
    have hresult := ih (.invoke 0 func' args) type' _ ⟨rfl, hdefined', hargs⟩ hst'
    simp only
    generalize exec m.handlers (program mod) host n (.invoke 0 func' args) _ = result at hresult
    obtain ⟨answer, st''⟩ := result
    cases answer with
    | values values =>
      obtain ⟨operands, hpushed, hnext⟩ :=
        hsite.returned hpush hstate' (Typed.below hresult.completion hle)
      simp only [handleCallResult, hpushed]
      have hst'' := hresult.state values rfl
      exact proceed_ok hm hdefined hA hcontinue hst'' (show MoveOk _ A _ from ⟨hnext, hst''.shared⟩)
    | fault x =>
      exact ⟨hresult.completion, hresult.trace, fun _ hvalues => by
        simp [handleCallResult] at hvalues⟩
    | outOfFuel =>
      exact ⟨trivial, hresult.trace, fun _ hvalues => by simp [handleCallResult] at hvalues⟩
    | throw x => exact x.elim
    | status | yield => exact hresult.completion.elim
  | tail engine func' args fr' =>
    obtain ⟨index, params, results, v, hsite, hcompat⟩ := haction
    obtain ⟨rfl, type', hdefined', hargs, hle⟩ := hm.callee hsite
    have hresult := (ih (.enter 0 depth func' args) type' _ ⟨rfl, hdefined', hargs⟩ hst').below
      (forall₂_below_trans hle ((allSame_iff.1 hcompat).imp fun _ _ => below_of_compat))
    simp only [if_true]
    generalize exec m.handlers (program mod) host n (.enter 0 depth func' args) _ = result
      at hresult
    obtain ⟨answer, st''⟩ := result
    cases answer with
    | yield | status => exact hresult.completion.elim
    | values | fault | outOfFuel => exact hresult
    | throw x => exact x.elim

end

/-- Every run keeps the invariant. -/
theorem exec_ok (n : Nat) (job : Job) (type : DefinedType) (st : State Store)
    (hjob : m.JobOk mod type job) (hst : m.StateOk mod st) :
    m.ResultOk mod type.results (exec m.handlers (program mod) host n job st) := by
  induction n generalizing job type st with
  | zero => exact ⟨trivial, hst.trace, fun _ hvalues => by simp [exec] at hvalues⟩
  | succ n ih =>
    cases job with
    | invoke engine func args =>
      obtain ⟨rfl, hdefined, hargs⟩ := hjob
      unfold exec
      simp only
      split
      · exact ⟨⟨_, rfl⟩, hst.trace, fun _ hvalues => by simp at hvalues⟩
      · have hresult := ih (.enter 0 (st.active 0) func args) type
          (st.setActive 0 (st.active 0 + 1)) ⟨rfl, hdefined, hargs⟩ { hst with }
        exact ⟨hresult.completion, hresult.trace,
          fun values hvalues => { hresult.state values hvalues with }⟩
    | enter engine depth func args =>
      obtain ⟨rfl, -⟩ := id hjob
      exact enter_ok hm host ih hst hjob
    | loop engine depth func _ =>
      obtain ⟨rfl, hrun⟩ := hjob
      exact loop_ok hm host ih hst hrun

omit hm

/-! ## Runs -/

/-- The control stack of a frame has the blocks of the validator: as many, and each
with its height and the arities of its label and of its `end`. -/
def ControlsAgree (controls : List Control) (blocks : List BlockControl) : Prop :=
  List.Forall₂ (fun control block => control.kind = block.kind ∧
    control.stackHeight = block.height ∧
    control.branchArity = (if block.kind = .loop then block.params else block.results).length ∧
    control.endArity = block.results.length) controls blocks

/-- A frame before the instruction at its `pc`, against the state of the validator
there.  At an `end` that closes an `if`, where a jump can lead, the operands may instead be the
results of the block and what was below it; only there the height can be another one,
when the branch before the `end` has no way to it. -/
def RunsAsValidated (m : ClosedModule) (func : Nat) (fr : Frame) : Prop :=
  ∃ decl type v, m.funcs[func]? = some decl ∧ m.types[decl.typeIndex]? = some type ∧
    stateAt (m.context type decl) decl.instrs fr.pc = some v ∧
    ControlsAgree fr.controls v.blocks ∧
    (v.unreachable = false ∧ List.Forall₂ (Carries m.store) fr.operands v.stack ∨
      ∃ block outer, decl.instrs[fr.pc]? = some .end_ ∧ v.blocks = block :: outer ∧
        block.kind = .if_ ∧ (v.unreachable = false → fr.operands.length = v.stack.length) ∧
        List.Forall₂ (Carries m.store) fr.operands
          (onStack block.results ++ below block.height v.stack))

variable {A : Accepted C code}

theorem controlsAgree_of_labels {blocks : List BlockControl}
    (h : Forall₂ (ControlOk A) controls (labelsOf v blocks)) : ControlsAgree controls blocks := by
  induction blocks generalizing controls with
  | nil =>
    obtain rfl := forall₂_nil_right_iff.1 h
    exact .nil
  | cons _ _ ih =>
    obtain ⟨control, rest, hcontrol, hrest, rfl⟩ := forall₂_cons_right_iff.1 h
    exact .cons ⟨hcontrol.kind, hcontrol.height, hcontrol.branchArity, hcontrol.endArity⟩ (ih hrest)

/-- The height of the operands at an `end`. -/
theorem length_operands_of_atEnd {control : Control} {label : Label}
    {outer : List Label} (hstate : A.state fr.pc = some v) (hr : v.unreachable = false)
    (hat : AtEnd m.meaning A v fr control controls label outer) :
    fr.operands.length = v.stack.length := by
  obtain ⟨instr, hinstr, hop⟩ := hat.instr
  obtain ⟨block, blocks, hb, hlabel, -⟩ := exists_block (j := 0) hat.labels_eq
  rcases A.state_cases hstate hinstr with ⟨-, hnil, -⟩ | ⟨v', hnext, -⟩
  · rw [hnil] at hb
    simp at hb
  rw [hop] at hnext
  obtain ⟨block', outer', hb', hend⟩ := validateInstr_end_next hnext
  obtain ⟨-, ⟨v1, hpop⟩, -⟩ := validateBlockEnd_eq (A.nested hstate) hb' hend
  obtain ⟨hpop, hstack, -⟩ := popResults_eq (A.nested hstate) hb' hpop
  obtain ⟨actual, haccepts, hv, -⟩ := popEach_reachable hr hpop
  obtain ⟨rfl, rfl⟩ := cons.inj (hb.symm.trans hb')
  have hlen : fr.operands.length = label.exit.stack.length := hat.fits.length_operands
  have hlength := congrArg length hv
  rw [length_append, haccepts.length_eq, length_reverse, hstack] at hlength
  rw [hlen, exit_stack (j := 0) hat.labels_eq, hlabel, length_append, length_onStack]
  exact hlength.symm

theorem Running.runsAsValidated (h : m.Running mod func type fr) : m.RunsAsValidated func fr := by
  obtain ⟨decl, body, hdefined, A, hA, v, hstate, hfits⟩ := h
  refine ⟨decl, type, v, hdefined.decl_eq, hdefined.type_eq, hA ▸ hstate, ?_⟩
  rcases hfits with hfits | ⟨control, controls, label, outer, hat⟩
  · exact ⟨controlsAgree_of_labels hfits.controls, .inl ⟨hfits.reachable, hfits.operands⟩⟩
  obtain ⟨instr, hinstr, hop⟩ := hat.instr
  obtain ⟨block, blocks, hb, hlabel, -⟩ := exists_block (j := 0) hat.labels_eq
  have hcontrols : Forall₂ (ControlOk A) fr.controls (labels v) := by
    have hrest := hat.fits.controls
    rw [labels_exit_eq (A.nested hstate) (j := 0) hat.labels_eq] at hrest
    rw [hat.controls_eq, hat.labels_eq]
    exact .cons hat.control hrest
  have hops : Forall₂ (Carries m.store) fr.operands
      (onStack block.results ++ below block.height v.stack) := by
    have hops := hat.fits.operands
    rw [exit_stack (j := 0) hat.labels_eq, hlabel] at hops
    exact hops
  refine ⟨controlsAgree_of_labels hcontrols, .inr ⟨block, blocks, ?_, hb, ?_,
    fun hr => length_operands_of_atEnd hstate hr hat, hops⟩⟩
  · rw [← hA, A.instrs_getElem? hinstr, hop]
  · rw [← hat.kind, hlabel]
    rfl

theorem Buffered.signature (h : m.Buffered) (hdecl : decl ∈ m.funcs) {instr : Instr Op Empty}
    (hinstr : instr ∈ decl.instrs) {sig : List ValType × List ValType}
    (hsig : instr.signature? m.types = some sig) :
    sig.1.length ≤ wastMaxResults ∧ sig.2.length ≤ wastMaxResults := by
  refine ⟨h.params decl hdecl instr hinstr sig hsig, ?_⟩
  cases instr with
  | else_ | end_ | basic => cases hsig
  | block kind type =>
    cases type with
    | empty | value =>
      obtain rfl := some.inj hsig
      simp [wastMaxResults]
    | index i =>
      obtain ⟨type, htype, rfl⟩ := map_eq_some_iff.1 hsig
      exact h.results type (mem_of_getElem? htype)

/-- No label of a frame has more values than the buffer. -/
theorem RunsAsValidated.buffered (h : m.RunsAsValidated func fr) (hm : m.Buffered) :
    ∀ control ∈ fr.controls,
      control.branchArity ≤ wastMaxResults ∧ control.endArity ≤ wastMaxResults := by
  obtain ⟨decl, type, v, hdecl, -, hstate, hcontrols, -⟩ := h
  intro control hcontrol
  obtain ⟨i, hi, rfl⟩ := getElem_of_mem hcontrol
  have hi' : i < v.blocks.length := hcontrols.length_eq ▸ hi
  obtain ⟨-, -, hbranch, hend⟩ := hcontrols.get hi hi'
  have hsig : (v.blocks[i].params, v.blocks[i].results) ∈ v.signatures :=
    mem_map_of_mem (getElem_mem hi')
  rcases validateRun_signatures nested_initial hstate hsig with hnone | ⟨instr, hmem, hinstr⟩
  · cases hnone
  obtain ⟨hparams, hresults⟩ :=
    hm.signature (mem_of_getElem? hdecl) (mem_of_mem_take hmem) hinstr
  simp only [get_eq_getElem] at hbranch hend
  rw [hbranch, hend]
  refine ⟨?_, hresults⟩
  split
  · exact hparams
  · exact hresults

/-- Before every instruction of every run the frame is as the validator says and a carry from
any of its labels fits the buffer, a run fails only with a trap of an instruction, and a call
that returns has its results. -/
theorem exec_runsAsValidated (hm : m.Validated mod) (hbuffered : m.Buffered) {s : Store}
    (hs : m.StoreOk s) (hdecl : m.funcs[func]? = some decl)
    (htype : m.types[decl.typeIndex]? = some type) {args : List Value}
    (hargs : args.map (·.type) = type.params) (n : Nat) :
    let result := exec m.handlers (program mod) host n (.invoke 0 func args) (.fresh s [])
    (∀ engine func fr, .instr engine func fr ∈ result.2.trace → m.RunsAsValidated func fr ∧
      ∀ control ∈ fr.controls,
        control.branchArity ≤ wastMaxResults ∧ control.endArity ≤ wastMaxResults) ∧
      m.CompletionOk type.results result.1 := by
  have hindex : mod.typeIndex? func = some decl.typeIndex := by
    rw [hm.typeIndex?_eq, hdecl, map_some]
  obtain ⟨decl', type', body, hdefined, -⟩ := hm.exists_defined hindex
  obtain rfl := some.inj (hdecl.symm.trans hdefined.decl_eq)
  obtain rfl := some.inj (htype.symm.trans hdefined.type_eq)
  have htyped : m.Typed args type.params := by
    rw [← hargs, Typed, forall₂_map_right_iff]
    exact forall₂_same.2 fun _ _ => .refl
  have hresult := exec_ok hm host n (.invoke 0 func args) type (.fresh s [])
    ⟨rfl, ⟨decl, body, hdefined⟩, htyped⟩
    ⟨hs, rfl, fun _ _ => rfl, fun _ _ _ hmem => by simp [State.fresh] at hmem⟩
  refine ⟨fun engine func fr hmem => ?_, hresult.completion⟩
  obtain ⟨type, hrun⟩ := hresult.trace engine func fr hmem
  exact ⟨hrun.runsAsValidated, hrun.runsAsValidated.buffered hbuffered⟩

/-- A module with one recursive function. -/
def factorialModule : ClosedModule where
  types := layoutGroups 0 [[{ kind := .func, params := [.i64], results := [.i64] }]]
  globals := []
  tables := []
  funcs := [{
    typeIndex := 0
    locals := []
    instrs := [
      .basic (.localGet 0), .basic (.plain (.eqz .i64)),
      .block .if_ (.value .i64),
      .basic (.plain (.const .i64 1)),
      .else_,
      .basic (.localGet 0),
      .basic (.localGet 0), .basic (.plain (.const .i64 1)), .basic (.plain (.bin .i64 .sub)),
      .basic (.call 0),
      .basic (.plain (.bin .i64 .mul)),
      .end_,
      .end_] }]

theorem factorial_runsAsValidated : ∃ mod, factorialModule.Validated mod ∧
    let result := exec factorialModule.handlers (program mod) (fun _ _ _ s => .status 0 s) 100
      (.invoke 0 0 [i64Value 4]) (.fresh ⟨[], []⟩ [])
    result.1 = .values [i64Value 24] ∧
      ∀ engine func fr, .instr engine func fr ∈ result.2.trace →
        factorialModule.RunsAsValidated func fr := by
  have hm : factorialModule.Validated (factorialModule.load.get (by decide)) :=
    ⟨⟨⟨_, by decide, rfl⟩, by decide, by decide⟩, by decide, by simp⟩
  refine ⟨_, hm, rfl, fun engine func fr hmem => ?_⟩
  exact ((exec_runsAsValidated _ hm ⟨by decide, by decide⟩ ⟨rfl, rfl⟩ rfl rfl rfl 100).1
    engine func fr hmem).1

/-- An `if` whose `else` never reaches the `end`. -/
def deadElseModule : ClosedModule where
  types := layoutGroups 0 [[{ kind := .func, results := [.i32] }]]
  globals := []
  tables := []
  funcs := [{
    typeIndex := 0
    locals := []
    instrs := [ .basic (.plain (.const .i32 1)),
      .block .if_ (.value .i32),
      .basic (.plain (.const .i32 1)),
      .else_,
      .basic .unreachable,
      .end_,
      .end_] }]

/-- A parameter of type `(ref 0)` that passes through a local of type `funcref`. -/
def localSetModule : ClosedModule where
  types := layoutGroups 0 [[{ kind := .func }], [{ kind := .func, params := [.typeRef 0] }]]
  globals := []
  tables := []
  funcs := [{
    typeIndex := 1
    locals := [.funcref]
    instrs := [ .basic (.localGet 0),
      .basic (.localSet 1),
      .basic (.localGet 1),
      .basic (.plain .drop),
      .end_] }]

/-- The run of a function of a module, from empty globals and tables. -/
def runOf (m : ClosedModule) (mod : Module Op Empty) (args : List Value) :
    Completion Empty × State Store :=
  exec m.handlers (program mod) (fun _ _ _ s => .status 0 s) 20 (.invoke 0 0 args)
    (.fresh ⟨[], []⟩ [])

/-- The types of the operands of a frame are not exactly those of the validator: not
their number at the `end` behind a dead `else`, and not the types themselves behind a
`local.set`, where the value keeps the type it came with. -/
theorem exec_not_exactly_as_validated :
    (∃ mod type decl fr v, deadElseModule.Validated mod ∧
      .instr 0 0 fr ∈ (deadElseModule.runOf mod []).2.trace ∧
      deadElseModule.funcs[0]? = some decl ∧ deadElseModule.types[decl.typeIndex]? = some type ∧
      stateAt (deadElseModule.context type decl) decl.instrs fr.pc = some v ∧
      fr.operands.length = 1 ∧ v.stack.length = 0) ∧
    ∃ mod type decl fr v, localSetModule.Validated mod ∧
      .instr 0 0 fr ∈ (localSetModule.runOf mod [⟨.typeRef 0, 0⟩]).2.trace ∧
      localSetModule.funcs[0]? = some decl ∧ localSetModule.types[decl.typeIndex]? = some type ∧
      stateAt (localSetModule.context type decl) decl.instrs fr.pc = some v ∧
      fr.operands.map (·.type) = [.typeRef 0] ∧ v.stack = [.type .funcref] := by
  constructor
  · have hm : deadElseModule.Validated (deadElseModule.load.get (by decide)) :=
      ⟨⟨⟨_, by decide, rfl⟩, by decide, by decide⟩, by decide, by simp⟩
    refine ⟨_, _, _, _, _, hm, mem_of_getElem? (i := 5) rfl, rfl, rfl, rfl, rfl, rfl⟩
  · have hm : localSetModule.Validated (localSetModule.load.get (by decide)) :=
      ⟨⟨⟨_, by decide, rfl⟩, by decide, by decide⟩, by decide, by simp⟩
    refine ⟨_, _, _, _, _, hm, mem_of_getElem? (i := 4) rfl, rfl, rfl, rfl, rfl, rfl⟩

end ClosedModule

end Waste.Exec
