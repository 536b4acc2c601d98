import Waste.Exec.Refine
import Waste.Exec.Soundness

/-!
# The instruction array refines the structured semantics

`flatMachine` and `structuredMachine` run a function body that the validator accepts in
the same way: the same instructions, with the same operands, and the same results
(`flat_refines_structured`).  The exception is a tail call to a function of another
engine, where the loop goes on behind the call.
-/

namespace Waste.Exec

open Waste.Types Simulation Bool List Option

variable {α β σ ε : Type} {C : Context α β} {code : List (ExecInstr α β)}
  {a : Activation α β σ ε} {fr : Frame} {s : σ}
variable {callee : Nat → Nat → List Value → Store → Completion Empty × Store}
  {operands : List Value} {site : CallSite} {T : TypeStore} {mod : Module Op Empty}
  {m : ClosedModule}

/-! ## Runs -/

/-- No tail call of the run goes to a function of another engine. -/
def OwnTailCalls (a : Activation α β σ ε) (code : List (ExecInstr α β)) (fr : Frame) (s : σ) :
    Prop :=
  ∀ n fr' s', ((flatMachine a code).run n fr s).2 = .next fr' s' →
    ∀ instr, code[fr'.pc]? = some instr →
      ¬Foreign a (dispatch a.handlers a.prog a.engine a.results instr fr' s')

theorem OwnTailCalls.next (h : OwnTailCalls a code fr s) {fr' : Frame} {s' : σ}
    (hstep : flatStep a code fr s = .next fr' s') : OwnTailCalls a code fr' s' := by
  intro n fr'' s'' hrun
  refine h (n + 1) fr'' s'' ?_
  rw [run_succ_of_next hstep]
  exact hrun

theorem engine_of_callSite {func : Nat}
    (h : callSite a.prog a.engine func operands = .ok site) : site.engine = a.engine := by
  unfold callSite at h
  split at h
  · simp at h
  · obtain ⟨popped, -, hsite⟩ := exists_of_bind_eq_ok h
    exact (congrArg CallSite.engine (Except.ok.inj hsite)).symm

theorem engine_of_callRefSite {type : Nat}
    (h : callRefSite a.prog a.engine type operands = .ok site) : site.engine = a.engine := by
  unfold callRefSite at h
  split at h
  · simp at h
  · split at h
    · simp at h
    · obtain ⟨-, -, h⟩ := exists_of_bind_eq_ok h
      obtain ⟨popped, -, hsite⟩ := exists_of_bind_eq_ok h
      exact (congrArg CallSite.engine (Except.ok.inj hsite)).symm

theorem engine_of_callIndirectSite {type table : Nat}
    (hslot : ∀ table value s target, a.handlers.slot a.engine table value s = .ok target →
      target.1 = a.engine)
    (h : callIndirectSite a.handlers a.prog a.engine type table operands s = .ok site) :
    site.engine = a.engine := by
  unfold callIndirectSite at h
  split at h
  · simp at h
  · obtain ⟨target, htarget, h⟩ := exists_of_bind_eq_ok h
    obtain ⟨-, -, h⟩ := exists_of_bind_eq_ok h
    obtain ⟨popped, -, hsite⟩ := exists_of_bind_eq_ok h
    exact (congrArg CallSite.engine (Except.ok.inj hsite)).symm.trans (hslot _ _ _ _ htarget)

theorem not_foreign_executeCall {tail : Bool} {site : Except Fault CallSite}
    (h : ∀ ready, site = .ok ready → ready.engine = a.engine) :
    ¬Foreign a (executeCall tail site fr s : Action σ ε) := by
  intro hforeign
  cases site with
  | error x => exact hforeign
  | ok ready =>
    cases tail with
    | true => exact hforeign (h ready rfl)
    | false => exact hforeign

/-- When the tables only hold functions of the engine itself, all tail calls are its own. -/
theorem ownTailCalls_of_slot
    (hslot : ∀ table value s target, a.handlers.slot a.engine table value s = .ok target →
      target.1 = a.engine) : OwnTailCalls a code fr s := by
  intro n fr' s' _ instr _
  unfold dispatch
  cases instr.op with
  | block | else_ | end_ => exact id
  | basic basic =>
    cases basic with
    | call func | returnCall func =>
      exact not_foreign_executeCall fun _ => engine_of_callSite
    | callIndirect type table | returnCallIndirect type table =>
      exact not_foreign_executeCall fun _ => engine_of_callIndirectSite hslot
    | callRef type | returnCallRef type =>
      exact not_foreign_executeCall fun _ => engine_of_callRefSite
    | _ => exact id

/-- The relation between the runs of the two machines. -/
structure InStep (A : Accepted C code) (a : Activation α β σ ε) (fr : Frame) (s : σ)
    (c : Config α β) : Prop where
  frame : FrameOk (heights σ ε) A fr
  related : Related a.types code fr c
  own : OwnTailCalls a code fr s

theorem simulates (ha : ActivationOk C a) {A : Accepted C code} :
    Simulates (flatMachine a code) (structuredMachine a) (InStep A a) (elseMeasure code) := by
  refine ⟨fun fr s c h => ?_⟩
  have hforeign := h.own 0 fr s rfl
  have hkeep {fr' : Frame} {s' : σ} (hstep : flatStep a code fr s = .next fr' s') :
      FrameOk (heights σ ε) A fr' ∧ OwnTailCalls a code fr' s' :=
    ⟨flatStep_frameOk ha h.frame hforeign hstep, h.own.next hstep⟩
  rcases step_answers ha h.frame h.related hforeign with
    ⟨hobserve, hstep⟩ | ⟨hsilent, fr', hnext, hlt, hrelated⟩
  · refine .inl ⟨hobserve, ?_⟩
    show Matches _ (flatStep a code fr s) (c.step a s)
    rcases hstep.cases with ⟨answer, s', hflat, hstruct⟩ | ⟨fr', s', c', hflat, hstruct, hrelated⟩
    · rw [hflat, hstruct]
      exact ⟨rfl, rfl⟩
    · rw [hflat, hstruct]
      exact ⟨rfl, (hkeep hflat).1, hrelated, (hkeep hflat).2⟩
  · exact .inr ⟨hsilent, fr', hnext, hlt, (hkeep hnext).1, hrelated, (hkeep hnext).2⟩

/-- Two runs that have executed the same instructions with the same operands, and stand
at the same operands and locals or have ended in the same way. -/
abbrev SameRun (x : List (Basic α β × List Value) × Progress Frame σ (Completion ε))
    (y : List (Basic α β × List Value) × Progress (Config α β) σ (Completion ε)) : Prop :=
  Agree (fun fr _ c => fr.operands = c.operands ++ belows c.scopes ∧ fr.locals = c.locals) x y

/-- The frame before the first instruction. -/
def startFrame (locals : List Value) : Frame :=
  { pc := 0, operands := [], controls := [], locals := locals }

theorem Accepted.inStep (A : Accepted C code) (ha : ActivationOk C a) {locals : List Value}
    (hlocals : locals.length = C.params.length + C.locals.length)
    (hown : OwnTailCalls a code (startFrame locals) s) :
    InStep A a (startFrame locals) s (A.body.start locals) := by
  have htypes : C.types C.engine = a.types := by
    rw [ha.linked.types, ha.engine]
    rfl
  obtain ⟨hbody, hend⟩ := at_code (htypes ▸ A.code_eq)
  have hend : code[0 + A.body.size]? = some { op := .end_ } := by rwa [Nat.zero_add]
  refine ⟨frameOk_start ?_, ⟨hbody, .nil hend, rfl, rfl⟩, hown⟩
  rw [← forall₂_map_right_iff]
  exact forall₂_heights (by rw [length_map, length_append, hlocals])

/-- A function body that the validator accepts runs as the structured semantics says:
after any number of rounds of the loop there is a run of the structured machine that has
executed the same instructions with the same operands and ends with the same results, and
the other way round. -/
theorem flat_refines_structured (ha : ActivationOk C a) (instrs : List (Instr α β))
    (hvalid : validateFunctionBody C instrs = true) (hparse : parseBody a.types instrs = some code)
    (locals : List Value) (hlocals : locals.length = C.params.length + C.locals.length)
    (hown : OwnTailCalls a code (startFrame locals) s) :
    ∃ body : Body α β, body.instrs = instrs ∧
      (∀ n, ∃ m, SameRun ((flatMachine a code).run n (startFrame locals) s)
        ((structuredMachine a).run m (body.start locals) s)) ∧
      ∀ m, ∃ n, SameRun ((flatMachine a code).run n (startFrame locals) s)
        ((structuredMachine a).run m (body.start locals) s) := by
  have htypes : C.types C.engine = a.types := by
    rw [ha.linked.types, ha.engine]
    rfl
  obtain ⟨A, hA⟩ := exists_accepted hvalid (htypes ▸ hparse)
  have hstart := A.inStep ha hlocals hown
  have hweaken : ∀ fr s c, InStep A a fr s c →
      fr.operands = c.operands ++ belows c.scopes ∧ fr.locals = c.locals :=
    fun fr s c h => ⟨h.related.operands, h.related.locals⟩
  refine ⟨A.body, hA, fun n => ?_, fun m => ?_⟩
  · obtain ⟨m, -, hagree⟩ := (simulates ha).run n hstart
    exact ⟨m, hagree.mono hweaken⟩
  · obtain ⟨n, hagree⟩ := (simulates ha).run_back m hstart
    exact ⟨n, hagree.mono hweaken⟩

/-! ## Modules without imports -/

section Closed

theorem plainOk_of_length {rule : Rule} {handler : Handler Store Empty}
    (hpops : handler.pops = rule.pops)
    (hpush : ∀ popped types pushed s s' values, popped.length = rule.pops →
      rule.check types = some pushed → handler.compute s popped = .ok s' values →
      values.length = pushed.length) : PlainOk (heights Store Empty) rule handler := by
  refine ⟨hpops, fun _ _ _ _ _ _ => trivial, fun popped types pushed s hlen _ hcheck _ _ => ?_⟩
  cases hcompute : handler.compute s popped with
  | ok s' values =>
    exact ⟨trivial, forall₂_heights (hpush popped types pushed s s' values hlen hcheck hcompute)⟩
  | fault x s' => trivial
  | throw x s' => exact x.elim

theorem computeHandler_heights {pops : Nat} {w : Width} {missing : String}
    {result : StackType} (f : List (BitVec w.bits) → Except Fault Value) :
    PlainOk (heights Store Empty) (typedRule T 0 pops w.type [result])
      (computeHandler pops w missing f) := by
  refine plainOk_of_length rfl fun popped types pushed s s' values _ hcheck hcompute => ?_
  obtain ⟨-, hpushed⟩ := ite_none_right_eq_some.1 hcheck
  obtain rfl := some.inj hpushed
  simp only [computeHandler] at hcompute
  split at hcompute
  · obtain ⟨-, rfl⟩ : _ ∧ _ := by simpa using hcompute
    rfl
  · simp at hcompute

theorem selectRule_length {selected : Option ValType} {types pushed : List StackType}
    (h : (selectRule T 0 selected).check types = some pushed) : pushed.length = 1 := by
  simp only [selectRule] at h
  split at h
  swap
  · simp at h
  obtain ⟨-, h⟩ := ite_none_left_eq_some.1 h
  cases selected with
  | some selected =>
    obtain ⟨-, h⟩ := ite_none_right_eq_some.1 h
    obtain rfl := some.inj h
    rfl
  | none =>
    obtain ⟨-, h⟩ := ite_none_left_eq_some.1 h
    split at h
    · obtain rfl := some.inj h
      rfl
    · obtain ⟨-, h⟩ := ite_none_left_eq_some.1 h
      obtain rfl := some.inj h
      rfl

variable {globals : List GlobalType}

theorem plainOk_heights (T : TypeStore) (op : Op) :
    PlainOk (heights Store Empty) (op.rule T 0 globals) op.handler := by
  cases op with
  | drop =>
    refine plainOk_of_length rfl fun _ _ _ _ _ _ _ hcheck hcompute => ?_
    obtain rfl := some.inj hcheck
    obtain ⟨-, rfl⟩ : _ ∧ _ := by simpa [Op.handler, dropHandler] using hcompute
    rfl
  | select _ =>
    refine plainOk_of_length rfl fun popped types pushed s s' values hlen hcheck hcompute => ?_
    obtain ⟨condition, second, first, rfl⟩ := length_eq_three.1 hlen
    obtain ⟨-, rfl⟩ : _ ∧ _ := by simpa [Op.handler, selectHandler] using hcompute
    rw [selectRule_length hcheck]
    rfl
  | globalGet index =>
    refine plainOk_of_length rfl fun popped types pushed s s' values _ hcheck hcompute => ?_
    obtain ⟨-, -, rfl⟩ := map_eq_some_iff.1 hcheck
    simp only [Op.handler, globalGetHandler] at hcompute
    split at hcompute
    · simp at hcompute
    · obtain ⟨-, rfl⟩ : _ ∧ _ := by simpa using hcompute
      rfl
  | globalSet index =>
    refine plainOk_of_length rfl fun popped types pushed s s' values _ hcheck hcompute => ?_
    simp only [Op.rule] at hcheck
    split at hcheck
    · simp at hcheck
    obtain ⟨-, hpushed⟩ := ite_none_right_eq_some.1 hcheck
    obtain rfl := some.inj hpushed
    simp only [Op.handler, globalSetHandler] at hcompute
    split at hcompute
    · obtain ⟨-, rfl⟩ : _ ∧ _ := by simpa using hcompute
      rfl
    · simp at hcompute
  | const w _ =>
    refine plainOk_of_length rfl fun _ _ _ _ _ _ _ hcheck hcompute => ?_
    obtain rfl := some.inj hcheck
    obtain ⟨-, rfl⟩ : _ ∧ _ := by simpa [Op.handler] using hcompute
    rfl
  | eqz w | un w op | rel w op | bin w op =>
    unfold Op.rule Op.handler
    exact computeHandler_heights _
  | i64Extend32 | i32WrapI64 =>
    unfold Op.rule Op.handler
    exact computeHandler_heights (w := .i64) _
  | i64ExtendI32 _ =>
    unfold Op.rule Op.handler
    exact computeHandler_heights (w := .i32) _

/-- The handlers of the instructions push as many values as their rules say. -/
theorem heightLaws {C : Context Op Empty} {H : Handlers Op Empty Store Empty}
    (hrule : C.rule = Op.rule T 0 globals) (hplain : H.plain C.engine = Op.handler) :
    Laws (heights Store Empty) C H where
  subsumes _ _ _ _ _ := trivial
  trap _ := trivial
  overflow _ _ := trivial
  caught _ _ x := x.elim
  plain op := by
    rw [hrule, hplain]
    exact plainOk_heights T op
  ends op hends := absurd hends (by rw [hrule]; cases op <;> exact false_ne_true)
  branch op := op.elim
  slot _ _ _ _ _ _ _ _ _ := trivial

/-- An activation of a function of a module without imports. -/
def ClosedModule.activation (m : ClosedModule) (mod : Module Op Empty) (results : Nat)
    (callee : Nat → Nat → List Value → Store → Completion Empty × Store) :
    Activation Op Empty Store Empty where
  handlers := m.handlers
  prog := program mod
  engine := 0
  results := results
  callee := callee

theorem ClosedModule.Validated.activationOk
    (hm : m.Validated mod) (type : DefinedType) (func : FuncDecl)
    (hcallee : ∀ engine func args s values s', callee engine func args s = (.values values, s') →
      values.length = (program mod engine).resultCount func) :
    ActivationOk (m.context type func) (m.activation mod type.results.length callee) where
  laws := heightLaws rfl rfl
  linked := hm.linked
  engine := rfl
  results := rfl
  types := accepted_store hm.types
  callee := hcallee

theorem ClosedModule.ownTailCalls {results : Nat} {code : List (ExecInstr Op Empty)} {s : Store} :
    OwnTailCalls (m.activation mod results callee) code fr s :=
  ownTailCalls_of_slot fun _ _ _ _ hslot => engine_of_slot hslot

/-- A call of the function of `factorialModule` that answers 6. -/
def sixCallee (engine func : Nat) (_ : List Value) (s : Store) : Completion Empty × Store :=
  if engine = 0 ∧ func = 0 then (.values [i64Value 6], s) else (.fault .functionIndex, s)

theorem factorial_refines_structured : ∃ mod code,
    ClosedModule.factorialModule.Validated mod ∧
      ((flatMachine (ClosedModule.factorialModule.activation mod 1 sixCallee) code).run 20
        (startFrame [i64Value 4]) ⟨[], []⟩).2 = .done (.values [i64Value 24]) ⟨[], []⟩ ∧
      ∃ body : Body Op Empty, ∀ n, ∃ k,
        SameRun ((flatMachine (ClosedModule.factorialModule.activation mod 1 sixCallee) code).run n
            (startFrame [i64Value 4]) ⟨[], []⟩)
          ((structuredMachine (ClosedModule.factorialModule.activation mod 1 sixCallee)).run k
            (body.start [i64Value 4]) ⟨[], []⟩) := by
  have hm : ClosedModule.factorialModule.Validated
      (ClosedModule.factorialModule.load.get (by decide)) :=
    ⟨⟨⟨_, by decide, rfl⟩, by decide, by decide⟩, by decide, by simp⟩
  have hcallee : ∀ engine func args s values s',
      sixCallee engine func args s = (.values values, s') →
      values.length = (ClosedModule.program (ClosedModule.factorialModule.load.get (by decide))
        engine).resultCount func := by
    intro engine func args s values s' h
    unfold sixCallee at h
    split at h
    · rename_i hfunc
      obtain ⟨rfl, rfl⟩ := hfunc
      obtain ⟨hvalues, -⟩ := Prod.mk.inj h
      obtain rfl := Completion.values.inj hvalues
      rfl
    · simp at h
  have ha := hm.activationOk (ClosedModule.factorialModule.types.head (by decide))
    (ClosedModule.factorialModule.funcs.head (by decide)) hcallee
  obtain ⟨body, -, hrun, -⟩ := flat_refines_structured (s := ⟨[], []⟩) ha
    (ClosedModule.factorialModule.funcs.head (by decide)).instrs (by decide) rfl
    [i64Value 4] rfl ClosedModule.ownTailCalls
  exact ⟨_, _, hm, rfl, body, hrun⟩

/-! ## Tail calls to another engine -/

def foreignTypes : TypeSection := layoutGroups 0 [[{ kind := .func, results := [.i32] }]]

/-- A body whose tail call finds its function in a table. -/
def foreignInstrs : List (Instr Op Empty) :=
  [.basic (.plain (.const .i32 0)), .basic (.returnCallIndirect 0 0), .end_]

def foreignContext : Context Op Empty where
  types _ := foreignTypes
  engine := 0
  params := []
  results := [.i32]
  locals := []
  typeIndex? func := if func = 0 then some 0 else none
  tableOperand? _ := some .i32
  rule := Op.rule (fun _ => foreignTypes) 0 []
  branchRule op := op.elim
  catchTypes? _ := none

/-- Two engines with the same function; the table of engine 0 holds the one of engine 1,
and its call answers 7. -/
def foreignActivation : Activation Op Empty Store Empty where
  handlers :=
    { plain := fun _ op => op.handler
      branch := fun _ op => op.elim
      slot := fun _ _ _ _ => .ok (1, 0)
      catches := fun _ _ x => x.elim
      caught := fun _ _ x => x.elim }
  prog _ := { types := foreignTypes, imports := [], funcs := [⟨0, [], []⟩] }
  engine := 0
  results := 1
  callee _ func _ s := if func = 0 then (.values [i32Value 7], s) else (.fault .functionIndex, s)

theorem foreignActivation_ok : ActivationOk foreignContext foreignActivation where
  laws := heightLaws rfl rfl
  linked := by
    refine ⟨rfl, fun func => ?_⟩
    cases func <;> rfl
  engine := rfl
  results := rfl
  types _ := ⟨⟨_, by decide, rfl⟩, show foreignTypes.length ≤ wastMaxTypes by decide, rfl⟩
  callee := by
    intro engine func args s values s' h
    simp only [foreignActivation] at h
    split at h
    · rename_i hfunc
      subst hfunc
      obtain rfl := Completion.values.inj (Prod.mk.inj h).1
      rfl
    · simp at h

/-- Behind a tail call to a function of another engine the loop goes on: its results are
lost, and the function ends with a missing result. -/
theorem foreign_tail_call_not_structured : ∃ code,
    ActivationOk foreignContext foreignActivation ∧
      validateFunctionBody foreignContext foreignInstrs = true ∧
      parseBody foreignActivation.types foreignInstrs = some code ∧
      ((flatMachine foreignActivation code).run 3 (startFrame []) ⟨[], []⟩).2 =
        .done (.fault .missingResult) ⟨[], []⟩ ∧
      ∃ body : Body Op Empty, body.instrs = foreignInstrs ∧
        ((structuredMachine foreignActivation).run 2 (body.start []) ⟨[], []⟩).2 =
          .done (.values [i32Value 7]) ⟨[], []⟩ := by
  refine ⟨_, foreignActivation_ok, by decide, rfl, rfl, ?_⟩
  exact ⟨.basic (.plain (.const .i32 0)) (.basic (.returnCallIndirect 0 0) .nil), rfl, rfl⟩

end Closed

end Waste.Exec
