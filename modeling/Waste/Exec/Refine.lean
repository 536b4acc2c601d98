import Waste.Exec.Related

/-!
# Steps of the instruction array and of the structured semantics

One round of the loop over the instruction array is one step of the structured machine,
with the same answer, for every instruction that the validator accepts
(`step_answers`).  The jump over an `else` is the only round without such a step.
-/

namespace Waste.Exec

open Waste.Types Simulation Bool List Option

variable {α β σ ε : Type} {C : Context α β} {code : List (ExecInstr α β)} {A : Accepted C code}
  {a : Activation α β σ ε} {M : Meaning σ ε} {types : TypeSection} {v v' : ValidState} {fr : Frame}
  {c : Config α β} {s : σ}

/-! ## Instructions that are no brackets -/

variable {operands : List Value} {fr' : Frame} {s' : σ}
variable {tail : Bool} {type depth results : Nat} {kind : BlockKind} {move : Move σ ε}

theorem Related.next (h : Related types code fr.advance c) {operands' : List Value}
    (hops : operands = operands' ++ belows c.scopes) :
    Related types code ({ fr with operands := operands } : Frame).advance
      { c with operands := operands' } :=
  { h with operands := hops }

variable {rest : List Value}

theorem Related.split (h : Related types code fr.advance c)
    (hfits : Fits M A v { fr with operands := rest }) {popped : List Value}
    (hops : fr.operands = popped ++ rest) :
    ∃ mid, c.operands = popped ++ mid ∧ rest = mid ++ belows c.scopes :=
  hfits.split h.scopes (hops.symm.trans h.operands)

theorem Related.split_cons (h : Related types code fr.advance c) {value : Value}
    (hfits : Fits M A v { fr with operands := rest }) (hops : fr.operands = value :: rest) :
    ∃ mid, c.operands = value :: mid ∧ rest = mid ++ belows c.scopes :=
  h.split hfits (show fr.operands = [value] ++ rest from hops)

section Basic

variable (ha : ActivationOk C a) (h : Related types code fr.advance c)
  (hfits : Fits (heights σ ε) A v fr)

include ha h hfits

theorem br_answers (hvalid : validateOpBr C depth v = some v') :
    Answers types code (settle a.results (branchTo a.results fr depth s : Move σ ε))
      (c.branch a depth s) := by
  obtain ⟨label, hlabel, hpopped⟩ := bind_eq_some_iff.1 hvalid
  obtain ⟨v1, hpop, -⟩ := map_eq_some_iff.1 hpopped
  obtain ⟨carried, rest, hops, hlen, -, hfits1⟩ := hfits.popTypes ha.laws.subsumes hpop
  have hlabel1 := (popTypes_sameLevel hfits.nested hpop).label hlabel
  exact branch_answers ha hfits1 hlabel1 hlen hops hfits.bounded h.scopes h.operands h.locals

theorem brIf_answers (hvalid : validateOpBrIf C depth v = some v') :
    Answers types code (settle a.results (executeBranchIf a.results depth fr s : Move σ ε))
      (c.stepBasic a (.brIf depth) s) := by
  simp only [validateOpBrIf, bind_eq_bind, bind_eq_some_iff] at hvalid
  obtain ⟨v1, hpop, label, hlabel, v2, hpops, -⟩ := hvalid
  obtain ⟨condition, operands, hops, -, hfits1⟩ := hfits.popType ha.laws.subsumes hpop
  obtain ⟨carried, rest, hops1, hlen, -, hfits2⟩ := hfits1.popTypes ha.laws.subsumes hpops
  obtain ⟨mid, hcops, hmid⟩ := h.split_cons hfits1 hops
  unfold executeBranchIf Config.stepBasic
  simp only [hops, hcops]
  split_ifs
  · exact ⟨rfl, h.next hmid⟩
  · have hlabel2 := (popTypes_sameLevel hfits1.nested hpops).label hlabel
    exact branch_answers ha hfits2 hlabel2 hlen hops1 hfits1.bounded h.scopes hmid h.locals

theorem brTable_answers {depths : List Nat} {fallback : Nat}
    (hvalid : validateOpBrTable C depths fallback v = some v') : Answers types code
      (settle a.results (executeBranchTable a.results depths fallback fr s : Move σ ε))
      (c.stepBasic a (.brTable depths fallback) s) := by
  obtain ⟨v1, popped, v2, hpop, hpopN, hlabels⟩ := validateOpBrTable_eq hvalid
  obtain ⟨index, operands, hops, -, hfits1⟩ := hfits.popType ha.laws.subsumes hpop
  obtain ⟨carried, rest, hops1, hlen, -, hfits2⟩ := hfits1.popN hpopN
  obtain ⟨mid, hcops, hmid⟩ := h.split_cons hfits1 hops
  unfold executeBranchTable Config.stepBasic
  simp only [hops, hcops]
  obtain ⟨label, hlabel, hcount, -⟩ := hlabels _ selected_mem
  generalize (depths[index.i32.toNat]?).getD fallback = depth at hlabel
  have hlabel2 := (popN_sameLevel hfits1.nested hpopN).label hlabel
  exact branch_answers ha hfits2 hlabel2 (hlen.trans hcount) hops1 hfits1.bounded
    h.scopes hmid h.locals

theorem return_answers_of_valid (hvalid : validateOpReturn C v = some v') :
    Answers types code (settle a.results (.return_ fr s : Move σ ε)) (c.return_ a s) := by
  obtain ⟨v1, hpop, -⟩ := map_eq_some_iff.1 hvalid
  obtain ⟨results, rest, hops, hlen, -, hfits1⟩ := hfits.popTypes ha.laws.subsumes hpop
  obtain ⟨mid, hcops, -⟩ := h.split hfits1 hops
  exact return_answers hops hcops (hlen.trans ha.results)

theorem brOn_answers {op : β} (hvalid : validateOpBrOn C op depth v = some v') : Answers types code
      (settle a.results (executeBranchOn a.handlers a.engine a.results op depth fr s : Move σ ε))
      (c.stepBasic a (.brOn op depth) s) := by
  obtain ⟨popped, operands, v1, hops, hlen, hfits1, -, hbranch⟩ := hfits.brOn ha.laws hvalid trivial
  rw [ha.engine] at hlen hbranch
  obtain ⟨mid, hcops, hmid⟩ := h.split hfits1 hops
  unfold executeBranchOn Config.stepBasic Config.pops
  cases haccept : (a.handlers.branch a.engine op).accepts popped with
  | false =>
    simp only [hops, hcops, stackPopN_append hlen, haccept, false_eq_true, if_false]
    exact ⟨rfl, rfl⟩
  | true =>
  cases hcompute : (a.handlers.branch a.engine op).compute s popped with | mk branches values =>
  obtain ⟨hpushed, -, htakes⟩ := hbranch branches values haccept hcompute
  simp only [hops, hcops, stackPopN_append hlen, haccept, if_true, hcompute, hpushed]
  cases branches with
  | false => exact ⟨rfl, h.next (by rw [hmid, append_assoc])⟩
  | true =>
    obtain ⟨hroom, v2, label, carried, rest, hops1, hlabel, hholds, hfits2⟩ := htakes rfl
    refine branch_answers ha (f := { fr with operands := values ++ operands }) hfits2 hlabel
      (hholds.length_eq.trans length_onStack) ?_ ?_ h.scopes ?_ h.locals
    · rw [hops1, append_assoc]
    · rw [length_append]
      exact hroom
    · rw [hmid, append_assoc]

omit ha in
theorem localGet_answers {index : Nat} (hvalid : validateOpLocalGet C index v = some v') :
    Answers types code (settle a.results (executeOpLocalGet index fr s : Move σ ε))
      (c.stepBasic a (.localGet index) s) := by
  obtain ⟨type, htype, hvalid⟩ := bind_eq_some_iff.1 hvalid
  obtain ⟨-, hpush⟩ := ite_none_right_eq_some.1 hvalid
  obtain ⟨value, hget, hholds⟩ := hfits.local_ htype
  obtain ⟨hpushed, -⟩ := hfits.push hpush hholds
  have hget' : c.locals[index]? = some value := h.locals ▸ hget
  unfold executeOpLocalGet Config.stepBasic
  simp only [hget, hget', hpushed]
  exact ⟨rfl, h.next (congrArg (value :: ·) h.operands)⟩

theorem localSet_answers {tee : Bool} {index : Nat}
    (hvalid : validateOpLocalSet C tee index v = some v') :
    Answers types code (settle a.results (executeOpLocalSet tee index fr s : Move σ ε))
      (c.stepBasic a (if tee then .localTee index else .localSet index) s) := by
  simp only [validateOpLocalSet, bind_eq_bind, bind_eq_some_iff] at hvalid
  obtain ⟨type, htype, v1, hpop, hvalid⟩ := hvalid
  obtain ⟨value, operands, hops, -, hfits1⟩ := hfits.popType ha.laws.subsumes hpop
  obtain ⟨mid, hcops, hmid⟩ := h.split_cons hfits1 hops
  have hlt : index < fr.locals.length := by
    obtain ⟨_, hget, -⟩ := hfits.local_ htype
    exact (List.getElem?_eq_some_iff.1 hget).1
  have hlocals : fr.locals = c.locals := h.locals
  have hlt' : index < c.locals.length := hlocals ▸ hlt
  unfold executeOpLocalSet
  cases tee with
  | true =>
    have hpushed : stackPush value operands = some (value :: operands) := by
      have hbounded := hfits.bounded
      rw [hops, length_cons] at hbounded
      unfold stackPush
      rw [if_neg (by omega)]
    simp only [hops, hlt, if_true, hpushed, Config.stepBasic, hcops, hlt']
    exact ⟨rfl, h.body, h.scopes, congrArg (value :: ·) hmid, congrArg (·.set index value) hlocals⟩
  | false =>
    simp only [hops, hlt, if_true, false_eq_true, if_false, Config.stepBasic, hcops, hlt']
    exact ⟨rfl, h.body, h.scopes, hmid, congrArg (·.set index value) hlocals⟩

theorem plain_answers {op : α} (hvalid : validatePlain C op v = some v') :
    Answers types code (settle a.results (executePlain a.handlers a.engine op fr s))
      (c.stepBasic a (.plain op) s) := by
  obtain ⟨⟨popTypes, v1⟩, hpopN, hvalid⟩ := bind_eq_some_iff.1 hvalid
  obtain ⟨pushed, hcheck, hvalid⟩ := bind_eq_some_iff.1 hvalid
  obtain ⟨v2, hpush, -⟩ := bind_eq_some_iff.1 hvalid
  obtain ⟨popped, operands, hops, hlen, hpopped, hfits1⟩ := hfits.popN hpopN
  obtain ⟨mid, hcops, hmid⟩ := h.split hfits1 hops
  have hlaws := ha.laws.plain op
  rw [ha.engine] at hlaws
  unfold executePlain Config.stepBasic Config.pops
  simp only [hlaws.pops, hops, hcops, stackPopN_append hlen]
  cases haccept : (a.handlers.plain a.engine op).accepts popped with
  | false => exact ⟨rfl, rfl⟩
  | true =>
    have hplain := hlaws.computes popped popTypes pushed s hlen hpopped hcheck haccept trivial
    cases hcompute : (a.handlers.plain a.engine op).compute s popped with
    | ok s' values =>
      rw [hcompute] at hplain
      obtain ⟨hpushed, -⟩ := hfits1.pushAll hpush hplain.2
      simp only [show stackPushAll values operands = _ from hpushed]
      exact ⟨rfl, h.next (by rw [hmid, append_assoc])⟩
    | fault x s' => exact ⟨rfl, rfl⟩
    | throw x s' =>
      exact raise_answers ha hfits1 (c := { c with operands := mid }) h.scopes hmid h.locals x s'

end Basic

/-! ## Calls -/

theorem TargetOk.resultCount {H : Handlers α β σ ε} {prog : Nat → Module α β}
    (hlink : Linked C prog) (haccepted : ∀ engine, AcceptedTypes C.types engine)
    {engine func actual : Nat} (h : TargetOk C H prog engine func type actual)
    {params results : List ValType} (hsig : signature? C type = some (params, results)) :
    (prog engine).resultCount func = results.length := by
  obtain ⟨expected, hexpected, hpair⟩ := map_eq_some_iff.1 hsig
  obtain ⟨-, rfl⟩ := Prod.mk.inj hpair
  have htypes : (prog engine).types = C.types engine := by rw [hlink.types]; rfl
  have hcount : (prog engine).resultCount func =
      (((C.types engine)[actual]?).map (·.results.length)).getD 0 := by
    simp [Module.resultCount, Module.funcType?, h.typeIndex, htypes]
  rw [hcount]
  rcases h.subtype with ⟨rfl, rfl⟩ | hsub
  · rw [hexpected]
    rfl
  · cases hactual : (C.types engine)[actual]? with
    | none => simp [funcTypeIsSubtype, kindAt, hactual] at hsub
    | some x => exact (length_eq_of_funcTypeIsSubtype haccepted hsub hactual hexpected).2

/-- A tail call to a function of another engine. -/
def Foreign (a : Activation α β σ ε) : Action σ ε → Prop
  | .tail engine _ _ _ => engine ≠ a.engine
  | _ => False

/-- The two sites answer each other, unless the call is foreign. -/
def CallAnswers (a : Activation α β σ ε) (types : TypeSection) (code : List (ExecInstr α β))
    (c : Config α β) (tail : Bool) (fr : Frame) (s : σ) (site site' : Except Fault CallSite) :
    Prop :=
  ¬Foreign a (executeCall tail site fr s : Action σ ε) →
    Answers types code (act a s (executeCall tail site fr s)) (c.stepCall a tail site' s)

theorem callee_answers (ha : ActivationOk C a) (h : Related types code fr.advance c)
    {mid : List Value} (hfits : Fits (heights σ ε) A v { fr with operands := operands })
    (hmid : operands = mid ++ belows c.scopes)
    (hvalid : validateCallee C tail type v = some v') (missing : String) :
    ∃ args rest rest',
      popArgs missing (paramCount a.prog a.engine type) operands = .ok (args, rest) ∧
      popArgs missing (paramCount a.prog a.engine type) mid = .ok (args, rest') ∧
      ∀ engine func actual, TargetOk C a.handlers a.prog engine func type actual →
        CallAnswers a types code c tail fr s (.ok ⟨engine, func, args, rest⟩)
          (.ok ⟨engine, func, args, rest'⟩) := by
  obtain ⟨params, results, v1, hsig, hpop, hrest⟩ := validateCallee_eq hvalid
  have hparams : paramCount a.prog a.engine type = params.length :=
    ha.engine ▸ paramCount_eq ha.linked hsig
  obtain ⟨popped, rest, hops, hlen, -, hfits1⟩ := hfits.popTypes ha.laws.subsumes hpop
  have hops : operands = popped ++ rest := hops
  obtain ⟨rest', hmid', hrest'⟩ := hfits1.split (c := { c with operands := mid })
    h.scopes (hops.symm.trans hmid)
  have hmid' : mid = popped ++ rest' := hmid'
  rw [hparams]
  refine ⟨popped.reverse, rest, rest', hops ▸ popArgs_append hlen,
    hmid' ▸ popArgs_append hlen, fun engine func actual htarget hforeign => ?_⟩
  cases tail with
  | true =>
    have hengine : engine = a.engine := Classical.byContradiction hforeign
    simp only [executeCall, act, Config.stepCall, if_true, if_pos hengine]
    exact ⟨rfl, rfl⟩
  | false =>
    have hcount := htarget.resultCount ha.linked ha.types hsig
    simp only [executeCall, act, Config.stepCall, false_eq_true, if_false]
    cases hreply : a.callee engine func popped.reverse s with | mk answer s' =>
    cases answer with
    | values values =>
      have hvalues : values.length = results.length := (ha.callee _ _ _ _ _ _ hreply).trans hcount
      obtain ⟨hpushed, -⟩ := hfits1.pushAll hrest
        (forall₂_heights (show values.reverse.length = _ by
          rw [length_reverse, length_onStack, hvalues]))
      simp only [handleCallResult, hpushed]
      exact ⟨rfl, h.next (by rw [hrest', append_assoc])⟩
    | throw x =>
      exact raise_answers ha hfits1 (c := { c with operands := rest' }) h.scopes hrest' h.locals
        x s'
    | fault | status | yield | outOfFuel => exact ⟨rfl, rfl⟩

section CallSites

variable (ha : ActivationOk C a) (h : Related types code fr.advance c)
  (hfits : Fits (heights σ ε) A v fr)

include ha h hfits

theorem call_answers {func : Nat} (hvalid : validateOpCall C tail func v = some v') :
    CallAnswers a types code c tail fr s (callSite a.prog a.engine func fr.operands)
      (callSite a.prog a.engine func c.operands) := by
  obtain ⟨type, htype, hcallee⟩ := bind_eq_some_iff.1 hvalid
  have htype : (a.prog a.engine).typeIndex? func = some type :=
    ha.engine ▸ ha.linked.typeIndex func ▸ htype
  obtain ⟨args, rest, rest', hpop, hpop', hok⟩ :=
    callee_answers ha h hfits h.operands hcallee "call arguments missing"
  rw [callSite_eq htype hpop, callSite_eq htype hpop']
  exact hok _ func type ⟨htype, .inl ha.engine.symm, .inl ⟨ha.engine.symm, rfl⟩⟩

theorem callIndirect_answers {table : Nat}
    (hvalid : validateOpCallIndirect C tail type table v = some v') :
    CallAnswers a types code c tail fr s
      (callIndirectSite a.handlers a.prog a.engine type table fr.operands s)
      (callIndirectSite a.handlers a.prog a.engine type table c.operands s) := by
  obtain ⟨operandType, -, hvalid⟩ := bind_eq_some_iff.1 hvalid
  obtain ⟨v1, hpopType, hcallee⟩ := bind_eq_some_iff.1 hvalid
  obtain ⟨operand, operands, hops, -, hfits1⟩ := hfits.popType ha.laws.subsumes hpopType
  obtain ⟨mid, hcops, hmid⟩ := h.split_cons hfits1 hops
  obtain ⟨args, rest, rest', hpop, hpop', hok⟩ :=
    callee_answers ha h hfits1 hmid hcallee "call_indirect arguments missing"
  unfold callIndirectSite
  rw [hops, hcops]
  cases hslot : a.handlers.slot a.engine table operand s with
  | error _ =>
    simp only [hslot, error_bind]
    exact fun _ => ⟨rfl, rfl⟩
  | ok target =>
    simp only [hslot, ok_bind]
    rcases checkTarget_eq ha.linked "call_indirect target out of range"
      "indirect call type mismatch" type target with ⟨text, herror⟩ | ⟨hcheck, actual, hindex, hsub⟩
    · rw [ha.engine] at herror
      simp only [herror, error_bind]
      exact fun _ => ⟨rfl, rfl⟩
    · rw [ha.engine] at hcheck
      simp only [hcheck, ok_bind, hpop, hpop']
      exact hok target.1 target.2 actual
        ⟨hindex, .inr ⟨table, operand, s, ha.engine ▸ hslot⟩, .inr hsub⟩

theorem callRef_answers (hvalid : validateOpCallRef C tail type v = some v') :
    CallAnswers a types code c tail fr s (callRefSite a.prog a.engine type fr.operands)
      (callRefSite a.prog a.engine type c.operands) := by
  obtain ⟨⟨referenceType, v1⟩, hpopRef, hvalid⟩ := bind_eq_some_iff.1 hvalid
  obtain ⟨-, hcallee⟩ := ite_none_right_eq_some.1 hvalid
  obtain ⟨reference, operands, hops, -, hfits1⟩ := hfits.pop hpopRef
  obtain ⟨mid, hcops, hmid⟩ := h.split_cons hfits1 hops
  obtain ⟨args, rest, rest', hpop, hpop', hok⟩ :=
    callee_answers ha h hfits1 hmid hcallee "call_ref arguments missing"
  unfold callRefSite
  rw [hops, hcops]
  by_cases hnull : reference.i32 = nullRef
  · simp only [hnull, if_true]
    exact fun _ => ⟨rfl, rfl⟩
  simp only [hnull, if_false]
  rcases checkTarget_eq ha.linked "call_ref target out of range" "call_ref type mismatch" type
    (a.engine, reference.i32.toNat) with ⟨text, herror⟩ | ⟨hcheck, actual, hindex, hsub⟩
  · rw [ha.engine] at herror
    simp only [herror, error_bind]
    exact fun _ => ⟨rfl, rfl⟩
  · rw [ha.engine] at hcheck
    simp only [hcheck, ok_bind, hpop, hpop']
    exact hok _ _ actual ⟨hindex, .inl ha.engine.symm, .inr hsub⟩

theorem basic_answers {basic : Basic α β} (hvalid : validateBasic C basic v = some v')
    (hforeign : ¬Foreign a (dispatchBasic a.handlers a.prog a.engine a.results basic fr s)) :
    Answers types code (act a s (dispatchBasic a.handlers a.prog a.engine a.results basic fr s))
      (c.stepBasic a basic s) := by
  cases basic with
  | unreachable => exact ⟨rfl, rfl⟩
  | nop => exact ⟨rfl, h⟩
  | br depth => exact br_answers ha h hfits hvalid
  | brIf depth => exact brIf_answers ha h hfits hvalid
  | brTable _ _ => exact brTable_answers ha h hfits hvalid
  | brOn op depth => exact brOn_answers ha h hfits hvalid
  | return_ => exact return_answers_of_valid ha h hfits hvalid
  | call func | returnCall func => exact call_answers ha h hfits hvalid hforeign
  | callIndirect type table | returnCallIndirect type table =>
    exact callIndirect_answers ha h hfits hvalid hforeign
  | callRef type | returnCallRef type => exact callRef_answers ha h hfits hvalid hforeign
  | localGet index => exact localGet_answers h hfits hvalid
  | localSet | localTee => exact localSet_answers ha h hfits hvalid
  | plain op => exact plain_answers ha h hfits hvalid

end CallSites

/-! ## Brackets -/

theorem openInstr_arity (kind : BlockKind) (type : BlockType) (u32Imm simdOp : Nat) :
    blockArity types type =
      ((openInstr types kind type u32Imm simdOp : ExecInstr α β).blockParamCount,
      (openInstr types kind type u32Imm simdOp : ExecInstr α β).blockResultCount) := by
  unfold openInstr blockArity
  cases type.signature types <;> rfl

/-- The condition of an `if` is an operand of the innermost scope. -/
theorem blockCondition_split {condition : Bool}
    (hcondition : blockCondition kind fr.operands = some (condition, operands))
    (hfits : Fits M A v { fr with operands := operands }) {pc : Nat}
    (hscopes : ScopesAt types code fr.controls c.scopes pc)
    (hops : fr.operands = c.operands ++ belows c.scopes) :
    ∃ mid, blockCondition kind c.operands = some (condition, mid) ∧
      operands = mid ++ belows c.scopes := by
  cases kind with
  | if_ =>
    cases hoperands : fr.operands with
    | nil => simp [hoperands, blockCondition] at hcondition
    | cons value rest =>
      rw [hoperands] at hcondition
      obtain ⟨rfl, rfl⟩ := Prod.mk.inj (some.inj hcondition)
      obtain ⟨mid, hcops, hmid⟩ :=
        hfits.split hscopes (show [value] ++ rest = _ from hoperands.symm.trans hops)
      exact ⟨mid, by rw [hcops]; rfl, hmid⟩
  | block | loop | tryTable catches =>
    obtain ⟨rfl, rfl⟩ := Prod.mk.inj (some.inj hcondition)
    exact ⟨c.operands, rfl, hops⟩

/-- Both machines enter a block: the body when the condition holds, and otherwise what
stands at the target of the `if`. -/
theorem enter_answers (ha : ActivationOk C a) (hframe : FrameOk (heights σ ε) A fr)
    {type : BlockType} {target close : Nat}
    (hinstr : code[fr.pc]? = some (openInstr a.types kind type target close))
    (hclose : code[close]? = some { op := .end_ }) {inner other rest : Body α β}
    (hrest : At a.types code (close + 1) rest) (hscopes : ScopesAt a.types code fr.controls c.scopes
      (close + 1 + rest.size))
    (hops : fr.operands = c.operands ++ belows c.scopes) (hlocals : fr.locals = c.locals)
    (hinner : At a.types code (fr.pc + 1) inner)
    (hleave : fr.pc + 1 + inner.size = close ∨
      (kind = .if_ ∧ code[fr.pc + 1 + inner.size]? = some { op := .else_, u32Imm := close }))
    (hother : kind = .if_ → At a.types code target other ∧ target + other.size = close) :
    Answers a.types code
      (settle a.results (executeOpBlock (openInstr a.types kind type target close :
        ExecInstr α β) kind fr s))
      (match blockCondition kind c.operands with
        | none => .done (.fault (.operandMissing "if condition missing")) s
        | some (condition, operands) =>
          Config.enter a kind type (if condition then inner else other) rest
            { c with operands := operands } s) := by
  obtain ⟨v, hstate, hfits⟩ := hframe.fits hinstr (by simp [openInstr])
  obtain ⟨params, results, v1, v0, hfacts⟩ := A.blockFacts hstate hinstr rfl
  obtain ⟨condition, operands, hcondition, hfalse, hfits1⟩ := hfits.blockHead ha.laws hfacts.head
  obtain ⟨mid, hcondition', hmid⟩ := blockCondition_split hcondition hfits1 hscopes hops
  obtain ⟨carried, below, hcarried, hlen, -, hfits0⟩ :=
    hfits1.popTypes ha.laws.subsumes hfacts.popped
  have hcarried : operands = carried ++ below := hcarried
  obtain ⟨mid', hmid', hbelow⟩ := hfits0.split (c := { c with operands := mid }) hscopes
    (hcarried.symm.trans hmid)
  have hmid' : mid = carried ++ mid' := hmid'
  have hdepth : fr.controls.length < execMaxControl :=
    hfits0.length_controls.trans_lt hfacts.depth
  have hparams := hfacts.paramCount.trans hlen.symm
  unfold executeOpBlock Config.enter
  simp only [hcondition, hcondition', hmid', take_left, drop_left, hparams,
    openInstr_arity (α := α) (β := β) kind type target close]
  have henough : carried.length ≤ (carried ++ mid').length := by simp
  rw [if_neg (by omega), if_neg (by rw [hcarried, length_append]; omega), if_pos henough]
  have hheight : operands.length - carried.length = (mid' ++ belows c.scopes).length := by
    rw [hcarried, ← hbelow, length_append]
    omega
  have hentered : At a.types code (if condition then fr.pc + 1 else target)
      (if condition then inner else other) := by
    cases condition with
    | true => exact hinner
    | false => exact (hother (hfalse rfl)).1
  refine ⟨rfl, hentered, .cons ⟨rfl, hheight, rfl, hclose, ?_, hrest, fun hloop => ?_⟩ hscopes, ?_,
    hlocals⟩
  · cases condition with
    | true => exact hleave
    | false => exact .inl (hother (hfalse rfl)).2
  · obtain rfl : kind = .loop := hloop
    cases condition with
    | true => exact ⟨hinner, hleave.resolve_right (by simp)⟩
    | false => cases hfalse rfl
  · show operands = carried ++ (mid' ++ belows c.scopes)
    rw [hcarried, hbelow]

/-! ## Steps -/

/-- The jump over an `else` is the only silent step. -/
def elseMeasure (code : List (ExecInstr α β)) (fr : Frame) : Nat :=
  match code[fr.pc]? with
  | some { op := .else_, .. } => 1
  | _ => 0

theorem move_of_settle (h : settle results move = .next fr' s') : move = .next fr' s' := by
  unfold settle at h
  split at h
  · obtain ⟨rfl, rfl⟩ : _ ∧ _ := by simpa using h
    rfl
  · split at h <;> simp at h
  · simp at h
  · simp at h

theorem MoveOk.frameOk (h : MoveOk M A move)
    (hsettle : settle results move = .next fr' s') : FrameOk M A fr' := by
  rw [move_of_settle hsettle] at h
  exact h.1

/-- A round of the loop keeps the invariant of the frame. -/
theorem flatStep_frameOk (ha : ActivationOk C a) (h : FrameOk (heights σ ε) A fr)
    (hforeign : ∀ instr, code[fr.pc]? = some instr →
      ¬Foreign a (dispatch a.handlers a.prog a.engine a.results instr fr s))
    (hstep : flatStep a code fr s = .next fr' s') : FrameOk (heights σ ε) A fr' := by
  obtain ⟨v, hstate, -⟩ := id h
  obtain ⟨instr, hinstr⟩ := A.exists_instr hstate
  have hforeign := hforeign instr hinstr
  have haction := dispatch_ok ha.laws ha.linked (s := s) trivial h hinstr
  rw [ha.engine, ha.results] at haction
  simp only [flatStep, hinstr] at hstep
  cases hdispatch : dispatch a.handlers a.prog a.engine a.results instr fr s with
  | move move =>
    rw [hdispatch] at haction hstep
    exact MoveOk.frameOk haction hstep
  | call engine func args fr1 =>
    rw [hdispatch] at haction hstep
    obtain ⟨type, params, results, v1, hsite, v2, hpush, hstate'⟩ := haction
    simp only [act] at hstep
    cases hreply : a.callee engine func args s with | mk answer s1 =>
    rw [hreply] at hstep
    cases answer with
    | values values =>
      obtain ⟨actual, htarget⟩ := hsite.target
      have hvalues : values.length = results.length :=
        (ha.callee _ _ _ _ _ _ hreply).trans
          (htarget.resultCount ha.linked ha.types hsite.signature)
      have htyped : Forall₂ (fun value type => (heights σ ε).Holds value (.type type)) values
          results := by
        rw [← forall₂_map_right_iff]
        exact forall₂_heights (by rw [length_map, hvalues])
      obtain ⟨operands, hpushed, hnext⟩ := hsite.returned hpush hstate' htyped
      simp only [handleCallResult, hpushed] at hstep
      have hmove : MoveOk (heights σ ε) A
          (.next ({ fr1 with operands := operands } : Frame).advance s1 : Move σ ε) :=
        ⟨hnext, trivial⟩
      exact hmove.frameOk hstep
    | throw x =>
      have hmove := hsite.fits.handleException ha.laws (x := x) trivial (s := s1) trivial
      rw [ha.engine] at hmove
      exact hmove.frameOk hstep
    | fault | status | yield | outOfFuel => simp [handleCallResult] at hstep
  | tail engine func args fr1 =>
    rw [hdispatch] at hforeign hstep
    have hengine : engine = a.engine := Classical.byContradiction hforeign
    simp [act, hengine] at hstep

theorem funcEnd_answers (ha : ActivationOk C a) (hframe : FrameOk (heights σ ε) A fr)
    (hend : code[fr.pc]? = some { op := .end_ }) (hcontrols : fr.controls = []) :
    Answers a.types code (flatStep a code fr s)
      (Config.step a ⟨.nil, [], fr.operands, fr.locals⟩ s) := by
  rcases hframe.end_cases ha.laws hend rfl with ⟨-, hresults⟩ | ⟨control, controls, hcons, -⟩
  · have hlen : fr.operands.length = a.results := by
      rw [hresults.length_eq, length_onStack, ha.results]
    have hcollect : collectResults a.results fr = .ok fr.operands.reverse := by
      unfold collectResults
      rw [← hlen, if_neg (lt_irrefl _), take_length]
    have hmove : dispatch a.handlers a.prog a.engine a.results { op := .end_ } fr s =
        .move (.return_ fr s) := by
      simp only [dispatch, executeOpEnd, hcontrols]
    simp only [flatStep, hend, hmove, act, settle, hcollect]
    exact ⟨rfl, rfl⟩
  · rw [hcontrols] at hcons
    simp at hcons

theorem blockEnd_answers (ha : ActivationOk C a) (hframe : FrameOk (heights σ ε) A fr)
    (hend : code[fr.pc]? = some { op := .end_ }) {control : Control} {controls : List Control}
    (hcontrols : fr.controls = control :: controls) {scope : Scope α β} {outer : List (Scope α β)}
    (hrest : At types code (fr.pc + 1) scope.rest)
    (houter : ScopesAt types code controls outer (fr.pc + 1 + scope.rest.size))
    (hops : fr.operands = operands ++ (scope.below ++ belows outer)) :
    Answers types code (flatStep a code fr s)
      (Config.step a ⟨.nil, scope :: outer, operands, fr.locals⟩ s) := by
  rcases hframe.end_cases ha.laws hend rfl with ⟨hnil, -⟩ | ⟨control', controls', hcons, hexit, -⟩
  · rw [hcontrols] at hnil
    simp at hnil
  obtain ⟨rfl, rfl⟩ := cons.inj (hcontrols.symm.trans hcons)
  have hmove : dispatch a.handlers a.prog a.engine a.results { op := .end_ } fr s =
      .move (.next { fr with controls := controls }.advance s) :=
    congrArg Action.move (hexit s)
  simp only [flatStep, hend, hmove, act, settle]
  exact ⟨rfl, hrest, houter, hops.trans (append_assoc _ _ _).symm, rfl⟩

/-- One round of the loop is one step of the structured machine, or it jumps over an
`else`. -/
theorem step_answers (ha : ActivationOk C a) (hframe : FrameOk (heights σ ε) A fr)
    (h : Related a.types code fr c) (hforeign : ∀ instr, code[fr.pc]? = some instr →
      ¬Foreign a (dispatch a.handlers a.prog a.engine a.results instr fr s)) :
    (flatObserve code fr = c.observe ∧ Answers a.types code (flatStep a code fr s) (c.step a s)) ∨
      (flatObserve code fr = none ∧ ∃ fr', flatStep a code fr s = .next fr' s ∧
        elseMeasure code fr' < elseMeasure code fr ∧ Related a.types code fr' c) := by
  obtain ⟨body, scopes, operands, locals⟩ := c
  have hbody : At a.types code fr.pc body := h.body
  have hscopes : ScopesAt a.types code fr.controls scopes (fr.pc + body.size) := h.scopes
  cases body with
  | nil =>
    have hlocals : fr.locals = locals := h.locals
    subst hlocals
    have hops : fr.operands = operands ++ belows scopes := h.operands
    rw [Body.size_nil, Nat.add_zero] at hscopes
    generalize hcontrols : fr.controls = controls at hscopes
    cases hscopes with
    | nil hend =>
      left
      have hops : operands = fr.operands := by rw [hops]; exact (append_nil _).symm
      subst hops
      exact ⟨by simp only [flatObserve, hend, Config.observe],
        funcEnd_answers ha hframe hend hcontrols⟩
    | @cons control controls _ _ _ hscope houter =>
      rcases hscope.leave with hpc | ⟨-, helse⟩
      · left
        have hend : code[fr.pc]? = some { op := .end_ } := hpc ▸ hscope.close
        rw [← hpc] at houter
        exact ⟨by simp only [flatObserve, hend, Config.observe],
          blockEnd_answers ha hframe hend hcontrols (hpc ▸ hscope.rest) houter hops⟩
      · right
        refine ⟨by simp only [flatObserve, helse], { fr with pc := control.endPc }, ?_, ?_, ?_⟩
        · simp only [flatStep, helse]
          rfl
        · simp only [elseMeasure, helse, hscope.close]
          omega
        · refine ⟨at_nil, ?_, hops, rfl⟩
          rw [show ({ fr with pc := control.endPc } : Frame).controls = control :: controls from
            hcontrols]
          exact .cons { hscope with leave := .inl rfl } houter
  | basic _ rest =>
    left
    obtain ⟨hinstr, hrest⟩ := getElem?_of_prefix hbody
    obtain ⟨v, hstate, hfits⟩ := hframe.fits hinstr (by simp)
    rcases A.state_cases hstate hinstr with ⟨hend, -⟩ | ⟨v', hnext, -⟩
    · simp at hend
    have hforeign := hforeign _ hinstr
    rw [Body.add_size_basic] at hscopes
    refine ⟨?_, ?_⟩
    · simp only [flatObserve, hinstr, Config.observe, h.operands]
    · unfold flatStep Config.step
      rw [hinstr]
      exact basic_answers ha (c := ⟨rest, scopes, operands, locals⟩)
        ⟨hrest, hscopes, h.operands, h.locals⟩ hfits (Verdict.ofOption_next hnext) hforeign
  | block _ type inner rest =>
    left
    obtain ⟨hopen, hinner, hclose, hrest⟩ := hbody.block
    rw [Body.add_size_block] at hscopes
    refine ⟨?_, ?_⟩
    · simp only [flatObserve, hopen, Config.observe, openInstr]
    unfold flatStep Config.step
    rw [hopen]
    refine enter_answers ha hframe hopen hclose hrest hscopes
      h.operands h.locals hinner (.inl rfl) fun hkind => ?_
    rw [if_pos hkind]
    exact ⟨at_nil, rfl⟩
  | ifElse type then_ else_ rest =>
    left
    obtain ⟨hopen, hthen, hmiddle, helse, hclose, hrest⟩ := hbody.ifElse
    rw [Body.add_size_ifElse] at hscopes
    refine ⟨?_, ?_⟩
    · simp only [flatObserve, hopen, Config.observe, openInstr]
    · unfold flatStep Config.step
      rw [hopen]
      exact enter_answers ha hframe hopen hclose hrest hscopes
        h.operands h.locals hthen (.inr ⟨rfl, hmiddle⟩) fun _ => ⟨helse, rfl⟩

end Waste.Exec
