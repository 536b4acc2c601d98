import Waste.Exec.Accepted
import Waste.Types.Equiv

/-!
# Frames that fit a state of the validator

`Fits` relates a frame of the interpreter to a state of the validator: the operands
hold the types of the stack one by one, and every entry of the control stack is the
label of the same block, with its height, its arities and the states at its jump
targets.

What it means for a value to hold a type is the parameter `Meaning`, so that the
same argument gives the soundness of the types and, with a meaning that holds
always, the agreement of the heights alone.
-/

namespace Waste.Exec

open Waste.Types List Option Prod

variable {α β σ ε : Type}
variable {types : List StackType} {controls : List Control}
  {rest operands carried stack : List Value} {n : Nat} {expected : List ValType}
  {control : Control} {type : StackType}

/-! ## Pops and pushes on reachable code -/

section Reachable

variable {C : Context α β} {v v' : ValidState}

theorem pop_reachable (hr : v.unreachable = false) (h : v.pop = some (type, v')) :
    v.stack = type :: v'.stack ∧ v' = { v with stack := v'.stack } ∧
      v.height ≤ v'.stack.length := by
  unfold ValidState.pop at h
  split at h
  · rename_i top stack hstack
    split at h
    · rename_i hlt
      obtain ⟨rfl, rfl⟩ := mk.inj (some.inj h)
      rw [hstack, length_cons] at hlt
      exact ⟨hstack, rfl, by show v.height ≤ stack.length; omega⟩
    · simp [hr] at h
  · simp [hr] at h

theorem unreachable_with_stack (v : ValidState) (stack : List StackType) :
    ({ v with stack := stack } : ValidState).unreachable = v.unreachable := rfl

theorem popN_length (h : v.popN n = some (types, v')) : types.length = n := by
  induction n generalizing v types with
  | zero =>
    obtain ⟨rfl, rfl⟩ := mk.inj (some.inj h)
    rfl
  | succ n ih =>
    simp only [ValidState.popN, bind_eq_bind, bind_eq_some_iff] at h
    obtain ⟨⟨top, v1⟩, -, ⟨tops, v2⟩, hpops, h⟩ := h
    obtain ⟨rfl, rfl⟩ := mk.inj (some.inj h)
    rw [length_cons, ih hpops]

theorem popN_reachable (hr : v.unreachable = false) (h : v.popN n = some (types, v')) :
    types.length = n ∧ v.stack = types ++ v'.stack ∧ v' = { v with stack := v'.stack } := by
  induction n generalizing v types with
  | zero =>
    obtain ⟨rfl, rfl⟩ := mk.inj (some.inj h)
    exact ⟨rfl, rfl, rfl⟩
  | succ n ih =>
    simp only [ValidState.popN, bind_eq_bind, bind_eq_some_iff] at h
    obtain ⟨⟨top, v1⟩, hpop, ⟨tops, v2⟩, hpops, h⟩ := h
    obtain ⟨rfl, rfl⟩ := mk.inj (some.inj h)
    obtain ⟨hstack, hv1, -⟩ := pop_reachable hr hpop
    have hr1 : v1.unreachable = false := by rw [hv1, unreachable_with_stack, hr]
    obtain ⟨hlen, hstack1, hv2⟩ := ih hr1 hpops
    refine ⟨by simp [hlen], by rw [hstack, hstack1, cons_append], ?_⟩
    rw [hv2, hv1]

theorem popEach_reachable (hr : v.unreachable = false) {types : List ValType}
    (h : popEach C types v = some v') :
    ∃ actual, Forall₂ (fun t expected => accepts C t expected = true) actual types ∧
      v.stack = actual ++ v'.stack ∧ v' = { v with stack := v'.stack } := by
  induction types generalizing v with
  | nil =>
    obtain rfl := some.inj h
    exact ⟨[], .nil, rfl, rfl⟩
  | cons _ types ih =>
    obtain ⟨v1, hfirst, h⟩ := bind_eq_some_iff.1 h
    obtain ⟨⟨top, v2⟩, hpop, hif⟩ := bind_eq_some_iff.1 hfirst
    obtain ⟨haccepts, hif⟩ := ite_none_right_eq_some.1 hif
    obtain rfl := some.inj hif
    obtain ⟨hstack, hv2, -⟩ := pop_reachable hr hpop
    have hr2 : v2.unreachable = false := by rw [hv2, unreachable_with_stack, hr]
    obtain ⟨actual, hactual, hstack', hv'⟩ := ih hr2 h
    refine ⟨top :: actual, .cons haccepts hactual, by rw [hstack, hstack', cons_append], ?_⟩
    rw [hv', hv2]

end Reachable

/-! ## The operand stack -/

variable {values : List Value}

theorem stackPushAll_eq (h : values = [] ∨ values.length + stack.length ≤ execMaxStack) :
    stackPushAll values stack = some (values ++ stack) := by
  induction values with
  | nil => rfl
  | cons _ values ih =>
    simp only [length_cons, cons_ne_nil, false_or] at h
    rw [stackPushAll, ih (.inr (by omega)), bind_some, stackPush, if_neg]
    · rfl
    · rw [length_append]
      omega

theorem eq_of_stackPushAll (h : stackPushAll values stack = some operands)
    (hstack : stack.length ≤ execMaxStack) :
    operands = values ++ stack ∧ operands.length ≤ execMaxStack := by
  induction values generalizing operands with
  | nil =>
    obtain rfl := some.inj h
    exact ⟨rfl, hstack⟩
  | cons _ values ih =>
    obtain ⟨mid, hmid, h⟩ := bind_eq_some_iff.1 h
    obtain ⟨rfl, -⟩ := ih hmid
    unfold stackPush at h
    split at h
    · simp at h
    · obtain rfl := some.inj h
      refine ⟨rfl, ?_⟩
      simp only [length_cons]
      omega

theorem stackPopN_append {popped : List Value} (h : popped.length = n) :
    stackPopN n (popped ++ rest) = some (popped, rest) := by
  subst h
  simp [stackPopN]

/-- `stack_carry` keeps what is on top and drops what is between. -/
theorem stackCarry_eq {height : Nat} (hheight : height ≤ rest.length)
    (hlen : (carried ++ rest).length ≤ execMaxStack) :
    stackCarry carried.length height (carried ++ rest) = some (carried ++ below height rest) := by
  rw [length_append] at hlen
  unfold stackCarry
  rw [if_neg (by rw [length_append]; omega), take_left]
  show stackPushAll carried (below height (carried ++ rest)) = _
  rw [below_append hheight, stackPushAll_eq]
  right
  rw [length_below hheight]
  omega

/-! ## Frames and states -/

/-- What the types of the validator mean at run time, which states of the engine and
which exceptions are well formed, and which faults may occur. -/
structure Meaning (σ ε : Type) where
  Holds : Value → StackType → Prop
  Inv : σ → Prop
  Raised : ε → Prop
  Fine : Fault → Prop

variable {C : Context α β} {code : List (ExecInstr α β)}

/-- An entry of the control stack stands for a label. -/
structure ControlOk (A : Accepted C code) (control : Control) (label : Label) : Prop where
  kind : control.kind = label.kind
  height : control.stackHeight = label.height
  branchArity : control.branchArity = label.types.length
  endArity : control.endArity = label.results.length
  leave : A.state (control.endPc + 1) = some label.exit
  loop : label.kind = .loop → A.state control.startPc = some label.target

/-- A frame, apart from its program counter, is as a state of the validator says. -/
structure Fits (M : Meaning σ ε) (A : Accepted C code) (v : ValidState) (fr : Frame) : Prop where
  nested : v.Nested
  reachable : v.unreachable = false
  operands : List.Forall₂ M.Holds fr.operands v.stack
  bounded : fr.operands.length ≤ execMaxStack
  controls : List.Forall₂ (ControlOk A) fr.controls (labels v)
  live : ∀ label ∈ labels v, label.exit.unreachable = false
  catches : ∀ label ∈ labels v, ∀ catches, label.kind = .tryTable catches →
    validateCatches C catches label.exit = true
  locals : List.Forall₂ (fun value type => M.Holds value (.type type)) fr.locals
    (C.params ++ C.locals)

namespace Fits

variable {M : Meaning σ ε} {A : Accepted C code} {v v' : ValidState} {fr : Frame}

section

variable (h : Fits M A v fr)
include h

theorem length_operands : fr.operands.length = v.stack.length :=
  h.operands.length_eq

theorem length_controls : fr.controls.length = v.blocks.length := by
  rw [h.controls.length_eq, length_labels]

theorem withPc {pc : Nat} : Fits M A v { fr with pc := pc } :=
  { h with }

theorem of_level (hlevel : SameLevel v v') (hr : v'.unreachable = false)
    (hops : Forall₂ M.Holds operands v'.stack) (hlen : operands.length ≤ execMaxStack) :
    Fits M A v' { fr with operands := operands } := by
  have hlabels := hlevel.labels_eq
  exact ⟨hlevel.nested', hr, hops, hlen, hlabels ▸ h.controls, hlabels ▸ h.live,
    hlabels ▸ h.catches, h.locals⟩

theorem pops (hlevel : SameLevel v v')
    (hstack : v.stack = types ++ v'.stack) (hv' : v' = { v with stack := v'.stack }) :
    ∃ popped rest, fr.operands = popped ++ rest ∧ popped.length = types.length ∧
      Forall₂ M.Holds popped types ∧ Fits M A v' { fr with operands := rest } := by
  have hops := h.operands
  rw [hstack] at hops
  have hlen := hops.length_eq
  rw [length_append] at hlen
  have hr : v'.unreachable = false := by rw [hv', unreachable_with_stack, h.reachable]
  have hbounded := h.bounded
  refine ⟨fr.operands.take types.length, fr.operands.drop types.length,
    (take_append_drop _ _).symm, ?_, forall₂_take_append _ _ _ hops,
    h.of_level hlevel hr (forall₂_drop_append _ _ _ hops) ?_⟩
  · rw [length_take]
    omega
  · rw [length_drop]
    omega

theorem popN (hpop : v.popN n = some (types, v')) :
    ∃ popped rest, fr.operands = popped ++ rest ∧ popped.length = n ∧
      Forall₂ M.Holds popped types ∧ Fits M A v' { fr with operands := rest } := by
  obtain ⟨hlen, hstack, hv'⟩ := popN_reachable h.reachable hpop
  have := h.pops (popN_sameLevel h.nested hpop) hstack hv'
  rwa [hlen] at this

theorem pop (hpop : v.pop = some (type, v')) :
    ∃ value rest, fr.operands = value :: rest ∧ M.Holds value type ∧
      Fits M A v' { fr with operands := rest } := by
  have hpopN : v.popN 1 = some ([type], v') := by simp [ValidState.popN, hpop]
  obtain ⟨popped, rest, hops, -, hpopped, hfits⟩ := h.popN hpopN
  obtain ⟨value, popped, hholds, hnil, rfl⟩ := forall₂_cons_right_iff.1 hpopped
  obtain rfl := forall₂_nil_right_iff.1 hnil
  exact ⟨value, rest, hops, hholds, hfits⟩

theorem pushAll (hpush : v.pushAll types = some v') (hvalues : Forall₂ M.Holds values types) :
    stackPushAll values fr.operands = some (values ++ fr.operands) ∧
      Fits M A v' { fr with operands := values ++ fr.operands } := by
  obtain ⟨hv', hle⟩ := pushAll_eq hpush
  have hlen := hvalues.length_eq
  have hroom : values = [] ∨ values.length + fr.operands.length ≤ execMaxStack := by
    cases types with
    | nil => exact .inl (forall₂_nil_right_iff.1 hvalues)
    | cons _ types =>
      right
      rw [hlen, h.length_operands]
      exact hle (by simp)
  have hr : v'.unreachable = false := by rw [hv', unreachable_with_stack, h.reachable]
  have hops : Forall₂ M.Holds (values ++ fr.operands) v'.stack := by
    rw [hv']
    exact rel_append hvalues h.operands
  refine ⟨stackPushAll_eq hroom, h.of_level (pushAll_sameLevel h.nested hpush) hr hops ?_⟩
  rw [length_append]
  rcases hroom with rfl | hroom
  · simpa using h.bounded
  · exact hroom

theorem push {type : StackType} {value : Value} (hpush : v.push type = some v')
    (hvalue : M.Holds value type) :
    stackPush value fr.operands = some (value :: fr.operands) ∧
      Fits M A v' { fr with operands := value :: fr.operands } := by
  have hpush : v.pushAll [type] = some v' := hpush
  exact h.pushAll hpush (.cons hvalue .nil)

end

end Fits

/-- A value keeps its types under the subtyping of the validator. -/
def Meaning.Subsumes (M : Meaning σ ε) (C : Context α β) : Prop :=
  ∀ value type expected, M.Holds value type → accepts C type expected = true →
    M.Holds value (.type expected)

variable {M : Meaning σ ε}

theorem Meaning.Subsumes.forall₂ (hM : M.Subsumes C) {actual : List StackType}
    (hvalues : Forall₂ M.Holds values actual) (haccepts : Forall₂ (fun t e => accepts C t e = true)
      actual expected) :
    Forall₂ M.Holds values (expected.map .type) := by
  induction hvalues generalizing expected with
  | nil =>
    obtain rfl := forall₂_nil_left_iff.1 haccepts
    exact .nil
  | cons hvalue _ ih =>
    obtain ⟨e, es, haccept, hrest, rfl⟩ := forall₂_cons_left_iff.1 haccepts
    exact .cons (hM _ _ _ hvalue haccept) (ih hrest)

namespace Fits

variable {M : Meaning σ ε} {A : Accepted C code} {v v' : ValidState} {fr : Frame}

theorem popTypes (hM : M.Subsumes C) (h : Fits M A v fr) {types : List ValType}
    (hpop : popTypes C types v = some v') :
    ∃ popped rest, fr.operands = popped ++ rest ∧ popped.length = types.length ∧
      Forall₂ M.Holds popped (onStack types) ∧ Fits M A v' { fr with operands := rest } := by
  obtain ⟨actual, haccepts, hstack, hv'⟩ := popEach_reachable h.reachable hpop
  obtain ⟨popped, rest, hops, hlen, hpopped, hfits⟩ :=
    h.pops (popTypes_sameLevel h.nested hpop) hstack hv'
  refine ⟨popped, rest, hops, ?_, hM.forall₂ hpopped haccepts, hfits⟩
  rw [hlen, haccepts.length_eq, length_reverse]

theorem popType (hM : M.Subsumes C) (h : Fits M A v fr) {type : ValType}
    (hpop : popType C type v = some v') :
    ∃ value rest, fr.operands = value :: rest ∧ M.Holds value (.type type) ∧
      Fits M A v' { fr with operands := rest } := by
  obtain ⟨⟨actual, v1⟩, hfirst, hif⟩ := bind_eq_some_iff.1 hpop
  obtain ⟨haccept, hif⟩ := ite_none_right_eq_some.1 hif
  obtain rfl := some.inj hif
  obtain ⟨value, rest, hops, hholds, hfits⟩ := h.pop hfirst
  exact ⟨value, rest, hops, hM _ _ _ hholds haccept, hfits⟩

end Fits

/-! ## What a step keeps -/

/-- A frame at an `end` that closes an `if` and is reached by the jump of an `else` or
of a false condition: without its innermost control it is as the validator says
behind the `end`. -/
structure AtEnd (M : Meaning σ ε) (A : Accepted C code) (v : ValidState) (fr : Frame)
    (control : Control) (controls : List Control) (label : Label) (outer : List Label) : Prop where
  instr : ∃ instr, code[fr.pc]? = some instr ∧ instr.op = .end_
  labels_eq : labels v = label :: outer
  controls_eq : fr.controls = control :: controls
  kind : label.kind = .if_
  control : ControlOk A control label
  fits : Fits M A label.exit { fr with controls := controls }

/-- The invariant of a running frame. -/
def FrameOk (M : Meaning σ ε) (A : Accepted C code) (fr : Frame) : Prop :=
  ∃ v, A.state fr.pc = some v ∧
    (Fits M A v fr ∨ ∃ control controls label outer, AtEnd M A v fr control controls label outer)

/-- Before the first instruction only the locals matter. -/
theorem frameOk_start {A : Accepted C code} {locals : List Value}
    (h : Forall₂ (fun value type => M.Holds value (.type type)) locals
      (C.params ++ C.locals)) :
    FrameOk M A { pc := 0, operands := [], controls := [], locals := locals } := by
  refine ⟨.initial C, A.state_zero, .inl ?_⟩
  exact ⟨nested_initial, rfl, .nil, Nat.zero_le _, .nil,
    by simp [labels, labelsOf, ValidState.initial],
    by simp [labels, labelsOf, ValidState.initial], h⟩

def ReturnOk (M : Meaning σ ε) (C : Context α β) (fr : Frame) : Prop :=
  ∃ results rest, fr.operands = results ++ rest ∧ List.Forall₂ M.Holds results (onStack C.results)

/-- What a handler that stays in the frame must guarantee. -/
def MoveOk (M : Meaning σ ε) (A : Accepted C code) : Move σ ε → Prop
  | .next fr s => FrameOk M A fr ∧ M.Inv s
  | .return_ fr s => ReturnOk M C fr ∧ M.Inv s
  | .fault x _ => M.Fine x
  | .throw x s => M.Raised x ∧ M.Inv s

namespace Fits

variable {M : Meaning σ ε} {A : Accepted C code} {v v' : ValidState} {fr : Frame}

theorem frameOk (h : Fits M A v fr) (hstate : A.state fr.pc = some v) : FrameOk M A fr :=
  ⟨v, hstate, .inl h⟩

variable {j : Nat} {label : Label} {outer : List Label}

theorem controls_drop (h : Fits M A v fr) (hlabel : (labels v).drop j = label :: outer) :
    ∃ control controls, fr.controls.drop j = control :: controls ∧ ControlOk A control label ∧
      Forall₂ (ControlOk A) controls outer := by
  have hdrop := forall₂_drop j h.controls
  rw [hlabel, forall₂_cons_right_iff] at hdrop
  obtain ⟨control, controls, hcontrol, hrest, hdrop⟩ := hdrop
  exact ⟨control, controls, hdrop, hcontrol, hrest⟩

theorem below_operands (h : Fits M A v fr) {height : Nat} :
    Forall₂ M.Holds (below height fr.operands) (below height v.stack) := by
  unfold below
  rw [h.length_operands]
  exact forall₂_drop _ h.operands

theorem mem_drop_labels (hlabel : (labels v).drop j = label :: outer) {l : Label}
    (hl : l ∈ label :: outer) : l ∈ labels v :=
  mem_of_mem_drop (hlabel ▸ hl)

/-- A frame that has left some blocks fits a state with the labels around them. -/
theorem leave (h : Fits M A v fr) {u : ValidState} (hnested : u.Nested)
    (hr : u.unreachable = false) (hlabels : labels u ⊆ labels v)
    (hops : Forall₂ M.Holds operands u.stack) (hlen : operands.length ≤ execMaxStack)
    (hcontrols : Forall₂ (ControlOk A) controls (labels u)) :
    Fits M A u { fr with operands := operands, controls := controls } :=
  ⟨hnested, hr, hops, hlen, hcontrols, fun l hl => h.live l (hlabels hl),
    fun l hl => h.catches l (hlabels hl), h.locals⟩

/-- The jump to a label: the carried values replace everything above the block. -/
theorem carry (fr : Frame) (h : Fits M A v { fr with operands := rest })
    (hlabel : (labels v).drop j = label :: outer)
    (hdrop : fr.controls.drop j = control :: controls)
    (hcarried : Forall₂ M.Holds carried (onStack label.types))
    (hlen : (carried ++ rest).length ≤ execMaxStack) :
    ∃ operands, stackCarry control.branchArity control.stackHeight (carried ++ rest) =
        some operands ∧
      (control.kind = .loop → FrameOk M A
        { fr with pc := control.startPc, operands := operands, controls := control :: controls }) ∧
      (control.kind ≠ .loop → FrameOk M A
        { fr with pc := control.endPc + 1, operands := operands, controls := controls }) := by
  obtain ⟨control', controls', hdrop', hok, hrest⟩ := h.controls_drop hlabel
  obtain ⟨rfl, rfl⟩ := cons.inj (hdrop.symm.trans hdrop')
  have hle : label.height ≤ rest.length := by
    have := label_height_le h.nested hlabel
    rwa [← h.length_operands] at this
  have harity : control.branchArity = carried.length := by
    rw [hok.branchArity, hcarried.length_eq, length_onStack]
  refine ⟨carried ++ below label.height rest, ?_, ?_⟩
  · rw [harity, hok.height]
    exact stackCarry_eq hle hlen
  have hops : Forall₂ M.Holds (carried ++ below label.height rest) label.target.stack := by
    rw [target_stack hlabel]
    exact rel_append hcarried h.below_operands
  have hbounded : (carried ++ below label.height rest).length ≤ execMaxStack := by
    rw [length_append] at hlen ⊢
    rw [length_below hle]
    omega
  have hr := target_reachable hlabel (h.live label (mem_drop_labels hlabel (by simp)))
  have hlabels := labels_target h.nested hlabel
  have hsub : label :: outer ⊆ labels v := fun l hl => mem_drop_labels hlabel hl
  have hnested := nested_target h.nested hlabel
  refine ⟨fun hloop => ?_, fun hloop => ?_⟩
  · rw [hok.kind] at hloop
    rw [if_pos hloop] at hlabels
    refine frameOk ?_ (hok.loop hloop)
    exact (h.leave hnested hr (hlabels ▸ hsub) hops hbounded (hlabels ▸ .cons hok hrest)).withPc
  · rw [hok.kind] at hloop
    rw [if_neg hloop] at hlabels
    refine frameOk ?_ ((target_eq_exit hlabel hloop).symm ▸ hok.leave)
    exact (h.leave hnested hr (hlabels ▸ (cons_subset.1 hsub).2) hops hbounded
      (hlabels ▸ hrest)).withPc

theorem branchTo (fr : Frame) (h : Fits M A v { fr with operands := rest }) {depth : Nat}
    {types : List ValType} (hlabel : resolveLabel C v depth = some types)
    (hcarried : Forall₂ M.Holds carried (onStack types))
    (hops : fr.operands = carried ++ rest) (hlen : fr.operands.length ≤ execMaxStack) {s : σ}
    (hs : M.Inv s) : MoveOk M A (branchTo C.results.length fr depth s : Move σ ε) := by
  have hcontrols : fr.controls.length = v.blocks.length := h.length_controls
  have hdepth := resolveLabel_le hlabel
  unfold Exec.branchTo
  rw [if_neg (by omega)]
  rcases resolveLabel_eq hlabel with ⟨label, outer, hdrop, rfl⟩ | ⟨heq, rfl, -⟩
  · obtain ⟨control, controls, hcontrol, -⟩ := h.controls_drop hdrop
    rw [show fr.controls.drop depth = control :: controls from hcontrol]
    obtain ⟨operands, hcarry, hloop, hexit⟩ := h.carry fr hdrop hcontrol hcarried (hops ▸ hlen)
    simp only [hops, hcarry]
    split_ifs with hkind
    · exact ⟨hloop hkind, hs⟩
    · exact ⟨hexit hkind, hs⟩
  · -- the label of the function: the frame returns
    rw [drop_eq_nil_of_le (by omega)]
    have hresults : C.results.length = carried.length := by
      rw [hcarried.length_eq, length_onStack]
    have hcarry := stackCarry_eq (Nat.zero_le rest.length) (hops ▸ hlen)
    simp only [hops, hresults, hcarry]
    exact ⟨⟨carried, _, rfl, hcarried⟩, hs⟩

end Fits

/-! ## Exceptions -/

/-- The rule of an instruction describes its handler: as many operands are popped,
the values that are pushed hold the types the rule pushes, and operands the handler
refuses are one of the allowed faults. -/
structure PlainOk (M : Meaning σ ε) (rule : Rule) (handler : Handler σ ε) : Prop where
  pops : handler.pops = rule.pops
  refuses : ∀ popped types pushed, List.Forall₂ M.Holds popped types →
    rule.check types = some pushed → handler.accepts popped = false →
    M.Fine (.operandMissing handler.missing)
  computes : ∀ popped types pushed s, popped.length = rule.pops →
    List.Forall₂ M.Holds popped types → rule.check types = some pushed →
    handler.accepts popped = true → M.Inv s →
    match handler.compute s popped with
    | .ok s' values => M.Inv s' ∧ List.Forall₂ M.Holds values pushed
    | .fault x _ => M.Fine x
    | .throw x s' => M.Raised x ∧ M.Inv s'

/-- The same for an instruction that decides a branch.  A branch that is taken does
not need more room than the operands it pops leave. -/
structure BranchOk (M : Meaning σ ε) (rule : BranchRule) (handler : BranchHandler σ) : Prop where
  pops : handler.pops = rule.pops
  room : ∀ types taken fall, rule.check types = some (taken, fall) → taken.length ≤ rule.pops
  refuses : ∀ popped types taken fall, List.Forall₂ M.Holds popped types →
    rule.check types = some (taken, fall) → handler.accepts popped = false →
    M.Fine (.operandMissing handler.missing)
  computes : ∀ popped types taken fall s, popped.length = rule.pops →
    List.Forall₂ M.Holds popped types → rule.check types = some (taken, fall) →
    handler.accepts popped = true → M.Inv s →
    match handler.compute s popped with
    | (true, values) => List.Forall₂ M.Holds values (onStack taken)
    | (false, values) => List.Forall₂ M.Holds values fall

/-- What the handlers of an engine must keep.  The validator of an instruction and its
handler are two entries of one table. -/
structure Laws (M : Meaning σ ε) (C : Context α β) (H : Handlers α β σ ε) : Prop where
  subsumes : M.Subsumes C
  trap : ∀ text, M.Fine (.trap text)
  /-- The payload of an exception may not fit on the stack. -/
  overflow : ∀ x, M.Raised x → M.Fine .stackOverflow
  caught : ∀ clause types x s, C.catchTypes? clause = some types →
    H.catches C.engine clause x = true → M.Raised x → M.Inv s →
    match H.caught C.engine clause x s with
    | .error fault => M.Fine fault
    | .ok (s', values) => M.Inv s' ∧ List.Forall₂ M.Holds values (onStack types)
  plain : ∀ op, PlainOk M (C.rule op) (H.plain C.engine op)
  /-- An instruction behind which the code is unreachable does not complete. -/
  ends : ∀ op, (C.rule op).ends = true → ∀ s popped s' values,
    (H.plain C.engine op).compute s popped ≠ .ok s' values
  branch : ∀ op, BranchOk M (C.branchRule op) (H.branch C.engine op)
  slot : ∀ table type value s x, C.tableOperand? table = some type →
    M.Holds value (.type type) → M.Inv s → H.slot C.engine table value s = .error x → M.Fine x

theorem findCatch_eq {H : Handlers α β σ ε} {engine : Nat} {x : ε} {outer : List Control}
    {clause : Catch} (h : findCatch H engine x controls = some (control, clause, outer)) :
    ∃ i catches, controls.drop i = control :: outer ∧ control.kind = .tryTable catches ∧
      clause ∈ catches ∧ H.catches engine clause x = true := by
  induction controls with
  | nil => simp [findCatch] at h
  | cons first rest ih =>
    have hrest (h' : findCatch H engine x rest = some (control, clause, outer)) :
        ∃ i catches, (first :: rest).drop i = control :: outer ∧
          control.kind = .tryTable catches ∧ clause ∈ catches ∧
          H.catches engine clause x = true := by
      obtain ⟨i, catches, hdrop, hfacts⟩ := ih h'
      exact ⟨i + 1, catches, hdrop, hfacts⟩
    unfold findCatch at h
    split at h
    · rename_i catches hkind
      split at h
      · rename_i found hfind
        obtain ⟨rfl, rfl, rfl⟩ : first = control ∧ found = clause ∧ rest = outer := by
          simpa using h
        have hcatches : H.catches engine found x = true := by simpa using find?_some hfind
        exact ⟨0, catches, rfl, hkind, mem_of_find?_eq_some hfind, hcatches⟩
      · exact hrest h
    · exact hrest h

theorem accepts_of_compat {type expected : ValType}
    (h : globalTypeIsCompat C.types C.engine type C.engine expected false = true) :
    accepts C (.type type) expected = true := by
  simp [accepts, acceptsStack, acceptsType, h]

theorem Meaning.Subsumes.compat (hM : M.Subsumes C) {types : List ValType}
    (hvalues : Forall₂ M.Holds values (onStack types))
    (h : allSame (fun type e => globalTypeIsCompat C.types C.engine type C.engine e false) types
      expected = true) : Forall₂ M.Holds values (onStack expected) := by
  refine hM.forall₂ hvalues ?_
  rw [onStack, forall₂_map_left_iff, forall₂_reverse_iff]
  exact (allSame_iff.1 h).imp fun type e hle => accepts_of_compat hle

namespace Fits

variable {M : Meaning σ ε} {A : Accepted C code} {H : Handlers α β σ ε} {v : ValidState}
  {fr : Frame}

theorem atLabel (h : Fits M A v fr) {j : Nat} {label : Label} {outer : List Label}
    (hlabel : (labels v).drop j = label :: outer)
    (hcontrols : Forall₂ (ControlOk A) controls outer) :
    Fits M A (label.base v)
      { fr with operands := below label.height fr.operands, controls := controls } := by
  have hlabels := labels_base h.nested hlabel
  have hle : label.height ≤ fr.operands.length := by
    rw [h.length_operands]
    exact label_height_le h.nested hlabel
  refine h.leave (nested_base h.nested hlabel) ?_ ?_ h.below_operands ?_ ?_
  · exact h.live label (mem_drop_labels hlabel (by simp))
  · rw [hlabels]
    exact fun l hl => mem_drop_labels hlabel (mem_cons_of_mem _ hl)
  · rw [length_below hle]
    exact le_trans hle h.bounded
  · rw [hlabels]
    exact hcontrols

/-- A clause that catches was checked where its block was opened. -/
theorem clause (h : Fits M A v fr) {i : Nat} {control : Control} {catches : List Catch}
    {clause : Catch} (hdrop : fr.controls.drop i = control :: controls)
    (hkind : control.kind = .tryTable catches) (hclause : clause ∈ catches) :
    ∃ label types payload, ControlOk A control label ∧
      Fits M A (label.base v)
        { fr with operands := below label.height fr.operands, controls := controls } ∧
      resolveLabel C (label.base v) clause.depth = some types ∧
      C.catchTypes? clause = some payload ∧
      allSame (fun type e => globalTypeIsCompat C.types C.engine type C.engine e false) payload
        types = true := by
  have hforall := forall₂_drop i h.controls
  rw [hdrop, forall₂_cons_left_iff] at hforall
  obtain ⟨label, outer, hok, hcontrols, hlabel⟩ := hforall
  have hvalid := h.catches label (mem_drop_labels hlabel (by simp)) catches
    (hok.kind.symm.trans hkind)
  have hchecked := all_eq_true.1 hvalid clause hclause
  split at hchecked
  · next types payload htypes hpayload =>
    exact ⟨label, types, payload, hok, h.atLabel hlabel hcontrols, htypes, hpayload, hchecked⟩
  · simp at hchecked

theorem handleException (hL : Laws M C H) (h : Fits M A v fr) {x : ε} (hx : M.Raised x) {s : σ}
    (hs : M.Inv s) : MoveOk M A (handleException H C.engine fr x s) := by
  unfold Exec.handleException
  cases hfind : findCatch H C.engine x fr.controls with
  | none => exact ⟨hx, hs⟩
  | some found =>
    obtain ⟨control, clause, controls⟩ := found
    obtain ⟨i, catches, hdrop, hkind, hclause, hcatches⟩ := findCatch_eq hfind
    obtain ⟨label, types, payload, hok, hbase, hresolve, hpayload, hchecked⟩ :=
      h.clause hdrop hkind hclause
    simp only
    split
    · exact hL.trap _
    have hcaught := hL.caught clause payload x s hpayload hcatches hx hs
    cases hvalues : H.caught C.engine clause x s with
    | error _ =>
      rw [hvalues] at hcaught
      exact hcaught
    | ok reply =>
      obtain ⟨s', values⟩ := reply
      rw [hvalues] at hcaught
      obtain ⟨hs', hpayload⟩ := hcaught
      have hholds := hL.subsumes.compat hpayload hchecked
      simp only
      rw [show fr.operands.drop (fr.operands.length - control.stackHeight) =
        below label.height fr.operands by rw [hok.height]; rfl]
      cases hpush : stackPushAll values (below label.height fr.operands) with
      | none => exact hL.overflow x hx
      | some operands =>
        obtain ⟨rfl, hbounded⟩ := eq_of_stackPushAll hpush hbase.bounded
        rcases resolveLabel_eq hresolve with ⟨target, rest, htarget, rfl⟩ | ⟨heq, rfl, -⟩
        · obtain ⟨control', controls', hdrop', -⟩ := hbase.controls_drop htarget
          obtain ⟨operands, hcarry, hloop, hexit⟩ :=
            hbase.carry { fr with controls := controls } htarget hdrop' hholds hbounded
          have hdrop'' : controls.drop clause.depth = control' :: controls' := hdrop'
          simp only [hdrop'', hcarry]
          split_ifs with hloops
          · exact ⟨hloop hloops, hs'⟩
          · exact ⟨hexit hloops, hs'⟩
        · have hnil : controls.drop clause.depth = [] := by
            have hblocks : controls.length = (label.base v).blocks.length := hbase.length_controls
            exact drop_eq_nil_of_le (by omega)
          simp only [hnil]
          exact ⟨⟨values, _, rfl, hholds⟩, hs'⟩

end Fits

end Waste.Exec
