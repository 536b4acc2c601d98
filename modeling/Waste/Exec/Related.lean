import Waste.Exec.Preserve
import Waste.Exec.Structured
import Waste.Types.Subtyping

/-!
# Frames and structured configurations

A frame and a structured configuration are `Related` when the instructions that are
left stand in the array at the program counter, every entry of the control stack has
the targets, the arity and the height of its scope, and the operands of all scopes
together are the operand stack.

The heights come from the validator: with the meaning `heights` of its types, `FrameOk`
says that the operands of the innermost scope are as many as the validator has counted.
Branches and exceptions then lead from related to related configurations
(`branch_answers`, `raise_answers`).
-/

namespace Waste.Exec

open Waste.Types Simulation List

variable {α β σ ε : Type}
variable {rest carried : List Value} {l : List (ExecInstr α β)} {f : Frame} {control : Control}
  {type : BlockType}

/-! ## Instructions in the array -/

section Placement

variable {types : TypeSection} {code : List (ExecInstr α β)} {pc : Nat}

/-- The instructions of a body stand in the array from `pc` on. -/
def At (types : TypeSection) (code : List (ExecInstr α β)) (pc : Nat) (body : Body α β) : Prop :=
  body.resolve types pc <+: code.drop pc

theorem at_nil : At types code pc .nil := nil_prefix

theorem getElem?_of_prefix {x : ExecInstr α β}
    (h : (x :: l) <+: code.drop pc) : code[pc]? = some x ∧ l <+: code.drop (pc + 1) := by
  obtain ⟨post, hpost⟩ := h
  refine ⟨getElem?_of_drop hpost.symm, ⟨post, ?_⟩⟩
  rw [← drop_drop, ← hpost]
  rfl

theorem prefix_append {r : List (ExecInstr α β)} (h : (l ++ r) <+: code.drop pc) :
    l <+: code.drop pc ∧ r <+: code.drop (pc + l.length) := by
  obtain ⟨post, hpost⟩ := h
  refine ⟨⟨r ++ post, by rw [← hpost, append_assoc]⟩, ⟨post, ?_⟩⟩
  rw [← drop_drop, ← hpost, append_assoc, drop_left]

theorem At.block {kind : BlockKind} {inner rest : Body α β}
    (h : At types code pc (.block kind type inner rest)) :
    code[pc]? = some (openInstr types kind type (if kind = .if_ then pc + 1 + inner.size else 0)
        (pc + 1 + inner.size)) ∧
      At types code (pc + 1) inner ∧ code[pc + 1 + inner.size]? = some { op := .end_ } ∧
      At types code (pc + 1 + inner.size + 1) rest := by
  obtain ⟨hopen, htail⟩ := getElem?_of_prefix h
  obtain ⟨hinner, htail⟩ := prefix_append htail
  rw [Body.length_resolve] at htail
  obtain ⟨hend, hrest⟩ := getElem?_of_prefix htail
  exact ⟨hopen, hinner, hend, hrest⟩

theorem At.ifElse {then_ else_ rest : Body α β}
    (h : At types code pc (.ifElse type then_ else_ rest)) :
    code[pc]? = some (openInstr types .if_ type (pc + 1 + then_.size + 1)
        (pc + 1 + then_.size + 1 + else_.size)) ∧ At types code (pc + 1) then_ ∧
      code[pc + 1 + then_.size]? =
        some { op := .else_, u32Imm := pc + 1 + then_.size + 1 + else_.size } ∧
      At types code (pc + 1 + then_.size + 1) else_ ∧
      code[pc + 1 + then_.size + 1 + else_.size]? = some { op := .end_ } ∧
      At types code (pc + 1 + then_.size + 1 + else_.size + 1) rest := by
  obtain ⟨hopen, htail⟩ := getElem?_of_prefix h
  obtain ⟨hthen, htail⟩ := prefix_append htail
  rw [Body.length_resolve] at htail
  obtain ⟨hmiddle, htail⟩ := getElem?_of_prefix htail
  obtain ⟨helse, htail⟩ := prefix_append htail
  rw [Body.length_resolve] at htail
  obtain ⟨hend, hrest⟩ := getElem?_of_prefix htail
  exact ⟨hopen, hthen, hmiddle, helse, hend, hrest⟩

theorem at_code {body : Body α β} (h : code = body.code types) :
    At types code 0 body ∧ code[body.size]? = some { op := .end_ } := by
  subst h
  refine ⟨List.prefix_append _ _, ?_⟩
  rw [← Body.length_resolve 0, Body.code, getElem?_concat_length]

end Placement

/-! ## Related configurations -/

section Relation

variable (types : TypeSection) (code : List (ExecInstr α β))

/-- An entry of the control stack stands for a scope inside `outer` whose body ends at
`pc`, with the `end` of the block or with the `else` of an `if`. -/
structure ScopeAt (control : Control) (scope : Scope α β) (outer : List (Scope α β)) (pc : Nat) :
    Prop where
  kind : control.kind = scope.kind
  height : control.stackHeight = (scope.below ++ belows outer).length
  arity : control.branchArity = scope.arity
  close : code[control.endPc]? = some { op := .end_ }
  leave : pc = control.endPc ∨
    (scope.kind = .if_ ∧ code[pc]? = some { op := .else_, u32Imm := control.endPc })
  rest : At types code (control.endPc + 1) scope.rest
  loop : scope.kind = .loop →
    At types code control.startPc scope.inner ∧ control.startPc + scope.inner.size = control.endPc

/-- The control stack and the scopes, from the innermost one, whose body ends at `pc`. -/
inductive ScopesAt : List Control → List (Scope α β) → Nat → Prop
  | nil {pc : Nat} (close : code[pc]? = some { op := .end_ }) : ScopesAt [] [] pc
  | cons {control : Control} {controls : List Control} {scope : Scope α β}
      {outer : List (Scope α β)} {pc : Nat} (scopeAt : ScopeAt types code control scope outer pc)
      (outerAt : ScopesAt controls outer (control.endPc + 1 + scope.rest.size)) :
      ScopesAt (control :: controls) (scope :: outer) pc

/-- A frame and a structured configuration. -/
structure Related (fr : Frame) (c : Config α β) : Prop where
  body : At types code fr.pc c.body
  scopes : ScopesAt types code fr.controls c.scopes (fr.pc + c.body.size)
  operands : fr.operands = c.operands ++ belows c.scopes
  locals : fr.locals = c.locals

end Relation

section Scopes

variable {types : TypeSection} {code : List (ExecInstr α β)} {pc : Nat} {controls : List Control}
  {scopes : List (Scope α β)}

theorem ScopesAt.length_eq (h : ScopesAt types code controls scopes pc) :
    controls.length = scopes.length := by
  induction h with
  | nil => rfl
  | cons _ _ ih => simp [ih]

theorem ScopesAt.drop (h : ScopesAt types code controls scopes pc) {j : Nat}
    {inner : List Control} (hdrop : controls.drop j = control :: inner) :
    ∃ scope outer pc', scopes.drop j = scope :: outer ∧ ScopeAt types code control scope outer pc' ∧
      ScopesAt types code inner outer (control.endPc + 1 + scope.rest.size) ∧
      ∃ above, belows scopes = above ++ (scope.below ++ belows outer) := by
  induction h generalizing j with
  | nil => simp at hdrop
  | @cons _ _ scope outer pc hscope houter ih =>
    cases j with
    | zero =>
      obtain ⟨rfl, rfl⟩ := cons.inj hdrop
      exact ⟨scope, outer, pc, rfl, hscope, houter, [], rfl⟩
    | succ j =>
      obtain ⟨scope', outer', pc', hdrop', hscope', houter', above, habove⟩ := ih hdrop
      refine ⟨scope', outer', pc', hdrop', hscope', houter', scope.below ++ above, ?_⟩
      show scope.below ++ belows outer = _
      rw [habove, append_assoc]

end Scopes

/-! ## Heights -/

/-- The meaning that only counts. -/
def heights (σ ε : Type) : Meaning σ ε where
  Holds _ _ := True
  Inv _ := True
  Raised _ := True
  Fine _ := True

theorem forall₂_heights {values : List Value} {types : List StackType}
    (h : values.length = types.length) : Forall₂ (heights σ ε).Holds values types := by
  induction values generalizing types with
  | nil =>
    obtain rfl := length_eq_zero_iff.1 h.symm
    exact .nil
  | cons _ values ih =>
    cases types with
    | nil => simp at h
    | cons _ types => exact .cons trivial (ih (Nat.succ.inj h))

/-- The surroundings of an activation are those the validator has seen, its handlers pop
and push as many values as the validator counts, and a call returns the results of its
function. -/
structure ActivationOk (C : Context α β) (a : Activation α β σ ε) : Prop where
  laws : Laws (heights σ ε) C a.handlers
  linked : Linked C a.prog
  engine : C.engine = a.engine
  results : C.results.length = a.results
  types : ∀ engine, AcceptedTypes C.types engine
  callee : ∀ engine func args s values s', a.callee engine func args s = (.values values, s') →
    values.length = (a.prog engine).resultCount func

variable {C : Context α β} {code : List (ExecInstr α β)} {A : Accepted C code}
  {a : Activation α β σ ε} {M : Meaning σ ε} {types : TypeSection} {v v' : ValidState} {fr : Frame}
  {c : Config α β} {pc : Nat} {s : σ} {scopes : List (Scope α β)}

theorem Fits.height_eq (h : Fits M A v fr)
    (hscopes : ScopesAt types code fr.controls scopes pc) : v.height = (belows scopes).length := by
  have hcontrols := h.controls
  generalize fr.controls = controls at hcontrols hscopes
  cases hscopes with
  | nil =>
    have hlabels := hcontrols.length_eq
    rw [length_labels, length_nil, eq_comm, length_eq_zero_iff] at hlabels
    simp [ValidState.height, hlabels, belows]
  | cons hscope _ =>
    obtain ⟨label, labels', hcontrol, -, hlabel⟩ := forall₂_cons_left_iff.1 hcontrols
    obtain ⟨block, blocks, hb, rfl, -⟩ := exists_block (j := 0) hlabel
    have hb : v.blocks = block :: blocks := hb
    have hheight : block.height = _ := hcontrol.height.symm.trans hscope.height
    simp [ValidState.height, hb, hheight, belows]

theorem Fits.split (h : Fits M A v { f with operands := rest })
    (hscopes : ScopesAt types code f.controls c.scopes pc) {popped : List Value}
    (hops : popped ++ rest = c.operands ++ belows c.scopes) :
    ∃ mid, c.operands = popped ++ mid ∧ rest = mid ++ belows c.scopes := by
  have hcontrols : ScopesAt types code { f with operands := rest }.controls c.scopes pc := hscopes
  have hheight : v.height = (belows c.scopes).length := h.height_eq hcontrols
  have hle : v.height ≤ rest.length := h.nested.height_le.trans_eq h.length_operands.symm
  rcases append_eq_append_iff.1 hops with ⟨mid, hmid, hrest⟩ | ⟨mid, hmid, hrest⟩
  · exact ⟨mid, hmid, hrest⟩
  · obtain rfl : mid = [] := by
      have hlen := congrArg length hrest
      rw [length_append] at hlen
      exact length_eq_zero_iff.1 (by omega)
    exact ⟨[], by simpa using hmid.symm, by simpa using hrest.symm⟩

/-! ## Branches -/

/-- The answers of the two machines. -/
abbrev Answers (types : TypeSection) (code : List (ExecInstr α β))
    (x : Progress Frame σ (Completion ε)) (y : Progress (Config α β) σ (Completion ε)) : Prop :=
  Matches (fun fr _ c => Related types code fr c) x y

theorem return_answers {results mid : List Value} (hops : fr.operands = results ++ rest)
    (hcops : c.operands = results ++ mid) (hlen : results.length = a.results) :
    Answers types code (settle a.results (.return_ fr s : Move σ ε)) (c.return_ a s) := by
  have hcollect : collectResults a.results fr = .ok results.reverse := by
    unfold collectResults
    rw [hops, ← hlen, if_neg (by rw [length_append]; omega), take_left]
  unfold settle Config.return_
  simp only [hcollect]
  rw [hcops, ← hlen, if_pos (by rw [length_append]; omega), take_left]
  exact ⟨rfl, rfl⟩

/-- What a jump to a label leaves on the operand stack. -/
theorem stackCarry_scope {scope : Scope α β} {outer : List (Scope α β)}
    (hscope : ScopeAt types code control scope outer pc) {above : List Value}
    (hrest : rest = above ++ (scope.below ++ belows outer))
    (harity : control.branchArity = carried.length)
    (hlen : (carried ++ rest).length ≤ execMaxStack) :
    stackCarry control.branchArity control.stackHeight (carried ++ rest) =
      some (carried ++ (scope.below ++ belows outer)) := by
  have hle : control.stackHeight ≤ rest.length := by
    rw [hscope.height, hrest]
    exact (suffix_append above _).length_le
  rw [harity, stackCarry_eq hle hlen, hscope.height, hrest, below_append (le_refl _),
    below_of_length_eq rfl]

theorem branch_answers (ha : ActivationOk C a)
    (h : Fits M A v { f with operands := rest }) {depth : Nat} {label : List ValType}
    (hlabel : resolveLabel C v depth = some label)
    (hcarried : carried.length = label.length) (hops : f.operands = carried ++ rest)
    (hbound : f.operands.length ≤ execMaxStack)
    (hscopes : ScopesAt types code f.controls c.scopes pc)
    (hcops : f.operands = c.operands ++ belows c.scopes) (hlocals : f.locals = c.locals) :
    Answers types code (settle a.results (branchTo a.results f depth s : Move σ ε))
      (c.branch a depth s) := by
  obtain ⟨mid, hcmid, hrest⟩ := h.split hscopes (hops.symm.trans hcops)
  have hblocks : f.controls.length = v.blocks.length := h.length_controls
  have hlength := hscopes.length_eq
  have hdepth := resolveLabel_le hlabel
  unfold branchTo Config.branch
  rw [if_neg (by omega), if_neg (by omega)]
  rcases resolveLabel_eq hlabel with ⟨label, outer, hdrop, rfl⟩ | ⟨heq, rfl, -⟩
  · -- a label of a block
    obtain ⟨control, controls, hcontrol, hok, -⟩ := h.controls_drop hdrop
    obtain ⟨scope, scopes, pc', hscopeDrop, hscope, houter, above, habove⟩ := hscopes.drop hcontrol
    have harity : control.branchArity = carried.length := hok.branchArity.trans hcarried.symm
    have hcarry : stackCarry control.branchArity control.stackHeight f.operands =
        some (carried ++ (scope.below ++ belows scopes)) := by
      rw [hops]
      have hbelow : rest = (mid ++ above) ++ (scope.below ++ belows scopes) := by
        rw [hrest, habove, append_assoc]
      exact stackCarry_scope hscope hbelow harity (hops ▸ hbound)
    have hscopeArity : scope.arity = carried.length := hscope.arity.symm.trans harity
    simp only [hcontrol, hscopeDrop, hcarry, hcmid, hscopeArity, take_left, hscope.kind]
    have henough : carried.length ≤ (carried ++ mid).length := by simp
    split_ifs with hloop
    · obtain ⟨hinner, hsize⟩ := hscope.loop hloop
      exact ⟨rfl, hinner, .cons { hscope with leave := .inl hsize } houter, rfl, hlocals⟩
    · exact ⟨rfl, hscope.rest, houter, (append_assoc _ _ _).symm, hlocals⟩
  · -- the label of the function
    rw [drop_eq_nil_of_le (by omega), drop_eq_nil_of_le (by omega)]
    have hresults : carried.length = a.results := hcarried.trans ha.results
    have hcarry := stackCarry_eq (Nat.zero_le rest.length) (hops ▸ hbound)
    rw [hresults, ← hops] at hcarry
    simp only [hcarry]
    exact return_answers rfl hcmid hresults

/-! ## Exceptions -/

theorem ScopesAt.findCatch {controls : List Control}
    (h : ScopesAt types code controls scopes pc) (x : ε) :
    (findCatch a.handlers a.engine x controls = none ∧ Config.findScope a x scopes = none) ∨
      ∃ j control clause inner scope outer,
        findCatch a.handlers a.engine x controls = some (control, clause, inner) ∧
        Config.findScope a x scopes = some (scope, clause, outer) ∧
        controls.drop j = control :: inner ∧ scopes.drop j = scope :: outer ∧
        ∃ catches, control.kind = .tryTable catches ∧ clause ∈ catches ∧
          a.handlers.catches a.engine clause x = true := by
  induction h with
  | nil => exact .inl ⟨rfl, rfl⟩
  | @cons control controls scope outer _ hscope _ ih =>
    unfold Exec.findCatch Config.findScope
    rw [hscope.kind]
    have hskip : (Exec.findCatch a.handlers a.engine x controls = none ∧
        Config.findScope a x outer = none) ∨
        ∃ j control' clause inner scope' outer',
          Exec.findCatch a.handlers a.engine x controls = some (control', clause, inner) ∧
          Config.findScope a x outer = some (scope', clause, outer') ∧
          (control :: controls).drop j = control' :: inner ∧
          (scope :: outer).drop j = scope' :: outer' ∧
          ∃ catches, control'.kind = .tryTable catches ∧ clause ∈ catches ∧
            a.handlers.catches a.engine clause x = true := by
      rcases ih with hnone | ⟨j, hfound⟩
      · exact .inl hnone
      · exact .inr ⟨j + 1, hfound⟩
    cases hkind : scope.kind with
    | tryTable catches =>
      simp only
      cases hfind : catches.find? (a.handlers.catches a.engine · x) with
      | none => exact hskip
      | some clause =>
        have hcatches : a.handlers.catches a.engine clause x = true := by
          simpa using find?_some hfind
        exact .inr ⟨0, control, clause, controls, scope, outer, rfl, rfl, rfl, rfl, catches,
          hscope.kind.trans hkind, mem_of_find?_eq_some hfind, hcatches⟩
    | block | loop | if_ => exact hskip

/-- The jump of a clause, when its payload is on the stack, ends as a branch does. -/
theorem settle_catch {depth : Nat} (hdepth : depth ≤ f.controls.length)
    (hcarry : ∀ target outer, f.controls.drop depth = target :: outer →
      ∃ operands, stackCarry target.branchArity target.stackHeight f.operands = some operands)
    (hreturn : f.controls.drop depth = [] →
      ∃ results rest, f.operands = results ++ rest ∧ results.length = a.results ∧
        f.operands.length ≤ execMaxStack) :
    settle a.results (match f.controls.drop depth with
      | [] => .return_ f s
      | target :: outer =>
        match stackCarry target.branchArity target.stackHeight f.operands with
        | none => .fault (.trap "catch branch values missing") s
        | some operands =>
          if target.kind = .loop then
            .next { f with
              pc := target.startPc, operands := operands, controls := target :: outer } s
          else
            .next { f with
              pc := target.endPc + 1, operands := operands, controls := outer } s : Move σ ε) =
      settle a.results (branchTo a.results f depth s) := by
  unfold branchTo
  rw [if_neg (by omega)]
  cases hdrop : f.controls.drop depth with
  | nil =>
    obtain ⟨results, rest, hops, hlen, hbound⟩ := hreturn hdrop
    have hzero := stackCarry_eq (Nat.zero_le rest.length) (hops ▸ hbound)
    rw [hlen, ← hops] at hzero
    simp only [hzero, settle, collectResults]
    rw [hops, if_neg (by rw [length_append]; omega),
      if_neg (by rw [length_append]; omega), ← hlen, take_left, take_left]
  | cons target outer =>
    obtain ⟨operands, hoperands⟩ := hcarry target outer hdrop
    simp only [hoperands]

theorem raise_answers (ha : ActivationOk C a) (h : Fits (heights σ ε) A v fr)
    (hscopes : ScopesAt types code fr.controls c.scopes pc)
    (hcops : fr.operands = c.operands ++ belows c.scopes) (hlocals : fr.locals = c.locals)
    (x : ε) (s : σ) :
    Answers types code (settle a.results (handleException a.handlers a.engine fr x s))
      (c.raise a x s) := by
  unfold handleException Config.raise
  rcases hscopes.findCatch (a := a) x with ⟨hcatch, hscope⟩ |
    ⟨j, control, clause, inner, scope, outer, hcatch, hscope, hdrop, hsdrop, catches, hkind,
      hclause, hcatches⟩
  · simp only [hcatch, hscope]
    exact ⟨rfl, rfl⟩
  simp only [hcatch, hscope]
  obtain ⟨label, target, payload, hok, hbase, hresolve, hpayload, hchecked⟩ :=
    h.clause hdrop hkind hclause
  have hblocks : inner.length = (label.base v).blocks.length := hbase.length_controls
  have hdepth := (resolveLabel_le hresolve).trans_eq hblocks.symm
  rw [if_neg (by omega)]
  obtain ⟨scope', outer', pc', hsdrop', hscopeAt, houterAt, above, habove⟩ := hscopes.drop hdrop
  obtain ⟨rfl, rfl⟩ := cons.inj (hsdrop.symm.trans hsdrop')
  have hbelow : fr.operands.drop (fr.operands.length - control.stackHeight) =
      scope.below ++ belows outer := by
    show below control.stackHeight fr.operands = _
    rw [hcops, habove, ← append_assoc, hscopeAt.height, below_append (le_refl _),
      below_of_length_eq rfl]
  have hcaughtOk := ha.laws.caught clause payload x s hpayload
    (by rw [ha.engine]; exact hcatches) trivial trivial
  rw [ha.engine] at hcaughtOk
  cases hcaught : a.handlers.caught a.engine clause x s with
  | error _ => exact ⟨rfl, rfl⟩
  | ok reply =>
    obtain ⟨s', values⟩ := reply
    rw [hcaught] at hcaughtOk
    have hvalues : values.length = target.length := by
      rw [hcaughtOk.2.length_eq, length_onStack, (allSame_iff.1 hchecked).length_eq]
    simp only [hbelow]
    cases hpush : stackPushAll values (scope.below ++ belows outer) with
    | none => exact ⟨rfl, rfl⟩
    | some operands =>
      have hfits : Fits (heights σ ε) A (label.base v)
          { fr with operands := scope.below ++ belows outer, controls := inner } := by
        have hsame : below label.height fr.operands = scope.below ++ belows outer := by
          rw [← hok.height]
          exact hbelow
        exact hsame ▸ hbase
      obtain ⟨rfl, hbound⟩ := eq_of_stackPushAll hpush hfits.bounded
      have hsettle := settle_catch (a := a) (s := s')
        (f := { fr with operands := values ++ (scope.below ++ belows outer), controls := inner })
        hdepth ?_ ?_
      · exact (congrArg (Answers types code · _) hsettle).mpr (branch_answers ha hfits
          hresolve hvalues rfl hbound houterAt (append_assoc _ _ _).symm hlocals)
      · intro control' controls' hdrop'
        have hdrop' : inner.drop clause.depth = control' :: controls' := hdrop'
        rcases resolveLabel_eq hresolve with ⟨label', rest', hlabel', rfl⟩ | ⟨heq, -, -⟩
        · obtain ⟨operands, hcarry, -⟩ := hfits.carry { fr with controls := inner } hlabel' hdrop'
            (forall₂_heights (by rw [hvalues, length_onStack])) hbound
          exact ⟨operands, hcarry⟩
        · rw [drop_eq_nil_of_le (by omega)] at hdrop'
          simp at hdrop'
      · intro hnil
        rcases resolveLabel_eq hresolve with ⟨label', rest', hlabel', rfl⟩ | ⟨-, rfl, -⟩
        · obtain ⟨control', controls', hdrop', -⟩ := hfits.controls_drop hlabel'
          rw [hnil] at hdrop'
          simp at hdrop'
        · exact ⟨values, _, rfl, hvalues.trans ha.results, hbound⟩

end Waste.Exec
