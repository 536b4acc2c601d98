import Waste.Exec.Fits

/-!
# Every handler keeps the invariant of a frame

`dispatch_ok`: when a frame is as the validator says before an instruction, it is so
after the instruction, whatever the handler does: go on, jump, return, or hand a call
to the instruction loop.
-/

namespace Waste.Exec

open Waste.Types Bool List Option

variable {α β σ ε : Type} {C : Context α β} {code : List (ExecInstr α β)} {M : Meaning σ ε}
  {A : Accepted C code} {H : Handlers α β σ ε} {prog : Nat → Module α β} {v v' : ValidState}
  {fr : Frame} {instr : ExecInstr α β} {s : σ}
variable {control : Control} {depths : List Nat} {fallback : Nat}

/-- What the validator and the interpreter read from the modules is the same. -/
structure Linked (C : Context α β) (prog : Nat → Module α β) : Prop where
  types : C.types = typeStore prog
  typeIndex : ∀ func, C.typeIndex? func = (prog C.engine).typeIndex? func

/-- The target of a call is a function of the engine or an element of a table, and it
has the expected type or a subtype of it. -/
structure TargetOk (C : Context α β) (H : Handlers α β σ ε) (prog : Nat → Module α β)
    (engine func type actual : Nat) : Prop where
  typeIndex : (prog engine).typeIndex? func = some actual
  owner : engine = C.engine ∨ ∃ table value s, H.slot C.engine table value s = .ok (engine, func)
  subtype : (engine = C.engine ∧ actual = type) ∨
    funcTypeIsSubtype C.types ⟨engine, actual⟩ ⟨C.engine, type⟩ = true

/-- A call whose arguments have been popped. -/
structure SiteOk (M : Meaning σ ε) (A : Accepted C code) (H : Handlers α β σ ε)
    (prog : Nat → Module α β) (engine func : Nat) (args : List Value) (fr : Frame) (type : Nat)
    (params results : List ValType) (v : ValidState) : Prop where
  target : ∃ actual, TargetOk C H prog engine func type actual
  signature : signature? C type = some (params, results)
  args : List.Forall₂ (fun value type => M.Holds value (.type type)) args params
  fits : Fits M A v fr

/-- What a handler must guarantee. -/
def ActionOk (M : Meaning σ ε) (A : Accepted C code) (H : Handlers α β σ ε)
    (prog : Nat → Module α β) : Action σ ε → Prop
  | .move move => MoveOk M A move
  | .call engine func args fr => ∃ type params results v,
      SiteOk M A H prog engine func args fr type params results v ∧
        ∃ v', v.pushTypes results = some v' ∧ A.state (fr.pc + 1) = some v'
  | .tail engine func args fr => ∃ type params results v,
      SiteOk M A H prog engine func args fr type params results v ∧ allSame (fun type expected =>
          globalTypeIsCompat C.types C.engine type C.engine expected false) results C.results = true

theorem FrameOk.fits (h : FrameOk M A fr) (hinstr : code[fr.pc]? = some instr)
    (hop : instr.op ≠ .end_) : ∃ v, A.state fr.pc = some v ∧ Fits M A v fr := by
  obtain ⟨v, hstate, hfits | ⟨_, _, _, _, hat⟩⟩ := h
  · exact ⟨v, hstate, hfits⟩
  · obtain ⟨instr', hinstr', hend⟩ := hat.instr
    obtain rfl := some.inj (hinstr.symm.trans hinstr')
    exact absurd hend hop

theorem Fits.advance (h : Fits M A v fr) (hstate : A.state (fr.pc + 1) = some v) :
    FrameOk M A fr.advance :=
  (h.withPc).frameOk hstate

/-! ## Brackets -/

variable {rest : List Value} {kind : BlockKind} {params results : List ValType}
  {depth index type : Nat} {γ δ : Type} {l : List γ} {r : List δ} {tail : Bool}

theorem executeOpEnd_next {controls : List Control}
    (hcontrols : fr.controls = control :: controls) {results : List Value}
    (hops : fr.operands = results ++ rest) (hresults : control.endArity = results.length)
    (hrest : control.stackHeight = rest.length) (hlen : fr.operands.length ≤ execMaxStack) :
    (executeOpEnd fr s : Move σ ε) = .next { fr with controls := controls }.advance s := by
  have hcarry : stackCarry control.endArity control.stackHeight fr.operands = some fr.operands := by
    rw [hresults, hrest, hops, stackCarry_eq (le_refl _) (hops ▸ hlen), below_of_length_eq rfl]
  unfold executeOpEnd
  rw [hcontrols]
  simp only [hcarry]
  rw [if_neg]
  rw [hresults, hrest, hops, length_append]
  omega

variable {f : γ → Option δ}

theorem resolveLabel_sameLevel (hlevel : SameLevel v v') (depth : Nat) :
    resolveLabel C v' depth = resolveLabel C v depth := by
  have hblock := congrArg (·[depth]?) hlevel.erase
  simp only [getElem?_map] at hblock
  unfold resolveLabel
  rw [hlevel.length_blocks]
  split
  · rfl
  cases hb : v.blocks[depth]? with
  | none =>
    rw [hb, map_none, map_eq_none_iff] at hblock
    rw [hblock]
  | some _ =>
    rw [hb, map_some, map_eq_some_iff] at hblock
    obtain ⟨block', hb', herase⟩ := hblock
    rw [hb', BlockControl.eq_of_erase herase]

theorem SameLevel.label (hlevel : SameLevel v v') (h : resolveLabel C v depth = some types) :
    resolveLabel C v' depth = some types :=
  (resolveLabel_sameLevel hlevel depth).trans h

theorem Fits.opened {v0 : ValidState} {carried : List Value}
    (h : Fits M A v0 { fr with operands := rest })
    (hcarried : Forall₂ M.Holds carried (onStack params))
    (hlen : (carried ++ rest).length ≤ execMaxStack)
    (hok : ControlOk A control (openedLabel kind params results v0))
    (hcatches : ∀ catches, kind = .tryTable catches → validateCatches C catches v0 = true) :
    Fits M A (opened kind params results v0)
      { fr with operands := carried ++ rest, controls := control :: fr.controls } := by
  have hlabels := labels_opened h.nested kind params results
  refine ⟨h.nested.opened kind params results, rfl, rel_append hcarried h.operands, hlen,
    hlabels ▸ .cons hok h.controls, ?_, ?_, h.locals⟩
  · rw [hlabels]
    intro label hmem
    rcases mem_cons.1 hmem with rfl | hmem
    · exact h.reachable
    · exact h.live label hmem
  · rw [hlabels]
    intro label hmem catches hkind
    rcases mem_cons.1 hmem with rfl | hmem
    · exact hcatches catches hkind
    · exact h.catches label hmem catches hkind

section

variable (hL : Laws M C H)
include hL

/-- With the results of a block on top of the stack, and nothing else above its
height, the frame without the block is as behind its `end`. -/
theorem Fits.exit (h : Fits M A v fr) {block : BlockControl} {outer : List BlockControl}
    (hb : v.blocks = block :: outer) (hpopResults : popResults C block v = some v') :
    ∃ control controls results rest, fr.controls = control :: controls ∧
      ControlOk A control (block.label outer v) ∧ fr.operands = results ++ rest ∧
      results.length = block.results.length ∧ rest.length = block.height ∧
      Fits M A (block.exit outer v) { fr with controls := controls } := by
  obtain ⟨hpop, hstack, -⟩ := popResults_eq h.nested hb hpopResults
  obtain ⟨results, rest, hops, hlen, hresults, hrest⟩ := h.popTypes hL.subsumes hpop
  have hlabel : (labels v).drop 0 = block.label outer v :: labelsOf v outer := labels_cons hb
  obtain ⟨control, controls, hcontrols, hok, hrestok⟩ := h.controls_drop hlabel
  have hheight : rest.length = block.height := by
    have hlength : rest.length = v'.stack.length := hrest.length_operands
    rw [hlength, hstack, h.nested.length_below (j := 0) hb]
  refine ⟨control, controls, results, rest, hcontrols, hok, hops, hlen, hheight, ?_⟩
  have hlabels : labels (block.exit outer v) = labelsOf v outer := labels_exit_eq h.nested hlabel
  refine h.leave (h.nested.exit (j := 0) hb) ?_ ?_ ?_ h.bounded (hlabels.symm ▸ hrestok)
  · exact h.live (block.label outer v) (labels_cons hb ▸ mem_cons_self)
  · rw [hlabels, labels_cons hb]
    exact subset_cons_self _ _
  · rw [hops]
    have hbelow : Forall₂ M.Holds rest (below block.height v.stack) := hstack ▸ hrest.operands
    exact rel_append hresults hbelow

/-- At an `end`: the results of the function, or those of a block, are all that is above
its height, and the frame goes on behind the block. -/
theorem FrameOk.end_cases (h : FrameOk M A fr) (hinstr : code[fr.pc]? = some instr)
    (hop : instr.op = .end_) :
    (fr.controls = [] ∧ Forall₂ M.Holds fr.operands (onStack C.results)) ∨
      ∃ control controls, fr.controls = control :: controls ∧
        (∀ s : σ, (executeOpEnd fr s : Move σ ε) =
        .next { fr with controls := controls }.advance s) ∧
          FrameOk M A ({ fr with controls := controls } : Frame).advance := by
  obtain ⟨v, hstate, hfits | ⟨control, controls, label, outer, hat⟩⟩ := h
  · rcases A.state_cases hstate hinstr with ⟨-, hnil, hend⟩ | ⟨v', hnext, hstate'⟩
    · -- the `end` of the function
      have hcontrols : fr.controls = [] :=
        length_eq_zero_iff.1 (by rw [hfits.length_controls, hnil, length_nil])
      unfold validateFuncEnd at hend
      split at hend
      · simp at hend
      rename_i v' hpop
      obtain ⟨popped, rest, hops, -, hpopped, hrest⟩ := hfits.popTypes hL.subsumes hpop
      have hempty : rest = [] := length_eq_zero_iff.1
        (hrest.length_operands.trans (length_eq_zero_iff.2 (isEmpty_iff.1 hend)))
      rw [hempty, append_nil] at hops
      exact .inl ⟨hcontrols, hops ▸ hpopped⟩
    · -- the `end` of a block
      rw [hop] at hnext
      obtain ⟨block, outer, hb, hend⟩ := validateInstr_end_next hnext
      obtain ⟨rfl, ⟨v1, hpopResults⟩, -⟩ := validateBlockEnd_eq hfits.nested hb hend
      obtain ⟨control, controls, results, rest, hcontrols, hok, hops, hlen, hheight, hexit⟩ :=
        hfits.exit hL hb hpopResults
      refine .inr ⟨control, controls, hcontrols, fun s => ?_, hexit.advance hstate'⟩
      exact executeOpEnd_next hcontrols hops (hok.endArity.trans hlen.symm)
        (hok.height.trans hheight.symm) hfits.bounded
  · -- an `end` reached by a jump
    have hexit := exit_stack (j := 0) hat.labels_eq
    have hlen : fr.operands.length = label.results.length + label.height := by
      have hlength : fr.operands.length = label.exit.stack.length := hat.fits.length_operands
      rw [hlength, hexit, length_append, length_onStack,
        length_below (label_height_le (j := 0) (A.nested hstate) hat.labels_eq)]
    have hend (s : σ) : (executeOpEnd fr s : Move σ ε) =
        .next { fr with controls := controls }.advance s :=
      executeOpEnd_next hat.controls_eq (take_append_drop label.results.length fr.operands).symm
        (by rw [hat.control.endArity, length_take]; omega)
        (by rw [hat.control.height, length_drop]; omega) hat.fits.bounded
    rcases A.state_cases hstate hinstr with ⟨-, hnil, -⟩ | ⟨v', hnext, hstate'⟩
    · exact absurd hnil (Accepted.ne_nil_of_labels hat.labels_eq)
    · rw [hop] at hnext
      obtain rfl := validateInstr_end_eq (A.nested hstate) hat.labels_eq hnext
      exact .inr ⟨control, controls, hat.controls_eq, hend, hat.fits.advance hstate'⟩

theorem executeOpEnd_ok (h : FrameOk M A fr) (hinstr : code[fr.pc]? = some instr)
    (hop : instr.op = .end_) (hs : M.Inv s) : MoveOk M A (executeOpEnd fr s : Move σ ε) := by
  rcases h.end_cases hL hinstr hop with ⟨hcontrols, hresults⟩ | ⟨-, controls, -, hend, hframe⟩
  · unfold executeOpEnd
    rw [hcontrols]
    exact ⟨⟨fr.operands, [], (append_nil _).symm, hresults⟩, hs⟩
  · rw [hend]
    exact ⟨hframe, hs⟩

theorem Fits.blockHead (h : Fits M A v fr) (hhead : validateBlockHead C kind v = some v') :
    ∃ condition operands, blockCondition kind fr.operands = some (condition, operands) ∧
      (condition = false → kind = .if_) ∧ Fits M A v' { fr with operands := operands } := by
  cases kind with
  | if_ =>
    obtain ⟨value, rest, hops, -, hfits⟩ := h.popType hL.subsumes hhead
    exact ⟨_, rest, by rw [hops]; rfl, fun _ => rfl, hfits⟩
  | tryTable _ =>
    obtain ⟨-, hsome⟩ := ite_none_right_eq_some.1 hhead
    obtain rfl := some.inj hsome
    exact ⟨true, fr.operands, rfl, nofun, h⟩
  | block | loop =>
    obtain rfl := some.inj hhead
    exact ⟨true, fr.operands, rfl, nofun, h⟩

theorem executeOpBlock_ok (h : FrameOk M A fr) (hinstr : code[fr.pc]? = some instr)
    {type : BlockType} (hop : instr.op = .block kind type) (hs : M.Inv s) :
    MoveOk M A (executeOpBlock instr kind fr s : Move σ ε) := by
  obtain ⟨v, hstate, hfits⟩ := h.fits hinstr (by simp [hop])
  obtain ⟨params, results, v1, v0, hfacts⟩ := A.blockFacts hstate hinstr hop
  obtain ⟨condition, operands, hcondition, hfalse, hfits1⟩ := hfits.blockHead hL hfacts.head
  obtain ⟨carried, rest, hops, hlen, hcarried, hfits0⟩ := hfits1.popTypes hL.subsumes hfacts.popped
  have hops : operands = carried ++ rest := hops
  have hheight : rest.length = v0.stack.length := hfits0.length_operands
  have hdepth : fr.controls.length < execMaxControl :=
    hfits0.length_controls.trans_lt hfacts.depth
  have hlevel1 := validateBlockHead_sameLevel hfits.nested hfacts.head
  have hlevel := hlevel1.trans (popTypes_sameLevel hlevel1.nested' hfacts.popped)
  unfold executeOpBlock
  rw [hcondition]
  simp only
  rw [if_neg (by omega), hfacts.paramCount, if_neg (by rw [hops, length_append, hlen]; omega)]
  have hstack : operands.length - params.length = v0.stack.length := by
    rw [hops, length_append, hlen, ← hheight]
    omega
  rw [hstack, hfacts.resultCount]
  have hok : ControlOk A
      { kind := kind, startPc := fr.pc + 1, endPc := instr.simdOp, stackHeight := v0.stack.length
        branchArity := if kind = .loop then params.length else results.length
        endArity := results.length }
      (openedLabel kind params results v0) := by
    refine ⟨rfl, rfl, ?_, rfl, hfacts.leave, fun hloop => ?_⟩
    · simp only [openedLabel]
      split <;> rfl
    · have hkind : kind = .loop := hloop
      simp only [openedLabel, hkind, if_true]
      exact hkind ▸ hfacts.enter
  have hcatches : ∀ catches, kind = .tryTable catches → validateCatches C catches v0 = true := by
    rintro catches rfl
    simp only [validateCatches, resolveLabel_sameLevel hlevel]
    exact (ite_none_right_eq_some.1 hfacts.head).1
  have hinside := hfits0.opened hcarried (hops ▸ hfits1.bounded) hok hcatches
  rw [← hops] at hinside
  refine ⟨?_, hs⟩
  cases condition with
  | true => exact (hinside.withPc).frameOk hfacts.enter
  | false =>
    -- the condition of an `if` is false
    obtain rfl := hfalse rfl
    obtain ⟨w, hw⟩ := hfacts.other rfl
    refine ⟨w, hw.state, ?_⟩
    have hnested := A.nested hw.state
    rcases hw.place with ⟨hr, hstackw⟩ | ⟨hsame, hend⟩
    · left
      have hlabels : labels w = labels (opened .if_ params results v0) :=
        hw.labels_eq.trans (labels_opened hfits0.nested .if_ params results).symm
      refine ⟨hnested, hr, hstackw ▸ hinside.operands, hinside.bounded, hlabels ▸ hinside.controls,
        hlabels ▸ hinside.live, hlabels ▸ hinside.catches, hinside.locals⟩
    · right
      have hfitsExit : Fits M A (openedLabel .if_ params results v0).exit
          { fr with operands := operands } := by
        have hlevel0 : SameLevel v0 (openedLabel .if_ params results v0).exit :=
          .pushed hfits0.nested _
        have hops' : Forall₂ M.Holds operands (onStack results ++ v0.stack) := by
          rw [hops, ← hsame]
          exact rel_append hcarried hfits0.operands
        exact hfits0.of_level hlevel0 hfits0.reachable hops' hfits1.bounded
      exact ⟨_, _, _, _, hend, hw.labels_eq, rfl, rfl, hok, hfitsExit.withPc⟩

theorem executeOpElse_ok (h : FrameOk M A fr) (hinstr : code[fr.pc]? = some instr)
    (hop : instr.op = .else_) (hs : M.Inv s) :
    MoveOk M A (executeOpElse instr fr s : Move σ ε) := by
  obtain ⟨v, hstate, hfits⟩ := h.fits hinstr (by simp [hop])
  obtain ⟨block, outer, v1, w, hb, hkind, hpopResults, hw, hlabels, hend⟩ :=
    A.elseFacts hstate hinstr hop
  obtain ⟨control, controls, -, -, hcontrols, hok, -, -, -, hexit⟩ := hfits.exit hL hb hpopResults
  exact ⟨⟨w, hw, .inr ⟨control, controls, block.label outer v, labelsOf v outer, hend,
    hlabels.trans (labels_cons hb), hcontrols, hkind, hok, hexit.withPc⟩⟩, hs⟩

end

/-! ## Label tables, locals and call sites -/

theorem onStack_append (l r : List ValType) : onStack (l ++ r) = onStack r ++ onStack l := by
  simp [onStack]

theorem forall₂_of_mapM (h : l.mapM f = some r) : Forall₂ (fun a b => f a = some b) l r := by
  induction l generalizing r with
  | nil =>
    obtain rfl := some.inj h
    exact .nil
  | cons x l ih =>
    simp only [mapM_cons, bind_eq_bind, bind_eq_some_iff] at h
    obtain ⟨b, hb, bs, hbs, hr⟩ := h
    obtain rfl := some.inj hr
    exact .cons hb (ih hbs)

theorem forall₂_getElem? {R : γ → δ → Prop} (h : Forall₂ R l r) {i : Nat} {a : γ}
    (ha : l[i]? = some a) : ∃ b, r[i]? = some b ∧ R a b := by
  induction h generalizing i with
  | nil => simp at ha
  | cons hab _ ih =>
    cases i with
    | zero =>
      obtain rfl := some.inj ha
      exact ⟨_, rfl, hab⟩
    | succ i => exact ih ha

theorem mem_of_mapM (h : l.mapM f = some r) {a : γ} (ha : a ∈ l) : ∃ b ∈ r, f a = some b := by
  obtain ⟨i, hi⟩ := getElem?_of_mem ha
  obtain ⟨b, hb, hab⟩ := forall₂_getElem? (forall₂_of_mapM h) hi
  exact ⟨b, mem_of_getElem? hb, hab⟩

theorem accepts_of_acceptsLabel {operands : List StackType} {label : List ValType}
    (hlen : operands.length = label.length) (h : acceptsLabel C operands label = true) :
    Forall₂ (fun t e => accepts C t e = true) operands label.reverse := by
  rw [← forall₂_reverse_iff, reverse_reverse, forall₂_iff_zip]
  refine ⟨by simpa using hlen, fun {t e} hmem => ?_⟩
  have hpair := all_eq_true.1 h (t, e) hmem
  cases t with
  | bottom => rfl
  | type type => exact accepts_of_compat hpair

/-- Every label of a `br_table` takes the operands that the validator pops. -/
theorem validateOpBrTable_eq (h : validateOpBrTable C depths fallback v = some v') :
    ∃ v1 types v2, popType C .i32 v = some v1 ∧ v1.popN types.length = some (types, v2) ∧
      ∀ depth ∈ depths ++ [fallback], ∃ label, resolveLabel C v1 depth = some label ∧
        types.length = label.length ∧ acceptsLabel C types label = true := by
  simp only [validateOpBrTable, bind_eq_bind, bind_eq_some_iff] at h
  obtain ⟨v1, hpop, labels, hlabels, h⟩ := h
  obtain ⟨hcount, h⟩ := ite_none_left_eq_some.1 h
  obtain ⟨⟨types, v2⟩, hpopN, h⟩ := bind_eq_some_iff.1 h
  obtain ⟨haccepts, -⟩ := ite_none_right_eq_some.1 h
  have hlen := popN_length hpopN
  refine ⟨v1, types, v2, hpop, hlen ▸ hpopN, fun depth hdepth => ?_⟩
  obtain ⟨label, hmem, hlabel⟩ := mem_of_mapM hlabels hdepth
  refine ⟨label, hlabel, ?_, all_eq_true.1 haccepts label hmem⟩
  rw [hlen]
  by_contra hne
  exact hcount (any_eq_true.2 ⟨label, hmem, by simpa using fun heq => hne heq.symm⟩)

theorem selected_mem {i : Nat} : (depths[i]?).getD fallback ∈ depths ++ [fallback] := by
  cases hget : depths[i]? with
  | none => simp
  | some _ => simp [mem_of_getElem? hget]

theorem Fits.local_ (h : Fits M A v fr) {type : ValType} (htype : localType? C index = some type) :
    ∃ value, fr.locals[index]? = some value ∧ M.Holds value (.type type) :=
  forall₂_getElem? h.locals.flip htype

theorem Fits.setLocal (h : Fits M A v fr) {type : ValType} (htype : localType? C index = some type)
    {value : Value} (hholds : M.Holds value (.type type)) :
    Fits M A v { fr with locals := fr.locals.set index value } := by
  refine { h with locals := ?_ }
  refine forall₂_of_length_eq_of_get ?_ ?_
  · rw [length_set]
    exact h.locals.length_eq
  intro i hi hi'
  simp only [get_eq_getElem, getElem_set]
  split
  · rename_i heq
    subst heq
    obtain ⟨hlt, hget⟩ := List.getElem?_eq_some_iff.1 htype
    rw [hget]
    exact hholds
  · rw [length_set] at hi
    exact h.locals.get hi hi'

theorem validateCallee_eq (h : validateCallee C tail type v = some v') :
    ∃ params results v1, signature? C type = some (params, results) ∧
      popTypes C params v = some v1 ∧
      (if tail then
        allSame (fun type expected =>
          globalTypeIsCompat C.types C.engine type C.engine expected false) results C.results = true
      else v1.pushTypes results = some v') := by
  simp only [validateCallee, bind_eq_bind, bind_eq_some_iff] at h
  obtain ⟨⟨params, results⟩, hsig, v1, hpop, h⟩ := h
  refine ⟨params, results, v1, hsig, hpop, ?_⟩
  cases tail with
  | true => exact (ite_none_right_eq_some.1 h).1
  | false => exact h

theorem paramCount_eq (hlink : Linked C prog) (hsig : signature? C type = some (params, results)) :
    paramCount prog C.engine type = params.length := by
  obtain ⟨defined, hget, hpair⟩ := map_eq_some_iff.1 hsig
  rw [hlink.types] at hget
  have hget : (prog C.engine).types[type]? = some defined := hget
  rw [paramCount, hget, map_some, getD_some, (Prod.mk.inj hpair).1]

theorem popArgs_append {n : Nat} {popped : List Value} (h : popped.length = n) {missing : String} :
    popArgs missing n (popped ++ rest) = .ok (popped.reverse, rest) := by
  unfold popArgs
  rw [stackPopN_append h]

theorem ok_bind (a : γ) (f : γ → Except Fault δ) : (.ok a >>= f) = f a := rfl

theorem error_bind (x : Fault) (f : γ → Except Fault δ) : (.error x >>= f) = .error x := rfl

theorem exists_of_bind_eq_ok {x : Except Fault γ} {f : γ → Except Fault δ} {b : δ}
    (h : (x >>= f) = .ok b) : ∃ a, x = .ok a ∧ f a = .ok b := by
  cases x with
  | error x => simp [error_bind] at h
  | ok a => exact ⟨a, rfl, h⟩

theorem callSite_eq {engine func : Nat} {operands args rest : List Value}
    (htype : (prog engine).typeIndex? func = some type)
    (hpop : popArgs "call arguments missing" (paramCount prog engine type) operands =
      .ok (args, rest)) : callSite prog engine func operands = .ok ⟨engine, func, args, rest⟩ := by
  unfold callSite
  rw [htype]
  simp only [hpop]
  rfl

theorem checkTarget_eq (hlink : Linked C prog) (range mismatch : String) (type : Nat)
    (target : Nat × Nat) :
    (∃ text, checkTarget prog range mismatch C.engine type target = .error (.trap text)) ∨
      (checkTarget prog range mismatch C.engine type target = .ok () ∧
        ∃ actual, (prog target.1).typeIndex? target.2 = some actual ∧
          funcTypeIsSubtype C.types ⟨target.1, actual⟩ ⟨C.engine, type⟩ = true) := by
  unfold checkTarget
  cases hindex : (prog target.1).typeIndex? target.2 with
  | none => exact .inl ⟨range, rfl⟩
  | some actual =>
    simp only
    split
    · rename_i hsub
      rw [← hlink.types] at hsub
      exact .inr ⟨rfl, actual, rfl, hsub⟩
    · exact .inl ⟨mismatch, rfl⟩

section

variable (hL : Laws M C H)
include hL

/-- What an accepted branch of the table does with its operands.  The values of a branch
that is taken go on top of those that the label carries. -/
theorem Fits.brOn (h : Fits M A v fr) {op : β} (hvalid : validateOpBrOn C op depth v = some v')
    (hs : M.Inv s) :
    ∃ popped operands v1, fr.operands = popped ++ operands ∧
      popped.length = (H.branch C.engine op).pops ∧ Fits M A v1 { fr with operands := operands } ∧
      ((H.branch C.engine op).accepts popped = false →
        M.Fine (.operandMissing (H.branch C.engine op).missing)) ∧
      ∀ branches values, (H.branch C.engine op).accepts popped = true →
        (H.branch C.engine op).compute s popped = (branches, values) →
        stackPushAll values operands = some (values ++ operands) ∧
          (branches = false → Fits M A v' { fr with operands := values ++ operands }) ∧
          (branches = true → values.length + operands.length ≤ execMaxStack ∧
            ∃ v2 label carried rest, operands = carried ++ rest ∧
              resolveLabel C v2 depth = some label ∧
              Forall₂ M.Holds (values ++ carried) (onStack label) ∧
              Fits M A v2 { fr with operands := rest }) := by
  simp only [validateOpBrOn, bind_eq_bind, bind_eq_some_iff] at hvalid
  obtain ⟨⟨types, v1⟩, hpopN, ⟨taken, fall⟩, hcheck, label, hlabel, hvalid⟩ := hvalid
  obtain ⟨-, hvalid⟩ := ite_none_left_eq_some.1 hvalid
  obtain ⟨hcompat, hvalid⟩ := ite_none_right_eq_some.1 hvalid
  obtain ⟨v2, hpops, hvalid⟩ := bind_eq_some_iff.1 hvalid
  obtain ⟨v3, hpush, hfall⟩ := bind_eq_some_iff.1 hvalid
  obtain ⟨popped, operands, hops, hlen, hpopped, hfits1⟩ := h.popN hpopN
  obtain ⟨carried, rest, hops1, -, hcarried, hfits2⟩ := hfits1.popTypes hL.subsumes hpops
  refine ⟨popped, operands, v1, hops, hlen.trans (hL.branch op).pops.symm, hfits1,
    (hL.branch op).refuses popped types taken fall hpopped hcheck,
      fun branches values haccept hcompute => ?_⟩
  have hbranch := (hL.branch op).computes popped types taken fall s hlen hpopped hcheck haccept hs
  rw [hcompute] at hbranch
  cases branches with
  | false =>
    obtain ⟨-, hfits3⟩ := hfits2.pushAll hpush hcarried
    rw [← hops1] at hfits3
    obtain ⟨hpushed, hfits'⟩ := hfits3.pushAll hfall hbranch
    exact ⟨hpushed, fun _ => hfits', nofun⟩
  | true =>
    have hvalues : values.length ≤ popped.length := by
      rw [hbranch.length_eq, length_onStack, hlen]
      exact (hL.branch op).room types taken fall hcheck
    have hroom : values.length + operands.length ≤ execMaxStack := by
      have hbounded := h.bounded
      rw [hops, length_append] at hbounded
      omega
    refine ⟨stackPushAll_eq (.inr hroom), nofun, fun _ => ⟨hroom, v2, label, carried, rest, hops1,
      (popTypes_sameLevel hfits1.nested hpops).label hlabel, ?_, hfits2⟩⟩
    have hcount : (label.take (label.length - taken.length)).length =
        label.length - taken.length := by
      rw [length_take]
      omega
    have hsplit : onStack label = onStack (label.drop (label.take
        (label.length - taken.length)).length) ++
        onStack (label.take (label.length - taken.length)) := by
      rw [← onStack_append, hcount, take_append_drop]
    rw [hsplit]
    exact rel_append (hL.subsumes.compat hbranch hcompat) hcarried

theorem Fits.popArgs (h : Fits M A v fr) (hpop : Exec.popTypes C params v = some v')
    (missing : String) :
    ∃ args rest, popArgs missing params.length fr.operands = .ok (args, rest) ∧
      Forall₂ (fun value type => M.Holds value (.type type)) args params ∧
      Fits M A v' { fr with operands := rest } := by
  obtain ⟨popped, rest, hops, hlen, hpopped, hfits⟩ := h.popTypes hL.subsumes hpop
  refine ⟨popped.reverse, rest, hops ▸ popArgs_append hlen, ?_, hfits⟩
  · rw [onStack, forall₂_map_right_iff] at hpopped
    rw [← forall₂_reverse_iff, reverse_reverse]
    exact hpopped

/-- The end of the handlers of the calls: the arguments are there, and the call with
them may be made. -/
theorem Fits.callee (hlink : Linked C prog) (fr : Frame) {operands : List Value}
    (h : Fits M A v { fr with operands := operands })
    (hvalid : validateCallee C tail type v = some v') (hstate : A.state (fr.pc + 1) = some v')
    (missing : String) (s : σ) :
    ∃ args rest, Exec.popArgs missing (paramCount prog C.engine type) operands = .ok (args, rest) ∧
      ∀ engine func actual, TargetOk C H prog engine func type actual →
        ActionOk M A H prog
          (executeCall tail (.ok ⟨engine, func, args, rest⟩) fr s : Action σ ε) := by
  obtain ⟨params, results, v1, hsig, hpop, hrest⟩ := validateCallee_eq hvalid
  obtain ⟨args, rest, hpopArgs, hargs, hfits⟩ := h.popArgs hL hpop missing
  rw [paramCount_eq hlink hsig]
  refine ⟨args, rest, hpopArgs, fun engine func actual htarget => ?_⟩
  have hsite : SiteOk M A H prog engine func args { fr with operands := rest } type params results
      v1 := ⟨⟨actual, htarget⟩, hsig, hargs, hfits⟩
  cases tail with
  | true => exact ⟨type, params, results, v1, hsite, hrest⟩
  | false => exact ⟨type, params, results, v1, hsite, v', hrest, hstate⟩

/-! ## The handlers of a frame -/

variable (hlink : Linked C prog) (h : Fits M A v fr) (hstate : A.state (fr.pc + 1) = some v')
  (hs : M.Inv s)

section

include h hs

theorem executeOpBr_ok (hvalid : validateOpBr C depth v = some v') :
    MoveOk M A (branchTo C.results.length fr depth s : Move σ ε) := by
  obtain ⟨types, hlabel, hpopped⟩ := bind_eq_some_iff.1 hvalid
  obtain ⟨v1, hpop, -⟩ := map_eq_some_iff.1 hpopped
  obtain ⟨carried, rest, hops, -, hcarried, hfits⟩ := h.popTypes hL.subsumes hpop
  have hlabel1 := (popTypes_sameLevel h.nested hpop).label hlabel
  exact hfits.branchTo fr hlabel1 hcarried hops h.bounded hs

theorem executeBranchTable_ok (hvalid : validateOpBrTable C depths fallback v = some v') :
    MoveOk M A (executeBranchTable C.results.length depths fallback fr s : Move σ ε) := by
  obtain ⟨v1, types, v2, hpop, hpopN, hlabels⟩ := validateOpBrTable_eq hvalid
  obtain ⟨index, operands, hops, -, hfits1⟩ := h.popType hL.subsumes hpop
  obtain ⟨carried, rest, hops1, -, hcarried, hfits2⟩ := hfits1.popN hpopN
  unfold executeBranchTable
  rw [hops]
  simp only
  obtain ⟨label, hlabel, hlen, haccepts⟩ := hlabels _ selected_mem
  generalize (depths[index.i32.toNat]?).getD fallback = depth at hlabel
  have hholds := hL.subsumes.forall₂ hcarried (accepts_of_acceptsLabel hlen haccepts)
  have hlabel2 := (popN_sameLevel hfits1.nested hpopN).label hlabel
  exact hfits2.branchTo { fr with operands := operands } hlabel2 hholds hops1 hfits1.bounded hs

include hstate

theorem executeBranchIf_ok (hvalid : validateOpBrIf C depth v = some v') :
    MoveOk M A (executeBranchIf C.results.length depth fr s : Move σ ε) := by
  simp only [validateOpBrIf, bind_eq_bind, bind_eq_some_iff] at hvalid
  obtain ⟨v1, hpop, types, hlabel, v2, hpops, hpush⟩ := hvalid
  obtain ⟨condition, operands, hops, -, hfits1⟩ := h.popType hL.subsumes hpop
  obtain ⟨carried, rest, hops1, -, hcarried, hfits2⟩ := hfits1.popTypes hL.subsumes hpops
  have hops1 : operands = carried ++ rest := hops1
  unfold executeBranchIf
  rw [hops]
  simp only
  split
  · obtain ⟨-, hfits3⟩ := hfits2.pushAll hpush hcarried
    rw [hops1]
    exact ⟨hfits3.advance hstate, hs⟩
  · have hlabel2 := (popTypes_sameLevel hfits1.nested hpops).label hlabel
    exact hfits2.branchTo { fr with operands := operands } hlabel2 hcarried hops1 hfits1.bounded hs

theorem executeBranchOn_ok {op : β} (hvalid : validateOpBrOn C op depth v = some v') :
    MoveOk M A (executeBranchOn H C.engine C.results.length op depth fr s : Move σ ε) := by
  obtain ⟨popped, operands, -, hops, hlen, -, hrefuses, hbranch⟩ := h.brOn hL hvalid hs
  unfold executeBranchOn
  cases haccept : (H.branch C.engine op).accepts popped with
  | false =>
    simp only [hops, stackPopN_append hlen, haccept, false_eq_true, if_false]
    exact hrefuses haccept
  | true =>
  cases hcompute : (H.branch C.engine op).compute s popped with | mk branches values =>
  obtain ⟨hpushed, hfalls, htakes⟩ := hbranch branches values haccept hcompute
  simp only [hops, stackPopN_append hlen, haccept, if_true, hcompute, hpushed]
  cases branches with
  | false => exact ⟨(hfalls rfl).advance hstate, hs⟩
  | true =>
    obtain ⟨hroom, v2, label, carried, rest, hops1, hlabel, hholds, hfits2⟩ := htakes rfl
    refine hfits2.branchTo { fr with operands := values ++ operands } hlabel hholds ?_ ?_ hs
    · rw [hops1, append_assoc]
    · rw [length_append]
      exact hroom

theorem executePlain_ok {op : α} (hvalid : validatePlain C op v = some v') :
    MoveOk M A (executePlain H C.engine op fr s) := by
  obtain ⟨⟨types, v1⟩, hpopN, hvalid⟩ := bind_eq_some_iff.1 hvalid
  obtain ⟨pushed, hcheck, hvalid⟩ := bind_eq_some_iff.1 hvalid
  obtain ⟨v2, hpush, hvalid⟩ := bind_eq_some_iff.1 hvalid
  obtain ⟨popped, operands, hops, hlen, hpopped, hfits1⟩ := h.popN hpopN
  unfold executePlain
  simp only [(hL.plain op).pops, hops, stackPopN_append hlen]
  split
  swap
  · rename_i hrefuse
    exact (hL.plain op).refuses popped types pushed hpopped hcheck (not_eq_true _ ▸ hrefuse)
  rename_i haccept
  have hplain := (hL.plain op).computes popped types pushed s hlen hpopped hcheck haccept hs
  cases hcompute : (H.plain C.engine op).compute s popped with
  | ok s' values =>
    rw [hcompute] at hplain
    obtain ⟨hpushed, hfits'⟩ := hfits1.pushAll hpush hplain.2
    have hgoes : ¬ (C.rule op).ends = true :=
      fun hends => hL.ends op hends s popped s' values hcompute
    rw [if_neg hgoes] at hvalid
    obtain rfl := some.inj hvalid
    simp only [show stackPushAll values operands = _ from hpushed]
    exact ⟨hfits'.advance hstate, hplain.1⟩
  | fault x s' =>
    rw [hcompute] at hplain
    exact hplain
  | throw x s' =>
    rw [hcompute] at hplain
    exact hfits1.handleException hL hplain.1 hplain.2

omit hL in
theorem executeOpLocalGet_ok (hvalid : validateOpLocalGet C index v = some v') :
    MoveOk M A (executeOpLocalGet index fr s : Move σ ε) := by
  obtain ⟨type, htype, hvalid⟩ := bind_eq_some_iff.1 hvalid
  obtain ⟨-, hpush⟩ := ite_none_right_eq_some.1 hvalid
  obtain ⟨value, hget, hholds⟩ := h.local_ htype
  obtain ⟨hpushed, hfits⟩ := h.push hpush hholds
  unfold executeOpLocalGet
  rw [hget]
  simp only [hpushed]
  exact ⟨hfits.advance hstate, hs⟩

theorem executeOpLocalSet_ok {tee : Bool} (hvalid : validateOpLocalSet C tee index v = some v') :
    MoveOk M A (executeOpLocalSet tee index fr s : Move σ ε) := by
  simp only [validateOpLocalSet, bind_eq_bind, bind_eq_some_iff] at hvalid
  obtain ⟨type, htype, v1, hpop, hvalid⟩ := hvalid
  obtain ⟨value, operands, hops, hholds, hfits1⟩ := h.popType hL.subsumes hpop
  have hlt : index < fr.locals.length := by
    obtain ⟨_, hget, -⟩ := h.local_ htype
    exact (List.getElem?_eq_some_iff.1 hget).1
  have hset := hfits1.setLocal htype hholds
  -- the flags of the locals do not matter to the frame
  have hlevel : SameLevel v1 { v1 with initialized := v1.initialized.set index true } :=
    ⟨hset.nested, rfl, rfl, fun _ => rfl, exists_append_below _ _⟩
  have hfits2 := hset.of_level hlevel hset.reachable hset.operands hset.bounded
  unfold executeOpLocalSet
  rw [hops]
  simp only [if_pos hlt]
  cases tee with
  | true =>
    obtain ⟨hpushed, hfits'⟩ := hfits2.push hvalid hholds
    simp only [if_true, show stackPush value operands = _ from hpushed]
    exact ⟨hfits'.advance hstate, hs⟩
  | false =>
    obtain rfl := some.inj hvalid
    exact ⟨hfits2.advance hstate, hs⟩

end

/-! ## Calls -/

include hlink

section

include h hstate

theorem callSite_ok {func : Nat} (hvalid : validateOpCall C tail func v = some v') :
    ActionOk M A H prog
      (executeCall tail (callSite prog C.engine func fr.operands) fr s : Action σ ε) := by
  obtain ⟨type, htype, hcallee⟩ := bind_eq_some_iff.1 hvalid
  have htype : (prog C.engine).typeIndex? func = some type := hlink.typeIndex func ▸ htype
  obtain ⟨args, rest, hpop, hok⟩ := h.callee hL hlink fr hcallee hstate "call arguments missing" s
  rw [callSite_eq htype hpop]
  exact hok C.engine func type ⟨htype, .inl rfl, .inl ⟨rfl, rfl⟩⟩

theorem callRefSite_ok (hvalid : validateOpCallRef C tail type v = some v') :
    ActionOk M A H prog
      (executeCall tail (callRefSite prog C.engine type fr.operands) fr s : Action σ ε) := by
  obtain ⟨⟨referenceType, v1⟩, hpopRef, hvalid⟩ := bind_eq_some_iff.1 hvalid
  obtain ⟨-, hcallee⟩ := ite_none_right_eq_some.1 hvalid
  obtain ⟨reference, operands, hops, -, hfits⟩ := h.pop hpopRef
  obtain ⟨args, rest, hpop, hok⟩ :=
    hfits.callee hL hlink fr hcallee hstate "call_ref arguments missing" s
  unfold callRefSite
  rw [hops]
  simp only
  split
  · exact hL.trap _
  rcases checkTarget_eq hlink "call_ref target out of range" "call_ref type mismatch" type
    (C.engine, reference.i32.toNat) with ⟨text, herror⟩ | ⟨hcheck, actual, hindex, hsub⟩
  · simp only [herror, error_bind]
    exact hL.trap text
  · simp only [hcheck, ok_bind, hpop]
    exact hok _ _ actual ⟨hindex, .inl rfl, .inr hsub⟩

include hs

theorem callIndirectSite_ok {table : Nat}
    (hvalid : validateOpCallIndirect C tail type table v = some v') :
    ActionOk M A H prog (executeCall tail
      (callIndirectSite H prog C.engine type table fr.operands s) fr s : Action σ ε) := by
  obtain ⟨operandType, htable, hvalid⟩ := bind_eq_some_iff.1 hvalid
  obtain ⟨v1, hpopType, hcallee⟩ := bind_eq_some_iff.1 hvalid
  obtain ⟨operand, operands, hops, hholds, hfits⟩ := h.popType hL.subsumes hpopType
  obtain ⟨args, rest, hpop, hok⟩ :=
    hfits.callee hL hlink fr hcallee hstate "call_indirect arguments missing" s
  unfold callIndirectSite
  rw [hops]
  cases hslot : H.slot C.engine table operand s with
  | error fault =>
    simp only [hslot, error_bind]
    exact hL.slot table operandType operand s fault htable hholds hs hslot
  | ok target =>
    simp only [hslot, ok_bind]
    rcases checkTarget_eq hlink "call_indirect target out of range" "indirect call type mismatch"
      type target with ⟨text, herror⟩ | ⟨hcheck, actual, hindex, hsub⟩
    · simp only [herror, error_bind]
      exact hL.trap text
    · simp only [hcheck, ok_bind, hpop]
      exact hok target.1 target.2 actual ⟨hindex, .inr ⟨table, operand, s, hslot⟩, .inr hsub⟩

theorem dispatchBasic_ok {basic : Basic α β} (hvalid : validateBasic C basic v = some v') :
    ActionOk M A H prog (dispatchBasic H prog C.engine C.results.length basic fr s) := by
  cases basic with
  | unreachable => exact hL.trap _
  | nop =>
    obtain rfl := some.inj hvalid
    exact ⟨h.advance hstate, hs⟩
  | br depth => exact executeOpBr_ok hL h hs hvalid
  | brIf depth => exact executeBranchIf_ok hL h hstate hs hvalid
  | brTable _ _ => exact executeBranchTable_ok hL h hs hvalid
  | brOn op depth => exact executeBranchOn_ok hL h hstate hs hvalid
  | return_ =>
    obtain ⟨v1, hpop, -⟩ := map_eq_some_iff.1 hvalid
    obtain ⟨results, rest, hops, -, hresults, -⟩ := h.popTypes hL.subsumes hpop
    exact ⟨⟨results, rest, hops, hresults⟩, hs⟩
  | call func | returnCall func => exact callSite_ok hL hlink h hstate hvalid
  | callIndirect type table | returnCallIndirect type table =>
    exact callIndirectSite_ok hL hlink h hstate hs hvalid
  | callRef type | returnCallRef type => exact callRefSite_ok hL hlink h hstate hvalid
  | localGet index => exact executeOpLocalGet_ok h hstate hs hvalid
  | localSet index | localTee index => exact executeOpLocalSet_ok hL h hstate hs hvalid
  | plain op => exact executePlain_ok hL h hstate hs hvalid

end

include hs in
/-- One instruction keeps the invariant of its frame. -/
theorem dispatch_ok (h : FrameOk M A fr) (hinstr : code[fr.pc]? = some instr) :
    ActionOk M A H prog (dispatch H prog C.engine C.results.length instr fr s) := by
  unfold dispatch
  cases hop : instr.op with
  | block _ _ => exact executeOpBlock_ok hL h hinstr hop hs
  | else_ => exact executeOpElse_ok hL h hinstr hop hs
  | end_ => exact executeOpEnd_ok hL h hinstr hop hs
  | basic basic =>
    obtain ⟨v, hstate, hfits⟩ := h.fits hinstr (by simp [hop])
    rcases A.state_cases hstate hinstr with ⟨hend, -⟩ | ⟨v', hnext, hstate'⟩
    · simp [hop] at hend
    · rw [hop] at hnext
      exact dispatchBasic_ok hL hlink hfits hstate' hs (Verdict.ofOption_next hnext)

end

/-- The frame behind a call that has returned. -/
theorem SiteOk.returned {engine func : Nat} {args : List Value}
    (h : SiteOk M A H prog engine func args fr type params results v)
    (hpush : v.pushTypes results = some v') (hstate : A.state (fr.pc + 1) = some v')
    {values : List Value}
    (hvalues : Forall₂ (fun value type => M.Holds value (.type type)) values results) :
    ∃ operands, stackPushAll values.reverse fr.operands = some operands ∧
      FrameOk M A ({ fr with operands := operands } : Frame).advance := by
  have hholds : Forall₂ M.Holds values.reverse (onStack results) := by
    rw [onStack, forall₂_map_right_iff, forall₂_reverse_iff]
    exact hvalues
  obtain ⟨hpushed, hfits⟩ := h.fits.pushAll hpush hholds
  exact ⟨_, hpushed, hfits.advance hstate⟩

end Waste.Exec
