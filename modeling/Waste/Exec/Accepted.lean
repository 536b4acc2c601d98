import Waste.Exec.Levels

/-!
# Accepted bodies

A body that the validator and `parse_body` accept is the flattening of a tree
(`exists_body`): the validator refuses every bracket that closes nothing, and
`parse_body` whatever follows the last `end`.  `Accepted` carries the tree, and
`stateAt` then has a value at every instruction, with the labels of a block known
at its first instruction.
-/

namespace Waste.Exec

open Waste.Types List Option

variable {α β : Type} {C : Context α β} {v v' : ValidState}

/-! ## The tree of an accepted body -/

variable {instr : Instr α β} {instrs : List (Instr α β)}
variable {results params : List ValType} {kind : BlockKind} {v₀ w : ValidState}

theorem validateLoop_cons_eq (h : validateLoop C v (instr :: instrs) = true) :
    (∃ v', validateInstr C instr v = .next v' ∧ validateLoop C v' instrs = true) ∨
      validateInstr C instr v = .valid := by
  unfold validateLoop at h
  split at h
  · rename_i v' hnext
    exact .inl ⟨v', hnext, h⟩
  · rename_i hvalid
    exact .inr hvalid
  · simp at h

theorem Verdict.ofOption_ne_valid (o : Option ValidState) : ofOption o ≠ .valid := by
  cases o <;> simp [ofOption]

theorem validateLoop_ofOption {o : Option ValidState}
    (hinstr : validateInstr C instr v = .ofOption o)
    (h : validateLoop C v (instr :: instrs) = true) :
    ∃ v', o = some v' ∧ validateInstr C instr v = .next v' ∧ validateLoop C v' instrs = true := by
  rcases validateLoop_cons_eq h with ⟨v', hnext, hrest⟩ | hvalid
  · exact ⟨v', Verdict.ofOption_next (hinstr ▸ hnext), hnext, hrest⟩
  · exact absurd (hinstr ▸ hvalid) (Verdict.ofOption_ne_valid o)

variable {v₁ : ValidState}

theorem validateRun_cons (hinstr : validateInstr C instr v = .next v₁) :
    validateRun C v (instr :: instrs) = validateRun C v₁ instrs := by
  rw [validateRun, hinstr]

/-- The instructions up to the bracket that closes the block they are in. -/
structure Segment (C : Context α β) (v : ValidState) (instrs : List (Instr α β)) where
  body : Body α β
  close : Instr α β
  post : List (Instr α β)
  after : ValidState
  split : instrs = body.flatten ++ close :: post
  bracket : close = .end_ ∨ close = .else_
  run : validateRun C v body.flatten = some after
  loop : validateLoop C after (close :: post) = true

theorem Segment.level (seg : Segment C v instrs) (hv : v.Nested) : SameLevel v seg.after :=
  validateRun_flatten seg.body hv seg.run

theorem validateInstr_end_ofOption (hb : v.blocks ≠ []) :
    ∃ o, validateInstr C .end_ v = .ofOption o := by
  cases hblocks : v.blocks with
  | nil => exact absurd hblocks hb
  | cons block blocks =>
    exact ⟨validateBlockEnd C block blocks v, by simp only [validateInstr, hblocks]⟩

theorem Segment.closed (seg : Segment C v instrs) (hclose : seg.close = .end_)
    (hb : seg.after.blocks ≠ []) : ∃ v', validateRun C v (seg.body.flatten ++ [.end_]) = some v' ∧
      validateLoop C v' seg.post = true := by
  have hloop := seg.loop
  rw [hclose] at hloop
  obtain ⟨o, ho⟩ := validateInstr_end_ofOption hb
  obtain ⟨v', -, hnext, hrest⟩ := validateLoop_ofOption ho hloop
  refine ⟨v', ?_, hrest⟩
  rw [validateRun_append, seg.run, bind_some, validateRun_cons hnext]
  rfl

theorem Segment.ne_nil (seg : Segment C v instrs) (hv : v.Nested) (hb : v.blocks ≠ []) :
    seg.after.blocks ≠ [] := by
  intro hnil
  have hlen := (seg.level hv).length_blocks
  rw [hnil] at hlen
  exact hb (length_eq_zero_iff.1 hlen.symm)

theorem kind_of_else
    (hlevel : SameLevel (opened kind params results v) w) (h : validateOpElse C w = some v') :
    kind = .if_ := by
  obtain ⟨block, blocks, hb, hkind, -⟩ := validateOpElse_eq hlevel.nested' h
  have herase := hlevel.erase
  simp only [hb, opened, map_cons, cons.injEq] at herase
  rw [BlockControl.eq_of_erase herase.1] at hkind
  exact hkind

theorem not_else_of_withElse {block : BlockControl}
    {outer : List BlockControl} (hlevel : SameLevel (block.withElse outer v) w) :
    validateOpElse C w ≠ some v' := by
  intro h
  obtain ⟨inner, blocks, hb, -, helse, -⟩ := validateOpElse_eq hlevel.nested' h
  have herase := hlevel.erase
  simp only [hb, BlockControl.withElse, map_cons, cons.injEq] at herase
  rw [BlockControl.eq_of_erase herase.1] at helse
  simp at helse

theorem Segment.cons {l post : List (Instr α β)} (seg : Segment C v₁ post)
    (hrun : validateRun C v l = some v₁) (hinstrs : instrs = l ++ post) (body : Body α β)
    (hbody : body.flatten = l ++ seg.body.flatten) : Nonempty (Segment C v instrs) := by
  refine ⟨⟨body, seg.close, seg.post, seg.after, ?_, seg.bracket, ?_, seg.loop⟩⟩
  · rw [hinstrs, hbody, append_assoc, ← seg.split]
  · rw [hbody, validateRun_append, hrun, bind_some, seg.run]

theorem Segment.post_lt (seg : Segment C v instrs) : seg.post.length < instrs.length := by
  have hlength := congrArg length seg.split
  simp only [length_append, length_cons] at hlength
  omega

/-- Every accepted sequence starts with a segment; the recursion is on its length,
because the rest behind a block is no tail of the block. -/
theorem exists_segment {v : ValidState} (instrs : List (Instr α β)) (hv : v.Nested)
    (h : validateLoop C v instrs = true) : Nonempty (Segment C v instrs) := by
  cases instrs with
  | nil => simp [validateLoop] at h
  | cons instr rest =>
    cases instr with
    | end_ => exact ⟨⟨.nil, .end_, rest, v, rfl, .inl rfl, rfl, h⟩⟩
    | else_ => exact ⟨⟨.nil, .else_, rest, v, rfl, .inr rfl, rfl, h⟩⟩
    | basic instr =>
      obtain ⟨v₁, hbasic, hnext, hrest⟩ := validateLoop_ofOption rfl h
      have hlevel := validateBasic_sameLevel hv hbasic
      obtain ⟨seg⟩ := exists_segment rest hlevel.nested' hrest
      exact seg.cons (l := [.basic instr]) (validateRun_cons hnext) rfl (.basic instr seg.body) rfl
    | block kind type =>
      obtain ⟨v₁, hblock, hnext, hrest⟩ := validateLoop_ofOption rfl h
      obtain ⟨params, results, v₀, -, hlevel, rfl⟩ := validateOpBlock_level hv hblock
      have hopen := hlevel.nested'.opened kind params results
      obtain ⟨seg⟩ := exists_segment rest hopen hrest
      have hlt := seg.post_lt
      rcases seg.bracket with hclose | hclose
      · -- the block ends: go on behind its `end`
        obtain ⟨v2, hrun, hpost⟩ := seg.closed hclose (seg.ne_nil hopen (by simp [opened]))
        have hblocks : validateRun C v (Body.block kind type seg.body .nil).flatten = some v2 :=
          (validateRun_cons hnext).trans hrun
        have hnested := (validateRun_flatten _ hv hblocks).nested'
        obtain ⟨seg2⟩ := exists_segment seg.post hnested hpost
        refine seg2.cons hblocks ?_ (.block kind type seg.body seg2.body) (by simp [Body.flatten])
        simp [Body.flatten, ← hclose, ← seg.split]
      · -- an `else`: the second branch ends with the `end`
        have hloop := seg.loop
        rw [hclose] at hloop
        obtain ⟨v2, helse, hnext', hpost⟩ := validateLoop_ofOption rfl hloop
        obtain rfl := kind_of_else (seg.level hopen) helse
        obtain ⟨block, blocks, hb, -, -, -, rfl⟩ :=
          validateOpElse_eq (seg.level hopen).nested' helse
        have hwith := (seg.level hopen).nested'.withElse (j := 0) hb
        obtain ⟨seg'⟩ := exists_segment seg.post hwith hpost
        have hclose' : seg'.close = .end_ := by
          rcases seg'.bracket with h' | h'
          · exact h'
          · have hloop' := seg'.loop
            rw [h'] at hloop'
            obtain ⟨v3, helse', -⟩ := validateLoop_ofOption rfl hloop'
            exact absurd helse' (not_else_of_withElse (seg'.level hwith))
        obtain ⟨v3, hrun, hpost'⟩ :=
          seg'.closed hclose' (seg'.ne_nil hwith (by simp [BlockControl.withElse]))
        have hblocks :
            validateRun C v (Body.ifElse type seg.body seg'.body .nil).flatten = some v3 := by
          rw [Body.flatten, validateRun_cons hnext, validateRun_append, seg.run, bind_some,
            validateRun_cons hnext']
          exact hrun
        have hnested := (validateRun_flatten _ hv hblocks).nested'
        have hlt' := seg'.post_lt
        obtain ⟨seg2⟩ := exists_segment seg'.post hnested hpost'
        refine seg2.cons hblocks ?_ (.ifElse type seg.body seg'.body seg2.body)
          (by simp [Body.flatten])
        simp [Body.flatten, ← hclose', ← seg'.split, ← hclose, ← seg.split]
termination_by instrs.length
decreasing_by all_goals simp_all only [length_cons]; omega

theorem nested_initial : (ValidState.initial C).Nested := by
  simp [ValidState.Nested, ValidState.initial]

variable {code : List (ExecInstr α β)}

theorem exists_body {types : TypeSection}
    (h : validateFunctionBody C instrs = true) (hparse : parseBody types instrs = some code) :
    ∃ body : Body α β, instrs = body.instrs ∧ code = body.code types ∧
      ∃ v, validateRun C (.initial C) body.flatten = some v ∧ validateFuncEnd C v = true := by
  unfold validateFunctionBody at h
  split at h
  · simp at h
  obtain ⟨seg⟩ := exists_segment instrs nested_initial h
  have hlevel := seg.level nested_initial
  have hnil : seg.after.blocks = [] := length_eq_zero_iff.1 (hlevel.length_blocks.trans rfl)
  have hloop := seg.loop
  rcases seg.bracket with hclose | hclose
  · rw [hclose] at hloop
    have hend : validateFuncEnd C seg.after = true := by
      by_contra hne
      rcases validateLoop_cons_eq hloop with ⟨v', hnext, -⟩ | hvalid
      · simp [validateInstr, hnil, hne] at hnext
      · simp [validateInstr, hnil, hne] at hvalid
    have hpost : seg.post = [] := by
      rw [seg.split, hclose] at hparse
      obtain ⟨-, st, hst, hrest⟩ := parseLoop_cons (parseLoop_flatten seg.body hparse)
      have hended : st.ended = true := by
        have := some.inj hst
        rw [← this]
      cases hpost : seg.post with
      | nil => rfl
      | cons _ _ =>
        rw [hpost] at hrest
        obtain ⟨hended', -⟩ := parseLoop_cons hrest
        simp [hended] at hended'
    have hinstrs : instrs = seg.body.instrs := by
      have hsplit := seg.split
      rwa [hclose, hpost] at hsplit
    refine ⟨seg.body, hinstrs, ?_, seg.after, seg.run, hend⟩
    rw [hinstrs] at hparse
    exact parseBody_instrs hparse
  · rw [hclose] at hloop
    obtain ⟨v', helse, -⟩ := validateLoop_ofOption rfl hloop
    simp [validateOpElse, hnil] at helse

/-! ## The states of the validator along a body -/

/-- The instruction array of a body that the validator accepts, with its tree. -/
structure Accepted (C : Context α β) (code : List (ExecInstr α β)) where
  body : Body α β
  code_eq : code = body.code (C.types C.engine)
  last : ValidState
  run : validateRun C (.initial C) body.flatten = some last
  ends : validateFuncEnd C last = true
  locals_le : C.params.length + C.locals.length ≤ execMaxLocals

/-- What the validator and the decoder accept. -/
theorem exists_accepted (h : validateFunctionBody C instrs = true)
    (hparse : parseBody (C.types C.engine) instrs = some code) :
    ∃ A : Accepted C code, A.body.instrs = instrs := by
  obtain ⟨body, hinstrs, hcode, last, hrun, hends⟩ := exists_body h hparse
  have hlocals : C.params.length + C.locals.length ≤ execMaxLocals := by
    unfold validateFunctionBody at h
    split at h
    · simp at h
    · omega
  exact ⟨⟨body, hcode, last, hrun, hends, hlocals⟩, hinstrs.symm⟩

theorem validateInstr_nested (hv : v.Nested) (h : validateInstr C instr v = .next v') :
    v'.Nested := by
  cases instr with
  | block kind _ =>
    obtain ⟨params, results, v₀, -, hlevel, rfl⟩ :=
      validateOpBlock_level hv (Verdict.ofOption_next h)
    exact hlevel.nested'.opened kind params results
  | else_ =>
    obtain ⟨block, outer, hb, -, -, -, rfl⟩ := validateOpElse_eq hv (Verdict.ofOption_next h)
    exact hv.withElse (j := 0) hb
  | end_ =>
    obtain ⟨block, outer, hb, hend⟩ := validateInstr_end_next h
    obtain ⟨rfl, -⟩ := validateBlockEnd_eq hv hb hend
    exact hv.exit (j := 0) hb
  | basic instr => exact (validateBasic_sameLevel hv (Verdict.ofOption_next h)).nested'

theorem validateRun_nested (hv : v.Nested) (h : validateRun C v instrs = some v') : v'.Nested := by
  induction instrs generalizing v with
  | nil =>
    obtain rfl := some.inj h
    exact hv
  | cons _ instrs ih =>
    obtain ⟨v₁, hinstr, hrest⟩ := validateRun_cons_eq h
    exact ih (validateInstr_nested hv hinstr) hrest

/-- The signatures of the open blocks. -/
def ValidState.signatures (v : ValidState) : List (List ValType × List ValType) :=
  v.blocks.map fun block => (block.params, block.results)

theorem SameLevel.signatures_eq (h : SameLevel v v') : v'.signatures = v.signatures := by
  have hmap := congrArg (map fun block => (block.params, block.results)) h.erase
  rwa [List.map_map, List.map_map] at hmap

def Instr.signature? (types : TypeSection) : Instr α β → Option (List ValType × List ValType)
  | .block _ type => type.signature types
  | _ => none

variable {sig : List ValType × List ValType}

theorem validateInstr_signatures (hv : v.Nested) (h : validateInstr C instr v = .next v')
    (hsig : sig ∈ v'.signatures) :
    sig ∈ v.signatures ∨ instr.signature? (C.types C.engine) = some sig := by
  cases instr with
  | block kind _ =>
    obtain ⟨params, results, v0, hopened, hlevel, rfl⟩ :=
      validateOpBlock_level hv (Verdict.ofOption_next h)
    rcases mem_cons.1 hsig with rfl | hsig
    · exact .inr hopened
    · exact .inl (hlevel.signatures_eq ▸ hsig)
  | else_ =>
    obtain ⟨block, outer, hb, -, -, -, rfl⟩ := validateOpElse_eq hv (Verdict.ofOption_next h)
    rw [ValidState.signatures, hb]
    exact .inl hsig
  | end_ =>
    obtain ⟨block, outer, hb, hend⟩ := validateInstr_end_next h
    obtain ⟨rfl, -⟩ := validateBlockEnd_eq hv hb hend
    rw [ValidState.signatures, hb]
    exact .inl (mem_cons_of_mem _ hsig)
  | basic instr =>
    have hlevel := validateBasic_sameLevel hv (Verdict.ofOption_next h)
    exact .inl (hlevel.signatures_eq ▸ hsig)

/-- An open block has the signature of an instruction that was read. -/
theorem validateRun_signatures (hv : v.Nested) (h : validateRun C v instrs = some v')
    (hsig : sig ∈ v'.signatures) :
    sig ∈ v.signatures ∨ ∃ instr ∈ instrs, instr.signature? (C.types C.engine) = some sig := by
  induction instrs generalizing v with
  | nil =>
    obtain rfl := some.inj h
    exact .inl hsig
  | cons instr instrs ih =>
    obtain ⟨v1, hinstr, hrest⟩ := validateRun_cons_eq h
    rcases ih (validateInstr_nested hv hinstr) hrest with hsig | ⟨instr', hmem, heq⟩
    · refine (validateInstr_signatures hv hinstr hsig).imp_right fun heq => ?_
      exact ⟨instr, mem_cons_self, heq⟩
    · exact .inr ⟨instr', mem_cons_of_mem _ hmem, heq⟩

namespace Accepted

variable {code : List (ExecInstr α β)} (A : Accepted C code)

/-- The state of the validator before the instruction at `pc`. -/
def state (pc : Nat) : Option ValidState := stateAt C A.body.instrs pc

variable {A} {pc : Nat} {instr : ExecInstr α β}

theorem nested (hstate : A.state pc = some v) : v.Nested :=
  validateRun_nested nested_initial hstate

theorem state_zero : A.state 0 = some (.initial C) := rfl

theorem state_add (hstate : A.state pc = some v) {l r : List (Instr α β)}
    (hdrop : A.body.instrs.drop pc = l ++ r) : A.state (pc + l.length) = validateRun C v l := by
  have htake : A.body.instrs.take (pc + l.length) = A.body.instrs.take pc ++ l := by
    rw [take_add, hdrop, take_left]
  rw [state, stateAt, htake, validateRun_append]
  unfold state stateAt at hstate
  rw [hstate, bind_some]

theorem instrs_getElem? (hinstr : code[pc]? = some instr) : A.body.instrs[pc]? = some instr.op := by
  rw [← A.body.map_op_code, getElem?_map, ← code_eq, hinstr, map_some]

theorem drop_instrs (hinstr : code[pc]? = some instr) :
    A.body.instrs.drop pc = instr.op :: A.body.instrs.drop (pc + 1) := by
  have hget := A.instrs_getElem? hinstr
  obtain ⟨hlt, hop⟩ := List.getElem?_eq_some_iff.1 hget
  rw [drop_eq_getElem_cons hlt, hop]

theorem length_code : code.length = A.body.size + 1 := by
  rw [← A.body.length_instrs, ← A.body.map_op_code, length_map, ← code_eq]

theorem last_blocks : A.last.blocks = [] := by
  have hlevel := validateRun_flatten A.body nested_initial A.run
  exact length_eq_zero_iff.1 (hlevel.length_blocks.trans rfl)

theorem state_size : A.state A.body.size = some A.last := by
  have hdrop : A.body.instrs.drop 0 = A.body.flatten ++ [.end_] := rfl
  have := state_add state_zero hdrop
  rw [Nat.zero_add] at this
  exact this.trans A.run

theorem exists_state (hpc : pc ≤ A.body.size) : ∃ v, A.state pc = some v := by
  have hsplit : A.body.instrs.drop 0 = A.body.flatten.take pc ++
      (A.body.flatten.drop pc ++ [.end_]) := by
    rw [← append_assoc, take_append_drop]
    rfl
  have hadd := state_add state_zero hsplit
  rw [Nat.zero_add, length_take, Body.length_flatten, Nat.min_eq_left hpc] at hadd
  have hrun := A.run
  rw [← take_append_drop pc A.body.flatten, validateRun_append, bind_eq_some_iff] at hrun
  obtain ⟨v, hv, -⟩ := hrun
  exact ⟨v, hadd.trans hv⟩

variable (hstate : A.state pc = some v)
include hstate

theorem le_size : pc ≤ A.body.size := by
  by_contra hlt
  have hall : A.body.instrs.take pc = A.body.flatten ++ [.end_] :=
    take_of_length_le (by rw [Body.length_instrs]; omega)
  have hnext : validateRun C A.last [.end_] = some v := by
    rw [state, stateAt, hall, validateRun_append, run, bind_some] at hstate
    exact hstate
  obtain ⟨v', hend, -⟩ := validateRun_cons_eq hnext
  obtain ⟨block, outer, hb, -⟩ := validateInstr_end_next hend
  simp [last_blocks] at hb

theorem exists_instr : ∃ instr, code[pc]? = some instr := by
  have hlt : pc < code.length := by
    have := le_size hstate
    rw [A.length_code]
    omega
  exact ⟨code[pc], getElem?_eq_getElem hlt⟩

/-- An instruction is the `end` of the function, or the validator goes on after it. -/
theorem state_cases (hinstr : code[pc]? = some instr) :
    (instr.op = .end_ ∧ v.blocks = [] ∧ validateFuncEnd C v = true) ∨
      ∃ v', validateInstr C instr.op v = .next v' ∧ A.state (pc + 1) = some v' := by
  rcases Nat.lt_or_ge pc A.body.size with hlt | hge
  · right
    obtain ⟨v', hv'⟩ := exists_state (show pc + 1 ≤ A.body.size by omega)
    have hadd := state_add hstate (l := [instr.op]) (drop_instrs hinstr)
    rw [length_singleton, hv'] at hadd
    obtain ⟨v₁, hnext, hnil⟩ := validateRun_cons_eq hadd.symm
    obtain rfl := some.inj hnil
    exact ⟨v₁, hnext, hv'⟩
  · left
    obtain rfl : pc = A.body.size := Nat.le_antisymm (le_size hstate) hge
    have hget := A.instrs_getElem? hinstr
    rw [Body.instrs, ← Body.length_flatten, getElem?_concat_length] at hget
    obtain rfl := some.inj (hstate.symm.trans state_size)
    exact ⟨(some.inj hget).symm, last_blocks, A.ends⟩

/-! ## Brackets and their targets -/

variable {op : Instr α β} {post : List (Instr α β)}

omit hstate in
theorem op_of_drop (hdrop : A.body.instrs.drop pc = op :: post) :
    ∃ instr, code[pc]? = some instr ∧ instr.op = op := by
  have hget : A.body.instrs[pc]? = some op := getElem?_of_drop hdrop
  rw [← A.body.map_op_code, getElem?_map, ← code_eq, map_eq_some_iff] at hget
  exact hget

theorem state_flatten {body : Body α β} (hdrop : A.body.instrs.drop pc = body.flatten ++ op :: post)
    : ∃ w, A.state (pc + body.size) = some w ∧ SameLevel v w ∧
      A.body.instrs.drop (pc + body.size) = op :: post := by
  have hlen : pc + body.size ≤ A.body.size := by
    have := congrArg length hdrop
    simp only [length_drop, Body.length_instrs, length_append, Body.length_flatten,
      length_cons] at this
    omega
  obtain ⟨w, hw⟩ := exists_state hlen
  have hrun := state_add hstate hdrop
  rw [Body.length_flatten, hw] at hrun
  refine ⟨w, hw, validateRun_flatten body (nested hstate) hrun.symm, ?_⟩
  rw [← drop_drop, hdrop, ← Body.length_flatten, drop_left]

theorem state_bracket (hdrop : A.body.instrs.drop pc = op :: post) (hblocks : v.blocks ≠ []) :
    ∃ v', validateInstr C op v = .next v' ∧ A.state (pc + 1) = some v' ∧
      A.body.instrs.drop (pc + 1) = post := by
  obtain ⟨instr, hinstr, rfl⟩ := op_of_drop hdrop
  rcases state_cases hstate hinstr with ⟨-, hnil, -⟩ | ⟨v', hnext, hstate'⟩
  · exact absurd hnil hblocks
  · refine ⟨v', hnext, hstate', ?_⟩
    rw [← drop_drop, hdrop, drop_succ_cons, drop_zero]

/-- Where an `if` goes on when its condition is false: behind its `else`, or at its
`end` when it has none, and then its results are its parameters. -/
structure FalseTarget (A : Accepted C code) (target : Nat) (params results : List ValType)
    (v₀ : ValidState) (w : ValidState) : Prop where
  state : A.state target = some w
  labels_eq : labels w = openedLabel .if_ params results v₀ :: labels v₀
  place : (w.unreachable = false ∧ w.stack = onStack params ++ v₀.stack) ∨
    (params = results ∧ ∃ instr, code[target]? = some instr ∧ instr.op = .end_)

/-- What the validator and the decoder say about the opening of a block. -/
structure BlockFacts (A : Accepted C code) (pc : Nat) (instr : ExecInstr α β) (kind : BlockKind)
    (v : ValidState) (params results : List ValType) (v₁ v₀ : ValidState) : Prop where
  head : validateBlockHead C kind v = some v₁
  popped : popTypes C params v₁ = some v₀
  depth : v₀.blocks.length < execMaxControl
  paramCount : instr.blockParamCount = params.length
  resultCount : instr.blockResultCount = results.length
  enter : A.state (pc + 1) = some (opened kind params results v₀)
  leave : A.state (instr.simdOp + 1) = some (openedLabel kind params results v₀).exit
  other : kind = .if_ → ∃ w, FalseTarget A instr.u32Imm params results v₀ w

omit hstate in
theorem ne_nil_of_labels {label : Label} {outer : List Label} (h : labels v = label :: outer) :
    v.blocks ≠ [] := by
  intro hnil
  simp [labels, labelsOf, hnil] at h

omit hstate in
/-- The `end` of a block without an `else`. -/
theorem targets_block (hv0 : v₀.Nested) (henter : A.state pc = some (opened kind params results v₀))
    {inner : Body α β} (hdrop : A.body.instrs.drop pc = inner.flatten ++ .end_ :: post) :
    A.state (pc + inner.size + 1) = some (openedLabel kind params results v₀).exit ∧
      (kind = .if_ → ∃ w, FalseTarget A (pc + inner.size) params results v₀ w) := by
  obtain ⟨w, hw, hlevel, hend⟩ := state_flatten henter hdrop
  have hlabels := hlevel.labels_eq.trans (labels_opened hv0 kind params results)
  obtain ⟨v', hnext, hleave, -⟩ := state_bracket hw hend (ne_nil_of_labels hlabels)
  obtain rfl := validateInstr_end_eq hlevel.nested' hlabels hnext
  refine ⟨hleave, ?_⟩
  rintro rfl
  refine ⟨w, hw, hlabels, .inr ⟨?_, op_of_drop hend⟩⟩
  -- without an `else` the validator has compared the parameters with the results
  obtain ⟨block, outer, hb, hvalid⟩ := validateInstr_end_next hnext
  have herase := hlevel.erase
  simp only [hb, opened, map_cons, cons.injEq] at herase
  have hblock := BlockControl.eq_of_erase herase.1
  obtain ⟨-, -, hsame⟩ := validateBlockEnd_eq hlevel.nested' hb hvalid
  rw [hblock] at hsame
  exact hsame rfl rfl

omit hstate in
/-- The `else` and the `end` of an `if`. -/
theorem targets_ifElse (hv0 : v₀.Nested)
    (henter : A.state pc = some (opened .if_ params results v₀)) {then_ else_ : Body α β}
    (hdrop : A.body.instrs.drop pc = then_.flatten ++ .else_ :: (else_.flatten ++ .end_ :: post)) :
    A.state (pc + then_.size + 1 + else_.size + 1) =
      some (openedLabel .if_ params results v₀).exit ∧
        ∃ w, FalseTarget A (pc + then_.size + 1) params results v₀ w := by
  obtain ⟨w, hw, hlevel, helse⟩ := state_flatten henter hdrop
  have hlabels := hlevel.labels_eq.trans (labels_opened hv0 .if_ params results)
  obtain ⟨w', hnext, hw', hdrop'⟩ := state_bracket hw helse (ne_nil_of_labels hlabels)
  obtain ⟨block, outer, hb, hkind, -, -, rfl⟩ :=
    validateOpElse_eq hlevel.nested' (Verdict.ofOption_next hnext)
  have hlabels' : labels (block.withElse outer w) =
      openedLabel .if_ params results v₀ :: labels v₀ :=
    (labels_withElse (j := 0) hlevel.nested' hb hkind).trans hlabels
  have hstack : (block.withElse outer w).stack = onStack params ++ v₀.stack := by
    have herase := hlevel.erase
    simp only [hb, opened, map_cons, cons.injEq] at herase
    have hblock := BlockControl.eq_of_erase herase.1
    have hheight : (opened .if_ params results v₀).height = v₀.stack.length := rfl
    have hbelow := hlevel.below_eq (Nat.le_refl _)
    rw [hheight] at hbelow
    rw [hblock]
    show onStack params ++ below v₀.stack.length w.stack = onStack params ++ v₀.stack
    rw [hbelow]
    show onStack params ++ below v₀.stack.length (onStack params ++ v₀.stack) = _
    rw [below_append (Nat.le_refl _), below_of_length_eq rfl]
  obtain ⟨w'', hw'', hlevel', hend⟩ := state_flatten hw' hdrop'
  have hlabels'' := hlevel'.labels_eq.trans hlabels'
  obtain ⟨v', hnext', hleave, -⟩ := state_bracket hw'' hend (ne_nil_of_labels hlabels'')
  obtain rfl := validateInstr_end_eq hlevel'.nested' hlabels'' hnext'
  exact ⟨hleave, _, hw', hlabels', .inl ⟨rfl, hstack⟩⟩

theorem blockFacts (hinstr : code[pc]? = some instr) {type : BlockType}
    (hop : instr.op = .block kind type) :
    ∃ params results v₁ v₀, BlockFacts A pc instr kind v params results v₁ v₀ := by
  have hat := (A.body.code_described (A.code_eq ▸ hinstr)).1 kind type hop
  rcases state_cases hstate hinstr with ⟨hend, -⟩ | ⟨v', hnext, henter⟩
  · simp [hop] at hend
  rw [hop] at hnext
  obtain ⟨params, results, v₁, v₀, hsig, hhead, hpop, hdepth, rfl⟩ :=
    validateOpBlock_eq (Verdict.ofOption_next hnext)
  have hv0 : v₀.Nested :=
    (popTypes_sameLevel (validateBlockHead_sameLevel (nested hstate) hhead).nested' hpop).nested'
  have hdrop := A.drop_instrs hinstr
  generalize hrest : A.body.instrs.drop pc = rest at hat hdrop
  refine ⟨params, results, v₁, v₀, ?_⟩
  cases hat with
  | block _ post =>
    have hpost := (cons.inj hdrop).2.symm
    obtain ⟨hleave, hother⟩ := targets_block hv0 henter hpost
    refine ⟨hhead, hpop, hdepth, by simp [openInstr, hsig], by simp [openInstr, hsig], henter,
      hleave, fun hkind => ?_⟩
    have htarget := hother hkind
    subst hkind
    exact htarget
  | ifElse _ _ post hkind =>
    subst hkind
    have hpost := (cons.inj hdrop).2.symm
    obtain ⟨hleave, hother⟩ := targets_ifElse hv0 henter hpost
    exact ⟨hhead, hpop, hdepth, by simp [openInstr, hsig], by simp [openInstr, hsig], henter,
      hleave, fun _ => hother⟩

/-- What the validator and the decoder say about an `else`: it jumps to the `end` of
its block. -/
theorem elseFacts (hinstr : code[pc]? = some instr) (hop : instr.op = .else_) :
    ∃ block outer v₁ w, v.blocks = block :: outer ∧ block.kind = .if_ ∧
      popResults C block v = some v₁ ∧ A.state instr.u32Imm = some w ∧ labels w = labels v ∧
      ∃ close, code[instr.u32Imm]? = some close ∧ close.op = .end_ := by
  obtain ⟨else_, post, hat, htarget⟩ := (A.body.code_described (A.code_eq ▸ hinstr)).2 hop
  rcases state_cases hstate hinstr with ⟨hend, -⟩ | ⟨v', hnext, hstate'⟩
  · simp [hop] at hend
  rw [hop] at hnext
  obtain ⟨block, outer, hb, hkind, -, ⟨v₁, hpop⟩, rfl⟩ :=
    validateOpElse_eq (nested hstate) (Verdict.ofOption_next hnext)
  have hdrop : A.body.instrs.drop (pc + 1) = else_.flatten ++ .end_ :: post := by
    rw [← drop_drop, hat, drop_succ_cons, drop_zero]
  obtain ⟨w, hw, hlevel, hend⟩ := state_flatten hstate' hdrop
  rw [htarget]
  exact ⟨block, outer, v₁, w, hb, hkind, hpop, hw,
    hlevel.labels_eq.trans (labels_withElse (j := 0) (nested hstate) hb hkind),
    op_of_drop hend⟩

omit hstate

end Accepted

end Waste.Exec
