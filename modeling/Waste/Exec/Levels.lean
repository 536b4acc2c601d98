import Waste.Exec.Body
import Waste.Exec.Validate

/-!
# What the validator leaves alone

The validator works on the operands of the innermost block.  `SameLevel` says that
two of its states agree on everything else: the blocks, up to the flag
`unreachable` of the innermost one, and the stack below its height.  Every
instruction that is not a bracket keeps the level (`validateBasic_sameLevel`), and so
does a whole sequence (`validateRun_flatten`).

A label is then known from inside its block: `labels` computes from a state the
states behind the `end`s of the enclosing blocks and at the starts of the loops.
-/

namespace Waste.Exec

open Waste.Types List Option Prod

variable {blocks : List BlockControl} {types t : List StackType} {kind : BlockKind}
  {type : BlockType}

/-! ## Stacks below a height -/

/-- The lowest `h` entries of a stack. -/
def below {γ : Type} (h : Nat) (stack : List γ) : List γ := stack.drop (stack.length - h)

section Below

variable {γ : Type} {h k : Nat} {r s : List γ}

theorem length_below (hle : h ≤ s.length) : (below h s).length = h := by
  simp only [below, length_drop]
  omega

theorem below_append (hle : h ≤ s.length) : below h (r ++ s) = below h s := by
  unfold below
  rw [length_append, show r.length + s.length - h = r.length + (s.length - h) by omega,
    drop_length_add_append]

theorem below_of_length_eq (hlen : s.length = h) : below h s = s := by
  simp [below, hlen]

theorem below_below (hkh : k ≤ h) : below k (below h s) = below k s := by
  unfold below
  rw [drop_drop, length_drop]
  congr 1
  omega

theorem exists_append_below (h : Nat) (s : List γ) : ∃ t, s = t ++ below h s :=
  ⟨s.take (s.length - h), (take_append_drop _ _).symm⟩

end Below

/-! ## The level of a state -/

variable (block : BlockControl)

/-- A block without the flag that changes while its instructions are read. -/
def BlockControl.erase : BlockControl := { block with unreachable := false }

theorem BlockControl.eq_of_erase {block block' : BlockControl} (h : block'.erase = block.erase) :
    block' = { block with unreachable := block'.unreachable } := by
  cases block
  cases block'
  simpa [erase] using h

/-- The heights of the blocks grow from the outside to the inside. -/
def ValidState.Nested (v : ValidState) : Prop :=
  (v.stack.length :: v.blocks.map (·.height)).Pairwise (· ≥ ·)

namespace ValidState.Nested

variable {v : ValidState}

theorem height_le (hv : v.Nested) : v.height ≤ v.stack.length := by
  unfold Nested at hv
  unfold height
  cases hb : v.blocks with
  | nil => simp
  | cons block _ =>
    rw [hb] at hv
    simpa using (pairwise_cons.1 hv).1 block.height (by simp)

variable {block : BlockControl}

theorem block_le (hv : v.Nested) {j : Nat}
    (hj : v.blocks[j]? = some block) : block.height ≤ v.height := by
  unfold Nested at hv
  unfold height
  cases hb : v.blocks with
  | nil => simp [hb] at hj
  | cons _ blocks =>
    rw [hb] at hv hj
    cases j with
    | zero =>
      obtain rfl := some.inj hj
      exact Nat.le_refl _
    | succ j =>
      have hmem : block.height ∈ blocks.map (·.height) := mem_map_of_mem (mem_of_getElem? hj)
      simpa using (pairwise_cons.1 (pairwise_cons.1 hv).2).1 _ hmem

theorem block_le_length (hv : v.Nested) {j : Nat}
    (hj : v.blocks[j]? = some block) : block.height ≤ v.stack.length :=
  Nat.le_trans (hv.block_le hj) hv.height_le

end ValidState.Nested

/-- Two states that agree below the operands of the innermost block. -/
structure SameLevel (v v' : ValidState) : Prop where
  nested : v.Nested
  erase : v'.blocks.map (·.erase) = v.blocks.map (·.erase)
  tail : v'.blocks.tail = v.blocks.tail
  func : v.blocks ≠ [] → v'.funcUnreachable = v.funcUnreachable
  stack : ∃ t, v'.stack = t ++ below v.height v.stack

namespace SameLevel

variable {v v' v'' : ValidState}

theorem refl (hv : v.Nested) : SameLevel v v :=
  ⟨hv, rfl, rfl, fun _ => rfl, exists_append_below _ _⟩

section

variable (h : SameLevel v v')
include h

theorem heights : v'.blocks.map (·.height) = v.blocks.map (·.height) := by
  have := congrArg (List.map (·.height)) h.erase
  simpa [List.map_map, Function.comp_def, BlockControl.erase] using this

theorem length_blocks : v'.blocks.length = v.blocks.length := by
  simpa using congrArg length h.heights

theorem height : v'.height = v.height := by
  have := congrArg head? h.heights
  simp only [head?_map] at this
  rw [ValidState.height, ValidState.height, this]

theorem height_le : v.height ≤ v'.stack.length := by
  obtain ⟨t, ht⟩ := h.stack
  rw [ht, length_append, length_below h.nested.height_le]
  omega

theorem below_eq {k : Nat} (hk : k ≤ v.height) : below k v'.stack = below k v.stack := by
  obtain ⟨t, ht⟩ := h.stack
  have hlen : (below v.height v.stack).length = v.height := length_below h.nested.height_le
  rw [ht, below_append (by omega), below_below hk]

theorem nested' : v'.Nested := by
  have hv := h.nested
  unfold ValidState.Nested at hv ⊢
  rw [h.heights]
  rw [pairwise_cons] at hv ⊢
  refine ⟨fun k hk => ?_, hv.2⟩
  obtain ⟨block, hmem, rfl⟩ := mem_map.1 hk
  obtain ⟨j, hj⟩ := mem_iff_getElem?.1 hmem
  have h1 := h.nested.block_le hj
  have h2 := h.height_le
  omega

theorem trans (h' : SameLevel v' v'') : SameLevel v v'' := by
  refine ⟨h.nested, h'.erase.trans h.erase, h'.tail.trans h.tail, fun hne => ?_, ?_⟩
  · have hne' : v'.blocks ≠ [] := by
      intro hnil
      have := h.length_blocks
      rw [hnil] at this
      exact hne (length_eq_zero_iff.1 this.symm)
    exact (h'.func hne').trans (h.func hne)
  · obtain ⟨t, ht⟩ := h'.stack
    rw [h.height, h.below_eq (Nat.le_refl _)] at ht
    exact ⟨t, ht⟩

end

theorem pushed (hv : v.Nested) (t : List StackType) :
    SameLevel v { v with stack := t ++ v.stack } := by
  obtain ⟨r, hr⟩ := exists_append_below v.height v.stack
  refine ⟨hv, rfl, rfl, fun _ => rfl, t ++ r, ?_⟩
  rw [append_assoc, ← hr]

end SameLevel

/-! ## The handlers of the validator keep the level -/

section Handlers

variable {α β : Type} {C : Context α β} {v v' : ValidState}

theorem pop_sameLevel (hv : v.Nested) {type : StackType} (h : v.pop = some (type, v')) :
    SameLevel v v' := by
  unfold ValidState.pop at h
  split at h
  · rename_i top stack hstack
    split at h
    · rename_i hlt
      obtain ⟨-, rfl⟩ := mk.inj (some.inj h)
      refine ⟨hv, rfl, rfl, fun _ => rfl, ?_⟩
      have hle : v.height ≤ stack.length := by
        rw [hstack, length_cons] at hlt
        omega
      have hbelow : below v.height v.stack = below v.height stack := by
        rw [hstack]
        exact below_append (r := [top]) hle
      rw [hbelow]
      exact exists_append_below _ _
    · split at h
      · obtain ⟨-, rfl⟩ := mk.inj (some.inj h)
        exact .refl hv
      · simp at h
  · split at h
    · obtain ⟨-, rfl⟩ := mk.inj (some.inj h)
      exact .refl hv
    · simp at h

/-- Whatever a step of the validator answers is on the level of `v`; `state` is where the new
state stands in the answer. -/
def OnLevel {γ : Type} (v : ValidState) (state : γ → ValidState) (o : Option γ) : Prop :=
  ∀ x, o = some x → SameLevel v (state x)

namespace OnLevel

variable {γ δ : Type} {state : γ → ValidState} {state' : δ → ValidState}
variable {f : γ → Option δ}

theorem some {x : γ} (h : SameLevel v (state x)) : OnLevel v state (some x) := by
  intro y hy
  cases hy
  exact h

theorem none : OnLevel v state none := nofun

theorem bind {o : Option γ} (ho : OnLevel v state o)
    (hf : ∀ x, (state x).Nested → OnLevel (state x) state' (f x)) :
    OnLevel v state' (o.bind f) := by
  intro y hy
  obtain ⟨x, hx, hy⟩ := bind_eq_some_iff.1 hy
  have hlevel := ho x hx
  exact hlevel.trans (hf x hlevel.nested' y hy)

theorem after (o : Option γ) (hf : ∀ x, OnLevel v state' (f x)) : OnLevel v state' (o.bind f) := by
  intro y hy
  obtain ⟨x, -, hy⟩ := bind_eq_some_iff.1 hy
  exact hf x y hy

theorem ite {b : Prop} [Decidable b] {o o' : Option γ} (h : OnLevel v state o)
    (h' : OnLevel v state o') : OnLevel v state (if b then o else o') := by
  split
  · exact h
  · exact h'

end OnLevel

section

variable (hv : v.Nested)
include hv

theorem popN_onLevel {n : Nat} : OnLevel v snd (v.popN n) := by
  induction n generalizing v with
  | zero => exact .some (.refl hv)
  | succ n ih =>
    have hpop : OnLevel v snd v.pop := fun _ h => pop_sameLevel hv h
    exact hpop.bind fun _ h => (ih h).bind fun _ h => .some (.refl h)

theorem popN_sameLevel {n : Nat} (h : v.popN n = some (types, v')) : SameLevel v v' :=
  popN_onLevel hv _ h

theorem popType_onLevel {expected : ValType} : OnLevel v id (popType C expected v) := by
  have hpop : OnLevel v snd v.pop := fun _ h => pop_sameLevel hv h
  exact hpop.bind fun _ h => .ite (.some (.refl h)) .none

theorem popTypes_onLevel {types : List ValType} : OnLevel v id (popTypes C types v) := by
  have heach : ∀ (types : List ValType) {v : ValidState}, v.Nested →
      OnLevel v id (popEach C types v) := by
    intro types
    induction types with
    | nil => exact fun h => .some (.refl h)
    | cons expected types ih => exact fun h => (popType_onLevel h).bind fun _ h => ih h
  exact heach types.reverse hv

theorem popTypes_sameLevel {types : List ValType} (h : popTypes C types v = some v') :
    SameLevel v v' :=
  popTypes_onLevel hv _ h

omit hv in
theorem pushAll_eq (h : v.pushAll types = some v') : v' = { v with stack := types ++ v.stack } ∧
      (types ≠ [] → types.length + v.stack.length ≤ execMaxStack) := by
  induction types generalizing v' with
  | nil =>
    obtain rfl := some.inj h
    simp
  | cons _ types ih =>
    obtain ⟨v1, hpush, h⟩ := bind_eq_some_iff.1 h
    obtain ⟨rfl, -⟩ := ih hpush
    unfold ValidState.push at h
    split at h
    · simp at h
    · rename_i hlt
      obtain rfl := some.inj h
      refine ⟨rfl, fun _ => ?_⟩
      simp only [length_append, length_cons] at hlt ⊢
      omega

theorem pushAll_sameLevel (h : v.pushAll types = some v') : SameLevel v v' := by
  obtain ⟨rfl, -⟩ := pushAll_eq h
  exact .pushed hv types

theorem pushAll_onLevel (types : List StackType) : OnLevel v id (v.pushAll types) :=
  fun _ h => pushAll_sameLevel hv h

theorem setUnreachable_sameLevel : SameLevel v v.setUnreachable := by
  unfold ValidState.setUnreachable
  cases hb : v.blocks with
  | nil => exact ⟨hv, by simp [hb], by simp [hb], fun hne => absurd hb hne, [], rfl⟩
  | cons _ _ =>
    exact ⟨hv, by simp [hb, BlockControl.erase], by simp [hb], fun _ => rfl, [], rfl⟩

theorem push_onLevel {type : StackType} : OnLevel v id (v.push type) :=
  pushAll_onLevel hv [type]

theorem popThenUnreachable_onLevel {types : List ValType} :
    OnLevel v id (popThenUnreachable C types v) := by
  unfold popThenUnreachable
  rw [map_eq_bind]
  exact (popTypes_onLevel hv).bind fun _ h => .some (setUnreachable_sameLevel h)

theorem validateCallee_onLevel {tail : Bool} {typeIndex : Nat} :
    OnLevel v id (validateCallee C tail typeIndex v) := by
  refine .after _ fun _ => (popTypes_onLevel hv).bind fun _ h => .ite ?_ (pushAll_onLevel h _)
  exact .ite (.some (setUnreachable_sameLevel h)) .none

variable {instr : Basic α β}

/-- Every instruction that is not a bracket keeps the level. -/
theorem validateBasic_onLevel : OnLevel v id (validateBasic C instr v) := by
  cases instr with
  | unreachable => exact .some (setUnreachable_sameLevel hv)
  | nop => exact .some (.refl hv)
  | br depth => exact .after _ fun _ => popThenUnreachable_onLevel hv
  | brIf depth =>
    refine (popType_onLevel hv).bind fun _ h => .after _ fun _ => ?_
    exact (popTypes_onLevel h).bind fun _ h => pushAll_onLevel h _
  | brTable _ _ =>
    refine (popType_onLevel hv).bind fun _ h => .after _ fun _ => .ite .none ?_
    exact (popN_onLevel h).bind fun _ h => .ite (.some (setUnreachable_sameLevel h)) .none
  | brOn op depth =>
    refine (popN_onLevel hv).bind fun _ h => .after _ fun _ => .after _ fun _ => .ite .none ?_
    refine .ite ((popTypes_onLevel h).bind fun _ h => ?_) .none
    exact (pushAll_onLevel h _).bind fun _ h => pushAll_onLevel h _
  | return_ => exact popThenUnreachable_onLevel hv
  | call func | returnCall func => exact .after _ fun _ => validateCallee_onLevel hv
  | callIndirect type table | returnCallIndirect type table =>
    exact .after _ fun _ => (popType_onLevel hv).bind fun _ h => validateCallee_onLevel h
  | callRef type | returnCallRef type =>
    have hpop : OnLevel v snd v.pop := fun _ h => pop_sameLevel hv h
    exact hpop.bind fun _ h => .ite (validateCallee_onLevel h) .none
  | localGet index => exact .after _ fun _ => .ite (push_onLevel hv) .none
  | localSet index | localTee index =>
    refine .after _ fun type => (popType_onLevel hv).bind fun v1 h => ?_
    have hset : SameLevel v1 { v1 with initialized := v1.initialized.set index true } :=
      ⟨h, rfl, rfl, fun _ => rfl, exists_append_below _ _⟩
    exact .ite (fun _ h' => hset.trans (push_onLevel hset.nested' _ h')) (.some hset)
  | plain op =>
    refine (popN_onLevel hv).bind fun _ h =>
      .after _ fun _ => (pushAll_onLevel h _).bind fun v2 h => ?_
    refine .some ?_
    split
    · exact setUnreachable_sameLevel h
    · exact .refl h

theorem validateBasic_sameLevel (h : validateBasic C instr v = some v') :
    SameLevel v v' :=
  validateBasic_onLevel hv _ h

end

end Handlers

/-! ## Labels -/

/-- The state at the first instruction of a block that is opened in `v`, whose
parameters have been popped. -/
def opened (kind : BlockKind) (params results : List ValType) (v : ValidState) : ValidState :=
  { v with
    stack := onStack params ++ v.stack
    blocks :=
      { kind := kind, height := v.stack.length, params := params, results := results,
        unreachable := false, hasElse := false, entryInitialized := v.initialized } :: v.blocks }

namespace BlockControl

/-- The state behind the `end` of a block, computed from a state inside; `outer` are
the blocks around it. -/
def exit (outer : List BlockControl) (v : ValidState) : ValidState :=
  { v with
    stack := onStack block.results ++ below block.height v.stack
    blocks := outer
    initialized := block.entryInitialized }

def start (outer : List BlockControl) (v : ValidState) : ValidState :=
  { v with
    stack := onStack block.params ++ below block.height v.stack
    blocks := block.erase :: outer
    initialized := block.entryInitialized }

/-- The state behind the `else` of a block. -/
def withElse (outer : List BlockControl) (v : ValidState) : ValidState :=
  { block.start outer v with blocks := { block.erase with hasElse := true } :: outer }

end BlockControl

/-- A label, as the instructions inside its block see it. -/
structure Label where
  kind : BlockKind
  height : Nat
  /-- The types a branch carries. -/
  types : List ValType
  results : List ValType
  /-- The state where a branch goes on. -/
  target : ValidState
  /-- The state behind the `end`. -/
  exit : ValidState

def BlockControl.label (outer : List BlockControl) (v : ValidState) : Label :=
  { kind := block.kind
    height := block.height
    types := if block.kind = .loop then block.params else block.results
    results := block.results
    target := if block.kind = .loop then block.start outer v else block.exit outer v
    exit := block.exit outer v }

def labelsOf (v : ValidState) : List BlockControl → List Label
  | [] => []
  | block :: outer => block.label outer v :: labelsOf v outer

def labels (v : ValidState) : List Label := labelsOf v v.blocks

section Labels

variable {v v' : ValidState}

@[simp] theorem length_labelsOf (v : ValidState) : (labelsOf v blocks).length = blocks.length := by
  induction blocks with
  | nil => rfl
  | cons _ _ ih => simp [labelsOf, ih]

@[simp] theorem length_labels (v : ValidState) : (labels v).length = v.blocks.length :=
  length_labelsOf v

variable {outer : List BlockControl} {block : BlockControl}

theorem labels_cons
    (hb : v.blocks = block :: outer) : labels v = block.label outer v :: labelsOf v outer := by
  rw [labels, hb, labelsOf]

theorem drop_labelsOf (v : ValidState) (blocks : List BlockControl) (j : Nat) :
    (labelsOf v blocks).drop j = labelsOf v (blocks.drop j) := by
  induction blocks generalizing j with
  | nil => simp [labelsOf]
  | cons _ _ ih =>
    cases j with
    | zero => rfl
    | succ j => simpa [labelsOf] using ih j

theorem BlockControl.label_congr (hbelow : below block.height v'.stack = below block.height v.stack)
    (hfunc : v'.funcUnreachable = v.funcUnreachable) :
    block.label outer v' = block.label outer v := by
  simp only [label, exit, start, hbelow, hfunc]

theorem labelsOf_congr
    (hbelow : ∀ block ∈ blocks, below block.height v'.stack = below block.height v.stack)
    (hfunc : v'.funcUnreachable = v.funcUnreachable) : labelsOf v' blocks = labelsOf v blocks := by
  induction blocks with
  | nil => rfl
  | cons block outer ih =>
    rw [labelsOf, labelsOf, block.label_congr (hbelow block (by simp)) hfunc,
      ih fun b hb => hbelow b (by simp [hb])]

theorem BlockControl.label_erase (outer : List BlockControl) (v : ValidState) :
    block.erase.label outer v = block.label outer v := rfl

theorem SameLevel.labels_eq (h : SameLevel v v') : labels v' = labels v := by
  cases hb : v.blocks with
  | nil =>
    have hb' : v'.blocks = [] := by simpa [hb] using h.erase
    rw [labels, labels, hb, hb', labelsOf, labelsOf]
  | cons block outer =>
    have hfunc := h.func (by simp [hb])
    have hbelow : ∀ b ∈ v.blocks, below b.height v'.stack = below b.height v.stack := by
      intro b hmem
      obtain ⟨j, hj⟩ := mem_iff_getElem?.1 hmem
      exact h.below_eq (h.nested.block_le hj)
    cases hb' : v'.blocks with
    | nil => simpa [hb, hb'] using h.erase
    | cons block' outer' =>
      have htail : outer' = outer := by simpa [hb, hb'] using h.tail
      have herase : block'.erase = block.erase := by
        have := h.erase
        rw [hb, hb', map_cons, map_cons] at this
        exact head_eq_of_cons_eq this
      subst htail
      rw [labels_cons hb, labels_cons hb', ← block'.label_erase, herase, block.label_erase,
        block.label_congr (hbelow block (by simp [hb])) hfunc,
        labelsOf_congr (fun b hmem => hbelow b (by simp [hb, hmem])) hfunc]

theorem ValidState.Nested.opened (hv : v.Nested) (kind : BlockKind)
    (params results : List ValType) : (opened kind params results v).Nested := by
  unfold Nested at hv ⊢
  simp only [Exec.opened, map_cons, length_append, pairwise_cons] at hv ⊢
  refine ⟨fun k hk => ?_, hv⟩
  have hle : k ≤ v.stack.length := by
    rcases mem_cons.1 hk with rfl | hmem
    · exact Nat.le_refl _
    · exact hv.1 k hmem
  omega

/-- The label of a block that is opened in `v`. -/
def openedLabel (kind : BlockKind) (params results : List ValType) (v : ValidState) : Label :=
  { kind := kind
    height := v.stack.length
    types := if kind = .loop then params else results
    results := results
    target := if kind = .loop then opened kind params results v else
      { v with stack := onStack results ++ v.stack }
    exit := { v with stack := onStack results ++ v.stack } }

theorem labels_opened (hv : v.Nested) (kind : BlockKind) (params results : List ValType) :
    labels (opened kind params results v) = openedLabel kind params results v :: labels v := by
  have hbelow : ∀ block ∈ v.blocks,
      below block.height (onStack params ++ v.stack) = below block.height v.stack := by
    intro block hmem
    obtain ⟨j, hj⟩ := mem_iff_getElem?.1 hmem
    exact below_append (hv.block_le_length hj)
  have houter : labelsOf (opened kind params results v) v.blocks = labels v :=
    labelsOf_congr hbelow rfl
  rw [labels_cons rfl, houter]
  congr 1
  simp [BlockControl.label, openedLabel, BlockControl.exit, BlockControl.start, BlockControl.erase,
    opened, below_append, below_of_length_eq]

/-! ## Leaving a block -/

theorem ValidState.Nested.outer_le (hv : v.Nested) {j : Nat}
    (hb : v.blocks.drop j = block :: outer) : ∀ b ∈ outer, b.height ≤ block.height := by
  intro b hmem
  have hpair := (pairwise_cons.1 hv).2.drop (i := j)
  rw [← map_drop, hb, map_cons] at hpair
  exact (pairwise_cons.1 hpair).1 _ (mem_map_of_mem hmem)

theorem getElem?_of_drop {γ : Type} {l r : List γ} {a : γ} {j : Nat} (h : l.drop j = a :: r) :
    l[j]? = some a := by
  rw [← head?_drop, h, head?_cons]

section Leave

variable {j : Nat} {block : BlockControl} {outer : List BlockControl}

section

variable (hv : v.Nested)
include hv

section

variable (hb : v.blocks.drop j = block :: outer)
include hb

theorem ValidState.Nested.length_below : (below block.height v.stack).length = block.height :=
  Exec.length_below (hv.block_le_length (getElem?_of_drop hb))

/-- The labels of a state that keeps the stack below a block and the blocks around
it. -/
theorem labelsOf_outer (hstack : v'.stack = t ++ below block.height v.stack)
    (hfunc : v'.funcUnreachable = v.funcUnreachable) :
    labelsOf v' outer = (labels v).drop (j + 1) := by
  have houter : v.blocks.drop (j + 1) = outer := by
    rw [← drop_drop, hb, drop_succ_cons, drop_zero]
  rw [labels, drop_labelsOf, houter]
  refine labelsOf_congr (fun b hmem => ?_) hfunc
  have hle := hv.outer_le hb b hmem
  rw [hstack, below_append (by rw [hv.length_below hb]; exact hle), below_below hle]

theorem ValidState.Nested.of_outer (hstack : v'.stack = t ++ below block.height v.stack)
    (hblocks : v'.blocks = outer ∨ v'.blocks.map (·.height) = block.height :: outer.map (·.height))
    : v'.Nested := by
  have hlen : block.height ≤ v'.stack.length := by
    rw [hstack, length_append, hv.length_below hb]
    omega
  have hpair := (pairwise_cons.1 hv).2.drop (i := j)
  rw [← map_drop, hb, map_cons] at hpair
  have hle : ∀ k ∈ outer.map (·.height), k ≤ v'.stack.length := fun k hk =>
    Nat.le_trans ((pairwise_cons.1 hpair).1 k hk) hlen
  unfold Nested
  rcases hblocks with h | h <;> rw [h, pairwise_cons]
  · exact ⟨hle, (pairwise_cons.1 hpair).2⟩
  · refine ⟨fun k hk => ?_, hpair⟩
    rcases mem_cons.1 hk with rfl | hmem
    · exact hlen
    · exact hle k hmem

theorem ValidState.Nested.exit : (block.exit outer v).Nested :=
  hv.of_outer hb rfl (.inl rfl)

theorem ValidState.Nested.start : (block.start outer v).Nested :=
  hv.of_outer hb rfl (.inr rfl)

theorem ValidState.Nested.withElse : (block.withElse outer v).Nested :=
  hv.of_outer hb rfl (.inr rfl)

theorem labels_exit : labels (block.exit outer v) = (labels v).drop (j + 1) :=
  labelsOf_outer hv hb rfl rfl

omit hv in
theorem labels_drop : (labels v).drop j = block.label outer v :: (labels v).drop (j + 1) := by
  have houter : v.blocks.drop (j + 1) = outer := by
    rw [← drop_drop, hb, drop_succ_cons, drop_zero]
  rw [labels, drop_labelsOf, drop_labelsOf, hb, houter, labelsOf]

theorem label_below (hstack : v'.stack = t ++ below block.height v.stack)
    (hfunc : v'.funcUnreachable = v.funcUnreachable) :
    block.label outer v' = block.label outer v := by
  refine block.label_congr ?_ hfunc
  rw [hstack, below_append (Nat.le_of_eq (hv.length_below hb).symm), below_below (Nat.le_refl _)]

theorem labels_start : labels (block.start outer v) = (labels v).drop j := by
  have hlabel : block.label outer (block.start outer v) = block.label outer v :=
    label_below hv hb rfl rfl
  have houter : labelsOf (block.start outer v) outer = (labels v).drop (j + 1) :=
    labelsOf_outer hv hb rfl rfl
  rw [labels_drop hb, labels_cons rfl, block.label_erase, hlabel, houter]

theorem labels_withElse (hkind : block.kind = .if_) :
    labels (block.withElse outer v) = (labels v).drop j := by
  have helse : ({ block.erase with hasElse := true } : BlockControl).label outer
      (block.withElse outer v) = block.label outer (block.withElse outer v) := by
    simp [BlockControl.label, BlockControl.erase, BlockControl.exit, hkind]
  have hlabel : block.label outer (block.withElse outer v) = block.label outer v :=
    label_below hv hb rfl rfl
  have houter : labelsOf (block.withElse outer v) outer = (labels v).drop (j + 1) :=
    labelsOf_outer hv hb rfl rfl
  rw [labels_drop hb, labels_cons rfl, helse, hlabel, houter]

end

end

end Leave

section Label

variable {j : Nat} {label : Label} {outer : List Label}

/-- The state around a block, without its results. -/
def Label.base (label : Label) (v : ValidState) : ValidState :=
  { label.exit with stack := below label.height v.stack }

variable (hv : v.Nested) (hlabel : (labels v).drop j = label :: outer)

section

include hlabel

theorem exists_block :
    ∃ block blocks, v.blocks.drop j = block :: blocks ∧ label = block.label blocks v ∧
      outer = (labels v).drop (j + 1) := by
  cases hb : v.blocks.drop j with
  | nil =>
    rw [labels, drop_labelsOf, hb] at hlabel
    simp [labelsOf] at hlabel
  | cons block blocks =>
    rw [labels_drop hb] at hlabel
    obtain ⟨h, h'⟩ := cons.inj hlabel
    exact ⟨block, blocks, rfl, h.symm, h'.symm⟩

theorem exit_stack : label.exit.stack = onStack label.results ++ below label.height v.stack := by
  obtain ⟨-, -, -, rfl, -⟩ := exists_block hlabel
  rfl

theorem target_stack : label.target.stack = onStack label.types ++ below label.height v.stack := by
  obtain ⟨block, -, -, rfl, -⟩ := exists_block hlabel
  unfold BlockControl.label
  by_cases hkind : block.kind = .loop
  · simp only [hkind, if_true]
    rfl
  · simp only [hkind, if_false]
    rfl

theorem target_eq_exit (hkind : label.kind ≠ .loop) : label.target = label.exit := by
  obtain ⟨block, blocks, -, rfl, -⟩ := exists_block hlabel
  exact if_neg hkind

theorem target_reachable
    (hexit : label.exit.unreachable = false) : label.target.unreachable = false := by
  obtain ⟨block, blocks, -, rfl, -⟩ := exists_block hlabel
  by_cases hkind : block.kind = .loop
  · simp only [BlockControl.label, hkind, if_true]
    rfl
  · simpa only [BlockControl.label, hkind, if_false] using hexit

include hv

theorem label_height_le : label.height ≤ v.stack.length := by
  obtain ⟨block, blocks, hb, rfl, -⟩ := exists_block hlabel
  exact hv.block_le_length (getElem?_of_drop hb)

theorem nested_target : label.target.Nested := by
  obtain ⟨block, blocks, hb, rfl, -⟩ := exists_block hlabel
  unfold BlockControl.label
  by_cases hkind : block.kind = .loop
  · simp only [hkind, if_true]
    exact hv.start hb
  · simp only [hkind, if_false]
    exact hv.exit hb

theorem labels_exit_eq : labels label.exit = outer := by
  obtain ⟨block, blocks, hb, rfl, rfl⟩ := exists_block hlabel
  exact labels_exit hv hb

theorem labels_target :
    labels label.target = if label.kind = .loop then label :: outer else outer := by
  obtain ⟨block, blocks, hb, rfl, rfl⟩ := exists_block hlabel
  by_cases hkind : block.kind = .loop
  · simp only [BlockControl.label, hkind, if_true]
    rw [labels_start hv hb, labels_drop hb]
    simp only [BlockControl.label, hkind, if_true]
  · simp only [BlockControl.label, hkind, if_false]
    exact labels_exit hv hb

theorem nested_base : (label.base v).Nested := by
  obtain ⟨block, blocks, hb, rfl, -⟩ := exists_block hlabel
  exact hv.of_outer (t := []) hb rfl (.inl rfl)

theorem labels_base : labels (label.base v) = outer := by
  obtain ⟨block, blocks, hb, rfl, rfl⟩ := exists_block hlabel
  exact labelsOf_outer (t := []) hv hb rfl rfl

end

variable {types : List ValType}

theorem resolveLabel_le (h : resolveLabel C v depth = some types) :
    depth ≤ v.blocks.length :=
  Nat.le_of_not_lt (ite_none_left_eq_some.1 h).1

/-- `validation_resolve_label` in terms of the labels. -/
theorem resolveLabel_eq {α β : Type} {C : Context α β} {depth : Nat}
    (h : resolveLabel C v depth = some types) :
    (∃ label outer, (labels v).drop depth = label :: outer ∧ label.types = types) ∨
      (depth = v.blocks.length ∧ types = C.results ∧ (labels v).drop depth = []) := by
  unfold resolveLabel at h
  split at h
  · simp at h
  cases hb : v.blocks.drop depth with
  | nil =>
    have hge := drop_eq_nil_iff.1 hb
    rw [getElem?_eq_none hge] at h
    right
    refine ⟨by omega, (some.inj h).symm, ?_⟩
    rw [labels, drop_labelsOf, hb, labelsOf]
  | cons _ _ =>
    rw [getElem?_of_drop hb] at h
    left
    exact ⟨_, _, labels_drop hb, some.inj h⟩

end Label

end Labels

/-! ## The brackets of the validator -/

section Validator

variable {α β : Type} {C : Context α β} {v v' : ValidState}

theorem validateOpBlock_eq (h : validateOpBlock C kind type v = some v') :
    ∃ params results v1 v0, type.signature (C.types C.engine) = some (params, results) ∧
      validateBlockHead C kind v = some v1 ∧ popTypes C params v1 = some v0 ∧
      v0.blocks.length < execMaxControl ∧ v' = opened kind params results v0 := by
  simp only [validateOpBlock, bind_eq_bind, bind_eq_some_iff] at h
  obtain ⟨⟨params, results⟩, hsig, v1, hhead, v0, hpop, h⟩ := h
  obtain ⟨-, h⟩ := ite_none_left_eq_some.1 h
  obtain ⟨hlt, h⟩ := ite_none_left_eq_some.1 h
  obtain ⟨rfl, -⟩ := pushAll_eq h
  exact ⟨params, results, v1, v0, hsig, hhead, hpop, Nat.lt_of_not_le hlt, rfl⟩

theorem validateBlockHead_sameLevel (hv : v.Nested)
    (h : validateBlockHead C kind v = some v') : SameLevel v v' := by
  cases kind with
  | if_ => exact popType_onLevel hv _ h
  | tryTable _ =>
    obtain ⟨-, h⟩ := ite_none_right_eq_some.1 h
    obtain rfl := some.inj h
    exact .refl hv
  | block | loop =>
    obtain rfl := some.inj h
    exact .refl hv

/-- What is popped in front of a block is on the level of the block. -/
theorem validateOpBlock_level (hv : v.Nested) (h : validateOpBlock C kind type v = some v') :
    ∃ params results v0, type.signature (C.types C.engine) = some (params, results) ∧
      SameLevel v v0 ∧ v' = opened kind params results v0 := by
  obtain ⟨params, results, v1, v0, hsig, hhead, hpop, -, rfl⟩ := validateOpBlock_eq h
  have hlevel := validateBlockHead_sameLevel hv hhead
  exact ⟨params, results, v0, hsig, hlevel.trans (popTypes_sameLevel hlevel.nested' hpop), rfl⟩

variable {block : BlockControl}

/-- Below the results of a block there is nothing but the stack below the block. -/
theorem popResults_eq (hv : v.Nested)
    (hb : v.blocks = block :: blocks) (h : popResults C block v = some v') :
    popTypes C block.results v = some v' ∧ v'.stack = below block.height v.stack ∧
      v'.funcUnreachable = v.funcUnreachable := by
  obtain ⟨v1, hpop, h⟩ := bind_eq_some_iff.1 h
  obtain ⟨hlen, h⟩ := ite_none_left_eq_some.1 h
  obtain rfl := some.inj h
  have hlevel := popTypes_sameLevel hv hpop
  have hheight : v.height = block.height := by simp [ValidState.height, hb]
  refine ⟨hpop, ?_, hlevel.func (by simp [hb])⟩
  rw [← hheight, ← hlevel.below_eq (Nat.le_refl _), hheight]
  exact (below_of_length_eq (not_not.1 hlen)).symm

theorem validateBlockEnd_eq (hv : v.Nested)
    (hb : v.blocks = block :: blocks) (h : validateBlockEnd C block blocks v = some v') :
    v' = block.exit blocks v ∧ (∃ v1, popResults C block v = some v1) ∧
      (block.kind = .if_ → block.hasElse = false → block.params = block.results) := by
  obtain ⟨hif, h⟩ := ite_none_left_eq_some.1 h
  obtain ⟨v1, hpop, hpush⟩ := bind_eq_some_iff.1 h
  obtain ⟨-, hstack, hfunc⟩ := popResults_eq hv hb hpop
  obtain ⟨rfl, -⟩ := pushAll_eq hpush
  refine ⟨?_, ⟨v1, hpop⟩, fun hkind helse => ?_⟩
  · simp [BlockControl.exit, hstack, hfunc]
  · by_contra hne
    exact hif ⟨hkind, helse, hne⟩

theorem validateOpElse_eq (hv : v.Nested) (h : validateOpElse C v = some v') :
    ∃ block blocks, v.blocks = block :: blocks ∧ block.kind = .if_ ∧ block.hasElse = false ∧
      (∃ v1, popResults C block v = some v1) ∧ v' = block.withElse blocks v := by
  unfold validateOpElse at h
  split at h
  · simp at h
  rename_i block blocks hb
  obtain ⟨hif, h⟩ := ite_none_left_eq_some.1 h
  obtain ⟨v1, hpop, hpush⟩ := bind_eq_some_iff.1 h
  obtain ⟨-, hstack, hfunc⟩ := popResults_eq hv hb hpop
  obtain ⟨rfl, -⟩ := pushAll_eq hpush
  simp only [not_or, not_not, Bool.not_eq_true] at hif
  refine ⟨block, blocks, hb, hif.1, hif.2, ⟨v1, hpop⟩, ?_⟩
  simp [BlockControl.withElse, BlockControl.start, BlockControl.erase, hstack, hfunc]

/-! ## Runs of the validator -/

theorem validateRun_append (l r : List (Instr α β)) :
    validateRun C v (l ++ r) = (validateRun C v l).bind (validateRun C · r) := by
  induction l generalizing v with
  | nil => rfl
  | cons instr l ih =>
    simp only [cons_append, validateRun]
    cases validateInstr C instr v with
    | next v => exact ih
    | valid | refused => rfl

theorem validateRun_cons_eq {instr : Instr α β} {l : List (Instr α β)}
    (h : validateRun C v (instr :: l) = some v') :
    ∃ v1, validateInstr C instr v = .next v1 ∧ validateRun C v1 l = some v' := by
  unfold validateRun at h
  split at h
  · rename_i v1 hnext
    exact ⟨v1, hnext, h⟩
  · simp at h

theorem Verdict.ofOption_next {o : Option ValidState} (h : ofOption o = .next v) : o = some v := by
  cases o with
  | none => simp [ofOption] at h
  | some w => simpa [ofOption] using h

theorem validateInstr_end_next (h : validateInstr C .end_ v = .next v') :
    ∃ block outer, v.blocks = block :: outer ∧ validateBlockEnd C block outer v = some v' := by
  cases hb : v.blocks with
  | nil =>
    simp only [validateInstr, hb] at h
    split at h <;> simp at h
  | cons block outer =>
    simp only [validateInstr, hb] at h
    exact ⟨block, outer, rfl, Verdict.ofOption_next h⟩

theorem validateInstr_end_eq {label : Label} {outer : List Label} (hv : v.Nested)
    (hlabels : labels v = label :: outer) (h : validateInstr C .end_ v = .next v') :
    v' = label.exit := by
  obtain ⟨block, blocks, hb, hend⟩ := validateInstr_end_next h
  obtain ⟨rfl, -⟩ := validateBlockEnd_eq hv hb hend
  rw [labels_cons hb] at hlabels
  exact congrArg Label.exit (head_eq_of_cons_eq hlabels)

/-- A sequence of whole instructions keeps the level. -/
theorem validateRun_flatten (body : Body α β) (hv : v.Nested)
    (h : validateRun C v body.flatten = some v') : SameLevel v v' := by
  induction body generalizing v v' with
  | nil =>
    obtain rfl := some.inj h
    exact .refl hv
  | basic _ rest ih =>
    obtain ⟨v1, hinstr, hrest⟩ := validateRun_cons_eq h
    have hlevel := validateBasic_sameLevel hv (Verdict.ofOption_next hinstr)
    exact hlevel.trans (ih hlevel.nested' hrest)
  | block kind type _ rest ihi ihr =>
    obtain ⟨v1, hopen, h⟩ := validateRun_cons_eq h
    obtain ⟨params, results, v0, -, hlevel, rfl⟩ :=
      validateOpBlock_level hv (Verdict.ofOption_next hopen)
    rw [validateRun_append, bind_eq_some_iff] at h
    obtain ⟨v2, hinner, h⟩ := h
    obtain ⟨v3, hend, hrest⟩ := validateRun_cons_eq h
    have hin := ihi (hlevel.nested'.opened kind params results) hinner
    obtain rfl := validateInstr_end_eq hin.nested'
      (hin.labels_eq.trans (labels_opened hlevel.nested' kind params results)) hend
    have hpush := SameLevel.pushed hlevel.nested' (onStack results)
    exact (hlevel.trans hpush).trans (ihr hpush.nested' hrest)
  | ifElse type _ _ rest iht ihe ihr =>
    obtain ⟨v1, hopen, h⟩ := validateRun_cons_eq h
    obtain ⟨params, results, v0, -, hlevel, rfl⟩ :=
      validateOpBlock_level hv (Verdict.ofOption_next hopen)
    rw [validateRun_append, bind_eq_some_iff] at h
    obtain ⟨v2, hthen, h⟩ := h
    obtain ⟨v3, helse, h⟩ := validateRun_cons_eq h
    rw [validateRun_append, bind_eq_some_iff] at h
    obtain ⟨v4, helses, h⟩ := h
    obtain ⟨v5, hend, hrest⟩ := validateRun_cons_eq h
    have hin := iht (hlevel.nested'.opened .if_ params results) hthen
    obtain ⟨block, blocks, hb, hkind, -, -, rfl⟩ :=
      validateOpElse_eq hin.nested' (Verdict.ofOption_next helse)
    have hin' := ihe (hin.nested'.withElse (j := 0) hb) helses
    have hlabels : labels v4 = openedLabel .if_ params results v0 :: labels v0 := by
      rw [hin'.labels_eq, labels_withElse (j := 0) hin.nested' hb hkind, drop_zero,
        hin.labels_eq, labels_opened hlevel.nested']
    obtain rfl := validateInstr_end_eq hin'.nested' hlabels hend
    have hpush := SameLevel.pushed hlevel.nested' (onStack results)
    exact (hlevel.trans hpush).trans (ihr hpush.nested' hrest)

end Validator

end Waste.Exec
