import Waste.Exec.Instr

/-!
# Structured bodies

A function body as a tree: blocks hold the instructions between their brackets.
`flatten` writes the brackets back, and `resolve` also fills in the targets that
`parse_body` computes (`parseLoop_flatten`).  `block_at` and `else_at` read the tree
structure off the instruction array: what stands between a bracket and its target.
-/

namespace Waste.Exec

open Waste.Types List Option

/-- A sequence of instructions; a block holds the sequence inside it.  A block of
kind `if_` has no `else`. -/
inductive Body (α β : Type)
  | nil
  | basic (instr : Basic α β) (rest : Body α β)
  | block (kind : BlockKind) (type : BlockType) (inner rest : Body α β)
  | ifElse (type : BlockType) (then_ else_ rest : Body α β)

variable {α β : Type}

namespace Body

/-- The instructions with their brackets. -/
def flatten : Body α β → List (Instr α β)
  | nil => []
  | basic instr rest => .basic instr :: rest.flatten
  | block kind type inner rest => .block kind type :: (inner.flatten ++ .end_ :: rest.flatten)
  | ifElse type then_ else_ rest =>
    .block .if_ type :: (then_.flatten ++ .else_ :: (else_.flatten ++ .end_ :: rest.flatten))

variable (body : Body α β)

/-- The number of instructions of `flatten`. -/
def size : Nat := body.flatten.length

@[simp] theorem length_flatten : body.flatten.length = body.size := rfl

@[simp] theorem size_nil : (nil : Body α β).size = 0 := rfl

theorem add_size_basic (pc : Nat) (instr : Basic α β) (rest : Body α β) :
    pc + (basic instr rest).size = pc + 1 + rest.size := Nat.add_right_comm pc _ 1

theorem add_size_block (pc : Nat) (kind : BlockKind) (type : BlockType) (inner rest : Body α β) :
    pc + (block kind type inner rest).size = pc + 1 + inner.size + 1 + rest.size := by
  simp only [size, flatten, length_cons, length_append]
  omega

theorem add_size_ifElse (pc : Nat) (type : BlockType) (then_ else_ rest : Body α β) :
    pc + (ifElse type then_ else_ rest).size =
      pc + 1 + then_.size + 1 + else_.size + 1 + rest.size := by
  simp only [size, flatten, length_cons, length_append]
  omega

end Body

def openInstr (types : TypeSection) (kind : BlockKind) (type : BlockType) (u32Imm simdOp : Nat) :
    ExecInstr α β :=
  { op := .block kind type, u32Imm := u32Imm, simdOp := simdOp
    blockParamCount := ((type.signature types).map (·.1.length)).getD 0
    blockResultCount := ((type.signature types).map (·.2.length)).getD 0 }

namespace Body

/-- The instruction array of a body that starts at index `base`. -/
def resolve (types : TypeSection) : Nat → Body α β → List (ExecInstr α β)
  | _, nil => []
  | base, basic instr rest => { op := .basic instr } :: rest.resolve types (base + 1)
  | base, block kind type inner rest =>
    let close := base + 1 + inner.size
    openInstr types kind type (if kind = .if_ then close else 0) close ::
      (inner.resolve types (base + 1) ++ { op := .end_ } :: rest.resolve types (close + 1))
  | base, ifElse type then_ else_ rest =>
    let middle := base + 1 + then_.size
    let close := middle + 1 + else_.size
    openInstr types .if_ type (middle + 1) close ::
      (then_.resolve types (base + 1) ++ { op := .else_, u32Imm := close } ::
        (else_.resolve types (middle + 1) ++ { op := .end_ } :: rest.resolve types (close + 1)))

theorem map_op_resolve (types : TypeSection) (base : Nat) (body : Body α β) :
    (body.resolve types base).map (·.op) = body.flatten := by
  induction body generalizing base with
  | nil => rfl
  | basic _ rest ih => simp [resolve, flatten, ih]
  | block _ type _ rest ihi ihr => simp [resolve, flatten, ihi, ihr, openInstr]
  | ifElse type _ _ rest iht ihe ihr => simp [resolve, flatten, iht, ihe, ihr, openInstr]

@[simp] theorem length_resolve {types : TypeSection} (base : Nat) {body : Body α β} :
    (body.resolve types base).length = body.size := by
  rw [← length_map (·.op), map_op_resolve, length_flatten]

end Body

/-! ## The targets that `parse_body` computes -/

variable {γ : Type} {types : TypeSection} {kind : BlockKind} {type : BlockType}
  {st : ParseState α β} {pc n : Nat} {instr : ExecInstr α β}
variable (l r : List (ExecInstr α β)) (index : Nat) (body : Body α β)

theorem modify_append_cons (l r : List γ) (a : γ) (f : γ → γ) :
    (l ++ a :: r).modify l.length f = l ++ f a :: r := by
  induction l with
  | nil => rfl
  | cons b l ih => simpa [modify_succ_cons] using ih

theorem isIf_openInstr {u32Imm simdOp : Nat} :
    (openInstr types kind type u32Imm simdOp : ExecInstr α β).isIf = decide (kind = .if_) := by
  cases kind <;> simp [ExecInstr.isIf, openInstr]

theorem closeBlock_if : closeBlock (l ++ openInstr types .if_ type 0 0 :: r) l.length index =
      l ++ openInstr types .if_ type index index :: r := by
  unfold closeBlock
  simp [openInstr, ExecInstr.isIf, modify_append_cons]

theorem closeBlock_else (l m r : List (ExecInstr α β)) (index : Nat) :
    closeBlock (l ++ openInstr types .if_ type (l.length + 1 + m.length + 1) 0 ::
        (m ++ { op := .else_ } :: r)) l.length index =
      l ++ openInstr types .if_ type (l.length + 1 + m.length + 1) index ::
        (m ++ { op := .else_, u32Imm := index } :: r) := by
  have hmodify : ∀ (a b : ExecInstr α β) (f : ExecInstr α β → ExecInstr α β),
      (l ++ a :: (m ++ b :: r)).modify (l.length + 1 + m.length) f = l ++ a :: (m ++ f b :: r) := by
    intro a b f
    have hlen : l.length + 1 + m.length = (l ++ a :: m).length := by
      simp only [length_append, length_cons]
      omega
    have := modify_append_cons (l ++ a :: m) r b f
    rw [← hlen] at this
    simpa using this
  unfold closeBlock
  rw [modify_append_cons]
  simp only [openInstr, ExecInstr.isIf, getElem?_append_right (Nat.le_refl _), Nat.sub_self,
    getElem?_cons_zero, if_true, Nat.add_one_sub_one, Nat.add_eq_zero_iff, Nat.one_ne_zero,
    and_false, if_false]
  rw [hmodify]

theorem closeBlock_other (hkind : kind ≠ .if_) (l r : List (ExecInstr α β)) {index : Nat} :
    closeBlock (l ++ openInstr types kind type 0 0 :: r) l.length index =
      l ++ openInstr types kind type 0 index :: r := by
  unfold closeBlock
  rw [modify_append_cons]
  have hif : (openInstr types kind type 0 index : ExecInstr α β).isIf = false := by
    simp [isIf_openInstr, hkind]
  simp only [getElem?_append_right (Nat.le_refl _), Nat.sub_self, getElem?_cons_zero]
  rw [show { (openInstr types kind type 0 0 : ExecInstr α β) with simdOp := index } =
    openInstr types kind type 0 index from rfl, hif]
  rfl

theorem closeBlock_block : closeBlock (l ++ openInstr types kind type 0 0 :: r) l.length index =
      l ++ openInstr types kind type (if kind = .if_ then index else 0) index :: r := by
  by_cases hkind : kind = .if_
  · subst hkind
    exact closeBlock_if l r index
  · rw [if_neg hkind]
    exact closeBlock_other hkind l r

variable {st' : ParseState α β}

theorem parseInstr_block
    (h : parseInstr types st (.block kind type) = some st') :
    st' = { st with
      code := st.code ++ [openInstr types kind type 0 0]
      controls := st.code.length :: st.controls } := by
  unfold parseInstr at h
  simp only at h
  split at h
  · simp at h
  · obtain ⟨⟨params, results⟩, hsig, rfl⟩ := map_eq_some_iff.1 h
    simp [openInstr, hsig]

theorem parseInstr_else (type : BlockType) (l m : List (ExecInstr α β))
    {controls : List Nat} (hcode : st.code = l ++ openInstr types .if_ type 0 0 :: m)
    (hcontrols : st.controls = l.length :: controls) (h : parseInstr types st .else_ = some st') :
    st' = { st with
      code := l ++ openInstr types .if_ type (l.length + 1 + m.length + 1) 0 ::
        (m ++ [{ op := .else_ }]) } := by
  have hlen : (l ++ openInstr types .if_ type 0 0 :: m).length + 1 =
      l.length + 1 + m.length + 1 := by
    simp only [length_append, length_cons]
    omega
  simp only [parseInstr, hcode, hcontrols, modify_append_cons,
    getElem?_append_right (Nat.le_refl _), Nat.sub_self, getElem?_cons_zero,
    any_some, isIf_openInstr, decide_true, if_true, some.injEq, hlen] at h
  subst h
  simp [openInstr, hcontrols]

theorem parseLoop_cons {instr : Instr α β} {instrs : List (Instr α β)} {code : List (ExecInstr α β)}
    (h : parseLoop types st (instr :: instrs) = some code) :
    st.ended = false ∧ ∃ st', parseInstr types st instr = some st' ∧
      parseLoop types st' instrs = some code := by
  unfold parseLoop at h
  split at h
  · simp at h
  · rename_i hended
    exact ⟨by simpa using hended, bind_eq_some_iff.1 h⟩

/-- `parse_body` writes the array of `resolve`. -/
theorem parseLoop_flatten {instrs : List (Instr α β)}
    {code : List (ExecInstr α β)} (h : parseLoop types st (body.flatten ++ instrs) = some code) :
    parseLoop types { st with code := st.code ++ body.resolve types st.code.length } instrs =
      some code := by
  induction body generalizing st instrs with
  | nil => simpa [Body.resolve, Body.flatten] using h
  | basic _ rest ih =>
    obtain ⟨-, st', hst', h⟩ := parseLoop_cons h
    obtain rfl := some.inj hst'
    simpa [Body.resolve] using ih h
  | block _ type _ rest ihi ihr =>
    rw [Body.flatten, cons_append, append_assoc, cons_append] at h
    obtain ⟨-, st1, hst1, h⟩ := parseLoop_cons h
    obtain rfl := parseInstr_block hst1
    obtain ⟨-, st2, hst2, h⟩ := parseLoop_cons (ihi h)
    simp only [parseInstr, append_assoc, cons_append, closeBlock_block, some.injEq] at hst2
    subst hst2
    simpa [Body.resolve, Nat.add_assoc, Nat.add_comm, Nat.add_left_comm] using ihr h
  | ifElse type then_ _ rest iht ihe ihr =>
    rw [Body.flatten, cons_append, append_assoc, cons_append, append_assoc, cons_append] at h
    obtain ⟨-, st1, hst1, h⟩ := parseLoop_cons h
    obtain rfl := parseInstr_block hst1
    obtain ⟨-, st2, hst2, h⟩ := parseLoop_cons (iht h)
    obtain ⟨middle, hmiddle⟩ : ∃ middle, then_.resolve types (st.code.length + 1) = middle :=
      ⟨_, rfl⟩
    obtain rfl := parseInstr_else type st.code middle (by simp [hmiddle]) rfl hst2
    obtain ⟨-, st3, hst3, h⟩ := parseLoop_cons (ihe h)
    simp only [parseInstr, append_assoc, cons_append, nil_append, closeBlock_else,
      some.injEq] at hst3
    subst hst3 hmiddle
    simpa [Body.resolve, Nat.add_assoc, Nat.add_comm, Nat.add_left_comm] using ihr h

/-- The array of a whole body, with the `end` of the function. -/
def Body.code (types : TypeSection) (body : Body α β) : List (ExecInstr α β) :=
  body.resolve types 0 ++ [{ op := .end_ }]

/-- The instructions of a whole body. -/
def Body.instrs : List (Instr α β) := body.flatten ++ [.end_]

@[simp] theorem Body.map_op_code : (body.code types).map (·.op) = body.instrs := by
  simp [code, instrs, map_op_resolve]

@[simp] theorem Body.length_instrs : body.instrs.length = body.size + 1 := by
  simp [instrs]

theorem parseBody_instrs {body : Body α β} {code : List (ExecInstr α β)}
    (h : parseBody types body.instrs = some code) : code = body.code types := by
  obtain ⟨-, st, hst, h⟩ := parseLoop_cons (parseLoop_flatten body h)
  simp only [parseInstr, nil_append, length_nil, some.injEq] at hst
  subst hst
  simpa [parseLoop, Body.code] using h.symm

/-! ## Brackets and their targets -/

/-- What stands in the array at the opening of a block. -/
inductive BlockAt (types : TypeSection) (pc : Nat) (kind : BlockKind) (type : BlockType) :
    ExecInstr α β → List (Instr α β) → Prop
  | block (inner : Body α β) (post : List (Instr α β)) :
      BlockAt types pc kind type
        (openInstr types kind type (if kind = .if_ then pc + 1 + inner.size else 0)
          (pc + 1 + inner.size))
        (.block kind type :: (inner.flatten ++ .end_ :: post))
  | ifElse (then_ else_ : Body α β) (post : List (Instr α β)) (hkind : kind = .if_) :
      BlockAt types pc kind type (openInstr types kind type (pc + 1 + then_.size + 1)
          (pc + 1 + then_.size + 1 + else_.size))
        (.block kind type :: (then_.flatten ++ .else_ :: (else_.flatten ++ .end_ :: post)))

theorem BlockAt.append {instrs : List (Instr α β)} (h : BlockAt types pc kind type instr instrs)
    (post : List (Instr α β)) : BlockAt types pc kind type instr (instrs ++ post) := by
  cases h with
  | block inner mid =>
    rw [cons_append, append_assoc, cons_append]
    exact .block inner (mid ++ post)
  | ifElse then_ else_ mid hkind =>
    rw [cons_append, append_assoc, cons_append, append_assoc, cons_append]
    exact .ifElse then_ else_ (mid ++ post) hkind

/-- What stands in the array at an `else`. -/
def ElseAt (pc : Nat) (instr : ExecInstr α β) (instrs : List (Instr α β)) : Prop :=
  ∃ (else_ : Body α β) (post : List (Instr α β)),
    instrs = .else_ :: (else_.flatten ++ .end_ :: post) ∧ instr.u32Imm = pc + 1 + else_.size

theorem ElseAt.append {instrs : List (Instr α β)} (h : ElseAt pc instr instrs)
    (post : List (Instr α β)) : ElseAt pc instr (instrs ++ post) := by
  obtain ⟨else_, mid, rfl, htarget⟩ := h
  exact ⟨else_, mid ++ post, by simp, htarget⟩

theorem getElem?_append_cons_cases {l r : List γ} {a x : γ} (h : (l ++ a :: r)[n]? = some x) :
    l[n]? = some x ∨ (n = l.length ∧ x = a) ∨ ∃ k, n = l.length + 1 + k ∧ r[k]? = some x := by
  rcases Nat.lt_trichotomy n l.length with hlt | rfl | hgt
  · rw [getElem?_append_left hlt] at h
    exact .inl h
  · rw [getElem?_append_right (Nat.le_refl _), Nat.sub_self, getElem?_cons_zero] at h
    exact .inr (.inl ⟨rfl, (some.inj h).symm⟩)
  · obtain ⟨k, rfl⟩ := Nat.exists_eq_add_of_lt hgt
    rw [getElem?_append_right (by omega), show l.length + k + 1 - l.length = k + 1 by omega,
      getElem?_cons_succ] at h
    exact .inr (.inr ⟨k, by omega, h⟩)

theorem drop_append_of_getElem? {δ : Type} {l : List γ} {l' : List δ} {x : γ}
    (hlen : l.length = l'.length) (h : l[n]? = some x) (r : List δ) :
    (l' ++ r).drop n = l'.drop n ++ r := by
  have := (List.getElem?_eq_some_iff.1 h).1
  exact drop_append_of_le_length (by omega)

theorem drop_length_append (l r : List γ) (a : γ) (k : Nat) :
    (l ++ a :: r).drop (l.length + 1 + k) = r.drop k := by
  rw [show l.length + 1 + k = l.length + (k + 1) by omega, drop_length_add_append, drop_succ_cons]

/-- What the tree says about the opening of a block and an `else`. -/
def Described (types : TypeSection) (pc : Nat) (instr : ExecInstr α β)
    (instrs : List (Instr α β)) : Prop :=
  (∀ kind type, instr.op = .block kind type → BlockAt types pc kind type instr instrs) ∧
    (instr.op = .else_ → ElseAt pc instr instrs)

theorem Described.append {instrs : List (Instr α β)} (h : Described types pc instr instrs)
    (post : List (Instr α β)) :
    Described types pc instr (instrs ++ post) :=
  ⟨fun kind type hop => (h.1 kind type hop).append post, fun hop => (h.2 hop).append post⟩

theorem Body.resolve_described {base : Nat} (h : (body.resolve types base)[n]? = some instr) :
    Described types (base + n) instr (body.flatten.drop n) := by
  induction body generalizing base n with
  | nil => simp [resolve] at h
  | basic b rest ih =>
    cases n with
    | zero =>
      obtain rfl := some.inj h
      simp [Described]
    | succ n =>
      rw [show base + (n + 1) = base + 1 + n by omega]
      exact ih h
  | block _ type inner rest ihi ihr =>
    cases n with
    | zero =>
      obtain rfl := some.inj h
      refine ⟨fun kind' type' hop => ?_, fun hop => by simp [openInstr] at hop⟩
      obtain ⟨rfl, rfl⟩ := hop
      exact .block inner rest.flatten
    | succ n =>
      have hlen : (inner.resolve types (base + 1)).length = inner.flatten.length := by simp
      rw [flatten, drop_succ_cons, show base + (n + 1) = base + 1 + n by omega]
      rcases getElem?_append_cons_cases h with hin | ⟨-, rfl⟩ | ⟨k, rfl, hrest⟩
      · rw [drop_append_of_getElem? hlen hin]
        exact (ihi hin).append _
      · simp [Described]
      · rw [hlen, drop_length_append, length_flatten,
          show base + 1 + (inner.size + 1 + k) = base + 1 + inner.size + 1 + k by omega]
        exact ihr hrest
  | ifElse type then_ else_ rest iht ihe ihr =>
    cases n with
    | zero =>
      obtain rfl := some.inj h
      refine ⟨fun kind' type' hop => ?_, fun hop => by simp [openInstr] at hop⟩
      obtain ⟨rfl, rfl⟩ := hop
      exact .ifElse then_ else_ rest.flatten rfl
    | succ n =>
      have hthen : (then_.resolve types (base + 1)).length = then_.flatten.length := by simp
      rw [flatten, drop_succ_cons, show base + (n + 1) = base + 1 + n by omega]
      rcases getElem?_append_cons_cases h with hin | ⟨rfl, rfl⟩ | ⟨k, rfl, htail⟩
      · rw [drop_append_of_getElem? hthen hin]
        exact (iht hin).append _
      · rw [hthen, drop_left]
        exact ⟨fun kind' type' hop => by simp at hop,
          fun _ => ⟨else_, rest.flatten, rfl, by simp only [length_flatten]⟩⟩
      have helse : (else_.resolve types (base + 1 + then_.size + 1)).length =
          else_.flatten.length := by simp
      rw [hthen, drop_length_append, length_flatten,
        show base + 1 + (then_.size + 1 + k) = base + 1 + then_.size + 1 + k by omega]
      rcases getElem?_append_cons_cases htail with hin | ⟨-, rfl⟩ | ⟨l, rfl, hrest⟩
      · rw [drop_append_of_getElem? helse hin]
        exact (ihe hin).append _
      · simp [Described]
      · rw [helse, drop_length_append, length_flatten,
          show base + 1 + then_.size + 1 + (else_.size + 1 + l) =
            base + 1 + then_.size + 1 + else_.size + 1 + l by omega]
        exact ihr hrest

/-- Every entry of the array of a body is described by the instructions from it
on. -/
theorem Body.code_described (h : (body.code types)[pc]? = some instr) :
    Described types pc instr (body.instrs.drop pc) := by
  rcases getElem?_append_cons_cases h with hin | ⟨-, rfl⟩ | ⟨k, -, hnil⟩
  · have hlen : (body.resolve types 0).length = body.flatten.length := by simp
    rw [instrs, drop_append_of_getElem? hlen hin]
    simpa using (body.resolve_described hin).append [.end_]
  · simp [Described]
  · simp at hnil

end Waste.Exec
