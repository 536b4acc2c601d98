import Waste.Types.Equiv

/-!
# Subtyping

`ValSub` is the subtype relation of the language, over the heap types of the
proposal: four hierarchies with their bottoms, and below the abstract types
the defined types with their declared supertypes.  It is stated without the
functions of `op/validate.c`.

`globalTypeIsCompat` is compared with it in two steps.  `compat_iff` reads the
chain of branches as a relation `HeapLe` on heap types with a condition on
null.  `valSub_of_heapLe` then shows which of its cases are subtypes.  Two
branches are not: an indexed type is accepted below `funcref` whatever its
kind, and `nullfuncref` below every indexed type, non-null ones included.
-/

namespace Waste.Types

open Relation List Option

variable {T : TypeStore}

/-! ## What an accepted section guarantees -/

variable {i e f j : Nat} {x : DefinedType} {b c : TypeAt} {a r : ValType} {nonnull : Bool}
variable {groups : List (List CompositeType)} {required : TypeAt} {y : DefinedType}

theorem layoutGroups_getElem (hne : ∀ group ∈ groups, group ≠ []) (start : Nat)
    (hx : (layoutGroups start groups)[i]? = some x) :
    x.Contains (start + i) ∧ start ≤ x.recGroupStart ∧
      ∀ j, x.Contains (start + j) → ∃ y, (layoutGroups start groups)[j]? = some y ∧
        y.recGroupStart = x.recGroupStart ∧ y.recGroupSize = x.recGroupSize := by
  induction groups generalizing start i with
  | nil => simp [layoutGroups] at hx
  | cons group groups ih =>
    rw [layoutGroups] at hx ⊢
    by_cases hi : i < group.length
    · rw [getElem?_append_left (by simpa using hi), getElem?_map] at hx
      obtain ⟨c, -, rfl⟩ := map_eq_some_iff.1 hx
      refine ⟨⟨by simp [CompositeType.inGroupOf], by simpa [CompositeType.inGroupOf] using hi⟩,
        le_refl _, fun j hj => ?_⟩
      have hj : j < group.length := by
        have := hj.2
        simp only [CompositeType.inGroupOf] at this
        omega
      refine ⟨group[j].inGroupOf start group.length, ?_, rfl, rfl⟩
      rw [getElem?_append_left (by simpa using hj), getElem?_map, getElem?_eq_getElem hj, map_some]
    · rw [getElem?_append_right (by simpa using hi), length_map] at hx
      obtain ⟨hown, hstart, hmem⟩ :=
        ih (fun g hg => hne g (mem_cons_of_mem _ hg)) (start + group.length) hx
      refine ⟨by rwa [show start + group.length + (i - group.length) = start + i by omega] at hown,
        by omega, fun j hj => ?_⟩
      have hj' : group.length ≤ j := by
        have := hj.1
        omega
      obtain ⟨y, hy, h1, h2⟩ := hmem (j - group.length)
        (by rwa [show start + group.length + (j - group.length) = start + j by omega])
      refine ⟨y, ?_, h1, h2⟩
      rwa [getElem?_append_right (by simpa using hj'), length_map]

section

variable (h : AcceptedTypes T e)
include h

theorem AcceptedTypes.type_checked (hx : (T e)[i]? = some x) :
    (∀ v ∈ x.params ++ x.results ++ x.fields.map (·.type),
      typeReferenceInScope x v (T e).length = true) ∧ validateDeclaredSubtype T e i x = true := by
  have hchecked := h.checked
  rw [checkTypes, List.all_eq_true] at hchecked
  have := hchecked i (mem_range.2 (List.getElem?_eq_some_iff.1 hx).1)
  simp only [hx, Bool.and_eq_true, List.all_eq_true] at this
  obtain ⟨⟨⟨h1, h2⟩, h3⟩, h4⟩ := this
  refine ⟨fun v hv => ?_, h4⟩
  simp only [mem_append, List.mem_map] at hv
  rcases hv with (hv | hv) | ⟨f, hf, rfl⟩
  · exact h1 v hv
  · exact h2 v hv
  · exact h3 f hf

/-- A declared supertype exists, is another type, and has the same kind. -/
theorem AcceptedTypes.supertype_ok {p : Nat} (hx : (T e)[i]? = some x) (hp : x.supertype = some p) :
    p ≠ i ∧ ∃ y, (T e)[p]? = some y ∧ y.kind = x.kind := by
  have hvalid := (h.type_checked hx).2
  rw [validateDeclaredSubtype, hp] at hvalid
  simp only at hvalid
  split at hvalid
  · simp at hvalid
  rename_i hrange
  have hlt : p < (T e).length := by omega
  rw [getElem?_eq_getElem hlt] at hvalid
  simp only at hvalid
  split at hvalid
  · simp at hvalid
  · rename_i hkind
    exact ⟨by omega, _, getElem?_eq_getElem hlt, by
      by_contra hne
      exact hkind (.inr fun h => hne h.symm)⟩

/-- A reference in a checked type goes to its supertype or to a type in scope. -/
theorem AcceptedTypes.reference (hx : (T e)[i]? = some x) {v : ValType} (hv : v ∈ x.valueTypes)
    (hvj : v.index? = some j) :
    x.supertype = some j ∨ (j < (T e).length ∧ j < x.recGroupStart + x.recGroupSize) := by
  rw [DefinedType.valueTypes, mem_append] at hv
  rcases hv with hv | hv
  · have hscope := (h.type_checked hx).1 v hv
    simp only [typeReferenceInScope, hvj, Bool.and_eq_true, decide_eq_true_eq] at hscope
    exact .inr hscope
  · simp only [List.mem_map, mem_toList] at hv
    obtain ⟨p, hp, rfl⟩ := hv
    exact .inl (hp.trans hvj)

theorem AcceptedTypes.typesOk : TypesOk (T e) := by
  obtain ⟨groups, hne, hlayout⟩ := h.groups
  refine ⟨fun {i x} hx => ?_, fun {i x} hx j hj => ?_, fun {i x} hx v hv j hvj => ?_⟩
  · rw [hlayout] at hx
    simpa using (layoutGroups_getElem hne 0 hx).1
  · rw [hlayout] at hx ⊢
    exact (layoutGroups_getElem hne 0 hx).2.2 j (by simpa using hj)
  · rcases h.reference hx hv hvj with hp | hscope
    · obtain ⟨-, y, hy, -⟩ := h.supertype_ok hx hp
      exact (List.getElem?_eq_some_iff.1 hy).1
    · exact hscope.1

/-- Supertypes are declared in an earlier group or in the own one, as
`parse_types` demands of every other reference. -/
def SupertypesInScope (ts : TypeSection) : Prop :=
  ∀ (i : Nat) (x : DefinedType), ts[i]? = some x → ∀ p, x.supertype = some p →
    p < x.recGroupStart + x.recGroupSize

theorem AcceptedTypes.scoped (hs : SupertypesInScope (T e)) : Scoped (T e) := by
  refine ⟨h.typesOk, fun {i x} hx v hv j hvj => ?_⟩
  exact (h.reference hx hv hvj).elim (hs i x hx j) And.right

end

variable (hT : ∀ e, AcceptedTypes T e)
include hT

theorem superAt_kind {a : TypeAt} (h : superAt T a = some b) : kindAt T a = kindAt T b := by
  obtain ⟨x, hx, p, hp, rfl⟩ := superAt_eq_some.1 h
  obtain ⟨-, y, hy, hkind⟩ := (hT a.engine).supertype_ok hx hp
  simp [kindAt, hx, hy, hkind]

/-! ## The walk up the declared supertypes -/

/-- `b` is the declared supertype of `a`. -/
def Declared (T : TypeStore) (a b : TypeAt) : Prop := superAt T a = some b

omit hT in
theorem declared_of_subtypeWalk {steps : Nat} {a : TypeAt}
    (h : subtypeWalk T required steps a = true) :
    ∃ c, ReflTransGen (Declared T) a c ∧ sameTypeIndex T c required = true := by
  induction steps generalizing a with
  | zero => simp [subtypeWalk] at h
  | succ steps ih =>
    rw [subtypeWalk] at h
    split at h
    · exact ⟨a, .refl, ‹_›⟩
    split at h
    · simp at h
    rename_i x hx
    split at h
    · simp at h
    rename_i p hp
    split at h
    · simp at h
    · obtain ⟨c, hc, hsame⟩ := ih h
      refine ⟨c, .head ?_ hc, hsame⟩
      simp [Declared, superAt, hx, hp]

omit hT in
/-- A declared supertype of a function type was checked: it has smaller parameters and
larger results. -/
theorem AcceptedTypes.func_supertype (h : AcceptedTypes T e) {p : Nat} (hx : (T e)[i]? = some x)
    (hkind : x.kind = .func) (hp : x.supertype = some p) :
    ∃ y, (T e)[p]? = some y ∧ y.kind = .func ∧
      Forall₂ (fun a b => globalTypeIsCompat T e b e a false = true) x.params y.params ∧
      Forall₂ (fun a b => globalTypeIsCompat T e a e b false = true) x.results y.results := by
  obtain ⟨-, y, hy, hkind'⟩ := h.supertype_ok hx hp
  have hvalid := (h.type_checked hx).2
  simp only [validateDeclaredSubtype, hp, hy, hkind] at hvalid
  split at hvalid
  · simp at hvalid
  split at hvalid
  · simp at hvalid
  rw [Bool.and_eq_true, allSame_iff, allSame_iff] at hvalid
  exact ⟨y, hy, hkind'.trans hkind, hvalid⟩

/-- What holds along declared supertypes of function types and for equal function types
holds for the types that `func_type_is_subtype` accepts. -/
theorem funcTypeIsSubtype_induction {a : TypeAt} {R : DefinedType → DefinedType → Prop}
    (hrefl : ∀ x, R x x) (htrans : ∀ x y z, R x y → R y z → R x z)
    (hsuper : ∀ x y : DefinedType,
      Forall₂ (fun p q => globalTypeIsCompat T a.engine q a.engine p false = true)
        x.params y.params →
      Forall₂ (fun p q => globalTypeIsCompat T a.engine p a.engine q false = true)
        x.results y.results → R x y)
    (hequal : ∀ x y : DefinedType,
      Forall₂ (ValRel (RefRel (TypeEquiv T) b.engine a.engine y x)) y.params x.params →
      Forall₂ (ValRel (RefRel (TypeEquiv T) a.engine b.engine x y)) x.results y.results →
      R x y) (h : funcTypeIsSubtype T a b = true)
    (hx : (T a.engine)[a.index]? = some x) (hy : (T b.engine)[b.index]? = some y) : R x y := by
  simp only [funcTypeIsSubtype, Bool.and_eq_true, decide_eq_true_eq, kindAt, hx,
    map_some, some.injEq] at h
  obtain ⟨⟨hkind, -⟩, hwalk⟩ := h
  unfold typeIndexIsSubtype at hwalk
  split at hwalk
  · simp at hwalk
  obtain ⟨c, hdeclared, hsame⟩ := declared_of_subtypeWalk hwalk
  obtain ⟨hengine, z, hz, hkind', hxz⟩ :
      c.engine = a.engine ∧ ∃ z, (T a.engine)[c.index]? = some z ∧ z.kind = .func ∧ R x z := by
    clear hsame hwalk
    induction hdeclared with
    | refl => exact ⟨rfl, x, hx, hkind, hrefl x⟩
    | @tail c d _ hstep ih =>
      obtain ⟨hc, z, hz, hkind', hxz⟩ := ih
      obtain ⟨z', hz', p, hp, rfl⟩ := superAt_eq_some.1 hstep
      rw [hc] at hz'
      obtain rfl := some.inj (hz.symm.trans hz')
      obtain ⟨w, hw, hkind'', hparams, hresults⟩ := (hT a.engine).func_supertype hz hkind' hp
      exact ⟨hc, w, hw, hkind'', htrans x z w hxz (hsuper z w hparams hresults)⟩
  refine htrans x z y hxz ?_
  -- the two halves of the equality, for the results and for the parameters
  have hequiv := typeEquiv_of_sameTypeIndex (fun e => (hT e).typesOk) hsame
  obtain ⟨z1, y1, hz1, hy1, -, -, -, hmember⟩ := typeEquiv_unfold T hequiv
  obtain ⟨y2, z2, hy2, hz2, -, -, -, hmember'⟩ := typeEquiv_unfold T (typeEquiv_symm hequiv)
  rw [hengine] at hz1 hz2 hmember hmember'
  obtain rfl := some.inj (hz.symm.trans hz1)
  obtain rfl := some.inj (hz.symm.trans hz2)
  obtain rfl := some.inj (hy.symm.trans hy1)
  obtain rfl := some.inj (hy.symm.trans hy2)
  exact hequal z y (hmember'.params (hmember.kind ▸ hkind')) (hmember.results hkind')

theorem length_eq_of_funcTypeIsSubtype {a : TypeAt} (h : funcTypeIsSubtype T a b = true)
    (hx : (T a.engine)[a.index]? = some x) (hy : (T b.engine)[b.index]? = some y) :
    x.params.length = y.params.length ∧ x.results.length = y.results.length := by
  refine funcTypeIsSubtype_induction hT (R := fun x y =>
    x.params.length = y.params.length ∧ x.results.length = y.results.length)
    (fun _ => ⟨rfl, rfl⟩) ?_ ?_ ?_ h hx hy
  · intro x y z hxy hyz
    exact ⟨hxy.1.trans hyz.1, hxy.2.trans hyz.2⟩
  · intro x y hparams hresults
    exact ⟨hparams.length_eq, hresults.length_eq⟩
  · intro x y hparams hresults
    exact ⟨hparams.length_eq.symm, hresults.length_eq⟩

/-- The `k`-th declared supertype. -/
def ancestor (T : TypeStore) : Nat → TypeAt → Option TypeAt
  | 0, a => some a
  | k + 1, a => (superAt T a).bind (ancestor T k)

omit hT in
theorem ancestor_add (k l : Nat) (a : TypeAt) :
    ancestor T (k + l) a = (ancestor T k a).bind (ancestor T l) := by
  induction k generalizing a with
  | zero => simp [ancestor]
  | succ k ih =>
    rw [Nat.succ_add, ancestor, ancestor, bind_assoc]
    congr 1
    funext b
    exact ih b

omit hT in
theorem exists_ancestor {a : TypeAt} (h : ReflTransGen (Declared T) a c) :
    ∃ k, ancestor T k a = some c := by
  induction h using ReflTransGen.head_induction_on with
  | refl => exact ⟨0, rfl⟩
  | head hab _ ih =>
    obtain ⟨k, hk⟩ := ih
    exact ⟨k + 1, by rw [ancestor, hab, bind_some, hk]⟩

theorem ancestor_mem {k : Nat} {a : TypeAt} (ha : a.index < (T a.engine).length)
    (h : ancestor T k a = some c) : c.engine = a.engine ∧ c.index < (T a.engine).length := by
  induction k generalizing a with
  | zero =>
    obtain rfl : a = c := some.inj h
    exact ⟨rfl, ha⟩
  | succ k ih =>
    rw [ancestor, bind_eq_some_iff] at h
    obtain ⟨b, hb, hc⟩ := h
    obtain ⟨x, hx, p, hp, rfl⟩ := superAt_eq_some.1 hb
    obtain ⟨-, y, hy, -⟩ := (hT a.engine).supertype_ok hx hp
    exact ih (a := ⟨a.engine, p⟩) (List.getElem?_eq_some_iff.1 hy).1 hc

/-- A supertype that can be reached is reached before the walk gives up: among
the first `n` supertypes of a section with `n` types there is no new one left. -/
theorem exists_ancestor_lt {a : TypeAt} (ha : a.index < (T a.engine).length)
    (h : ReflTransGen (Declared T) a c) : ∃ k < (T a.engine).length, ancestor T k a = some c := by
  classical
  have hex := exists_ancestor h
  refine ⟨.find hex, ?_, Nat.find_spec hex⟩
  set k := Nat.find hex with hk
  have hspec : ancestor T k a = some c := Nat.find_spec hex
  -- all supertypes on the way exist
  have hsome : ∀ i ≤ k, ∃ d, ancestor T i a = some d := fun i hi => by
    obtain ⟨l, hl⟩ := Nat.exists_eq_add_of_le hi
    rw [hl, ancestor_add, bind_eq_some_iff] at hspec
    exact ⟨_, hspec.choose_spec.1⟩
  have : Nonempty TypeAt := ⟨a⟩
  choose! f hf using hsome
  have hcard : Fintype.card (Fin (k + 1)) ≤ Fintype.card (Fin (T a.engine).length) := by
    refine Fintype.card_le_of_injective
      (fun i : Fin (k + 1) => ⟨(f i).index, (ancestor_mem hT ha (hf i (by omega))).2⟩)
      (.of_lt_imp_ne fun i j hij heq => ?_)
    -- a repetition would give a shorter way
    have hi := hf i (by omega)
    have hj := hf j (by omega)
    have hsame : f i = f j := by
      show TypeAt.mk (f i).engine (f i).index = .mk (f j).engine (f j).index
      rw [(ancestor_mem hT ha hi).1, (ancestor_mem hT ha hj).1, Fin.mk.inj heq]
    have hshort : ancestor T (i + (k - j)) a = some c := by
      rw [show k = j + (k - j) by omega, ancestor_add, hj] at hspec
      rw [ancestor_add, hi, hsame]
      exact hspec
    have := Nat.find_min' hex hshort
    omega
  simp only [Fintype.card_fin] at hcard
  omega

theorem subtypeWalk_of_ancestor {a : TypeAt} (hsame : sameTypeIndex T c required = true)
    {k steps : Nat} (hk : k < steps) (h : ancestor T k a = some c) :
    subtypeWalk T required steps a = true := by
  induction steps generalizing a k with
  | zero => omega
  | succ steps ih =>
    rw [subtypeWalk]
    split
    · rfl
    rename_i hne
    cases k with
    | zero =>
      obtain rfl : a = c := some.inj h
      exact absurd hsame hne
    | succ k =>
      rw [ancestor, bind_eq_some_iff] at h
      obtain ⟨b, hb, hc⟩ := h
      obtain ⟨x, hx, p, hp, rfl⟩ := superAt_eq_some.1 hb
      obtain ⟨hself, y, hy, -⟩ := (hT a.engine).supertype_ok hx hp
      have hlt := (List.getElem?_eq_some_iff.1 hy).1
      simp only [hx, hp]
      rw [if_neg (by omega)]
      exact ih (by omega) hc

/-- What `type_index_is_subtype` answers on accepted sections. -/
theorem typeIndexIsSubtype_iff {a : TypeAt} (ha : a.index < (T a.engine).length)
    (hb : b.index < (T b.engine).length) : typeIndexIsSubtype T a b = true ↔
      ∃ c, ReflTransGen (Declared T) a c ∧ sameTypeIndex T c b = true := by
  rw [typeIndexIsSubtype, if_neg (by omega)]
  constructor
  · exact declared_of_subtypeWalk
  · rintro ⟨c, hc, hsame⟩
    obtain ⟨k, hk, hanc⟩ := exists_ancestor_lt hT ha hc
    exact subtypeWalk_of_ancestor hT hsame (by omega) hanc

/-! ## The relation of the language -/

inductive Heap
  | any | eq | i31 | struct | array | none
  | func | nofunc
  | ext | noext
  | exn | noexn
  | defined (a : TypeAt)
deriving DecidableEq

/-- Subtyping of heap types. -/
inductive HeapSub (T : TypeStore) : Heap → Heap → Prop
  | refl (h : Heap) : HeapSub T h h
  | trans {h₁ h₂ h₃ : Heap} : HeapSub T h₁ h₂ → HeapSub T h₂ h₃ → HeapSub T h₁ h₃
  | eq_any : HeapSub T .eq .any
  | i31_eq : HeapSub T .i31 .eq
  | struct_eq : HeapSub T .struct .eq
  | array_eq : HeapSub T .array .eq
  | none_below {h : Heap} : HeapSub T h .any → HeapSub T .none h
  | nofunc_below {h : Heap} : HeapSub T h .func → HeapSub T .nofunc h
  | noext_below {h : Heap} : HeapSub T h .ext → HeapSub T .noext h
  | noexn_below {h : Heap} : HeapSub T h .exn → HeapSub T .noexn h
  | defined_func {a : TypeAt} : kindAt T a = some .func → HeapSub T (.defined a) .func
  | defined_struct {a : TypeAt} : kindAt T a = some .struct → HeapSub T (.defined a) .struct
  | defined_array {a : TypeAt} : kindAt T a = some .array → HeapSub T (.defined a) .array
  | equiv {a b : TypeAt} : TypeEquiv T a b → HeapSub T (.defined a) (.defined b)
  | declared {a b : TypeAt} : Declared T a b → HeapSub T (.defined a) (.defined b)

/-- A reference type: is it non-null, and to which heap type does it refer?  The
bottom types of the source are nullable. -/
def ValType.ref? (e : Nat) : ValType → Option (Bool × Heap)
  | .i32 | .i64 | .f32 | .f64 | .v128 => none
  | .funcref => some (false, .func)
  | .externref => some (false, .ext)
  | .funcrefNonnull => some (true, .func)
  | .externrefNonnull => some (true, .ext)
  | .anyref => some (false, .any)
  | .eqref => some (false, .eq)
  | .i31ref => some (false, .i31)
  | .structref => some (false, .struct)
  | .arrayref => some (false, .array)
  | .anyrefNonnull => some (true, .any)
  | .eqrefNonnull => some (true, .eq)
  | .i31refNonnull => some (true, .i31)
  | .structrefNonnull => some (true, .struct)
  | .arrayrefNonnull => some (true, .array)
  | .exnref => some (false, .exn)
  | .exnrefNonnull => some (true, .exn)
  | .nullref => some (false, .none)
  | .nullfuncref => some (false, .nofunc)
  | .nullexnref => some (false, .noexn)
  | .nullexternref => some (false, .noext)
  | .typeRefNull i => some (false, .defined ⟨e, i⟩)
  | .typeRef i => some (true, .defined ⟨e, i⟩)

/-- Subtyping of value types, each read in its engine: numbers and vectors are
only below themselves, and a reference type asks for a heap subtype and for
non-null where the supertype is non-null. -/
def ValSub (T : TypeStore) (e : Nat) (a : ValType) (f : Nat) (r : ValType) : Prop :=
  match a.ref? e, r.ref? f with
  | some (nonnull, h), some (nonnull', h') => (nonnull' = true → nonnull = true) ∧ HeapSub T h h'
  | none, none => a = r
  | _, _ => False

/-! ### Hierarchies -/

inductive Hierarchy
  | any | func | ext | exn
deriving DecidableEq

def hierarchy (T : TypeStore) : Heap → Option Hierarchy
  | .any | .eq | .i31 | .struct | .array | .none => some .any
  | .func | .nofunc => some .func
  | .ext | .noext => some .ext
  | .exn | .noexn => some .exn
  | .defined a => (kindAt T a).map fun kind => if kind = .func then .func else .any

variable {h h' : Heap}

theorem HeapSub.hierarchy_eq (hsub : HeapSub T h h') : hierarchy T h = hierarchy T h' := by
  induction hsub with
  | refl | eq_any | i31_eq | struct_eq | array_eq => rfl
  | trans _ _ ih ih' => exact ih.trans ih'
  | none_below _ ih | nofunc_below _ ih | noext_below _ ih | noexn_below _ ih => exact ih.symm
  | defined_func hk | defined_struct hk | defined_array hk => simp [hierarchy, hk]
  | equiv heq => simp [hierarchy, heq.kindAt_eq]
  | declared hd => simp [hierarchy, superAt_kind hT hd]

omit hT in
theorem heapSub_of_declared {a : TypeAt} (h : ReflTransGen (Declared T) a c) :
    HeapSub T (.defined a) (.defined c) := by
  induction h with
  | refl => exact .refl _
  | tail _ hd ih => exact ih.trans (.declared hd)

/-- What `type_index_is_subtype` accepts equals a declared supertype. -/
theorem declared_of_typeIndexIsSubtype {a : TypeAt} (h : typeIndexIsSubtype T a b = true) :
    ∃ c, ReflTransGen (Declared T) a c ∧ TypeEquiv T c b := by
  rw [typeIndexIsSubtype] at h
  split at h
  · simp at h
  · obtain ⟨c, hc, hsame⟩ := declared_of_subtypeWalk h
    exact ⟨c, hc, typeEquiv_of_sameTypeIndex (fun e => (hT e).typesOk) hsame⟩

omit hT

/-! ## What the chain of branches accepts -/

/-- The heap types other than defined types that `globalTypeIsCompat` accepts
below each other, null aside; `eq` is not below `any`. -/
def builtinHeapLe : Heap → Heap → Bool
  | .i31, .eq | .i31, .any | .struct, .eq | .struct, .any | .array, .eq | .array, .any => true
  | .none, .any | .none, .eq | .none, .i31 | .none, .struct | .none, .array => true
  | .nofunc, .func | .noext, .ext | .noexn, .exn => true
  | h, h' => h = h'

/-- What it accepts above a defined type; `func` asks for no kind. -/
def aboveDefined (T : TypeStore) (x : TypeAt) : Heap → Prop
  | .func => True
  | .struct => kindAt T x = some .struct
  | .array => kindAt T x = some .array
  | .eq | .any => ∃ kind, kindAt T x = some kind ∧ kind ≠ .func
  | .defined y => x = y ∨ typeIndexIsSubtype T x y = true
  | _ => False

/-- The heap types that `globalTypeIsCompat` accepts below each other. -/
def HeapLe (T : TypeStore) : Heap → Heap → Prop
  | .defined x, h => aboveDefined T x h
  | h, h' => builtinHeapLe h h' = true

/-- The acceptance relation on value types. -/
def CompatRel (T : TypeStore) (e : Nat) (a : ValType) (f : Nat) (r : ValType) : Prop :=
  match a.ref? e, r.ref? f with
  | some (nonnull, h), some (nonnull', h') =>
    ((nonnull' = true → nonnull = true) ∧ HeapLe T h h') ∨ (h = .nofunc ∧ r.index?.isSome = true)
  | none, none => a = r
  | _, _ => False

/-- The index of an indexed type is an index of the section. -/
def ValType.InRange (T : TypeStore) (e : Nat) (v : ValType) : Prop :=
  ∀ i, v.index? = some i → i < (T e).length

/-- The branches between two builtins. -/
def builtinCompat (a r : ValType) : Bool :=
  a = r || nonnullBelowNullable a r || bottomBelowNullable a r || builtinBelowEq a r

theorem compat_builtin (ha : a.index? = none) (hr : r.index? = none) :
    globalTypeIsCompat T e a f r false = builtinCompat a r := by
  have hlast : nullableCompat T e a f r = false := by
    unfold nullableCompat
    split
    · simp [ValType.index?] at ha
    · rfl
  simp only [globalTypeIsCompat, sameValueType, sameValueTypeWith, indexedCompat,
    aggregateCompat, ha, hr, builtinCompat, hlast]
  by_cases h1 : a = r <;> cases nonnullBelowNullable a r <;> cases bottomBelowNullable a r <;>
    cases builtinBelowEq a r <;> simp [h1]

theorem heapLe_iff_builtin (hh : ∀ a, h ≠ .defined a) :
    HeapLe T h h' ↔ builtinHeapLe h h' = true := by
  cases h with
  | defined x => exact absurd rfl (hh x)
  | _ => rfl

theorem ref?_of_index (ha : a.index? = some i) :
    a.ref? e = some (a.indexedNonnull, .defined ⟨e, i⟩) := by
  cases a <;> simp only [ValType.index?, reduceCtorEq, some.injEq] at ha <;>
    simp [ValType.ref?, ValType.indexedNonnull, ha]

theorem ref?_ne_defined (ha : a.index? = none) (href : a.ref? e = some (nonnull, h)) (x : TypeAt) :
    h ≠ .defined x := by
  rintro rfl
  cases a <;> simp [ValType.ref?, ValType.index?] at href ha

theorem compatRel_builtin (ha : a.index? = none) (hr : r.index? = none) :
    builtinCompat a r = true ↔ CompatRel T e a f r := by
  have hcompat : builtinCompat a r = (match a.ref? e, r.ref? f with
      | some (nonnull, h), some (nonnull', h') => (!nonnull' || nonnull) && builtinHeapLe h h'
      | none, none => decide (a = r)
      | _, _ => false) := by
    cases a <;> simp only [ValType.index?, reduceCtorEq] at ha <;> cases r <;> rfl
  rw [hcompat, CompatRel]
  rcases hra : a.ref? e with _ | ⟨nonnull, h⟩ <;> rcases hrr : r.ref? f with _ | ⟨nonnull', h'⟩
  · simp
  · simp
  · simp
  · simp only [Bool.and_eq_true, ← heapLe_iff_builtin (T := T) (ref?_ne_defined ha hra), hr,
      isSome_none, Bool.false_eq_true, and_false, or_false]
    cases nonnull' <;> simp

/-- Four of the branches accept nothing between an indexed type and a builtin. -/
theorem mixed_branches (h : a.index?.isSome ≠ r.index?.isSome) :
    a ≠ r ∧ nonnullBelowNullable a r = false ∧ bottomBelowNullable a r = false ∧
      builtinBelowEq a r = false ∧ nullableCompat T e a f r = false := by
  refine ⟨fun heq => h (heq ▸ rfl), ?_⟩
  cases a <;> cases r <;> first | exact ⟨rfl, rfl, rfl, rfl⟩ | exact absurd rfl h

theorem compat_indexed_builtin (ha : a.index? = some i) (hr : r.index? = none) :
    globalTypeIsCompat T e a f r false = (aggregateCompat T e a r || decide (r = .funcref) ||
        (decide (r = .funcrefNonnull) && a.indexedNonnull)) := by
  have hnull : a ≠ .nullfuncref := by
    rintro rfl
    simp [ValType.index?] at ha
  obtain ⟨hne, h1, h2, h3, h4⟩ := mixed_branches (T := T) (e := e) (f := f)
    (show a.index?.isSome ≠ r.index?.isSome by simp [ha, hr])
  simp only [globalTypeIsCompat, sameValueType, sameValueTypeWith, indexedCompat, ha, hr, hne,
    hnull, h1, h2, h3, h4, decide_false, Bool.false_eq_true, if_false, false_and, isSome_some,
    true_and]
  cases aggregateCompat T e a r <;> by_cases hf : r = .funcref <;>
    by_cases hf' : r = .funcrefNonnull <;> simp [hf, hf']

theorem compatRel_indexed_builtin (ha : a.index? = some i) (hr : r.index? = none) :
    globalTypeIsCompat T e a f r false = true ↔ CompatRel T e a f r := by
  rw [compat_indexed_builtin ha hr]
  have hagg : ∀ r, aggregateCompat T e a r = true ↔
      ∃ kind, kindAt T ⟨e, i⟩ = some kind ∧ aggregateBelow kind a.indexedNonnull r = true := by
    intro r
    simp only [aggregateCompat, ha, kindAt]
    cases (T e)[i]? <;> simp
  simp only [Bool.or_eq_true, Bool.and_eq_true, decide_eq_true_eq, hagg, CompatRel,
    ref?_of_index ha]
  cases r <;> simp only [ValType.index?, reduceCtorEq] at hr <;>
    simp only [ValType.ref?, HeapLe, aboveDefined, aggregateBelow] <;> grind

/-- Only `nullfuncref` is accepted below an indexed type among the builtins. -/
theorem compat_builtin_indexed (ha : a.index? = none) (hr : r.index? = some j)
    (hj : j < (T f).length) : globalTypeIsCompat T e a f r false = decide (a = .nullfuncref) := by
  obtain ⟨hne, h1, h2, h3, h4⟩ := mixed_branches (T := T) (e := e) (f := f)
    (show a.index?.isSome ≠ r.index?.isSome by simp [ha, hr])
  by_cases hnull : a = .nullfuncref <;>
    simp [globalTypeIsCompat, sameValueType, sameValueTypeWith, indexedCompat, aggregateCompat,
      ha, hr, hne, h1, h2, h3, h4, hnull, hj]

theorem compatRel_builtin_indexed (ha : a.index? = none) (hr : r.index? = some j)
    (hj : j < (T f).length) : globalTypeIsCompat T e a f r false = true ↔ CompatRel T e a f r := by
  rw [compat_builtin_indexed ha hr hj, decide_eq_true_eq]
  simp only [CompatRel, ref?_of_index hr, hr, isSome_some, and_true]
  cases a <;> simp only [ValType.index?, reduceCtorEq] at ha <;>
    simp [ValType.ref?, heapLe_iff_builtin, builtinHeapLe]

/-- Two indexed types: the non-null condition, and a subtype or the same place. -/
theorem compatRel_indexed (ha : a.index? = some i) (hr : r.index? = some j) (hi : i < (T e).length)
    (hj : j < (T f).length) : globalTypeIsCompat T e a f r false = true ↔ CompatRel T e a f r := by
  have hwalk : sameTypeIndex T ⟨e, i⟩ ⟨f, j⟩ = true →
      typeIndexIsSubtype T ⟨e, i⟩ ⟨f, j⟩ = true := by
    intro hsame
    rw [typeIndexIsSubtype, if_neg (by simp only; omega), subtypeWalk, if_pos hsame]
  have hsame : ∀ x y : ValType, x.index? = some i → y.index? = some j →
      (sameValueType T e x f y = true ↔ x.indexedNonnull = y.indexedNonnull ∧
        ((e = f ∧ i = j) ∨ sameTypeIndex T ⟨e, i⟩ ⟨f, j⟩ = true)) := by
    intro x y hx hy
    simp only [sameValueType, sameValueTypeWith, hx, hy, intraVerdict]
    split <;> simp_all
  have hchain : globalTypeIsCompat T e a f r false = true ↔
      (r.indexedNonnull = true → a.indexedNonnull = true) ∧
        ((e = f ∧ i = j) ∨ typeIndexIsSubtype T ⟨e, i⟩ ⟨f, j⟩ = true) := by
    have hlast := hsame (.typeRefNull i) (.typeRefNull j) rfl rfl
    have hfirst := hsame a r ha hr
    cases a <;> simp only [ValType.index?, reduceCtorEq, some.injEq] at ha <;>
      cases r <;> simp only [ValType.index?, reduceCtorEq, some.injEq] at hr <;>
      subst ha hr <;>
      simp [globalTypeIsCompat, nonnullBelowNullable, bottomBelowNullable, indexedCompat,
        aggregateCompat, ValType.index?, ValType.indexedNonnull, nullableCompat, builtinBelowEq,
        aggregateBelow] at hfirst hlast ⊢ <;> grind
  rw [hchain]
  simp [CompatRel, ref?_of_index ha, ref?_of_index hr, HeapLe, aboveDefined]

theorem compat_iff (ha : a.InRange T e) (hr : r.InRange T f) :
    globalTypeIsCompat T e a f r false = true ↔ CompatRel T e a f r := by
  rcases hia : a.index? with _ | i <;> rcases hir : r.index? with _ | j
  · rw [compat_builtin hia hir]
    exact compatRel_builtin hia hir
  · exact compatRel_builtin_indexed hia hir (hr j hir)
  · exact compatRel_indexed_builtin hia hir
  · exact compatRel_indexed hia hir (ha i hia) (hr j hir)

theorem aboveDefined_mono {x : TypeAt} (hle : aboveDefined T x h)
    (hle' : builtinHeapLe h h' = true) : aboveDefined T x h' := by
  unfold builtinHeapLe at hle'
  split at hle' <;>
    first | exact hle.elim | exact ⟨_, hle, by decide⟩ | exact of_decide_eq_true hle' ▸ hle

theorem builtinHeapLe_trans {h₁ h₂ h₃ : Heap} (hle : builtinHeapLe h₁ h₂ = true)
    (hle' : builtinHeapLe h₂ h₃ = true) : builtinHeapLe h₁ h₃ = true := by
  unfold builtinHeapLe at hle
  split at hle
  case h_15 => exact of_decide_eq_true hle ▸ hle'
  all_goals cases h₃ <;> simp [builtinHeapLe] at hle' ⊢

/-! ## Soundness -/

theorem heapSub_of_builtin (hle : builtinHeapLe h h' = true) : HeapSub T h h' := by
  unfold builtinHeapLe at hle
  split at hle
  · exact .i31_eq
  · exact .trans .i31_eq .eq_any
  · exact .struct_eq
  · exact .trans .struct_eq .eq_any
  · exact .array_eq
  · exact .trans .array_eq .eq_any
  · exact .none_below (.refl _)
  · exact .none_below .eq_any
  · exact .none_below (.trans .i31_eq .eq_any)
  · exact .none_below (.trans .struct_eq .eq_any)
  · exact .none_below (.trans .array_eq .eq_any)
  · exact .nofunc_below (.refl _)
  · exact .noext_below (.refl _)
  · exact .noexn_below (.refl _)
  · exact of_decide_eq_true hle ▸ .refl _

include hT

/-- The accepted cases are subtypes, but for an indexed type below `func`. -/
theorem HeapLe.heapSub (hle : HeapLe T h h')
    (hfunc : ∀ x, h = .defined x → h' = .func → kindAt T x = some .func) : HeapSub T h h' := by
  have heq {x : TypeAt} : (∃ kind, kindAt T x = some kind ∧ kind ≠ .func) →
      HeapSub T (.defined x) .eq := by
    rintro ⟨kind, hk, hne⟩
    cases kind with
    | func => exact absurd rfl hne
    | struct => exact (HeapSub.defined_struct hk).trans .struct_eq
    | array => exact (HeapSub.defined_array hk).trans .array_eq
  cases h with
  | defined x =>
    cases h' with
    | func => exact .defined_func (hfunc x rfl rfl)
    | struct => exact .defined_struct hle
    | array => exact .defined_array hle
    | eq => exact heq hle
    | any => exact (heq hle).trans .eq_any
    | defined y =>
      rcases hle with rfl | hsub
      · exact .refl _
      · obtain ⟨c, hc, hequiv⟩ := declared_of_typeIndexIsSubtype hT hsub
        exact (heapSub_of_declared hc).trans (.equiv hequiv)
    | _ => exact hle.elim
  | _ => exact heapSub_of_builtin hle

/-- The pairs that are accepted without being subtypes: a struct or array type
below `funcref`, and `nullfuncref` below an indexed type that is non-null or
not a function type. -/
def UnsoundPair (T : TypeStore) (e : Nat) (a : ValType) (f : Nat) (r : ValType) : Prop :=
  (∃ i, a.index? = some i ∧ kindAt T ⟨e, i⟩ ≠ some .func ∧
      (r = .funcref ∨ (r = .funcrefNonnull ∧ a.indexedNonnull = true))) ∨
    (a = .nullfuncref ∧
      ∃ j, r.index? = some j ∧ (r.indexedNonnull = true ∨ kindAt T ⟨f, j⟩ ≠ some .func))

omit hT in
theorem kindAt_isSome (hi : i < (T e).length) : ∃ kind, kindAt T ⟨e, i⟩ = some kind :=
  ⟨_, by rw [kindAt, getElem?_eq_getElem hi, map_some]⟩

omit hT in
/-- A type that is not a function type is in another hierarchy than `func`. -/
theorem hierarchy_ne_func (hi : i < (T e).length) (hkind : kindAt T ⟨e, i⟩ ≠ some .func) :
    hierarchy T (.defined ⟨e, i⟩) ≠ hierarchy T .func := by
  obtain ⟨kind, hk⟩ := kindAt_isSome hi
  have hne : kind ≠ .func := fun hfunc => hkind (hfunc ▸ hk)
  simp [hierarchy, hk, hne]

omit hT in
theorem UnsoundPair.accepted (hr : r.InRange T f) (h : UnsoundPair T e a f r) :
    globalTypeIsCompat T e a f r false = true := by
  rcases h with ⟨i, hi, -, hrf⟩ | ⟨rfl, j, hj, -⟩
  · rcases hrf with rfl | ⟨rfl, hnonnull⟩
    · simp [compat_indexed_builtin hi (r := .funcref) rfl]
    · simp [compat_indexed_builtin hi (r := .funcrefNonnull) rfl, hnonnull]
  · rw [compat_builtin_indexed rfl hj (hr j hj)]
    rfl

theorem UnsoundPair.not_valSub (ha : a.InRange T e) (hr : r.InRange T f) (h : UnsoundPair T e a f r)
    : ¬ ValSub T e a f r := by
  rcases h with ⟨i, hi, hkind, hrf⟩ | ⟨rfl, j, hj, hbad⟩
  · have hnot := hierarchy_ne_func (ha i hi) hkind
    rcases hrf with rfl | ⟨rfl, -⟩ <;> rw [ValSub, ref?_of_index hi] <;>
      exact fun h => hnot (h.2.hierarchy_eq hT)
  · rw [ValSub, ref?_of_index hj]
    rcases hbad with hnonnull | hkind
    · exact fun h => Bool.false_ne_true (h.1 hnonnull)
    · exact fun h => hierarchy_ne_func (hr j hj) hkind (h.2.hierarchy_eq hT).symm

omit hT in
theorem index?_of_ref? {x : TypeAt} (h : a.ref? e = some (nonnull, .defined x)) :
    a.index? = some x.index ∧ x.engine = e ∧ a.indexedNonnull = nonnull := by
  cases a <;> simp only [ValType.ref?, some.injEq, Prod.mk.injEq, Heap.defined.injEq,
    reduceCtorEq, and_false] at h <;> obtain ⟨rfl, rfl⟩ := h <;>
    exact ⟨rfl, rfl, rfl⟩

omit hT in
theorem eq_of_ref?_func (h : r.ref? e = some (nonnull, .func)) :
    r = .funcref ∨ (r = .funcrefNonnull ∧ nonnull = true) := by
  cases r <;> simp_all [ValType.ref?]

omit hT in
theorem eq_of_ref?_nofunc (h : a.ref? e = some (nonnull, .nofunc)) : a = .nullfuncref := by
  cases a <;> simp_all [ValType.ref?]

/-- Acceptance is sound away from the pairs above. -/
theorem valSub_of_compat (ha : a.InRange T e) (hr : r.InRange T f) (hok : ¬ UnsoundPair T e a f r)
    (hcompat : globalTypeIsCompat T e a f r false = true) : ValSub T e a f r := by
  rw [compat_iff ha hr, CompatRel] at hcompat
  rw [ValSub]
  rcases hra : a.ref? e with _ | ⟨nonnull, h⟩ <;> rcases hrr : r.ref? f with _ | ⟨nonnull', h'⟩ <;>
    simp only [hra, hrr] at hcompat
  · exact hcompat
  rcases hcompat with ⟨hnull, hle⟩ | ⟨rfl, hindex⟩
  · refine ⟨hnull, hle.heapSub hT ?_⟩
    rintro x rfl rfl
    obtain ⟨hi, rfl, hnn⟩ := index?_of_ref? hra
    by_contra hkind
    refine hok (.inl ⟨_, hi, hkind, ?_⟩)
    rcases eq_of_ref?_func hrr with hrf | ⟨hrf, rfl⟩
    · exact .inl hrf
    · exact .inr ⟨hrf, hnn.trans (hnull rfl)⟩
  · obtain ⟨j, hj⟩ := isSome_iff_exists.1 hindex
    have hanull := eq_of_ref?_nofunc hra
    have hrj := ref?_of_index (e := f) hj
    rw [hrj, some.injEq, Prod.mk.injEq] at hrr
    obtain ⟨rfl, rfl⟩ := hrr
    have hgood : r.indexedNonnull ≠ true ∧ kindAt T ⟨f, j⟩ = some .func := by
      by_contra hbad
      rw [not_and_or, not_not] at hbad
      exact hok (.inr ⟨hanull, j, hj, hbad⟩)
    exact ⟨fun h => absurd h hgood.1, .nofunc_below (.defined_func hgood.2)⟩

/-! ## Transitivity -/

theorem kindAt_of_typeIndexIsSubtype {a : TypeAt} (h : typeIndexIsSubtype T a b = true) :
    kindAt T a = kindAt T b := by
  obtain ⟨c, hc, hequiv⟩ := declared_of_typeIndexIsSubtype hT h
  rw [← hequiv.kindAt_eq]
  clear hequiv
  induction hc with
  | refl => rfl
  | tail _ hd ih => exact ih.trans (superAt_kind hT hd)

/-- Acceptance of heap types composes, up to the composition of two walks. -/
theorem HeapLe.trans {h₁ h₂ h₃ : Heap} (hle : HeapLe T h₁ h₂) (hle' : HeapLe T h₂ h₃)
    (hwalk : ∀ x y z, h₁ = .defined x → h₂ = .defined y → h₃ = .defined z →
      x = z ∨ typeIndexIsSubtype T x z = true) : HeapLe T h₁ h₃ := by
  by_cases hbuiltin : ∀ y, h₂ ≠ .defined y
  · rw [heapLe_iff_builtin hbuiltin] at hle'
    cases h₁ with
    | defined x => exact aboveDefined_mono hle hle'
    | _ => exact builtinHeapLe_trans hle hle'
  obtain ⟨y, rfl⟩ := not_forall_not.1 hbuiltin
  cases h₁ with
  | defined x =>
    rcases hle with rfl | hsub
    · exact hle'
    have hkind := kindAt_of_typeIndexIsSubtype hT hsub
    cases h₃ with
    | defined z => exact hwalk x y z rfl rfl rfl
    | _ => simp_all only [HeapLe, aboveDefined]
  | _ => simp [HeapLe, builtinHeapLe] at hle

/-- The walk of `type_index_is_subtype` from `a` meets a type that the equality
check takes for `c`, or `a` is `c`. -/
def Found (T : TypeStore) (a c : TypeAt) : Prop :=
  a = c ∨ ∃ d, ReflTransGen (Declared T) a d ∧ sameTypeIndex T d c = true

theorem found_iff {a : TypeAt} (ha : a.index < (T a.engine).length)
    (hc : c.index < (T c.engine).length) : Found T a c ↔ HeapLe T (.defined a) (.defined c) := by
  rw [Found, HeapLe, aboveDefined, typeIndexIsSubtype_iff hT ha hc]

omit hT in
theorem exists_declared_of_typeEquiv {a : TypeAt} (heq : TypeEquiv T a b)
    (h : ReflTransGen (Declared T) b c) : ∃ d, ReflTransGen (Declared T) a d ∧ TypeEquiv T d c := by
  induction h with
  | refl => exact ⟨a, .refl, heq⟩
  | tail _ hd ih =>
    obtain ⟨d, had, hdc⟩ := ih
    obtain ⟨d', hd', heq'⟩ := (typeEquiv_symm hdc).superAt_rel hd
    exact ⟨d', had.tail hd', typeEquiv_symm heq'⟩

/-- With the supertypes in scope the composition of two walks is found. -/
theorem Found.trans (hs : ∀ e, SupertypesInScope (T e)) {a : TypeAt} (hab : Found T a b)
    (hbc : Found T b c) : Found T a c := by
  have hsound := fun {x y : TypeAt} => typeEquiv_of_sameTypeIndex (fun e => (hT e).typesOk)
    (a := x) (b := y)
  rcases hab with rfl | ⟨d, had, hdb⟩
  · exact hbc
  rcases hbc with rfl | ⟨d', hbd', hd'c⟩
  · exact .inr ⟨d, had, hdb⟩
  obtain ⟨d'', hd'', heq⟩ := exists_declared_of_typeEquiv (hsound hdb) hbd'
  exact .inr ⟨d'', had.trans hd'', sameTypeIndex_of_typeEquiv (fun e => (hT e).scoped (hs e))
    (fun e => (hT e).bound) (typeEquiv_trans heq (hsound hd'c))⟩

/-- `nullfuncref` is accepted below an indexed type that is accepted below a
builtin `nullfuncref` itself is not below. -/
def BottomGap (a b c : ValType) : Prop :=
  a = .nullfuncref ∧ b.index?.isSome = true ∧ c.index? = none ∧ c ≠ .funcref

theorem CompatRel.found (ha : a.InRange T e) (hr : r.InRange T f) (hi : a.index? = some i)
    (hj : r.index? = some j) (h : CompatRel T e a f r) : Found T ⟨e, i⟩ ⟨f, j⟩ := by
  simp only [CompatRel, ref?_of_index hi, ref?_of_index hj, reduceCtorEq, false_and, or_false] at h
  exact (found_iff hT (ha i hi) (hr j hj)).2 h.2

omit hT in
theorem builtinCompat_nullfuncref {c : ValType} (h : builtinCompat .nullfuncref c = true) :
    c = .nullfuncref ∨ c = .funcref := by
  cases c <;> simp [builtinCompat, nonnullBelowNullable, bottomBelowNullable, builtinBelowEq] at h ⊢

theorem compat_trans_iff {g : Nat} {b c : ValType} (ha : a.InRange T e) (hb : b.InRange T f)
    (hc : c.InRange T g) (hab : globalTypeIsCompat T e a f b false = true)
    (hbc : globalTypeIsCompat T f b g c false = true) : globalTypeIsCompat T e a g c false = true ↔
      ¬ BottomGap a b c ∧ ∀ i j k, a.index? = some i → b.index? = some j → c.index? = some k →
        Found T ⟨e, i⟩ ⟨g, k⟩ := by
  rw [compat_iff ha hb] at hab
  rw [compat_iff hb hc] at hbc
  rw [compat_iff ha hc]
  constructor
  · intro hac
    refine ⟨?_, fun i _ k hi _ hk => hac.found hT ha hc hi hk⟩
    rintro ⟨rfl, hbi, hcn, hcf⟩
    obtain ⟨j, hj⟩ := isSome_iff_exists.1 hbi
    rcases builtinCompat_nullfuncref ((compatRel_builtin rfl hcn).2 hac) with rfl | rfl
    · rw [CompatRel, ref?_of_index hj] at hbc
      simp [ValType.ref?, HeapLe, aboveDefined] at hbc
    · exact hcf rfl
  · rintro ⟨hgap, hfound⟩
    rcases hra : a.ref? e with _ | ⟨na, h₁⟩ <;> rcases hrb : b.ref? f with _ | ⟨nb, h₂⟩ <;>
      rcases hrc : c.ref? g with _ | ⟨nc, h₃⟩ <;> simp only [CompatRel, hra, hrb, hrc] at hab hbc ⊢
    · exact hab.trans hbc
    rcases hab with ⟨hnull, hle⟩ | ⟨rfl, hbi⟩
    · rcases hbc with ⟨hnull', hle'⟩ | ⟨rfl, hci⟩
      · refine .inl ⟨fun h => hnull (hnull' h), hle.trans hT hle' ?_⟩
        rintro x y z rfl rfl rfl
        obtain ⟨hi, rfl, -⟩ := index?_of_ref? hra
        obtain ⟨hj, rfl, -⟩ := index?_of_ref? hrb
        obtain ⟨hk, rfl, -⟩ := index?_of_ref? hrc
        exact (found_iff hT (ha _ hi) (hc _ hk)).1 (hfound _ _ _ hi hj hk)
      · cases h₁ <;> simp [HeapLe, aboveDefined, builtinHeapLe] at hle
        exact .inr ⟨rfl, hci⟩
    · obtain rfl := eq_of_ref?_nofunc hra
      obtain ⟨j, hj⟩ := isSome_iff_exists.1 hbi
      by_cases hcn : c.index? = none
      · have hcf : c = .funcref := by
          by_contra hne
          exact hgap ⟨rfl, hbi, hcn, hne⟩
        subst hcf
        cases hrc
        exact .inl ⟨fun h => absurd h (by decide), rfl⟩
      · exact .inr ⟨rfl, isSome_iff_ne_none.2 hcn⟩

omit hT

theorem globalTypeIsCompat_refl (e : Nat) (a : ValType) :
    globalTypeIsCompat T e a e a false = true := by
  have hsame : sameValueType T e a e a = true := by
    rw [sameValueType, sameValueTypeWith]
    rcases a.index? with _ | i <;> simp [intraVerdict]
  simp [globalTypeIsCompat, hsame]

/-- `global_type_is_compat` on accepted type sections.  An accepted pair is a
subtype exactly when it is not one of the `UnsoundPair`s.  The relation is
reflexive.  Two accepted pairs compose exactly when `nullfuncref` does not
leave its hierarchy through an indexed type and, for three indexed types, the
walk from the first one finds the last one, which it does whenever the
supertypes are in scope. -/
theorem compat_sound_refl_trans (hT : ∀ e, AcceptedTypes T e) (e f g : Nat) (a b c : ValType)
    (ha : a.InRange T e) (hb : b.InRange T f) (hc : c.InRange T g) :
    ((globalTypeIsCompat T e a f b false = true → ValSub T e a f b) ↔ ¬ UnsoundPair T e a f b) ∧
      globalTypeIsCompat T e a e a false = true ∧
      (globalTypeIsCompat T e a f b false = true → globalTypeIsCompat T f b g c false = true →
        (globalTypeIsCompat T e a g c false = true ↔
          ¬ BottomGap a b c ∧ ∀ i j k, a.index? = some i → b.index? = some j →
            c.index? = some k → Found T ⟨e, i⟩ ⟨g, k⟩)) ∧
      ((∀ e, SupertypesInScope (T e)) →
        globalTypeIsCompat T e a f b false = true → globalTypeIsCompat T f b g c false = true →
          ∀ i j k, a.index? = some i → b.index? = some j → c.index? = some k →
            Found T ⟨e, i⟩ ⟨g, k⟩) := by
  refine ⟨⟨fun hsound hpair => ?_, fun hpair => valSub_of_compat hT ha hb hpair⟩,
    globalTypeIsCompat_refl e a, compat_trans_iff hT ha hb hc, fun hs hab hbc i j k hi hj hk => ?_⟩
  · exact hpair.not_valSub hT ha hb (hsound (hpair.accepted hb))
  · rw [compat_iff ha hb] at hab
    rw [compat_iff hb hc] at hbc
    exact (hab.found hT ha hb hi hj).trans hT hs (hbc.found hT hb hc hj hk)

def moduleStore (groups : List (List CompositeType)) : TypeStore
  | 0 => layoutGroups 0 groups
  | _ + 1 => []

theorem moduleStore_accepted (hne : ∀ group ∈ groups, group ≠ [])
    (hbound : (layoutGroups 0 groups).length ≤ wastMaxTypes)
    (hchecked : checkTypes (moduleStore groups) 0 = true) :
    AcceptedTypes (moduleStore groups) e := by
  cases e with
  | zero => exact ⟨⟨groups, hne, rfl⟩, hbound, hchecked⟩
  | succ e => exact ⟨⟨[], by simp, rfl⟩, by simp [moduleStore], rfl⟩

/-- A module whose only type is a struct type without fields. -/
def structModule : TypeStore := moduleStore [[{ kind := .struct }]]

theorem structModule_accepted (e : Nat) : AcceptedTypes structModule e :=
  moduleStore_accepted (by decide) (by decide) (by decide)

theorem structModule_inRange {v : ValType} (hv : v.index? = none ∨ v.index? = some 0) :
    v.InRange structModule 0 := by
  intro i hi
  rcases hv with hv | hv <;> rw [hv] at hi <;> cases hi
  decide

/-- Five function types whose supertypes form a cycle through later types. -/
def cyclicModule : TypeStore := moduleStore
  [[{ kind := .func, supertype := some 3, isFinal := false }],
    [{ kind := .func, supertype := some 4, isFinal := false }],
    [{ kind := .func, supertype := some 3, isFinal := false }],
    [{ kind := .func, supertype := some 0, isFinal := false }],
    [{ kind := .func, supertype := some 0, isFinal := false }]]

/-- A struct reference is accepted as a `funcref`; `nullfuncref` is accepted
below the non-null struct reference, which is below `structref`, but not below
`structref`; and supertypes out of scope break the composition of two walks. -/
theorem compat_not_sound_not_trans :
    (∀ e, AcceptedTypes structModule e) ∧
      globalTypeIsCompat structModule 0 (.typeRef 0) 0 .funcref false = true ∧
      ¬ ValSub structModule 0 (.typeRef 0) 0 .funcref ∧
      globalTypeIsCompat structModule 0 .nullfuncref 0 (.typeRef 0) false = true ∧
      ¬ ValSub structModule 0 .nullfuncref 0 (.typeRef 0) ∧
      globalTypeIsCompat structModule 0 (.typeRef 0) 0 .structref false = true ∧
      globalTypeIsCompat structModule 0 .nullfuncref 0 .structref false = false ∧
      (∀ e, AcceptedTypes cyclicModule e) ∧
      globalTypeIsCompat cyclicModule 0 (.typeRef 0) 0 (.typeRef 2) false = true ∧
      globalTypeIsCompat cyclicModule 0 (.typeRef 2) 0 (.typeRef 1) false = true ∧
      globalTypeIsCompat cyclicModule 0 (.typeRef 0) 0 (.typeRef 1) false = false := by
  have hrange := fun {v} => structModule_inRange (v := v)
  refine ⟨structModule_accepted, by decide +kernel, ?_, by decide +kernel, ?_, by decide +kernel,
    by decide +kernel, fun _ => moduleStore_accepted (by decide) (by decide) (by decide),
    by decide +kernel, by decide +kernel, by decide +kernel⟩
  · exact UnsoundPair.not_valSub structModule_accepted (hrange (.inr rfl)) (hrange (.inl rfl))
      (.inl ⟨0, rfl, by decide, .inl rfl⟩)
  · exact UnsoundPair.not_valSub structModule_accepted (hrange (.inl rfl)) (hrange (.inr rfl))
      (.inr ⟨rfl, 0, rfl, .inl rfl⟩)

/-- The struct reference below `structref`, where the answer is sound. -/
theorem compat_sound_structref :
    globalTypeIsCompat structModule 0 (.typeRef 0) 0 .structref false = true ∧
      ValSub structModule 0 (.typeRef 0) 0 .structref :=
  have hcompat : globalTypeIsCompat structModule 0 (.typeRef 0) 0 .structref false = true := by
    decide +kernel
  have hpair : ¬ UnsoundPair structModule 0 (.typeRef 0) 0 .structref := by
    simp [UnsoundPair]
  ⟨hcompat, (compat_sound_refl_trans structModule_accepted 0 0 0 (.typeRef 0) .structref .structref
    (structModule_inRange (.inr rfl)) (structModule_inRange (.inl rfl))
    (structModule_inRange (.inl rfl))).1.2 hpair hcompat⟩

/-- Where supertypes are in scope, `same_type_index_ctx` decides the equality of defined types,
and this is an equivalence between the types of all engines. -/
theorem sameTypeIndex_decides {T : TypeStore} (hT : ∀ e, AcceptedTypes T e)
    (hs : ∀ e, SupertypesInScope (T e)) :
    (∀ a b, sameTypeIndex T a b = true ↔ TypeEquiv T a b) ∧
      Equivalence fun a b : { a : TypeAt // a.index < (T a.engine).length } =>
        sameTypeIndex T a b = true := by
  have hiff (a b : TypeAt) : sameTypeIndex T a b = true ↔ TypeEquiv T a b :=
    ⟨typeEquiv_of_sameTypeIndex fun e => (hT e).typesOk,
      sameTypeIndex_of_typeEquiv (fun e => (hT e).scoped (hs e)) fun e => (hT e).bound⟩
  simp only [hiff, implies_true, true_and]
  exact ⟨fun a => typeEquiv_refl (hT _).typesOk a.2, typeEquiv_symm, typeEquiv_trans⟩

/-- A struct type and, below it, two struct types that refer to each other, from the index `first`
on. -/
def nodeGroups (first : Nat) : List (List CompositeType) :=
  [[{ kind := .struct, isFinal := false }],
    [{ kind := .struct, supertype := some first, fields := [⟨.typeRefNull (first + 2), true, 0⟩] },
      { kind := .struct, supertype := some first, fields := [⟨.typeRef (first + 1), false, 0⟩] }]]

/-- Two engines that have these types at different indices. -/
def nodeStore : TypeStore
  | 0 => layoutGroups 0 (nodeGroups 0)
  | 1 => layoutGroups 0 ([{ kind := .func, params := [.i32] }] :: nodeGroups 1)
  | _ + 2 => []

theorem nodeStore_accepted (e : Nat) : AcceptedTypes nodeStore e := by
  rcases e with _ | _ | e
  · exact ⟨⟨_, by decide, rfl⟩, by decide, by decide +kernel⟩
  · exact ⟨⟨_, by decide, rfl⟩, by decide, by decide +kernel⟩
  · exact ⟨⟨[], by simp, rfl⟩, by simp [nodeStore], rfl⟩

theorem nodeStore_inScope (e : Nat) : SupertypesInScope (nodeStore e) := by
  have hall : ∀ x ∈ nodeStore e, x.supertype.all (· < x.recGroupStart + x.recGroupSize) := by
    rcases e with _ | _ | e
    · decide
    · decide
    · simp [nodeStore]
  intro i x hx p hp
  have hp' := hall x (mem_of_getElem? hx)
  rw [hp] at hp'
  exact of_decide_eq_true hp'

/-- Each of the two types equals the one at its position in the other engine, and no other. -/
theorem sameTypeIndex_decides_nodes : TypeEquiv nodeStore ⟨0, 1⟩ ⟨1, 2⟩ ∧
    TypeEquiv nodeStore ⟨0, 2⟩ ⟨1, 3⟩ ∧ ¬ TypeEquiv nodeStore ⟨0, 1⟩ ⟨1, 3⟩ := by
  have hiff := (sameTypeIndex_decides nodeStore_accepted nodeStore_inScope).1
  simp only [← hiff]
  decide +kernel

end Waste.Types
