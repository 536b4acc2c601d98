import Waste.Lib.Coinduction
import Waste.Types.Model

/-!
# Equality of defined types

Two defined types are equal when their recursive groups have the same shape:
references inside the groups agree by position, references to other groups
agree as types.  `TypeEquiv` is this relation as a greatest fixed point, and it
names no algorithm.

`sameTypeIndexCtx` decides it.  `typeEquiv_of_sameTypeIndex` is soundness, for
all sections with references in range: every pair of groups that the algorithm
has put aside is an assumption of a parameterized coinduction, and the
assumption is paid back when the group has been compared.
`sameTypeIndex_of_typeEquiv` is completeness, for sections in which every
reference, supertypes included, goes to an earlier group or to the own one.
-/

namespace Waste.Types

open Coinduction List

variable (T : TypeStore)
variable {y : DefinedType} {ts : TypeSection} {i j : Nat} {v w : ValType}
  {rel : ValType → ValType → Prop} {α : Type} {R : α → α → Prop}

/-! ## The relation -/

/-- Value types that agree up to a relation on their indices. -/
def ValRel (rel : Nat → Nat → Prop) (v w : ValType) : Prop :=
  match v.index?, w.index? with
  | some i, some j => v.indexedNonnull = w.indexedNonnull ∧ rel i j
  | _, _ => v = w

/-- Defined types that agree up to a relation on their value types. -/
structure MemberRel (rel : ValType → ValType → Prop) (a b : DefinedType) : Prop where
  kind : a.kind = b.kind
  isFinal : a.isFinal = b.isFinal
  supertype : Option.Rel (fun x y => rel (.typeRef x) (.typeRef y)) a.supertype b.supertype
  params : a.kind = .func → List.Forall₂ rel a.params b.params
  results : a.kind = .func → List.Forall₂ rel a.results b.results
  fields : a.kind ≠ .func → List.Forall₂ (fun f g => f.isMutable = g.isMutable ∧
    f.packed = g.packed ∧ rel f.type g.type) a.fields b.fields

/-- The value types a defined type mentions, its supertype included. -/
def DefinedType.valueTypes (x : DefinedType) : List ValType :=
  x.params ++ x.results ++ x.fields.map (·.type) ++ x.supertype.toList.map .typeRef

private theorem forall₂_imp_mem {R' : α → α → Prop} {as bs : List α}
    (h : List.Forall₂ R as bs) (himp : ∀ a ∈ as, ∀ b ∈ bs, R a b → R' a b) :
    List.Forall₂ R' as bs := by
  induction h with
  | nil => exact .nil
  | cons hab _ ih =>
    refine .cons (himp _ (by simp) _ (by simp) hab) (ih fun a ha b hb => ?_)
    exact himp a (mem_cons_of_mem _ ha) b (mem_cons_of_mem _ hb)

theorem MemberRel.imp {rel' : ValType → ValType → Prop} {a b : DefinedType} (h : MemberRel rel a b)
    (himp : ∀ v ∈ a.valueTypes, ∀ w ∈ b.valueTypes, rel v w → rel' v w) : MemberRel rel' a b := by
  refine ⟨h.kind, h.isFinal, ?_, fun hk => forall₂_imp_mem (h.params hk) fun v hv w hw =>
    himp v ?_ w ?_, fun hk => forall₂_imp_mem (h.results hk) fun v hv w hw =>
    himp v ?_ w ?_, fun hk => forall₂_imp_mem (h.fields hk) fun f hf g hg hfg =>
      ⟨hfg.1, hfg.2.1, himp f.type ?_ g.type ?_ hfg.2.2⟩⟩
  · rcases hp : a.supertype with _ | x <;> rcases hq : b.supertype with _ | y
    · exact .none
    · simpa [hp, hq] using h.supertype
    · simpa [hp, hq] using h.supertype
    · have := h.supertype
      rw [hp, hq] at this
      rcases this with ⟨hxy⟩
      exact .some (himp _ (by simp [DefinedType.valueTypes, hp]) _
        (by simp [DefinedType.valueTypes, hq]) hxy)
  all_goals simp only [DefinedType.valueTypes, mem_append, mem_map]
  · exact .inl (.inl (.inl hv))
  · exact .inl (.inl (.inl hw))
  · exact .inl (.inl (.inr hv))
  · exact .inl (.inl (.inr hw))
  · exact .inl (.inr ⟨f, hf, rfl⟩)
  · exact .inl (.inr ⟨g, hg, rfl⟩)

theorem ValRel.imp {rel rel' : Nat → Nat → Prop} (h : ValRel rel v w)
    (himp : ∀ i j, v.index? = some i → w.index? = some j → rel i j → rel' i j) :
    ValRel rel' v w := by
  unfold ValRel at h ⊢
  split at h
  · exact ⟨h.1, himp _ _ ‹_› ‹_› h.2⟩
  · exact h

def DefinedType.Contains (x : DefinedType) (i : Nat) : Prop :=
  x.recGroupStart ≤ i ∧ i < x.recGroupStart + x.recGroupSize

/-- Indices that agree under `S`, for types `x` and `y` of the two engines: a
reference inside the own group only agrees with one inside the own group. -/
def RefRel (S : TypeAt → TypeAt → Prop) (e f : Nat) (x y : DefinedType) (i j : Nat) : Prop :=
  (x.Contains i ↔ y.Contains j) ∧ S ⟨e, i⟩ ⟨f, j⟩

/-- One unfolding of the equality of `a` and `b`: the groups have one size, the
two types stand at one position, all members agree under `S`, and the two types
agree up to `S`. -/
def typeStep : (TypeAt → TypeAt → Prop) →o (TypeAt → TypeAt → Prop) where
  toFun S a b := ∃ x y, (T a.engine)[a.index]? = some x ∧ (T b.engine)[b.index]? = some y ∧
    x.recGroupSize = y.recGroupSize ∧
    a.index - x.recGroupStart = b.index - y.recGroupStart ∧
    (∀ m < x.recGroupSize, S ⟨a.engine, x.recGroupStart + m⟩ ⟨b.engine, y.recGroupStart + m⟩) ∧
    MemberRel (ValRel (RefRel S a.engine b.engine x y)) x y
  monotone' := by
    rintro S S' hS a b ⟨x, y, hx, hy, hsize, hpos, hgroup, hmember⟩
    refine ⟨x, y, hx, hy, hsize, hpos, fun m hm => hS _ _ (hgroup m hm), hmember.imp ?_⟩
    exact fun v _ w _ h => h.imp fun i j _ _ hij => ⟨hij.1, hS _ _ hij.2⟩

/-- Equality of defined types. -/
def TypeEquiv : TypeAt → TypeAt → Prop := (typeStep T).gfp

variable {a b : TypeAt} {same : ValType → ValType → Bool} {pairs : List GroupPair}

theorem typeEquiv_unfold (h : TypeEquiv T a b) : typeStep T (TypeEquiv T) a b := by
  rw [TypeEquiv, (typeStep T).map_gfp]
  exact h

/-! ## Sections with references in range -/

/-- What the comparison relies on: a type lies in its group, the members of a
group agree on the group, and every reference is in range. -/
structure TypesOk (ts : TypeSection) : Prop where
  own : ∀ {i : Nat} {x : DefinedType}, ts[i]? = some x → x.Contains i
  member : ∀ {i : Nat} {x : DefinedType}, ts[i]? = some x → ∀ j, x.Contains j →
    ∃ y, ts[j]? = some y ∧ y.recGroupStart = x.recGroupStart ∧ y.recGroupSize = x.recGroupSize
  range : ∀ {i : Nat} {x : DefinedType}, ts[i]? = some x → ∀ v ∈ x.valueTypes, ∀ j,
    v.index? = some j → j < ts.length

/-- The same, and no reference goes to a later group. -/
structure Scoped (ts : TypeSection) : Prop extends TypesOk ts where
  scope : ∀ {i : Nat} {x : DefinedType}, ts[i]? = some x → ∀ v ∈ x.valueTypes, ∀ j,
    v.index? = some j → j < x.recGroupStart + x.recGroupSize

theorem TypesOk.group_eq (h : TypesOk ts) {k : Nat} {x : DefinedType}
    (hx : ts[i]? = some x) (hy : ts[j]? = some y) (hxk : x.Contains k) (hyk : y.Contains k) :
    x.recGroupStart = y.recGroupStart ∧ x.recGroupSize = y.recGroupSize := by
  obtain ⟨z, hz, h1, h2⟩ := h.member hx k hxk
  obtain ⟨z', hz', h3, h4⟩ := h.member hy k hyk
  rw [hz, Option.some.injEq] at hz'
  subst hz'
  exact ⟨by omega, by omega⟩

theorem TypesOk.contains_self (h : TypesOk ts) {x : DefinedType}
    (hx : ts[i]? = some x) : x.Contains x.recGroupStart := by
  have := h.own hx
  unfold DefinedType.Contains at this ⊢
  omega

theorem typeEquiv_refl {T : TypeStore} (h : TypesOk (T a.engine))
    (ha : a.index < (T a.engine).length) : TypeEquiv T a a := by
  suffices hle : (fun x y => x = y ∧ x.engine = a.engine ∧ x.index < (T a.engine).length) ≤
      (typeStep T).gfp from hle a a ⟨rfl, rfl, ha⟩
  apply (typeStep T).le_gfp
  rintro ⟨e, i⟩ _ ⟨rfl, rfl, hi⟩
  obtain ⟨x, hx⟩ : ∃ x, (T a.engine)[i]? = some x := ⟨_, getElem?_eq_getElem hi⟩
  refine ⟨x, x, hx, hx, rfl, rfl, fun m hm => ?_, ?_⟩
  · obtain ⟨y, hy, -⟩ := h.member hx (x.recGroupStart + m) ⟨by omega, by omega⟩
    exact ⟨rfl, rfl, (List.getElem?_eq_some_iff.1 hy).1⟩
  have hval : ∀ v ∈ x.valueTypes, ValRel (RefRel (fun x y => x = y ∧ x.engine = a.engine ∧
      x.index < (T a.engine).length) a.engine a.engine x x) v v := fun v hv => by
    cases hv' : v.index? with
    | none => simp [ValRel, hv']
    | some j => simpa [ValRel, hv', RefRel] using h.range hx v hv j hv'
  have hmem : ∀ {v}, v ∈ x.params ∨ v ∈ x.results ∨ v ∈ x.fields.map (·.type) →
      v ∈ x.valueTypes := fun hv => by
    simp only [DefinedType.valueTypes, mem_append]
    tauto
  refine ⟨rfl, rfl, ?_, fun _ => ?_, fun _ => ?_, fun _ => ?_⟩
  · cases hs : x.supertype with
    | none => exact .none
    | some p => exact .some (hval _ (by simp [DefinedType.valueTypes, hs]))
  · exact forall₂_same.2 fun v hv => hval v (hmem (.inl hv))
  · exact forall₂_same.2 fun v hv => hval v (hmem (.inr (.inl hv)))
  · exact forall₂_same.2 fun f hf => ⟨rfl, rfl, hval _ (hmem (.inr (.inr (mem_map_of_mem hf))))⟩

/-! ## The comparison of members -/

theorem allSame_iff {same : α → α → Bool} {as bs : List α} :
    allSame same as bs = true ↔ Forall₂ (fun a b => same a b = true) as bs := by
  induction as generalizing bs with
  | nil => cases bs <;> simp [allSame]
  | cons a as ih => cases bs <;> simp [allSame, ih]

theorem sameSupertype_iff {p q : Option Nat} : sameSupertype same p q = true ↔
      Option.Rel (fun x y => same (.typeRef x) (.typeRef y) = true) p q := by
  cases p <;> cases q <;> simp [sameSupertype]

theorem sameComponents_iff {a b : DefinedType} : sameComponents same a b = true ↔
      (a.kind = .func → Forall₂ (fun l r => same l r = true) a.params b.params) ∧
      (a.kind = .func → Forall₂ (fun l r => same l r = true) a.results b.results) ∧
      (a.kind ≠ .func → Forall₂ (fun f g => f.isMutable = g.isMutable ∧
        f.packed = g.packed ∧ same f.type g.type = true) a.fields b.fields) := by
  cases hk : a.kind <;> simp [sameComponents, hk, allSame_iff, and_assoc]

theorem sameMember_iff {a b : DefinedType} :
    sameMember same a b = true ↔ MemberRel (fun l r => same l r = true) a b := by
  simp only [sameMember, Bool.and_eq_true, decide_eq_true_eq, sameSupertype_iff, sameComponents_iff]
  constructor
  · rintro ⟨⟨⟨h1, h2⟩, h3⟩, h4, h5, h6⟩
    exact ⟨h1, h2, h3, h4, h5, h6⟩
  · rintro ⟨h1, h2, h3, h4, h5, h6⟩
    exact ⟨⟨⟨h1, h2⟩, h3⟩, h4, h5, h6⟩

theorem sameValueTypeWith_iff {sameIndex : TypeAt → TypeAt → Bool} {e f : Nat} :
    sameValueTypeWith T sameIndex pairs e v f w = true ↔
      ValRel (fun i j => match intraVerdict T pairs ⟨e, i⟩ ⟨f, j⟩ with
        | some verdict => verdict = true
        | none => (e = f ∧ i = j) ∨ sameIndex ⟨e, i⟩ ⟨f, j⟩ = true) v w := by
  unfold sameValueTypeWith ValRel
  cases hv : v.index? with
  | none => simp
  | some i =>
    cases hw : w.index? with
    | none => simp
    | some j =>
      by_cases hnull : v.indexedNonnull = w.indexedNonnull
      · simp only [hnull, ne_eq, not_true_eq_false, if_false, true_and]
        cases intraVerdict T pairs ⟨e, i⟩ ⟨f, j⟩ with
        | some _ => rfl
        | none => by_cases hij : e = f ∧ i = j <;> simp [hij]
      · simp [hnull]

theorem inGroup_iff {g : TypeAt} : inGroup T g a = true ↔ a.engine = g.engine ∧ g.index ≤ a.index ∧
      a.index < g.index + groupSize T g := by
  simp [inGroup]

/-- Two types at the same position of a pair of groups. -/
def PairRel (p : GroupPair) (a b : TypeAt) : Prop :=
  inGroup T p.left a = true ∧ inGroup T p.right b = true ∧
    a.index - p.left.index = b.index - p.right.index

theorem exists_pairRel_of_intraVerdict (h : intraVerdict T pairs a b = some true) :
    ∃ p ∈ pairs, PairRel T p a b := by
  induction pairs with
  | nil => simp [intraVerdict] at h
  | cons p pairs ih =>
    rw [intraVerdict] at h
    split at h
    · rw [Option.some.injEq, decide_eq_true_eq] at h
      exact ⟨p, by simp, h⟩
    · obtain ⟨q, hq, hrel⟩ := ih h
      exact ⟨q, by simp [hq], hrel⟩

theorem intraVerdict_eq_none : intraVerdict T pairs a b = none ↔
      ∀ p ∈ pairs, ¬inGroup T p.left a = true ∧ ¬inGroup T p.right b = true := by
  induction pairs with
  | nil => simp [intraVerdict]
  | cons p pairs ih =>
    rw [intraVerdict]
    split_ifs with hp
    · simp only [forall_mem_cons, false_iff, not_and]
      intro h
      exact absurd hp (by simp [h.1, h.2])
    · rw [ih]
      simp only [forall_mem_cons, not_or] at hp ⊢
      exact ⟨fun h => ⟨hp, h⟩, fun h => h.2⟩

/-- The pair that a comparison of two types puts aside. -/
abbrev groupPair (a : TypeAt) (x : DefinedType) (b : TypeAt) (y : DefinedType) : GroupPair :=
  ⟨⟨a.engine, x.recGroupStart⟩, ⟨b.engine, y.recGroupStart⟩⟩

/-- What a successful comparison of two indices has checked. -/
theorem sameTypeIndexCtx_cases {room : Nat} (h : sameTypeIndexCtx T room pairs a b = true) :
    ∃ x y, (T a.engine)[a.index]? = some x ∧ (T b.engine)[b.index]? = some y ∧
      x.recGroupSize = y.recGroupSize ∧
      a.index - x.recGroupStart = b.index - y.recGroupStart ∧
      ((groupPair a x b y ∈ pairs ∨ groupPair b y a x ∈ pairs) ∨
        ∃ room', room = room' + 1 ∧ ∀ m < x.recGroupSize, ∃ x' y',
          (T a.engine)[x.recGroupStart + m]? = some x' ∧
          (T b.engine)[y.recGroupStart + m]? = some y' ∧
          MemberRel (fun l r => sameValueTypeWith T (sameTypeIndexCtx T room'
            (pairs ++ [groupPair a x b y])) (pairs ++ [groupPair a x b y]) a.engine l b.engine r =
              true) x' y') := by
  unfold sameTypeIndexCtx at h
  split at h
  · rename_i x y hx hy
    split at h
    · simp at h
    refine ⟨x, y, hx, hy, by omega, by omega, ?_⟩
    by_cases hin : groupPair a x b y ∈ pairs ∨ groupPair b y a x ∈ pairs
    · exact .inl hin
    refine .inr ?_
    cases room with
    | zero => simp [hin] at h
    | succ room =>
      refine ⟨room, rfl, fun m hm => ?_⟩
      rw [if_neg hin] at h
      rw [all_eq_true] at h
      have := h m (mem_range.2 hm)
      split at this
      · exact ⟨_, _, ‹_›, ‹_›, sameMember_iff.1 this⟩
      · simp at this
  · simp at h

/-! ## Soundness -/

def IsStart (g : TypeAt) : Prop :=
  ∃ x, (T g.engine)[g.index]? = some x ∧ x.recGroupStart = g.index

/-- The pairs a comparison has put aside name groups. -/
def PairsOk (pairs : List GroupPair) : Prop :=
  ∀ p ∈ pairs, IsStart T p.left ∧ IsStart T p.right

/-- The assumptions that the pairs stand for; equality is symmetric, so each
pair stands for both orders. -/
def Assumed (pairs : List GroupPair) (a b : TypeAt) : Prop :=
  ∃ p ∈ pairs, PairRel T p a b ∨ PairRel T p b a

section Flip

variable {T}

theorem ValRel.flip {rel : Nat → Nat → Prop} (h : ValRel rel v w) :
    ValRel (fun i j => rel j i) w v := by
  unfold ValRel at h ⊢
  cases hv : v.index? <;> cases hw : w.index? <;> simp_all

theorem MemberRel.flip {a b : DefinedType}
    (h : MemberRel rel a b) : MemberRel (fun v w => rel w v) b a := by
  refine ⟨h.kind.symm, h.isFinal.symm, ?_, fun hk => (h.params (h.kind ▸ hk)).flip,
    fun hk => (h.results (h.kind ▸ hk)).flip, fun hk => ?_⟩
  · have := h.supertype
    revert this
    generalize a.supertype = p
    generalize b.supertype = q
    rintro (⟨h⟩ | _)
    · exact .some h
    · exact .none
  · refine (h.fields (h.kind ▸ hk)).flip.imp fun f g hfg => ?_
    exact ⟨hfg.1.symm, hfg.2.1.symm, hfg.2.2⟩

theorem typeStep_flip {S : TypeAt → TypeAt → Prop} (h : typeStep T S a b) :
    typeStep T (fun x y => S y x) b a := by
  obtain ⟨x, y, hx, hy, hsize, hpos, hgroup, hmember⟩ := h
  refine ⟨y, x, hy, hx, hsize.symm, hpos.symm, fun m hm => hgroup m (hsize ▸ hm), ?_⟩
  exact hmember.flip.imp fun v _ w _ hvw => hvw.flip.imp fun i j _ _ hij => ⟨hij.1.symm, hij.2⟩

theorem upTo_symm {P : TypeAt → TypeAt → Prop} (hP : ∀ a b, P a b → P b a)
    (h : upTo (typeStep T) P a b) : upTo (typeStep T) P b a := by
  suffices hle : (fun x y => upTo (typeStep T) P y x) ≤ upTo (typeStep T) P from hle b a h
  refine le_upTo (typeStep T) fun x y hxy => ?_
  rw [← upTo_unfold] at hxy
  refine (typeStep T).monotone ?_ _ _ (typeStep_flip hxy)
  rintro u v (huv | huv)
  · exact .inl huv
  · exact .inr (hP _ _ huv)

end Flip

section Soundness

variable {T}

variable {x : DefinedType} {a b : TypeAt} {pairs : List GroupPair}

theorem inGroup_start_iff {e : Nat} {c : TypeAt} (h : TypesOk (T e)) (hx : (T e)[i]? = some x) :
    inGroup T ⟨e, x.recGroupStart⟩ c = true ↔ c.engine = e ∧ x.Contains c.index := by
  obtain ⟨y, hy, -, hsize⟩ := h.member hx _ (h.contains_self hx)
  simp only [inGroup_iff, groupSize, hy, hsize, DefinedType.Contains]

theorem inGroup_of_shared {g : TypeAt} {c : Nat} (h : TypesOk (T a.engine))
    (hx : (T a.engine)[a.index]? = some x) (hg : IsStart T g)
    (hc : inGroup T g ⟨a.engine, c⟩ = true) (hcx : x.Contains c) : inGroup T g a = true := by
  obtain ⟨ge, gi⟩ := g
  obtain ⟨y, hy, rfl : y.recGroupStart = gi⟩ := hg
  obtain rfl : a.engine = ge := ((inGroup_iff T).1 hc).1
  rw [inGroup_start_iff h hy] at hc ⊢
  obtain ⟨h1, h2⟩ := h.group_eq hy hx hc.2 hcx
  have hown := h.own hx
  exact ⟨rfl, by unfold DefinedType.Contains at hown ⊢; omega⟩

/-- Adding a pair adds its two orders to the assumptions. -/
theorem assumed_append (pairs : List GroupPair) (p : GroupPair) : Assumed T (pairs ++ [p]) =
      Assumed T pairs ⊔ fun a b => PairRel T p a b ∨ PairRel T p b a := by
  funext a b
  simp only [Assumed, mem_append, mem_singleton, or_and_right, exists_or, exists_eq_left]
  rfl

/-- The references of one member, compared under the assumptions. -/
theorem refRel_of_verdict (hT : ∀ e, TypesOk (T e)) {room : Nat} (hpairs : PairsOk T pairs)
    {x' y' : DefinedType} (hx : (T a.engine)[a.index]? = some x)
    (hy : (T b.engine)[b.index]? = some y)
    (hxg : x'.recGroupStart = x.recGroupStart ∧ x'.recGroupSize = x.recGroupSize)
    (hyg : y'.recGroupStart = y.recGroupStart ∧ y'.recGroupSize = y.recGroupSize)
    (hfresh : ∀ p ∈ pairs, ¬inGroup T p.left a = true ∧ ¬inGroup T p.right b = true)
    {pairs' : List GroupPair}
    (hpairs' : pairs' = pairs ++ [groupPair a x b y])
    (ih : ∀ c d, (∀ p ∈ pairs', ¬inGroup T p.left c = true ∧ ¬inGroup T p.right d = true) →
      sameTypeIndexCtx T room pairs' c d = true →
      (upTo (typeStep T) (Assumed T pairs') ⊔ Assumed T pairs') c d)
    (hi : i < (T a.engine).length)
    (h : match intraVerdict T pairs' ⟨a.engine, i⟩ ⟨b.engine, j⟩ with
      | some verdict => verdict = true
      | none => (a.engine = b.engine ∧ i = j) ∨
          sameTypeIndexCtx T room pairs' ⟨a.engine, i⟩ ⟨b.engine, j⟩ = true) :
    RefRel (upTo (typeStep T) (Assumed T pairs') ⊔ Assumed T pairs') a.engine b.engine x' y'
      i j := by
  have hxi : x'.Contains i ↔ x.Contains i := by
    unfold DefinedType.Contains; rw [hxg.1, hxg.2]
  have hyj : y'.Contains j ↔ y.Contains j := by
    unfold DefinedType.Contains; rw [hyg.1, hyg.2]
  split at h
  · rename_i hverdict
    subst h
    obtain ⟨p, hp, hrel⟩ := exists_pairRel_of_intraVerdict T hverdict
    refine ⟨?_, .inr ⟨p, hp, .inl hrel⟩⟩
    rw [hxi, hyj]
    rw [hpairs', mem_append, mem_singleton] at hp
    rcases hp with hp | rfl
    · -- an older pair: neither index lies in the groups compared now
      constructor
      · intro hin
        exact absurd (inGroup_of_shared (hT _) hx (hpairs p hp).1 hrel.1 hin) (hfresh p hp).1
      · intro hin
        exact absurd (inGroup_of_shared (hT _) hy (hpairs p hp).2 hrel.2.1 hin) (hfresh p hp).2
    · have h1 := (inGroup_start_iff (hT _) hx).1 hrel.1
      have h2 := (inGroup_start_iff (hT _) hy).1 hrel.2.1
      exact ⟨fun _ => h2.2, fun _ => h1.2⟩
  · rename_i hverdict
    have hout := (intraVerdict_eq_none T).1 hverdict
    refine ⟨?_, ?_⟩
    · have hlast := hout (groupPair a x b y) (by simp [hpairs'])
      rw [inGroup_start_iff (hT _) hx, inGroup_start_iff (hT _) hy] at hlast
      rw [hxi, hyj]
      exact ⟨fun hin => absurd ⟨rfl, hin⟩ hlast.1, fun hin => absurd ⟨rfl, hin⟩ hlast.2⟩
    · rcases h with ⟨he, rfl⟩ | h
      · rw [← he]
        exact .inl (gfp_le_upTo (typeStep T) _ _ _ (typeEquiv_refl (hT _) hi))
      · exact ih _ _ hout h

/-- A comparison that meets a pair it has put aside relies on an assumption. -/
theorem assumed_of_mem (hT : ∀ e, TypesOk (T e))
    (hx : (T a.engine)[a.index]? = some x) (hy : (T b.engine)[b.index]? = some y)
    (hpos : a.index - x.recGroupStart = b.index - y.recGroupStart)
    (hin : groupPair a x b y ∈ pairs ∨ groupPair b y a x ∈ pairs) :
    Assumed T pairs a b := by
  have ha := (inGroup_start_iff (hT _) hx).2 ⟨rfl, (hT _).own hx⟩
  have hb := (inGroup_start_iff (hT _) hy).2 ⟨rfl, (hT _).own hy⟩
  rcases hin with hin | hin
  · exact ⟨_, hin, .inl ⟨ha, hb, hpos⟩⟩
  · exact ⟨_, hin, .inr ⟨hb, ha, hpos.symm⟩⟩

/-- A successful comparison proves the two types equal, up to the pairs that
are still being compared. -/
theorem upTo_of_sameTypeIndexCtx (hT : ∀ e, TypesOk (T e)) (room : Nat)
    (pairs : List GroupPair) (hpairs : PairsOk T pairs) (a b : TypeAt)
    (hfresh : ∀ p ∈ pairs, ¬inGroup T p.left a = true ∧ ¬inGroup T p.right b = true)
    (h : sameTypeIndexCtx T room pairs a b = true) :
    (upTo (typeStep T) (Assumed T pairs) ⊔ Assumed T pairs) a b := by
  induction room using Nat.strong_induction_on generalizing pairs a b with
  | _ room ih =>
    obtain ⟨x, y, hx, hy, hsize, hpos, hin | ⟨room, rfl, hall⟩⟩ := sameTypeIndexCtx_cases T h
    · exact .inr (assumed_of_mem hT hx hy hpos hin)
    generalize hpairs' : pairs ++ [groupPair a x b y] = pairs' at hall
    set pair := groupPair a x b y with hpair
    obtain ⟨x0, hx0, hx0s, -⟩ := (hT _).member hx _ ((hT _).contains_self hx)
    obtain ⟨y0, hy0, hy0s, -⟩ := (hT _).member hy _ ((hT _).contains_self hy)
    have hok' : PairsOk T pairs' := by
      intro p hp
      rw [← hpairs', mem_append, mem_singleton] at hp
      rcases hp with hp | rfl
      · exact hpairs p hp
      · exact ⟨⟨x0, hx0, hx0s⟩, ⟨y0, hy0, hy0s⟩⟩
    -- the pair just pushed, in the order in which it is compared
    have hforward : PairRel T pair ≤ upTo (typeStep T) (Assumed T pairs') := by
      rintro ⟨e, i⟩ ⟨f, j⟩ ⟨hi, hj, hij⟩
      obtain ⟨rfl, hi⟩ := (inGroup_start_iff (hT _) hx).1 hi
      obtain ⟨rfl, hj⟩ := (inGroup_start_iff (hT _) hy).1 hj
      obtain ⟨m, rfl⟩ := Nat.exists_eq_add_of_le hi.1
      obtain rfl : j = y.recGroupStart + m := by
        have h1 := hj.1
        simp only [hpair] at h1 hij
        omega
      have hm : m < x.recGroupSize := by
        have := hi.2; simp only at this; omega
      obtain ⟨x', y', hx', hy', hmember⟩ := hall m hm
      obtain ⟨_, hx'', hxg⟩ := (hT _).member hx _ hi
      obtain ⟨_, hy'', hyg⟩ := (hT _).member hy _ hj
      obtain rfl : x' = _ := Option.some.inj (hx'.symm.trans hx'')
      obtain rfl : y' = _ := Option.some.inj (hy'.symm.trans hy'')
      rw [← upTo_unfold]
      refine ⟨x', y', hx', hy', by omega, by simp only; omega, fun k hk => ?_, ?_⟩
      · refine .inr ⟨pair, by simp [← hpairs'], .inl ⟨?_, ?_, ?_⟩⟩
        · exact (inGroup_start_iff (hT _) hx).2
            ⟨rfl, by unfold DefinedType.Contains; simp only; omega⟩
        · exact (inGroup_start_iff (hT _) hy).2
            ⟨rfl, by unfold DefinedType.Contains; simp only; omega⟩
        · simp only [hpair]; omega
      · refine hmember.imp fun v hv w _ hvw => ?_
        refine ((sameValueTypeWith_iff T).1 hvw).imp fun i j hvi _ hverdict => ?_
        exact refRel_of_verdict hT hpairs hx hy hxg hyg hfresh hpairs'.symm
          (fun c d hcd => ih room (Nat.lt_succ_self _) pairs' hok' c d hcd)
            ((hT _).range hx' v hv i hvi) hverdict
    have hboth : (fun u v => PairRel T pair u v ∨ PairRel T pair v u) ≤
        upTo (typeStep T) (Assumed T pairs ⊔ fun u v => PairRel T pair u v ∨
          PairRel T pair v u) := by
      rw [← assumed_append, hpairs']
      rintro u v (huv | huv)
      · exact hforward u v huv
      · exact upTo_symm (fun _ _ ⟨p, hp, h⟩ => ⟨p, hp, h.symm⟩) (hforward v u huv)
    refine .inl (accumulate (typeStep T) hboth a b (.inl ⟨?_, ?_, hpos⟩))
    · exact (inGroup_start_iff (hT _) hx).2 ⟨rfl, (hT _).own hx⟩
    · exact (inGroup_start_iff (hT _) hy).2 ⟨rfl, (hT _).own hy⟩

theorem typeEquiv_of_sameTypeIndex (hT : ∀ e, TypesOk (T e)) (h : sameTypeIndex T a b = true) :
    TypeEquiv T a b := by
  have hup := upTo_of_sameTypeIndexCtx hT _ [] (by simp [PairsOk]) a b (by simp) h
  have hnone : Assumed T [] = ⊥ := by
    funext a b
    simp [Assumed]
  rw [hnone, sup_bot_eq, upTo_bot] at hup
  exact hup

end Soundness

/-! ## Completeness -/

section Completeness

variable {T}

theorem intraVerdict_append {qs : List GroupPair}
    (h : ∀ p ∈ pairs, ¬inGroup T p.left a = true ∧ ¬inGroup T p.right b = true) :
    intraVerdict T (pairs ++ qs) a b = intraVerdict T qs a b := by
  induction pairs with
  | nil => rfl
  | cons p pairs ih =>
    obtain ⟨h1, h2⟩ := h p (by simp)
    rw [cons_append, intraVerdict, if_neg (by simp [h1, h2]), ih fun q hq => h q (by simp [hq])]

variable {x : DefinedType}

theorem TypesOk.group_le_length (h : TypesOk ts)
    (hx : ts[i]? = some x) : x.recGroupStart + x.recGroupSize ≤ ts.length := by
  have hown := h.own hx
  unfold DefinedType.Contains at hown
  obtain ⟨y, hy, -⟩ := h.member hx (x.recGroupStart + x.recGroupSize - 1) ⟨by omega, by omega⟩
  have := (List.getElem?_eq_some_iff.1 hy).1
  omega

/-- The group of a reference to another group ends before the own group. -/
theorem Scoped.group_le (h : Scoped ts)
    (hx : ts[i]? = some x) (hy : ts[j]? = some y) (hout : ¬x.Contains j)
    (hj : j < x.recGroupStart + x.recGroupSize) :
    y.recGroupStart + y.recGroupSize ≤ x.recGroupStart := by
  have hown := h.own hy
  by_contra hlt
  have hself := h.toTypesOk.contains_self hx
  have hshared : y.Contains x.recGroupStart := by
    unfold DefinedType.Contains at hown hout ⊢
    omega
  obtain ⟨h1, -⟩ := h.toTypesOk.group_eq hx hy hself hshared
  apply hout
  unfold DefinedType.Contains at hown ⊢
  omega

/-- The groups that are being compared all start behind the groups of the two
types at hand. -/
def Behind (pairs : List GroupPair) (e f : Nat) (x y : DefinedType) : Prop :=
  ∀ p ∈ pairs, p.left.engine = e ∧ x.recGroupStart + x.recGroupSize ≤ p.left.index ∧
    p.right.engine = f ∧ y.recGroupStart + y.recGroupSize ≤ p.right.index

/-- Equal types pass the comparison: a comparison only descends to earlier
groups, so it never runs into a pair that it has put aside, and the list never
fills up. -/
theorem sameTypeIndexCtx_of_typeEquiv (hT : ∀ e, Scoped (T e)) (room : Nat)
    (pairs : List GroupPair)
    (hx : (T a.engine)[a.index]? = some x) (hy : (T b.engine)[b.index]? = some y)
    (hroom : x.recGroupStart < room) (hbehind : Behind pairs a.engine b.engine x y)
    (h : TypeEquiv T a b) : sameTypeIndexCtx T room pairs a b = true := by
  induction room generalizing pairs a b x y with
  | zero => omega
  | succ room ih =>
    obtain ⟨x1, y1, hx1, hy1, hsize, hpos, hgroup, -⟩ := typeEquiv_unfold T h
    obtain rfl : x = x1 := Option.some.inj (hx.symm.trans hx1)
    obtain rfl : y = y1 := Option.some.inj (hy.symm.trans hy1)
    have hokx := (hT a.engine).toTypesOk
    have hoky := (hT b.engine).toTypesOk
    have hshape : ¬(x.recGroupSize = 0 ∨ y.recGroupSize = 0 ∨
        x.recGroupStart + x.recGroupSize > (T a.engine).length ∨
        y.recGroupStart + y.recGroupSize > (T b.engine).length ∨
        x.recGroupSize ≠ y.recGroupSize ∨
        a.index - x.recGroupStart ≠ b.index - y.recGroupStart) := by
      have h1 := hokx.own hx
      have h2 := hokx.group_le_length hx
      have h3 := hoky.group_le_length hy
      unfold DefinedType.Contains at h1
      omega
    unfold sameTypeIndexCtx
    simp only [hx, hy, if_neg hshape]
    split
    · rfl
    rw [all_eq_true]
    intro m hm
    rw [mem_range] at hm
    obtain ⟨x', y', hx', hy', -, -, -, hmember⟩ := typeEquiv_unfold T (hgroup m hm)
    simp only [hx', hy']
    rw [sameMember_iff]
    obtain ⟨_, hx'', hxg⟩ := hokx.member hx (x.recGroupStart + m) ⟨by omega, by omega⟩
    obtain ⟨_, hy'', hyg⟩ := hoky.member hy (y.recGroupStart + m) ⟨by omega, by omega⟩
    obtain rfl : x' = _ := Option.some.inj (hx'.symm.trans hx'')
    obtain rfl : y' = _ := Option.some.inj (hy'.symm.trans hy'')
    refine hmember.imp fun v hv w hw hvw => ?_
    rw [sameValueTypeWith_iff]
    refine hvw.imp fun i j hvi hwj hij => ?_
    have hi := (hT _).scope hx' v hv i hvi
    have hj := (hT _).scope hy' w hw j hwj
    -- the older pairs start behind both references
    have hold : ∀ p ∈ pairs, ¬inGroup T p.left ⟨a.engine, i⟩ = true ∧
        ¬inGroup T p.right ⟨b.engine, j⟩ = true := fun p hp => by
      obtain ⟨-, h2, -, h4⟩ := hbehind p hp
      simp only [inGroup_iff]
      exact ⟨fun h => by omega, fun h => by omega⟩
    obtain ⟨xi, yj, hxi, hyj, -, hposij, -⟩ := typeEquiv_unfold T hij.2
    simp only at hxi hyj hposij
    have hl : inGroup T ⟨a.engine, x.recGroupStart⟩ ⟨a.engine, i⟩ = true ↔ x'.Contains i := by
      rw [inGroup_start_iff hokx hx]
      unfold DefinedType.Contains
      simp only [true_and]
      omega
    have hr : inGroup T ⟨b.engine, y.recGroupStart⟩ ⟨b.engine, j⟩ = true ↔ y'.Contains j := by
      rw [inGroup_start_iff hoky hy]
      unfold DefinedType.Contains
      simp only [true_and]
      omega
    by_cases hin : x'.Contains i
    · have hin' := hij.1.1 hin
      have h1 := (hokx.group_eq hx' hxi hin (hokx.own hxi)).1
      have h2 := (hoky.group_eq hy' hyj hin' (hoky.own hyj)).1
      rw [intraVerdict_append hold]
      simp only [intraVerdict, hl, hr, hin, hin', true_or, if_true, true_and, decide_eq_true_eq]
      omega
    · have hin' : ¬y'.Contains j := fun hc => hin (hij.1.2 hc)
      have hxle := (hT _).group_le hx' hxi hin hi
      have hyle := (hT _).group_le hy' hyj hin' hj
      have hown := hokx.own hxi
      unfold DefinedType.Contains at hown
      rw [intraVerdict_append hold]
      simp only [intraVerdict, hl, hr, hin, hin', or_self]
      refine .inr (ih _ hxi hyj (by omega) ?_ hij.2)
      intro p hp
      rw [mem_append, mem_singleton] at hp
      rcases hp with hp | rfl
      · obtain ⟨h1, h2, h3, h4⟩ := hbehind p hp
        exact ⟨h1, by omega, h3, by omega⟩
      · exact ⟨rfl, by simp only; omega, rfl, by simp only; omega⟩

theorem sameTypeIndex_of_typeEquiv (hT : ∀ e, Scoped (T e))
    (hbound : ∀ e, (T e).length ≤ wastMaxTypes) (h : TypeEquiv T a b) :
    sameTypeIndex T a b = true := by
  obtain ⟨x, y, hx, hy, -⟩ := typeEquiv_unfold T h
  have h1 := (hT _).toTypesOk.own hx
  have h2 := (hT _).toTypesOk.group_le_length hx
  have h3 := hbound a.engine
  unfold DefinedType.Contains at h1
  exact sameTypeIndexCtx_of_typeEquiv hT _ [] hx hy (by omega) (by simp [Behind]) h

end Completeness

/-! ## Equality is an equivalence -/

section Equivalence

variable {T}

theorem typeEquiv_symm (h : TypeEquiv T a b) : TypeEquiv T b a := by
  rw [TypeEquiv, ← upTo_bot] at h ⊢
  exact upTo_symm (fun _ _ h => h.elim) h

theorem ValRel.trans {R S : Nat → Nat → Prop} {u : ValType} (h : ValRel R u v)
    (h' : ValRel S v w) : ValRel (fun i k => ∃ j, R i j ∧ S j k) u w := by
  unfold ValRel at h h' ⊢
  split at h
  · rename_i i j hu hv
    rw [hv] at h'
    split at h'
    · rename_i j' k hj hw
      obtain rfl : j = j' := Option.some.inj hj
      rw [hu, hw]
      exact ⟨h.1.trans h'.1, j, h.2, h'.2⟩
    · rename_i hnone
      subst h'
      exact absurd hv (hnone _ _ rfl)
  · rename_i hnone
    subst h
    have hu : u.index? = none := Option.eq_none_iff_forall_ne_some.2 fun i hi => hnone i i hi hi
    simp only [hu] at h' ⊢
    exact h'

theorem forall₂_comp {S : α → α → Prop} {as bs cs : List α}
    (h : Forall₂ R as bs) (h' : Forall₂ S bs cs) :
    Forall₂ (fun a c => ∃ b, R a b ∧ S b c) as cs := by
  induction h generalizing cs with
  | nil =>
    cases h'
    exact .nil
  | cons hab _ ih =>
    cases h' with
    | cons hbc hrest => exact .cons ⟨_, hab, hbc⟩ (ih hrest)

theorem MemberRel.trans {R S : ValType → ValType → Prop} {a b c : DefinedType}
    (h : MemberRel R a b) (h' : MemberRel S b c) :
    MemberRel (fun u w => ∃ v, R u v ∧ S v w) a c := by
  refine ⟨h.kind.trans h'.kind, h.isFinal.trans h'.isFinal, ?_,
    fun hk => forall₂_comp (h.params hk) (h'.params (h.kind ▸ hk)),
    fun hk => forall₂_comp (h.results hk) (h'.results (h.kind ▸ hk)),
    fun hk => (forall₂_comp (h.fields hk) (h'.fields (h.kind ▸ hk))).imp ?_⟩
  · have h1 := h.supertype
    have h2 := h'.supertype
    revert h1 h2
    generalize a.supertype = p
    generalize b.supertype = q
    generalize c.supertype = r
    rintro (⟨h1⟩ | _) h2
    · rcases h2 with ⟨h2⟩
      exact .some ⟨_, h1, h2⟩
    · cases h2
      exact .none
  · rintro f k ⟨g, hfg, hgk⟩
    exact ⟨hfg.1.trans hgk.1, hfg.2.1.trans hgk.2.1, g.type, hfg.2.2, hgk.2.2⟩

theorem typeEquiv_trans {c : TypeAt} (h : TypeEquiv T a b) (h' : TypeEquiv T b c) :
    TypeEquiv T a c := by
  suffices hle : (fun x z => ∃ y, TypeEquiv T x y ∧ TypeEquiv T y z) ≤ (typeStep T).gfp from
    hle a c ⟨b, h, h'⟩
  apply (typeStep T).le_gfp
  rintro a c ⟨b, hab, hbc⟩
  obtain ⟨x, y, hx, hy, hsize, hpos, hgroup, hmember⟩ := typeEquiv_unfold T hab
  obtain ⟨y', z, hy', hz, hsize', hpos', hgroup', hmember'⟩ := typeEquiv_unfold T hbc
  obtain rfl : y = y' := Option.some.inj (hy.symm.trans hy')
  refine ⟨x, z, hx, hz, hsize.trans hsize', hpos.trans hpos',
    fun m hm => ⟨_, hgroup m hm, hgroup' m (hsize ▸ hm)⟩, ?_⟩
  refine (hmember.trans hmember').imp ?_
  rintro u - w - ⟨v, huv, hvw⟩
  refine (huv.trans hvw).imp ?_
  rintro i k - - ⟨j, hij, hjk⟩
  exact ⟨hij.1.trans hjk.1, _, hij.2, hjk.2⟩

theorem TypeEquiv.kindAt_eq (h : TypeEquiv T a b) : kindAt T a = kindAt T b := by
  obtain ⟨x, y, hx, hy, -, -, -, hmember⟩ := typeEquiv_unfold T h
  simp [kindAt, hx, hy, hmember.kind]

/-- The supertype of a type, as a place in the same engine. -/
def superAt (T : TypeStore) (a : TypeAt) : Option TypeAt :=
  (T a.engine)[a.index]?.bind fun x => x.supertype.map fun p => ⟨a.engine, p⟩

theorem superAt_eq_some : superAt T a = some b ↔
    ∃ x, (T a.engine)[a.index]? = some x ∧ ∃ p, x.supertype = some p ∧ ⟨a.engine, p⟩ = b := by
  simp only [superAt, Option.bind_eq_some_iff, Option.map_eq_some_iff]

theorem TypeEquiv.superAt_rel (h : TypeEquiv T a b) {p : TypeAt}
    (hp : superAt T a = some p) : ∃ q, superAt T b = some q ∧ TypeEquiv T p q := by
  obtain ⟨x, y, hx, hy, -, -, -, hmember⟩ := typeEquiv_unfold T h
  have hsuper := hmember.supertype
  simp only [superAt, hx, hy, Option.bind_some, Option.map_eq_some_iff] at hp ⊢
  obtain ⟨i, hi, rfl⟩ := hp
  rw [hi] at hsuper
  rcases hq : y.supertype with _ | j
  · rw [hq] at hsuper
    cases hsuper
  · rw [hq] at hsuper
    rcases hsuper with ⟨hij⟩
    exact ⟨⟨b.engine, j⟩, ⟨j, rfl, rfl⟩, hij.2.2⟩

end Equivalence

end Waste.Types
