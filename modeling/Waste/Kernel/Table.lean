import Waste.Lib.PointerCount
import Waste.Kernel.Transfer

/-!
# The descriptor tables of all kernels together

`World.table` is what the descriptors of all kernels see of a world: which description
each of them points at, the count and the pipe end of every description, and the pipes.
Most functions of the kernel leave it as it is, so a proof about pipes never looks at
signals, waits, files or locks.

A table is `Counted` when the counts are what they should be.  There are three ways to
change it: a descriptor goes (`drop`), a further descriptor for a description comes
(`grab`), and new numbers are taken (`Fresh`).
-/

namespace Waste.Kernel

open Function PointerCount Nat Option

variable {p : Nat}

inductive PipeEnd
  | read (p : Nat)
  | write (p : Nat)
deriving DecidableEq

def PipeEnd.pipe : PipeEnd → Nat
  | .read p => p
  | .write p => p

/-- The count of one of the two ends. -/
def Pipe.ends (pipe : Pipe) : PipeEnd → Int
  | .read _ => pipe.readers
  | .write _ => pipe.writers

def Description.pipeEnd : Description → Option PipeEnd
  | .pipeRead p => some (.read p)
  | .pipeWrite p => some (.write p)
  | _ => none

/-- A descriptor of one of the kernels. -/
abbrev Place := Nat × Fin fdMax

structure Table where
  pointer : Place → Option Nat
  refCount : Nat → Int
  pipeEnd : Nat → Option PipeEnd
  pipe : Nat → Pipe
  next : Nat

def World.table (w : World) : Table where
  pointer x := ((w.kernel x.1).fds x.2).map (·.ofd)
  refCount o := (w.ofd o).refCount
  pipeEnd o := (w.ofd o).kind.pipeEnd
  pipe := w.pipe
  next := w.next

namespace Table

/-! ## Changes -/

def point (x : Place) (o : Option Nat) (T : Table) : Table :=
  { T with pointer := update T.pointer x o }

def addRefs (o : Nat) (delta : Int) (T : Table) : Table :=
  { T with refCount := update T.refCount o (T.refCount o + delta) }

def setPipe (p : Nat) (f : Pipe → Pipe) (T : Table) : Table :=
  { T with pipe := update T.pipe p (f (T.pipe p)) }

variable (e : Option PipeEnd)

def addEnds (delta : Int) (T : Table) : Table :=
  match e with
  | none => T
  | some (.read p) => T.setPipe p fun pipe => { pipe with readers := pipe.readers + delta }
  | some (.write p) => T.setPipe p fun pipe => { pipe with writers := pipe.writers + delta }

def reap (T : Table) : Table :=
  match e with
  | none => T
  | some e =>
    if (T.pipe e.pipe).readers = 0 ∧ (T.pipe e.pipe).writers = 0 then
      T.setPipe e.pipe fun _ => .empty
    else T

/-- The descriptor `x` of the description `o` is closed. -/
def drop (x : Place) (o : Nat) (T : Table) : Table :=
  let T := ((T.point x none).addEnds (T.pipeEnd o) (-1)).addRefs o (-1)
  if 0 < T.refCount o then T else T.reap (T.pipeEnd o)

/-- The descriptor `x` changes, and with it the counts of the description `o` and its end. -/
def move (x : Place) (v : Option Nat) (o : Nat) (delta : Int) (T : Table) : Table :=
  ((T.addRefs o delta).addEnds (T.pipeEnd o) delta).point x v

/-- The free descriptor `x` becomes a further one for the description `o`. -/
def grab (x : Place) (o : Nat) (T : Table) : Table := T.move x (some o) o 1

/-! ## Counts -/

def ends (T : Table) (e : PipeEnd) : Int := (T.pipe e.pipe).ends e

noncomputable def descriptors (T : Table) (e : PipeEnd) : Nat :=
  count T.pointer fun o => T.pipeEnd o = some e

/-- The counts are right, but a pipe may be there without an end. -/
structure Tallied (T : Table) : Prop where
  finite : FinitelyMany T.pointer
  below : ∀ x o, T.pointer x = some o → x.1 < T.next ∧ o < T.next
  refs : ∀ x o, T.pointer x = some o → T.refCount o = count T.pointer (· = o)
  ends : ∀ e, T.ends e = T.descriptors e
  absent : ∀ p, T.next ≤ p → T.pipe p = Pipe.empty
  room : ∀ p, (T.pipe p).allocated = true →
    (T.pipe p).capacity = pipeCapacity ∧ (T.pipe p).buffer.length ≤ pipeCapacity

structure Counted (T : Table) : Prop extends T.Tallied where
  allocated : ∀ p, (T.pipe p).allocated = true ↔ (T.pipe p).readers ≠ 0 ∨ (T.pipe p).writers ≠ 0

theorem Counted.pipeBelow {T : Table} (hT : T.Counted)
    (hp : (T.pipe p).allocated = true) : p < T.next := by
  by_contra hlt
  rw [hT.absent p (by omega)] at hp
  exact absurd hp (by decide)

/-- Only objects with new numbers have changed, and nothing points at them. -/
structure Fresh (T T' : Table) : Prop where
  pointer : T'.pointer = T.pointer
  refCount : ∀ o < T.next, T'.refCount o = T.refCount o
  pipeEnd : ∀ o < T.next, T'.pipeEnd o = T.pipeEnd o
  pipe : T'.pipe = T.pipe
  next : T.next ≤ T'.next

variable {T T' : Table} {x : Place} {o : Nat}

theorem Fresh.refl (T : Table) : T.Fresh T :=
  ⟨rfl, fun _ _ => rfl, fun _ _ => rfl, rfl, le_refl _⟩

theorem Fresh.trans {T'' : Table} (h : T.Fresh T') (h' : T'.Fresh T'') : T.Fresh T'' where
  pointer := h'.pointer.trans h.pointer
  refCount o ho := (h'.refCount o (lt_of_lt_of_le ho h.next)).trans (h.refCount o ho)
  pipeEnd o ho := (h'.pipeEnd o (lt_of_lt_of_le ho h.next)).trans (h.pipeEnd o ho)
  pipe := h'.pipe.trans h.pipe
  next := le_trans h.next h'.next

/-- The ends of pipes that descriptors see are of descriptions they point at. -/
theorem Fresh.descriptors (h : T.Fresh T') (hT : T.Counted) (e : PipeEnd) :
    T'.descriptors e = T.descriptors e := by
  rw [Table.descriptors, Table.descriptors, h.pointer]
  apply count_congr
  intro x o hx
  rw [h.pipeEnd o (hT.below x o hx).2]

theorem Counted.fresh (hT : T.Counted) (h : T.Fresh T') : T'.Counted where
  finite := by
    rw [h.pointer]
    exact hT.finite
  below x o hx := by
    rw [h.pointer] at hx
    have hlt := hT.below x o hx
    have hnext := h.next
    omega
  refs x o hx := by
    rw [h.pointer] at hx ⊢
    rw [h.refCount o (hT.below x o hx).2]
    exact hT.refs x o hx
  ends e := by
    rw [h.descriptors hT e, ← hT.ends e]
    rw [Table.ends, Table.ends, h.pipe]
  allocated p := by
    rw [h.pipe]
    exact hT.allocated p
  absent p hp := by
    rw [h.pipe]
    exact hT.absent p (le_trans h.next hp)
  room p hp := by
    rw [h.pipe] at hp ⊢
    exact hT.room p hp

/-! ## What the changes do to the parts -/

@[simp] theorem addEnds_pointer (delta : Int) (T : Table) :
    (T.addEnds e delta).pointer = T.pointer := by
  rcases e with _ | _ | _ <;> rfl

@[simp] theorem addEnds_refCount (delta : Int) (T : Table) :
    (T.addEnds e delta).refCount = T.refCount := by
  rcases e with _ | _ | _ <;> rfl

@[simp] theorem addEnds_pipeEnd (delta : Int) (T : Table) :
    (T.addEnds e delta).pipeEnd = T.pipeEnd := by
  rcases e with _ | _ | _ <;> rfl

@[simp] theorem addRefs_pipeEnd (o : Nat) (delta : Int) (T : Table) :
    (T.addRefs o delta).pipeEnd = T.pipeEnd := rfl

@[simp] theorem point_pipeEnd (x : Place) (o : Option Nat) (T : Table) :
    (T.point x o).pipeEnd = T.pipeEnd := rfl

@[simp] theorem addEnds_next (delta : Int) (T : Table) : (T.addEnds e delta).next = T.next := by
  rcases e with _ | _ | _ <;> rfl

theorem addRefs_refCount (o : Nat) (delta : Int) (T : Table) (o' : Nat) :
    (T.addRefs o delta).refCount o' = T.refCount o' + if o = o' then delta else 0 := by
  by_cases ho : o' = o
  · simp [addRefs, ho]
  · simp [addRefs, update_of_ne ho, Ne.symm ho]

@[simp] theorem addRefs_pipe (o : Nat) (delta : Int) (T : Table) :
    (T.addRefs o delta).pipe = T.pipe := rfl

@[simp] theorem reap_pointer (T : Table) : (T.reap e).pointer = T.pointer := by
  cases e with
  | none => rfl
  | some e =>
    rw [reap]
    split_ifs <;> rfl

@[simp] theorem drop_pointer (T : Table) (x : Place) (o : Nat) :
    (T.drop x o).pointer = update T.pointer x none := by
  rw [drop]
  split_ifs <;> simp [point, addRefs]

variable {f : Pipe → Pipe}

theorem setPipe_ne {q : Nat} (h : q ≠ p) : (T.setPipe p f).pipe q = T.pipe q :=
  update_of_ne h _ _

@[simp] theorem setPipe_self : (T.setPipe p f).pipe p = f (T.pipe p) :=
  update_self p _ _

theorem addEnds_pipe_ne {e : PipeEnd} (h : p ≠ e.pipe) {delta : Int} :
    (T.addEnds (some e) delta).pipe p = T.pipe p := by
  rcases e with q | q
  · exact update_of_ne h _ _
  · exact update_of_ne h _ _

theorem addEnds_ends (delta : Int) (T : Table) (e' : PipeEnd) :
    (T.addEnds e delta).ends e' = T.ends e' + if e = some e' then delta else 0 := by
  rcases e with _ | e
  · simp [addEnds]
  by_cases hp : e'.pipe = e.pipe
  · rcases e with p | p <;> rcases e' with q | q <;> simp only [PipeEnd.pipe] at hp <;>
      subst hp <;> simp [addEnds, ends, PipeEnd.pipe, Pipe.ends]
  · have hne : some e ≠ some e' := by
      intro heq
      exact hp (congrArg PipeEnd.pipe (some.inj heq)).symm
    rw [if_neg hne, add_zero, ends, ends]
    rw [addEnds_pipe_ne hp]

theorem addEnds_pipe (delta : Int) (T : Table) (p : Nat) :
    ((T.addEnds e delta).pipe p).allocated = (T.pipe p).allocated ∧
      ((T.addEnds e delta).pipe p).buffer = (T.pipe p).buffer ∧
      ((T.addEnds e delta).pipe p).capacity = (T.pipe p).capacity := by
  rcases e with _ | ⟨q⟩ | ⟨q⟩
  · exact ⟨rfl, rfl, rfl⟩
  all_goals
    by_cases hq : p = q
    · subst hq
      simp [addEnds, setPipe]
    · simp [addEnds, setPipe, update_of_ne hq]

section Move

variable {v : Option Nat} {delta : Int}

@[simp] theorem point_pipe : (T.point x v).pipe = T.pipe := rfl

theorem move_pointer : (T.move x v o delta).pointer = update T.pointer x v := by
  simp [Table.move, point, addRefs]

theorem move_pipeEnd : (T.move x v o delta).pipeEnd = T.pipeEnd := by simp [Table.move]

theorem move_next : (T.move x v o delta).next = T.next := by simp [Table.move, point, addRefs]

theorem move_refCount (o' : Nat) :
    (T.move x v o delta).refCount o' = T.refCount o' + if o = o' then delta else 0 := by
  rw [← addRefs_refCount]
  exact congrFun (addEnds_refCount ..) o'

theorem move_ends (x : Place) (v : Option Nat) (o : Nat) (delta : Int) (e : PipeEnd) :
    (T.move x v o delta).ends e = T.ends e + if T.pipeEnd o = some e then delta else 0 :=
  addEnds_ends (T.pipeEnd o) delta (T.addRefs o delta) e

theorem drop_eq : T.drop x o = if 0 < (T.move x none o (-1)).refCount o
    then T.move x none o (-1) else (T.move x none o (-1)).reap (T.pipeEnd o) := by
  unfold Table.drop Table.move
  rcases hend : T.pipeEnd o with _ | _ | _ <;> simp only [addRefs_pipeEnd, addEnds_pipeEnd,
    point_pipeEnd, hend] <;> rfl

end Move

theorem ends_ne_zero :
    ((T.pipe p).readers ≠ 0 ∨ (T.pipe p).writers ≠ 0) ↔ ∃ e, PipeEnd.pipe e = p ∧ T.ends e ≠ 0 := by
  constructor
  · rintro (h | h)
    · exact ⟨.read p, rfl, h⟩
    · exact ⟨.write p, rfl, h⟩
  · rintro ⟨e, rfl, h⟩
    cases e with
    | read p => exact .inl h
    | write p => exact .inr h

variable (hT : T.Counted)
include hT

/-- The pipe of a description that a descriptor points at is there. -/
theorem Counted.end_allocated {e : PipeEnd} (hx : T.pointer x = some o)
    (he : T.pipeEnd o = some e) : (T.pipe e.pipe).allocated = true := by
  have hends : T.ends e ≠ 0 := by
    rw [hT.ends e, descriptors, Ne, Int.natCast_eq_zero, count_eq_zero hT.finite]
    intro hall
    exact hall x o hx he
  exact (hT.allocated e.pipe).mpr (ends_ne_zero.mpr ⟨e, rfl, hends⟩)

/-- The counts of new pipes stay as they are. -/
theorem Counted.addEnds_absent (hx : T.pointer x = some o) (delta : Int) (hp : T.next ≤ p) :
    ((T.addRefs o delta).addEnds (T.pipeEnd o) delta).pipe p = .empty := by
  rcases hend : T.pipeEnd o with _ | e
  · exact hT.absent p hp
  · have hlt := hT.pipeBelow (hT.end_allocated hx hend)
    rw [addEnds_pipe_ne (by omega)]
    exact hT.absent p hp

/-! ## A descriptor goes -/

/-- The counts are right, but the pipe of `e` may be there without an end. -/
structure CountedExcept (e : Option PipeEnd) (T : Table) : Prop extends T.Tallied where
  used : ∀ p, (T.pipe p).readers ≠ 0 ∨ (T.pipe p).writers ≠ 0 → (T.pipe p).allocated = true
  allocated : ∀ p, (T.pipe p).allocated = true → e.map PipeEnd.pipe ≠ some p →
    (T.pipe p).readers ≠ 0 ∨ (T.pipe p).writers ≠ 0

variable {e : Option PipeEnd}

omit hT in
theorem CountedExcept.counted (h : T.CountedExcept e)
    (he : ∀ p, e.map PipeEnd.pipe = some p → (T.pipe p).readers ≠ 0 ∨ (T.pipe p).writers ≠ 0) :
    T.Counted := by
  refine { h with allocated := fun p => ⟨fun hp => ?_, h.used p⟩ }
  by_cases hpe : e.map PipeEnd.pipe = some p
  · exact he p hpe
  · exact h.allocated p hp hpe

omit hT in
theorem CountedExcept.reap (h : T.CountedExcept e) : (T.reap e).Counted := by
  rcases e with _ | e
  · exact h.counted fun p hp => absurd hp (by simp)
  rw [reap]
  split_ifs with hzero
  · have hpipe : ∀ q, (T.setPipe e.pipe fun _ => .empty).pipe q =
        if q = e.pipe then .empty else T.pipe q := by
      intro q
      split_ifs with hq
      · rw [hq, setPipe_self]
      · exact setPipe_ne hq
    refine ⟨⟨h.finite, h.below, h.refs, fun e' => ?_, fun q hq => ?_, fun q hq => ?_⟩, fun q => ?_⟩
    · refine trans ?_ (h.ends e')
      rw [Table.ends, Table.ends, hpipe]
      split_ifs with hq
      · rw [hq]
        cases e' with
        | read q => exact hzero.1.symm
        | write q => exact hzero.2.symm
      · rfl
    · rw [hpipe]
      split_ifs
      · rfl
      · exact h.absent q hq
    · have hqe : q ≠ e.pipe := by
        rintro rfl
        rw [hpipe, if_pos rfl] at hq
        exact absurd hq (by decide)
      rw [hpipe, if_neg hqe] at hq ⊢
      exact h.room q hq
    · rw [hpipe]
      split_ifs with hq
      · simp [Pipe.empty]
      · have hmap : (some e).map PipeEnd.pipe ≠ some q := by
          intro heq
          exact hq (some.inj heq).symm
        exact ⟨fun hp => h.allocated q hp hmap, h.used q⟩
  · refine h.counted fun p hp => ?_
    obtain rfl := some.inj hp
    rw [not_and_or] at hzero
    exact hzero

/-- The counts after one descriptor has changed. -/
theorem Counted.move {y : Place} {v : Option Nat} {delta : Int} (hy : T.pointer y = some o)
    (hv : ∀ o', v = some o' → x.1 < T.next ∧ o' = o)
    (hcount : ∀ (P : Nat → Prop) [DecidablePred P], (count (update T.pointer x v) P : Int) =
      count T.pointer P + if P o then delta else 0) : (T.move x v o delta).Tallied := by
  have hflag := addEnds_pipe (T.pipeEnd o) delta (T.addRefs o delta)
  have hwhere : ∀ z o', (T.move x v o delta).pointer z = some o' →
      z.1 < T.next ∧ ∃ y, T.pointer y = some o' := by
    intro z o' hz
    rw [move_pointer, update_apply] at hz
    split_ifs at hz with hzx
    · obtain ⟨hlt, rfl⟩ := hv o' hz
      exact ⟨hzx ▸ hlt, y, hy⟩
    · exact ⟨(hT.below z o' hz).1, z, hz⟩
  refine ⟨?_, fun z o' hz => ?_, fun z o' hz => ?_, fun e => ?_, fun p hp => ?_, fun p hp => ?_⟩
  · rw [move_pointer]
    exact hT.finite.update x v
  · obtain ⟨hlt, y, hy⟩ := hwhere z o' hz
    exact ⟨lt_of_lt_of_eq hlt move_next.symm, lt_of_lt_of_eq (hT.below y o' hy).2 move_next.symm⟩
  · obtain ⟨-, y, hy⟩ := hwhere z o' hz
    rw [move_pointer, hcount, move_refCount, hT.refs y o' hy]
  · rw [move_ends, hT.ends e]
    unfold descriptors
    rw [move_pointer, move_pipeEnd, hcount]
  · rw [move_next] at hp
    exact hT.addEnds_absent hy delta hp
  · rw [Table.move, point_pipe, (hflag p).1] at hp
    rw [Table.move, point_pipe, (hflag p).2.1, (hflag p).2.2]
    exact hT.room p hp

/-- The counts after the first half of `drop`. -/
theorem Counted.unlink (hx : T.pointer x = some o) :
    (T.move x none o (-1)).CountedExcept (T.pipeEnd o) := by
  have htallied : (T.move x none o (-1)).Tallied := by
    refine hT.move hx nofun fun P _ => ?_
    have hcount := count_update_none (P := P) hT.finite hx
    split_ifs at hcount ⊢ <;> omega
  refine { htallied with used := fun p hp => ?_, allocated := fun p hp hpe => ?_ }
  · obtain ⟨e, hep, hne⟩ := ends_ne_zero.mp hp
    have hafter := move_ends (T := T) x none o (-1) e
    have hcount := htallied.ends e
    have hT0 : T.ends e ≠ 0 := by split_ifs at hafter <;> omega
    rw [Table.move, point_pipe, (addEnds_pipe ..).1]
    exact (hT.allocated p).mpr (ends_ne_zero.mpr ⟨e, hep, hT0⟩)
  · rw [Table.move, point_pipe] at hp ⊢
    rw [(addEnds_pipe ..).1] at hp
    have hsame : ((T.addRefs o (-1)).addEnds (T.pipeEnd o) (-1)).pipe p = T.pipe p := by
      rcases hend : T.pipeEnd o with _ | e
      · rfl
      refine addEnds_pipe_ne ?_
      rintro rfl
      exact hpe (by rw [hend]; rfl)
    rw [hsame]
    exact (hT.allocated p).mp hp

theorem Counted.drop (hx : T.pointer x = some o) : (T.drop x o).Counted := by
  have hunlinked := hT.unlink hx
  rw [drop_eq]
  split_ifs with hpos
  · -- another descriptor is left, and it has the same end
    refine hunlinked.counted fun p hp => ?_
    obtain ⟨e, hend, rfl⟩ := map_eq_some_iff.mp hp
    rw [move_refCount, if_pos rfl, hT.refs x o hx] at hpos
    have hcount := count_update_none (P := fun o' => o' = o) hT.finite hx
    have hmono : count (update T.pointer x none) (· = o) ≤
        (T.move x none o (-1)).descriptors e := by
      rw [descriptors, move_pointer, move_pipeEnd]
      apply count_mono (hT.finite.update x none)
      rintro _ rfl
      exact hend
    have hends := hunlinked.ends e
    rw [if_pos rfl] at hcount
    exact ends_ne_zero.mpr ⟨e, rfl, by omega⟩
  · exact hunlinked.reap

/-! ## A descriptor comes -/

theorem Counted.grab (hx : T.pointer x = none) (hxn : x.1 < T.next) {y : Place}
    (hy : T.pointer y = some o) : (T.grab x o).Counted := by
  have htallied : (T.grab x o).Tallied := by
    refine hT.move hy (fun o' ho' => ⟨hxn, (some.inj ho').symm⟩) fun P _ => ?_
    rw [count_update_some hT.finite hx]
    split_ifs <;> rfl
  refine { htallied with allocated := fun p => ?_ }
  have hends : ∀ e, (T.grab x o).ends e = _ := move_ends (T := T) x (some o) o 1
  have hflag : ((T.grab x o).pipe p).allocated = (T.pipe p).allocated := (addEnds_pipe ..).1
  rw [hflag, hT.allocated p, ends_ne_zero, ends_ne_zero]
  constructor
  · rintro ⟨e, hep, hne⟩
    have hafter := hends e
    have hbefore := hT.ends e
    exact ⟨e, hep, by split_ifs at hafter <;> omega⟩
  rintro ⟨e, hep, hne⟩
  refine ⟨e, hep, ?_⟩
  rcases em (T.pipeEnd o = some e) with he | he
  · -- the end is in use already, by `y`
    rw [hT.ends e, descriptors, Ne, Int.natCast_eq_zero, count_eq_zero hT.finite]
    intro hall
    exact hall y o hy he
  · rwa [hends e, if_neg he, add_zero] at hne

theorem Counted.enter (hx : T.pointer x = none) (hxn : x.1 < T.next) (ho : o < T.next)
    (hnew : ∀ y, T.pointer y ≠ some o) (hrefs : T.refCount o = 1) (hend : T.pipeEnd o = none) :
    (T.point x (some o)).Counted := by
  have hwhere : ∀ z o', (T.point x (some o)).pointer z = some o' →
      (z = x ∧ o' = o) ∨ T.pointer z = some o' := fun _ _ => eq_or_of_update
  refine ⟨⟨hT.finite.update x (some o), ?_, ?_, ?_, hT.absent, hT.room⟩, hT.allocated⟩
  · intro z o' hz
    rcases hwhere z o' hz with ⟨rfl, rfl⟩ | hz
    · exact ⟨hxn, ho⟩
    · exact hT.below z o' hz
  · intro z o' hz
    have hcount := count_update_some (P := fun o'' => o'' = o') (a := o) hT.finite hx
    show T.refCount o' = count (update T.pointer x (some o)) (· = o')
    rw [hcount]
    rcases hwhere z o' hz with ⟨-, rfl⟩ | hz
    · have hzero : count T.pointer (· = o') = 0 := by
        rw [count_eq_zero hT.finite]
        rintro y _ hy rfl
        exact hnew y hy
      rw [hzero, if_pos rfl, hrefs]
      rfl
    · have hne : o ≠ o' := by
        rintro rfl
        exact hnew z hz
      rw [if_neg hne, hT.refs z o' hz]
      rfl
  · intro e
    have hcount := count_update_some (P := fun o' => T.pipeEnd o' = some e) (a := o) hT.finite hx
    rw [hend, if_neg (by simp)] at hcount
    show T.ends e = (count (update T.pointer x (some o)) fun o' => T.pipeEnd o' = some e : Nat)
    rw [hcount]
    exact hT.ends e

/-- The table has a new pipe `p` with the descriptions `r` and `s`, which no descriptor
points at yet. -/
structure Prepared (T : Table) (r s p : Nat) (T' : Table) : Prop where
  pointer : T'.pointer = T.pointer
  refCount : ∀ o < T.next, T'.refCount o = T.refCount o
  pipeEnd : ∀ o < T.next, T'.pipeEnd o = T.pipeEnd o
  pipe : T'.pipe = update T.pipe p newPipe
  new : T.next ≤ p ∧ T.next ≤ r ∧ T.next ≤ s ∧ r ≠ s
  next : p < T'.next ∧ r < T'.next ∧ s < T'.next
  refs : T'.refCount r = 1 ∧ T'.refCount s = 1
  ends : T'.pipeEnd r = some (.read p) ∧ T'.pipeEnd s = some (.write p)

theorem Counted.opened {y : Place} {r s : Nat} {U : Table} (h : T.Prepared r s p U)
    (hx : T.pointer x = none) (hy : T.pointer y = none) (hxy : y ≠ x) (hxn : x.1 < T.next)
    (hyn : y.1 < T.next) : ((U.point x (some r)).point y (some s)).Counted := by
  set T' := (U.point x (some r)).point y (some s) with hT'
  have hpointer : T'.pointer = update (update T.pointer x (some r)) y (some s) := by
    rw [← h.pointer]
    rfl
  have hpipe : T'.pipe = update T.pipe p newPipe := h.pipe
  have hpipeEnd : T'.pipeEnd = U.pipeEnd := rfl
  have hrefCount : T'.refCount = U.refCount := rfl
  have hnext' : T'.next = U.next := rfl
  have hx' : update T.pointer x (some r) y = none := by
    rw [update_of_ne hxy, hy]
  -- a count after the two new descriptors
  have hcount : ∀ (P : Nat → Prop) [DecidablePred P], count T'.pointer P =
        count T.pointer P + (if P r then 1 else 0) + if P s then 1 else 0 := by
    intro P _
    rw [hpointer, count_update_some (hT.finite.update x (some r)) hx',
      count_update_some hT.finite hx]
  have hwhere : ∀ z o, T'.pointer z = some o →
      (z = y ∧ o = s) ∨ (z = x ∧ o = r) ∨ T.pointer z = some o := by
    intro z o hz
    rw [hpointer] at hz
    exact (eq_or_of_update hz).imp_right eq_or_of_update
  have hnone : ∀ o, T.next ≤ o → count T.pointer (· = o) = 0 := by
    intro o ho
    rw [count_eq_zero hT.finite]
    rintro z _ hz rfl
    have hlt := (hT.below z _ hz).2
    omega
  have hnext : T.next < T'.next := lt_of_le_of_lt h.new.1 h.next.1
  refine ⟨⟨?_, ?_, ?_, ?_, ?_, ?_⟩, ?_⟩
  · rw [hpointer]
    exact (hT.finite.update x (some r)).update y (some s)
  · intro z o hz
    rcases hwhere z o hz with ⟨rfl, rfl⟩ | ⟨rfl, rfl⟩ | hz
    · exact ⟨lt_trans hyn hnext, h.next.2.2⟩
    · exact ⟨lt_trans hxn hnext, h.next.2.1⟩
    · have hlt := hT.below z o hz
      omega
  · intro z o hz
    have hnew := h.new
    rw [hcount fun o' => o' = o]
    rcases hwhere z o hz with ⟨-, rfl⟩ | ⟨-, rfl⟩ | hz
    · rw [hnone o hnew.2.2.1, if_neg hnew.2.2.2, if_pos rfl, hrefCount, h.refs.2]
      rfl
    · rw [hnone o hnew.2.1, if_pos rfl, if_neg hnew.2.2.2.symm, hrefCount, h.refs.1]
      rfl
    · have hlt := (hT.below z o hz).2
      rw [if_neg (by omega), if_neg (by omega), hrefCount, h.refCount o hlt]
      exact hT.refs z o hz
  · intro e
    have hold : count T.pointer (fun o => T'.pipeEnd o = some e) = T.descriptors e := by
      apply count_congr
      intro z o hz
      rw [hpipeEnd, h.pipeEnd o (hT.below z o hz).2]
    rw [descriptors, hcount fun o => T'.pipeEnd o = some e, hold, hpipeEnd, h.ends.1, h.ends.2]
    have hends := hT.ends e
    by_cases hp : e.pipe = p
    · rw [Table.ends, hp, hT.absent p h.new.1] at hends
      rw [Table.ends, hpipe, hp, update_self]
      cases e with
      | read q | write q =>
        obtain rfl : q = p := hp
        have hzero : (0 : Int) = _ := hends
        simp [Pipe.ends, newPipe, ← hzero]
    · have hother : ∀ e' : PipeEnd, e'.pipe = p → some e' ≠ some e := by
        rintro _ hp' ⟨⟩
        exact hp hp'
      rw [if_neg (hother _ rfl), if_neg (hother _ rfl), Table.ends, hpipe, update_of_ne hp]
      exact hends
  · intro q hq
    have hp := h.next.1
    rw [hpipe, update_of_ne (by omega)]
    exact hT.absent q (by omega)
  · intro q hq
    by_cases hqp : q = p
    · rw [hpipe, hqp, update_self]
      exact ⟨rfl, zero_le _⟩
    · rw [hpipe, update_of_ne hqp] at hq ⊢
      exact hT.room q hq
  · intro q
    rw [hpipe]
    by_cases hq : q = p
    · simp [hq, newPipe]
    · rw [update_of_ne hq]
      exact hT.allocated q

omit hT

/-! ## Buffers -/

/-- No byte comes into a buffer or leaves it, but for pipes that are new or gone. -/
structure KeepsBuffers (T T' : Table) : Prop where
  next : T.next ≤ T'.next
  buffer : ∀ p, (T'.pipe p).allocated = true →
    (T.pipe p).allocated = true ∧ (T'.pipe p).buffer = (T.pipe p).buffer ∨
      T.next ≤ p ∧ (T'.pipe p).buffer = []

theorem KeepsBuffers.refl (T : Table) : T.KeepsBuffers T :=
  ⟨le_refl _, fun _ hp => .inl ⟨hp, rfl⟩⟩

theorem KeepsBuffers.trans {T'' : Table} (h : T.KeepsBuffers T') (h' : T'.KeepsBuffers T'') :
    T.KeepsBuffers T'' := by
  refine ⟨le_trans h.next h'.next, fun p hp => ?_⟩
  rcases h'.buffer p hp with ⟨hp', hb'⟩ | ⟨hnew, hb'⟩
  · rcases h.buffer p hp' with ⟨hp0, hb⟩ | ⟨hnew, hb⟩
    · exact .inl ⟨hp0, hb'.trans hb⟩
    · exact .inr ⟨hnew, hb'.trans hb⟩
  · exact .inr ⟨le_trans h.next hnew, hb'⟩

theorem Fresh.keepsBuffers (h : T.Fresh T') : T.KeepsBuffers T' := by
  refine ⟨h.next, fun p hp => .inl ?_⟩
  rw [h.pipe] at hp ⊢
  exact ⟨hp, rfl⟩

theorem Prepared.keepsBuffers {r s : Nat} (h : T.Prepared r s p T') : T.KeepsBuffers T' := by
  refine ⟨le_of_lt (lt_of_le_of_lt h.new.1 h.next.1), fun q hq => ?_⟩
  by_cases hqp : q = p
  · rw [h.pipe, hqp, update_self]
    exact .inr ⟨h.new.1, rfl⟩
  · rw [h.pipe, update_of_ne hqp] at hq ⊢
    exact .inl ⟨hq, rfl⟩

theorem KeepsBuffers.point (h : T.KeepsBuffers T') (x : Place) (o : Option Nat) :
    T.KeepsBuffers (T'.point x o) := ⟨h.next, h.buffer⟩

theorem move_keepsBuffers (T : Table) (x : Place) (v : Option Nat) (o : Nat) (delta : Int) :
    T.KeepsBuffers (T.move x v o delta) := by
  refine ⟨le_of_eq move_next.symm, fun p hp => .inl ?_⟩
  have hflag := addEnds_pipe (T.pipeEnd o) delta (T.addRefs o delta) p
  exact ⟨hflag.1.symm.trans hp, hflag.2.1⟩

theorem drop_keepsBuffers : T.KeepsBuffers (T.drop x o) := by
  rw [drop_eq]
  split_ifs
  · exact move_keepsBuffers ..
  refine (move_keepsBuffers T x none o (-1)).trans ?_
  rcases T.pipeEnd o with _ | e
  · exact .refl _
  rw [reap]
  split_ifs
  · refine ⟨le_refl _, fun p hp => .inl ?_⟩
    have hpe : p ≠ e.pipe := by
      rintro rfl
      rw [setPipe_self] at hp
      exact absurd hp (by decide)
    rw [setPipe_ne hpe] at hp ⊢
    exact ⟨hp, rfl⟩
  · exact .refl _

end Table

end Waste.Kernel
