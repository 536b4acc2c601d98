import Mathlib

/-!
# Computations that change a state and may fail

`Comp σ ε α` changes a state in `σ` and ends with a value in `α` or an error
in `ε`.  A failing computation keeps the changes that it made before the
failure, which is what a function does that writes through pointers and
returns an error code.

`Triple P c Q R` is the partial specification of such a computation: from a
state in `P` it ends in `Q` with a value or in `R` with an error.  There is
one rule per constructor of a program (`pure`, `bind`, `throw`, `get`, `set`,
`modify`, conditional), the rule of consequence, and `Keeps P c` for the
frequent case where one predicate holds before and after.
-/

namespace StateExcept

open Function

universe u

variable {σ ε α β : Type u}
variable {b : Prop}

/-- A computation over the state `σ` that ends in an `α` or fails with an
`ε`. -/
abbrev Comp (σ ε α : Type u) := ExceptT ε (StateM σ) α

/-- Run a computation from a state. -/
def exec (c : Comp σ ε α) (s : σ) : Except ε α × σ := c s

/-- A change of one component keeps what it does not change in it. -/
theorem update_field {ι A B : Type*} [DecidableEq ι] {f : ι → A} {i : ι} {a : A} (g : A → B)
    (h : g a = g (f i)) (j : ι) : g (update f i a j) = g (f j) := by
  by_cases hj : j = i
  · rw [hj, update_self, h]
  · rw [update_of_ne hj]

@[simp] theorem exec_pure (a : α) (s : σ) : exec (pure a : Comp σ ε α) s = (.ok a, s) := rfl

@[simp] theorem exec_throw (e : ε) (s : σ) : exec (throw e : Comp σ ε α) s = (.error e, s) := rfl

@[simp] theorem exec_get (s : σ) : exec (get : Comp σ ε σ) s = (.ok s, s) := rfl

@[simp] theorem exec_set (s' s : σ) : exec (set s' : Comp σ ε PUnit) s = (.ok ⟨⟩, s') := rfl

@[simp] theorem exec_modify (f : σ → σ) (s : σ) :
    exec (modify f : Comp σ ε PUnit) s = (.ok ⟨⟩, f s) := rfl

@[simp] theorem exec_bind (c : Comp σ ε α) (f : α → Comp σ ε β) (s : σ) : exec (c >>= f) s =
      match exec c s with
      | (.ok a, s') => exec (f a) s'
      | (.error e, s') => (.error e, s') := by
  simp only [ExceptT.bind, ExceptT.mk, bind, StateT.bind, exec]
  rcases c s with ⟨_ | a, s'⟩ <;> rfl

/-- A check that reads no state. -/
def require : Except ε α → Comp σ ε α
  | .ok a => pure a
  | .error e => throw e

@[simp] theorem exec_require (x : Except ε α) (s : σ) :
    exec (require x : Comp σ ε α) s = (x, s) := by
  cases x <;> rfl

@[simp] theorem exec_tryCatch (c : Comp σ ε α) (h : ε → Comp σ ε α) (s : σ) :
    exec (tryCatch c h) s =
      match exec c s with
      | (.ok a, s') => (.ok a, s')
      | (.error e, s') => exec (h e) s' := by
  show (ExceptT.tryCatch c h) s = _
  simp only [ExceptT.tryCatch, ExceptT.mk, bind, StateT.bind, exec]
  rcases c s with ⟨_ | a, s'⟩ <;> rfl

/-- From a state in `P` the computation ends with a value in `Q` or with an
error in `R`. -/
def Triple (P : σ → Prop) (c : Comp σ ε α) (Q : α → σ → Prop) (R : ε → σ → Prop) : Prop :=
  ∀ s, P s → (∀ a s', exec c s = (.ok a, s') → Q a s') ∧ ∀ e s', exec c s = (.error e, s') → R e s'

variable {P P' : σ → Prop} {Q Q' : α → σ → Prop} {R R' : ε → σ → Prop}

variable {c d : Comp σ ε α} {f : σ → Comp σ ε α} {s t : σ} {h : ε → Comp σ ε α}

theorem Triple.conseq (h : Triple P c Q R) (hP : ∀ s, P' s → P s) (hQ : ∀ a s, Q a s → Q' a s)
    (hR : ∀ e s, R e s → R' e s) : Triple P' c Q' R' :=
  fun s hs => ⟨fun a s' he => hQ a s' ((h s (hP s hs)).1 a s' he),
    fun e s' he => hR e s' ((h s (hP s hs)).2 e s' he)⟩

theorem Triple.pre (h : Triple P c Q R) (hP : ∀ s, P' s → P s) : Triple P' c Q R :=
  fun s hs => h s (hP s hs)

/-- The two parts of `Triple` for a run that has ended with a value. -/
theorem ends_ok {a : α} (h : Q a s) : (∀ b t, (Except.ok (ε := ε) a, s) = (.ok b, t) → Q b t) ∧
    ∀ e t, (.ok a, s) = (Except.error e, t) → R e t := by
  refine ⟨?_, nofun⟩
  rintro _ _ ⟨⟩
  exact h

theorem ends_error {e : ε} (h : R e s) : (∀ a t, (.error e, s) = (Except.ok a, t) → Q a t) ∧
    ∀ e' t, (Except.error (α := α) e, s) = (.error e', t) → R e' t := by
  refine ⟨nofun, ?_⟩
  rintro _ _ ⟨⟩
  exact h

theorem Triple.pure {a : α} (h : ∀ s, P s → Q a s) : Triple P (pure a : Comp σ ε α) Q R :=
  fun s hs => ends_ok (h s hs)

theorem Triple.throw {e : ε} (h : ∀ s, P s → R e s) : Triple P (throw e : Comp σ ε α) Q R :=
  fun s hs => ends_error (h s hs)

/-- Reading the state tells the rest of the program which state it is in. -/
theorem Triple.get_bind (h : ∀ s, P s → Triple (· = s) (f s) Q R) : Triple P (get >>= f) Q R := by
  intro s hs
  exact h s hs s rfl

theorem Triple.bind {f : α → Comp σ ε β} {Q' : β → σ → Prop} (hc : Triple P c Q R)
    (hf : ∀ a, Triple (Q a) (f a) Q' R) : Triple P (c >>= f) Q' R := by
  intro s hs
  rw [exec_bind]
  rcases hrun : exec c s with ⟨e | a, s'⟩
  · exact ends_error ((hc s hs).2 e s' hrun)
  · exact hf a s' ((hc s hs).1 a s' hrun)

/-- A step that keeps what is known. -/
theorem Triple.keep_bind {f : α → Comp σ ε β} {Q : β → σ → Prop} (hc : Triple P c (fun _ => P) R)
    (hf : ∀ a, Triple P (f a) Q R) : Triple P (c >>= f) Q R :=
  hc.bind hf

/-- A change tells the rest of the program which state it is in. -/
theorem Triple.modify_bind {f : σ → σ} {c : PUnit → Comp σ ε α}
    (h : ∀ s, P s → Triple (· = f s) (c ⟨⟩) Q R) : Triple P (modify f >>= c) Q R :=
  fun s hs => h s hs (f s) rfl

theorem Triple.set_bind {s' : σ} {c : PUnit → Comp σ ε α}
    (h : ∀ s, P s → Triple (· = s') (c ⟨⟩) Q R) : Triple P (set s' >>= c) Q R :=
  fun s hs => h s hs s' rfl

theorem Triple.modify {f : σ → σ} {Q : PUnit → σ → Prop} (h : ∀ s, P s → Q ⟨⟩ (f s)) :
    Triple P (modify f : Comp σ ε PUnit) Q R :=
  fun s hs => ends_ok (h s hs)

theorem Triple.set {s' : σ} {Q : PUnit → σ → Prop} (h : ∀ s, P s → Q ⟨⟩ s') :
    Triple P (set s' : Comp σ ε PUnit) Q R :=
  fun s hs => ends_ok (h s hs)

/-- The same rule, with what is known of the state instead of the state itself. -/
theorem Triple.read_bind (h : ∀ s, P s → Triple P (f s) Q R) : Triple P (get >>= f) Q R :=
  .get_bind fun s hs => (h s hs).pre fun _ ht => ht ▸ hs

/-- A computation of which nothing is asked. -/
theorem Triple.trivial : Triple P c (fun _ _ => True) fun _ _ => True :=
  fun _ _ => ⟨fun _ _ _ => .intro, fun _ _ _ => .intro⟩

theorem Triple.tryCatch {E : ε → σ → Prop} (hc : Triple P c Q E)
    (hh : ∀ e, Triple (E e) (h e) Q R) : Triple P (tryCatch c h) Q R := by
  intro s hs
  rw [exec_tryCatch]
  rcases hrun : exec c s with ⟨e | a, s'⟩
  · exact hh e s' ((hc s hs).2 e s' hrun)
  · exact ends_ok ((hc s hs).1 a s' hrun)

theorem Triple.ite [Decidable b] (hc : b → Triple P c Q R) (hd : ¬b → Triple P d Q R) :
    Triple P (if b then c else d) Q R := by
  split
  · exact hc ‹_›
  · exact hd ‹_›

/-- A step that is only taken on a condition. -/
theorem Triple.optional [Decidable b] {c : Comp σ ε β} {f : β → Comp σ ε α} {d : Comp σ ε α}
    (hc : b → Triple P c (fun _ => P) R) (hf : ∀ a, f a = d) (hd : Triple P d Q R) :
    Triple P (if b then c >>= f else d) Q R :=
  .ite (fun hb => (hc hb).bind fun a => hf a ▸ hd) fun _ => hd

/-- Two branches that go on with the same program. -/
theorem Triple.join [Decidable b] {c d : Comp σ ε β} {f : β → Comp σ ε α} {M : β → σ → Prop}
    (hc : b → Triple P c M R) (hd : ¬b → Triple P d M R) (hf : ∀ a, Triple (M a) (f a) Q R) :
    Triple P (if b then c >>= f else d >>= f) Q R :=
  .ite (fun hb => (hc hb).bind hf) fun hb => (hd hb).bind hf

/-- What the precondition says beside the state. -/
theorem Triple.fact {p : Prop} (h : p → Triple P c Q R) : Triple (fun s => p ∧ P s) c Q R :=
  fun s hs => h hs.1 s hs.2

/-- The computation keeps `P`, whether it fails or not. -/
def Keeps (P : σ → Prop) (c : Comp σ ε α) : Prop := Triple P c (fun _ => P) fun _ => P

theorem Keeps.pure (a : α) : Keeps P (pure a : Comp σ ε α) := Triple.pure fun _ h => h

theorem Keeps.throw (e : ε) : Keeps P (throw e : Comp σ ε α) := Triple.throw fun _ h => h

theorem Keeps.bind {f : α → Comp σ ε β} (hc : Keeps P c) (hf : ∀ a, Keeps P (f a)) :
    Keeps P (c >>= f) := Triple.bind hc hf

theorem Keeps.require (x : Except ε α) : Keeps P (require x : Comp σ ε α) := by
  cases x
  · exact .throw _
  · exact .pure _

theorem Keeps.modify {f : σ → σ} (h : ∀ s, P s → P (f s)) :
    Keeps P (modify f : Comp σ ε PUnit) := Triple.modify h

theorem Keeps.tryCatch (hc : Keeps P c) (hh : ∀ e, Keeps P (h e)) :
    Keeps P (tryCatch c h) := Triple.tryCatch hc hh

theorem Keeps.ite [Decidable b] (hc : b → Keeps P c) (hd : ¬b → Keeps P d) :
    Keeps P (if b then c else d) := Triple.ite hc hd

/-- A program that reads the state may use that the state read was in `P`. -/
theorem Keeps.get_bind (h : ∀ s, P s → Keeps P (f s)) : Keeps P (get >>= f) :=
  Triple.get_bind fun s hs => (h s hs).pre (by rintro _ rfl; exact hs)

/-- What a specification with one final predicate says about one run. -/
theorem Triple.exec_snd {I : σ → Prop} (h : Triple P c (fun _ => I) fun _ => I) (hs : P s) :
    I (exec c s).2 := by
  rcases hrun : exec c s with ⟨e | a, s'⟩
  · exact (h s hs).2 e s' hrun
  · exact (h s hs).1 a s' hrun

theorem Keeps.exec_snd (h : Keeps P c) (hs : P s) : P (exec c s).2 := Triple.exec_snd h hs

/-- A program keeps what its last state has, whatever it ends with. -/
theorem Keeps.of_exec_snd (h : ∀ s, P s → P (exec c s).2) : Keeps P c := by
  intro s hs
  have hend := h s hs
  refine ⟨fun a s' hrun => ?_, fun e s' hrun => ?_⟩
  · rw [hrun] at hend
    exact hend
  · rw [hrun] at hend
    exact hend

/-! ## Views that a program leaves alone -/

section Fixes

variable {V : Type*} {view : σ → V}

theorem foldl_view {step : σ → α → σ} (h : ∀ s a, view (step s a) = view s) (l : List α) (s : σ) :
    view (l.foldl step s) = view s :=
  l.foldlRecOn (motive := (view · = view s)) step rfl fun s' hs a _ => (h s' a).trans hs

/-- The computation does not change what `view` shows of the state. -/
def Fixes (view : σ → V) (c : Comp σ ε α) : Prop := ∀ s, view (exec c s).2 = view s

theorem Fixes.pure (a : α) : Fixes view (pure a : Comp σ ε α) := fun _ => rfl

theorem Fixes.throw (e : ε) : Fixes view (throw e : Comp σ ε α) := fun _ => rfl

theorem Fixes.modify {f : σ → σ} (h : ∀ s, view (f s) = view s) :
    Fixes view (modify f : Comp σ ε PUnit) := h

variable {c : Comp σ ε α}

theorem Fixes.bind {f : α → Comp σ ε β} (hc : Fixes view c) (hf : ∀ a, Fixes view (f a)) :
    Fixes view (c >>= f) := by
  intro s
  rw [exec_bind, ← hc s]
  rcases exec c s with ⟨e | a, s'⟩
  · rfl
  · exact hf a s'

/-- The rest of the program starts in the state that was read. -/
theorem Fixes.get_bind (h : ∀ s, view (exec (f s) s).2 = view s) : Fixes view (get >>= f) := h

/-- The state is read, changed, and the rest goes on with what was read. -/
theorem Fixes.get_set {g : σ → σ} (hg : ∀ s, view (g s) = view s)
    (h : ∀ s, Fixes view (f s)) : Fixes view (get >>= fun s => set (g s) >>= fun _ => f s) :=
  fun s => (h s (g s)).trans (hg s)

theorem Fixes.ite [Decidable b] (hc : Fixes view c) (hd : Fixes view d) :
    Fixes view (if b then c else d) := by
  split
  · exact hc
  · exact hd

theorem Fixes.tryCatch (hc : Fixes view c) (hh : ∀ e, Fixes view (h e)) :
    Fixes view (tryCatch c h) := by
  intro s
  rw [exec_tryCatch, ← hc s]
  rcases exec c s with ⟨e | a, s'⟩
  · exact hh e s'
  · rfl

/-- The rule for one run, when the first part leaves the view alone anyway. -/
theorem Fixes.bind_at {f : α → Comp σ ε β} (hc : Fixes view c)
    (hf : ∀ a s', exec c s = (.ok a, s') → view (exec (f a) s').2 = view s') :
    view (exec (c >>= f) s).2 = view s := by
  rw [exec_bind, ← hc s]
  rcases hrun : exec c s with ⟨e | a, s'⟩
  · rfl
  · exact hf a s' hrun

/-- What holds of the view before holds of it after. -/
theorem Fixes.keeps (h : Fixes view c) (P : V → Prop) : Keeps (fun s => P (view s)) c :=
  .of_exec_snd fun s hs => by rw [h s]; exact hs

theorem Fixes.view_eq (h : Fixes view c) {v : V} :
    Triple (fun s => view s = v) c (fun _ s => view s = v) fun _ s => view s = v :=
  h.keeps (· = v)

theorem Fixes.then {f : α → Comp σ ε β} {Q : β → σ → Prop} {v : V} (h : Fixes view c)
    (hP : ∀ s, P s → view s = v) (hR : ∀ e s, view s = v → R e s)
    (hf : ∀ a, Triple (view · = v) (f a) Q R) : Triple P (c >>= f) Q R :=
  (h.view_eq.conseq hP (fun _ _ h => h) hR).bind hf

end Fixes

/-! ## Two runs side by side -/

variable {T : σ → σ → Prop}

/-- From `s` and `t` the two computations end alike, in states related by `T`. -/
def RelatesAt (T : σ → σ → Prop) (c d : Comp σ ε α) (s t : σ) : Prop :=
  (exec c s).1 = (exec d t).1 ∧ T (exec c s).2 (exec d t).2

/-- The same from all related states. -/
def Relates (T : σ → σ → Prop) (c d : Comp σ ε α) : Prop :=
  ∀ s t, T s t → RelatesAt T c d s t

theorem RelatesAt.pure (h : T s t) (a : α) : RelatesAt T (pure a : Comp σ ε α) (pure a) s t :=
  ⟨rfl, h⟩

theorem RelatesAt.bind {f g : α → Comp σ ε β} (hc : RelatesAt T c d s t)
    (hf : ∀ a, Relates T (f a) (g a)) : RelatesAt T (c >>= f) (d >>= g) s t := by
  unfold RelatesAt at hc ⊢
  rw [exec_bind, exec_bind]
  revert hc
  rcases exec c s with ⟨x, s'⟩
  rcases exec d t with ⟨y, t'⟩
  intro hc
  obtain ⟨rfl, hst⟩ : x = y ∧ T s' t' := hc
  cases x with
  | error e => exact ⟨rfl, hst⟩
  | ok a => exact hf a s' t' hst

theorem RelatesAt.get_bind {g : σ → Comp σ ε α} (h : RelatesAt T (f s) (g t) s t) :
    RelatesAt T (get >>= f) (get >>= g) s t := by
  exact h

theorem RelatesAt.require {x y : Except ε α} (h : T s t) (hxy : x = y) :
    RelatesAt T (require x : Comp σ ε α) (require y) s t := by
  unfold RelatesAt
  rw [exec_require, exec_require]
  exact ⟨hxy, h⟩

end StateExcept
