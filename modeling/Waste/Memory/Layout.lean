import Waste.Memory.Model

/-!
# How the calls on the layout of a memory end

Mapping, protecting, reserving and growing have one shape: the call checks its arguments,
asks the allocator for the new tables, and only then changes the memory.  `Rebuilds` is
this shape.  Each call has one lemma that says which change it makes; what a call keeps
follows from what its change keeps, by `Rebuilds.keeps`.
-/

namespace Waste.Memory

open Function RangeMap StateExcept

variable {P : Store → Prop}

/-! ## Asking the allocator -/

/-- The store after `r` requests. -/
def Store.asked (s : Store) (r : Nat) : Store := { s with requests := r }

theorem exec_allocateOr (message : String) (s : Store) (k : Nat) :
    exec (allocateOr message) (s.asked k) =
      if s.granted k then (.ok ⟨⟩, s.asked (k + 1))
      else (.error ⟨.resource, message, .none, 0, 0, 0⟩, s.asked (k + 1)) := by
  simp only [allocateOr, allocate, execFail, exec_bind, exec_get, exec_set, exec_pure, Store.asked]
  cases s.granted k <;> rfl

theorem allocateOr_asks (message : String) (s : Store) :
    ∃ r, (exec (allocateOr message) s).2 = s.asked r := by
  have hask := exec_allocateOr message s s.requests
  rw [show s.asked s.requests = s from rfl] at hask
  rw [hask]
  split <;> exact ⟨_, rfl⟩

theorem allocateOr_keeps (hP : ∀ s r, P s → P (s.asked r)) {message : String} :
    Keeps P (allocateOr message) := by
  apply Keeps.of_exec_snd
  intro s hs
  obtain ⟨r, hr⟩ := allocateOr_asks message s
  rw [hr]
  exact hP s r hs

/-! ## Calls that change one memory -/

/-- The call failed when it had only asked the allocator, or it answers `a` and has made
the change `f` of memory `m`, where `F` relates the memory, `a` and `f`. -/
inductive Rebuilds {α : Type} (m : Nat) (F : ExecMemory → α → (ExecMemory → ExecMemory) → Prop)
    (s : Store) : Except ExecError α × Store → Prop
  | failed (e : ExecError) (r : Nat) : Rebuilds m F s (.error e, s.asked r)
  | done (a : α) (r : Nat) (f : ExecMemory → ExecMemory) (hf : F (s.memory m) a f) :
      Rebuilds m F s (.ok a, setMemory m f (s.asked r))

@[simp] theorem setMemory_id (m : Nat) (s : Store) : setMemory m id s = s := by
  show { s with memory := update s.memory m (s.memory m) } = s
  rw [update_eq_self]

@[simp] theorem setMemory_self (m : Nat) (f : ExecMemory → ExecMemory) (s : Store) :
    (setMemory m f s).memory m = f (s.memory m) :=
  update_self ..

theorem setMemory_ne {m n : Nat} (hn : n ≠ m) (f : ExecMemory → ExecMemory) (s : Store) :
    (setMemory m f s).memory n = s.memory n :=
  update_of_ne hn ..

section Rules

variable {α : Type} {m : Nat} {s : Store} {F : ExecMemory → α → (ExecMemory → ExecMemory) → Prop}

theorem Rebuilds.triple {c : MemM α} (h : ∀ s, Rebuilds m F s (exec c s))
    {Q : α → Store → Prop} {R : ExecError → Store → Prop} (hR : ∀ s e r, P s → R e (s.asked r))
    (hQ : ∀ s a f r, P s → F (s.memory m) a f → Q a (setMemory m f (s.asked r))) :
    Triple P c Q R := by
  intro s hs
  have hrun := h s
  generalize exec c s = run at hrun ⊢
  rcases hrun with ⟨e, r⟩ | ⟨a, r, f, hf⟩
  · refine ⟨nofun, fun e' t ht => ?_⟩
    cases ht
    exact hR s e r hs
  · refine ⟨fun a' t ht => ?_, nofun⟩
    cases ht
    exact hQ s a f r hs hf

/-- What survives the requests and the change survives the call. -/
theorem Rebuilds.keeps {c : MemM α} (h : ∀ s, Rebuilds m F s (exec c s))
    (hP : ∀ s r, P s → P (s.asked r))
    (hF : ∀ s a f, P s → F (s.memory m) a f → P (setMemory m f s)) : Keeps P c :=
  triple h (fun s _ r hs => hP s r hs) fun s a f r hs hf => hF (s.asked r) a f (hP s r hs) hf

theorem Rebuilds.same {a : α} {r : Nat} (h : F (s.memory m) a id) :
    Rebuilds m F s (.ok a, s.asked r) := by
  have hdone : Rebuilds m F s (.ok a, setMemory m id (s.asked r)) := .done a r id h
  rwa [setMemory_id] at hdone

theorem Rebuilds.fail {e : ExecError} : Rebuilds m F s (exec (throw e) s) :=
  .failed e s.requests

theorem Rebuilds.ask {k : Nat} {message : String} {rest : MemM α}
    (h : s.granted k = true → Rebuilds m F s (exec rest (s.asked (k + 1)))) :
    Rebuilds m F s (exec (do allocateOr message; rest) (s.asked k)) := by
  rw [exec_bind, exec_allocateOr]
  cases hgranted : s.granted k with
  | true => exact h hgranted
  | false => exact .failed _ _

end Rules

/-! ## Mapping and protecting -/

def Unoccupied (memory : ExecMemory) (first stop : Nat) : Prop :=
  ∀ p, first ≤ p → p < stop → memoryPageIsMapped memory p = false

theorem unoccupied_of_any {memory : ExecMemory} {first count : Nat}
    (h : ¬(List.range' first count).any (memoryPageIsMapped memory) = true) :
    Unoccupied memory first (first + count) := by
  intro p hlo hhi
  by_contra hmapped
  refine h (List.any_eq_true.2 ⟨p, ?_, Bool.not_eq_false _ ▸ hmapped⟩)
  rw [List.mem_range'_1]
  omega

/-- The change of `exec_memory_map_pages`. -/
inductive Maps (first count : Nat) (protection flags : UInt8) (memory : ExecMemory) :
    (ExecMemory → ExecMemory) → Prop
  | nothing (hcount : count = 0) (hin : first + count ≤ memory.pages) :
      Maps first count protection flags memory id
  | pages (hcount : 0 < count) (hin : first + count ≤ memory.pages)
      (hfree : Unoccupied memory first (first + count)) :
      Maps first count protection flags memory (.mapped first count protection flags)

theorem memoryMapPages_rebuilds (m first count : Nat) (protection flags : UInt8) (s : Store) :
    Rebuilds m (fun memory _ => Maps first count protection flags memory) s
      (exec (memoryMapPages m first count protection flags) s) := by
  simp only [memoryMapPages, exec_bind, exec_get]
  split_ifs with hvalid hcount hmapped
  · exact .fail
  all_goals simp only [outsidePages, not_or, Nat.not_lt] at hvalid
  · exact .same (.nothing hcount (by omega))
  · exact .fail
  · exact .fail
  · exact .ask fun _ => .done _ _ _ (.pages (by omega) (by omega) (unoccupied_of_any hmapped))

/-- The change of `exec_memory_set_protection`. -/
inductive Protects (first count : Nat) (protection : UInt8) : (ExecMemory → ExecMemory) → Prop
  | nothing : Protects first count protection id
  | pages : Protects first count protection (.protected first count protection)

theorem memorySetProtection_rebuilds (m first count : Nat) (protection : UInt8) (s : Store) :
    Rebuilds m (fun _ _ => Protects first count protection) s
      (exec (memorySetProtection m first count protection) s) := by
  simp only [memorySetProtection, exec_bind, exec_get]
  split_ifs
  · exact .fail
  · exact .same .nothing
  · exact .fail
  · exact .ask fun _ => .done _ _ _ .pages

/-- `mprotect` changes the protection of pages that are all mapped. -/
theorem processCapsuleMprotectRange_rebuilds {m : Nat} {address length : Nat} {protection : UInt8}
    (s : Store) :
    Rebuilds m (fun memory _ f => f = id ∨ ∃ first count, Protects first count protection f ∧
        ∀ p, first ≤ p → p < first + count → memoryPageIsMapped memory p = true) s
      (exec (processCapsuleMprotectRange m address length protection) s) := by
  simp only [processCapsuleMprotectRange, exec_bind, exec_get]
  split_ifs
  · exact .same (.inl rfl)
  split
  · exact .same (.inl rfl)
  rename_i count _
  split_ifs with _ hmapped
  · exact .same (.inl rfl)
  · rw [exec_tryCatch, exec_bind]
    have hset := memorySetProtection_rebuilds m (address / execPageSize) count protection s
    revert hset
    generalize exec (memorySetProtection m (address / execPageSize) count protection) s = run
    rintro (⟨e, r⟩ | ⟨a, r, f, hf⟩)
    · exact .same (.inl rfl)
    · refine .done _ r f (.inr ⟨_, count, hf, fun p hlo hhi => ?_⟩)
      rw [List.all_eq_true] at hmapped
      exact hmapped p (List.mem_range'_1.2 ⟨hlo, hhi⟩)
  · exact .same (.inl rfl)

/-! ## Reserving and growing -/

/-- The change of `exec_memory_reserve_virtual_pages`. -/
inductive Reserves (pages : Nat) (memory : ExecMemory) : (ExecMemory → ExecMemory) → Prop
  | nothing : Reserves pages memory id
  | pages (hpages : memory.pages < pages) : Reserves pages memory (.reserved pages)

theorem memoryReserveVirtualPages_rebuilds (m pages : Nat) (s : Store) :
    Rebuilds m (fun memory _ => Reserves pages memory) s
      (exec (memoryReserveVirtualPages m pages) s) := by
  simp only [memoryReserveVirtualPages, exec_bind, exec_get]
  generalize (if (s.memory m).virtualMaxPages ≠ 0 then (s.memory m).virtualMaxPages
    else if (s.memory m).hasMax then (s.memory m).maxPages
    else if (s.memory m).is64 then execMem64MaxPages else execMem32MaxPages) = limit
  split_ifs with hbounds _ hsame
  · exact .fail
  · exact .fail
  · exact .same .nothing
  · exact .ask fun _ => .ask fun _ => .done _ _ _ (.pages (by omega))

/-- Growth into the reservation, from the linear end `first` on. -/
def ExecMemory.grownInto (first pages : Nat) (memory : ExecMemory) : ExecMemory :=
  { memory.mapped first (pages - first) (protRead ||| protWrite) 0 with linearPages := pages }

/-- The change of `exec_memory_resize_pages`. -/
inductive Resizes (pages : Nat) (memory : ExecMemory) : (ExecMemory → ExecMemory) → Prop
  | nothing (hpages : pages = memory.linearPages) : Resizes pages memory id
  | into (hpages : memory.linearPages < pages) (hin : pages ≤ memory.pages)
      (hfree : Unoccupied memory memory.linearPages pages) :
      Resizes pages memory (.grownInto memory.linearPages pages)
  | behind (hlinear : memory.linearPages < pages) (hpages : memory.pages < pages)
      (hfree : memory.processVirtualMemory = true →
        Unoccupied memory memory.linearPages memory.pages) :
      Resizes pages memory (.grown pages)

theorem memoryResizePages_rebuilds (m pages : Nat) (s : Store) :
    Rebuilds m (fun memory _ => Resizes pages memory) s (exec (memoryResizePages m pages) s) := by
  simp only [memoryResizePages, exec_bind, exec_get]
  split_ifs with hbounds hsame hoverlap hin
  · exact .fail
  · exact .same (.nothing hsame)
  · exact .fail
  · have hmap := memoryMapPages_rebuilds m (s.memory m).linearPages
      (pages - (s.memory m).linearPages) (protRead ||| protWrite) 0 s
    rw [exec_bind]
    generalize exec (memoryMapPages m (s.memory m).linearPages _ _ _) s = run at hmap ⊢
    rcases hmap with ⟨e, r⟩ | ⟨a, r, f, hf⟩
    · exact .failed e r
    cases hf with
    | nothing hcount => omega
    | pages hcount _ hfree =>
      rw [Nat.add_sub_cancel' (by omega)] at hfree
      have hdone := Rebuilds.done (F := fun memory _ => Resizes pages memory)
        a r _ (.into (by omega) hin hfree)
      simpa [setMemory, ExecMemory.grownInto] using hdone
  all_goals
    have hfree : (s.memory m).processVirtualMemory = true →
        Unoccupied (s.memory m) (s.memory m).linearPages (s.memory m).pages := fun hprocess => by
      have hwindow := unoccupied_of_any fun hany => hoverlap ⟨hprocess, hany⟩
      exact fun p hlo hhi => hwindow p hlo (by omega)
    have hdone : Resizes pages (s.memory m) (.grown pages) := .behind (by omega) (by omega) hfree
  · exact .ask fun _ => .ask fun _ => .done _ _ _ hdone
  · exact .ask fun _ => .ask fun _ => .failed _ _
  · exact .ask fun _ => .ask fun _ => .ask fun _ => .done _ _ _ hdone

/-- The change of `memory.grow`, which answers the old size or `-1`. -/
inductive Grows (add : Nat) (memory : ExecMemory) :
    Option Nat → (ExecMemory → ExecMemory) → Prop
  | refused : Grows add memory none id
  | grown {f : ExecMemory → ExecMemory}
      (hbound : memory.linearPages + add ≤ sizeMax / execPageSize)
      (hf : Resizes (memory.linearPages + add) memory f) :
      Grows add memory (some memory.linearPages) f

theorem executeMemoryGrow_ends (m add : Nat) (s : Store) :
    ∃ answer r f, Grows add (s.memory m) answer f ∧
      exec (executeMemoryGrow m add) s = (.ok answer, setMemory m f (s.asked r)) := by
  have hrefused : ∀ r, ∃ answer r' f, Grows add (s.memory m) answer f ∧
      ((.ok none, s.asked r) : Except ExecError (Option Nat) × Store) =
        (.ok answer, setMemory m f (s.asked r')) :=
    fun r => ⟨none, r, id, .refused, by rw [setMemory_id]⟩
  simp only [executeMemoryGrow, exec_bind, exec_get]
  generalize (if (s.memory m).is64 then execMem64MaxPages else execMem32MaxPages) = limit
  split_ifs with hlimit
  · exact hrefused s.requests
  rw [exec_tryCatch, exec_bind]
  have hresize := memoryResizePages_rebuilds m ((s.memory m).linearPages + add) s
  generalize exec (memoryResizePages m _) s = run at hresize ⊢
  rcases hresize with ⟨e, r⟩ | ⟨a, r, f, hf⟩
  · exact hrefused r
  · exact ⟨_, r, f, .grown (by omega) hf, rfl⟩

theorem executeMemoryGrow_rebuilds (m add : Nat) (s : Store) :
    Rebuilds m (Grows add) s (exec (executeMemoryGrow m add) s) := by
  obtain ⟨answer, r, f, hf, hrun⟩ := executeMemoryGrow_ends m add s
  rw [hrun]
  exact .done answer r f hf

/-! ## Unmapping -/

/-- The ends of `exec_memory_unmap_pages`. -/
inductive Unmaps (m first count : Nat) (s : Store) : Except ExecError Unit × Store → Prop
  | failed (e : ExecError) (r : Nat) : Unmaps m first count s (.error e, s.asked r)
  | nothing (hcount : count = 0) : Unmaps m first count s (.ok ⟨⟩, s)
  | pages (r : Nat) : Unmaps m first count s
      (.ok ⟨⟩, setMemory m (.unmapped first count) (releasePages m first count (s.asked r)))

theorem memoryUnmapPages_ends (m first count : Nat) (s : Store) :
    Unmaps m first count s (exec (memoryUnmapPages m first count) s) := by
  simp only [memoryUnmapPages, exec_bind, exec_get]
  split_ifs with _ hcount
  · exact .failed _ s.requests
  · exact .nothing hcount
  · exact .failed _ s.requests
  have hask := exec_allocateOr mappingAllocationFailed s s.requests
  rw [show s.asked s.requests = s from rfl] at hask
  rw [exec_bind, hask]
  cases s.granted s.requests
  · exact .failed _ _
  · exact .pages _

theorem Unmaps.after {run : Except ExecError Unit × Store} (h : Unmaps m first count s run)
    (hs : ∀ r, P (s.asked r)) (hpages : ∀ r,
      P (setMemory m (.unmapped first count) (releasePages m first count (s.asked r)))) :
    P run.2 := by
  cases h with
  | failed e r => exact hs r
  | nothing => exact hs s.requests
  | pages r => exact hpages r

end Waste.Memory
