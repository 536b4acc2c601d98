import Mathlib

/-!
# Depth-first search with a bounded list of visited nodes

`visit succ target room` looks for `target` from a node along `succ`.  The visited nodes
are threaded through the search, and the search gives up with `none` when there are more
than `room` of them.

An answer `true` means that there is a path (`visitAll_true`), and `false` that there is
none (`visitAll_false`): then the visited nodes are closed under `succ` and do not have
the target among them.  If all nodes are in a set of at most `room` nodes, the search does
not give up (`visitAll_room`).
-/

namespace DepthFirst

open List Option

variable {α : Type*}
variable {s : Finset α}

/-- Visit the nodes of a list one after the other, until one of the searches succeeds. -/
def visitAll (visit : α → List α → Option (Bool × List α)) :
    List α → List α → Option (Bool × List α)
  | [], visited => some (false, visited)
  | a :: rest, visited =>
    match visit a visited with
    | none => none
    | some (true, visited) => some (true, visited)
    | some (false, visited) => visitAll visit rest visited

/-- One step along `succ`. -/
def Step (succ : α → List α) (a b : α) : Prop := b ∈ succ a

variable {succ : α → List α} {target : α} {room levels : Nat} {a : α}
  {roots visited visited' : List α}

/-! ## The list of nodes -/

theorem visitAll_found {visit : α → List α → Option (Bool × List α)} {P : α → Prop}
    (hvisit : ∀ a visited visited', visit a visited = some (true, visited') → P a)
    (h : visitAll visit roots visited = some (true, visited')) : ∃ a ∈ roots, P a := by
  induction roots generalizing visited with
  | nil => exact absurd h (by simp [visitAll])
  | cons a _ ih =>
    rw [visitAll] at h
    split at h
    · exact absurd h (by simp)
    · next heq => exact ⟨a, mem_cons_self, hvisit a visited _ heq⟩
    · obtain ⟨b, hb, hP⟩ := ih h
      exact ⟨b, mem_cons_of_mem a hb, hP⟩

/-- What a search without success adds to the visited nodes. -/
structure Explored (succ : α → List α) (target : α) (visited visited' : List α) : Prop where
  grows : visited ⊆ visited'
  missed : target ∉ visited → target ∉ visited'
  closed : ∀ x ∈ visited', x ∉ visited → ∀ y ∈ succ x, y ∈ visited'

theorem Explored.refl (visited : List α) : Explored succ target visited visited :=
  ⟨fun _ h => h, fun h => h, fun _ hx hn => absurd hx hn⟩

theorem Explored.trans {visited'' : List α} (h : Explored succ target visited visited')
    (h' : Explored succ target visited' visited'') : Explored succ target visited visited'' := by
  refine ⟨fun _ hx => h'.grows (h.grows hx), fun hn => h'.missed (h.missed hn), ?_⟩
  intro x hx hn y hy
  by_cases hx' : x ∈ visited'
  · exact h'.grows (h.closed x hx' hn y hy)
  · exact h'.closed x hx hx' y hy

theorem visitAll_explored {visit : α → List α → Option (Bool × List α)}
    (hvisit : ∀ a visited visited', visit a visited = some (false, visited') →
      Explored succ target visited visited' ∧ a ∈ visited')
    (h : visitAll visit roots visited = some (false, visited')) :
    Explored succ target visited visited' ∧ ∀ a ∈ roots, a ∈ visited' := by
  induction roots generalizing visited with
  | nil =>
    obtain ⟨-, rfl⟩ := Prod.mk.inj (some.inj h)
    exact ⟨.refl visited, fun a ha => absurd ha not_mem_nil⟩
  | cons a _ ih =>
    rw [visitAll] at h
    split at h
    · exact absurd h (by simp)
    · exact absurd h (by simp)
    next heq =>
    obtain ⟨hfirst, ha⟩ := hvisit a visited _ heq
    obtain ⟨hrest, hall⟩ := ih h
    refine ⟨hfirst.trans hrest, fun b hb => ?_⟩
    rcases mem_cons.mp hb with rfl | hb
    · exact hrest.grows ha
    · exact hall b hb

/-- The visited nodes are different nodes of the set `s`. -/
structure Fits (s : Finset α) (visited : List α) : Prop where
  nodup : visited.Nodup
  subset : ∀ x ∈ visited, x ∈ s

theorem Fits.append (h : Fits s visited) (ha : a ∈ s) (hn : a ∉ visited) :
    Fits s (visited ++ [a]) := by
  refine ⟨?_, fun x hx => ?_⟩
  · rw [nodup_append]
    refine ⟨h.nodup, nodup_singleton a, fun x hx y hy => ?_⟩
    rw [mem_singleton.mp hy]
    rintro rfl
    exact hn hx
  · rcases mem_append.mp hx with hx | hx
    · exact h.subset x hx
    · rw [mem_singleton.mp hx]
      exact ha

theorem visitAll_fits {visit : α → List α → Option (Bool × List α)} {n : Nat}
    (hvisit : ∀ a visited, a ∈ s → Fits s visited → n ≤ visited.length →
      ∃ found visited', visit a visited = some (found, visited') ∧ Fits s visited' ∧
        n ≤ visited'.length)
    (hroots : ∀ a ∈ roots, a ∈ s) (h : Fits s visited) (hn : n ≤ visited.length) :
    ∃ found visited', visitAll visit roots visited = some (found, visited') ∧ Fits s visited' ∧
      n ≤ visited'.length := by
  induction roots generalizing visited with
  | nil => exact ⟨false, visited, rfl, h, hn⟩
  | cons a _ ih =>
    obtain ⟨found, visited1, hfirst, hfits, hlength⟩ :=
      hvisit a visited (hroots a mem_cons_self) h hn
    rw [visitAll, hfirst]
    cases found with
    | true => exact ⟨true, visited1, rfl, hfits, hlength⟩
    | false => exact ih (fun b hb => hroots b (mem_cons_of_mem a hb)) hfits hlength

variable [DecidableEq α]

/-- Search from one node.  Every level adds a node to those visited, so `room + 1` levels
are enough. -/
def visit (succ : α → List α) (target : α) (room : Nat) : Nat → α → List α → Option (Bool × List α)
  | 0, _, _ => none
  | levels + 1, a, visited =>
    if a = target then some (true, visited)
    else if a ∈ visited then some (false, visited)
    else if visited.length = room then none
    else visitAll (visit succ target room levels) (succ a) (visited ++ [a])

/-! ## The target is found -/

theorem visit_true (h : visit succ target room levels a visited = some (true, visited')) :
    Relation.ReflTransGen (Step succ) a target := by
  induction levels generalizing a visited visited' with
  | zero => exact absurd h (by simp [visit])
  | succ levels ih =>
    rw [visit] at h
    split at h
    · next heq =>
      rw [heq]
    split at h
    · exact absurd h (by simp)
    split at h
    · exact absurd h (by simp)
    · obtain ⟨b, hb, hpath⟩ := visitAll_found (fun b v v' hb => ih hb) h
      exact Relation.ReflTransGen.head hb hpath

/-! ## The target is not found -/

theorem visit_explored (h : visit succ target room levels a visited = some (false, visited')) :
    Explored succ target visited visited' ∧ a ∈ visited' := by
  induction levels generalizing a visited visited' with
  | zero => exact absurd h (by simp [visit])
  | succ levels ih =>
    rw [visit] at h
    split at h
    · exact absurd h (by simp)
    next htarget =>
    split at h
    · next hmem =>
      obtain ⟨-, rfl⟩ := Prod.mk.inj (some.inj h)
      exact ⟨.refl visited, hmem⟩
    split at h
    · exact absurd h (by simp)
    obtain ⟨hsub, hall⟩ := visitAll_explored (fun b v v' hb => ih hb) h
    have ha : a ∈ visited' := hsub.grows (by simp)
    refine ⟨⟨fun x hx => hsub.grows (mem_append_left _ hx), fun hn => ?_, ?_⟩, ha⟩
    · refine hsub.missed ?_
      rw [mem_append, mem_singleton]
      exact fun hor => hor.elim hn fun heq => htarget heq.symm
    -- the successors of `a` are the roots of the inner search
    intro x hx hn y hy
    by_cases hxa : x = a
    · exact hall y (hxa ▸ hy)
    · refine hsub.closed x hx ?_ y hy
      rw [mem_append, mem_singleton]
      exact fun hor => hor.elim hn hxa

theorem visitAll_false
    (h : visitAll (visit succ target room levels) roots [] = some (false, visited')) :
    ∀ a ∈ roots, ¬Relation.ReflTransGen (Step succ) a target := by
  obtain ⟨hexplored, hroots⟩ := visitAll_explored (fun _ _ _ => visit_explored) h
  intro a ha hpath
  have hclosed : ∀ {x}, Relation.ReflTransGen (Step succ) a x → x ∈ visited' := by
    intro x hx
    induction hx with
    | refl => exact hroots a ha
    | tail _ hstep ih => exact hexplored.closed _ ih not_mem_nil _ hstep
  exact hexplored.missed not_mem_nil (hclosed hpath)

/-! ## There is room -/

theorem Fits.length (h : Fits s visited) : visited.length ≤ s.card := by
  rw [← toFinset_card_of_nodup h.nodup]
  refine Finset.card_le_card fun x hx => h.subset x (mem_toFinset.mp hx)

theorem visit_fits (hs : ∀ x ∈ s, ∀ y ∈ succ x, y ∈ s) (hcard : s.card ≤ room)
    (ha : a ∈ s) (h : Fits s visited) {n : Nat} (hn : n ≤ visited.length)
    (hlevels : room + 1 ≤ levels + n) :
    ∃ found visited', visit succ target room levels a visited = some (found, visited') ∧
      Fits s visited' ∧ n ≤ visited'.length := by
  induction levels generalizing a visited n with
  | zero =>
    have hle := h.length
    omega
  | succ levels ih =>
    rw [visit]
    split
    · exact ⟨true, visited, rfl, h, hn⟩
    split
    · exact ⟨false, visited, rfl, h, hn⟩
    next hmem =>
    have hfits := h.append ha hmem
    have hle := hfits.length
    rw [length_append, length_singleton] at hle
    rw [if_neg (by omega)]
    obtain ⟨found, visited', hrun, hfits', hlength⟩ := visitAll_fits (n := n + 1)
      (fun b v hb hv hnv => ih hb hv hnv (by omega)) (hs a ha) hfits
      (by rw [length_append, length_singleton]; omega)
    exact ⟨found, visited', hrun, hfits', by omega⟩

theorem visitAll_room (hs : ∀ x ∈ s, ∀ y ∈ succ x, y ∈ s) (hcard : s.card ≤ room)
    (hroots : ∀ a ∈ roots, a ∈ s) :
    visitAll (visit succ target room (room + 1)) roots [] ≠ none := by
  have hempty : Fits s ([] : List α) := ⟨nodup_nil, fun x hx => absurd hx not_mem_nil⟩
  obtain ⟨found, visited', hrun, -⟩ := visitAll_fits (n := 0)
    (fun a v ha hv hn => visit_fits hs hcard ha hv hn (le_refl (room + 1)))
    hroots hempty (Nat.zero_le _)
  rw [hrun]
  exact some_ne_none _

end DepthFirst
