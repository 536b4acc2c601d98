/-!
# Machines that run step by step

A machine steps from a configuration and a state to the next ones, or stops with an
answer; some configurations are observed.  `Simulates` relates two machines over the
same states: one step of the first is one step of the second with the same
observation, or it is silent, and a measure bounds the silent steps.  The runs of the
two machines then show the same observations and stop with the same answer
(`Simulates.run`, `Simulates.run_back`).
-/

namespace Waste.Simulation

/-- What a step answers. -/
inductive Progress (γ σ ω : Type)
  | next (c : γ) (s : σ)
  | done (answer : ω) (s : σ)

structure Machine (γ σ ω Ω : Type) where
  step : γ → σ → Progress γ σ ω
  observe : γ → Option Ω

variable {γ δ σ ω Ω : Type}

/-- The observations of at most `n` steps, and where they lead. -/
def Machine.run (M : Machine γ σ ω Ω) : Nat → γ → σ → List Ω × Progress γ σ ω
  | 0, c, s => ([], .next c s)
  | n + 1, c, s =>
    match M.step c s with
    | .done answer s => ((M.observe c).toList, .done answer s)
    | .next c' s =>
      let result := M.run n c' s
      ((M.observe c).toList ++ result.1, result.2)

/-- The answers agree, or both go on, in related configurations. -/
def Matches (R : γ → σ → δ → Prop) : Progress γ σ ω → Progress δ σ ω → Prop
  | .next c s, .next d s' => s = s' ∧ R c s d
  | .done answer s, .done answer' s' => answer = answer' ∧ s = s'
  | _, _ => False

structure Simulates (M : Machine γ σ ω Ω) (N : Machine δ σ ω Ω) (R : γ → σ → δ → Prop)
    (measure : γ → Nat) : Prop where
  step : ∀ c s d, R c s d → (M.observe c = N.observe d ∧ Matches R (M.step c s) (N.step d s)) ∨
      (M.observe c = none ∧ ∃ c', M.step c s = .next c' s ∧ measure c' < measure c ∧ R c' s d)

section

variable {M : Machine γ σ ω Ω} {N : Machine δ σ ω Ω} {R : γ → σ → δ → Prop} {measure : γ → Nat}
  {c : γ} {s : σ} {d : δ}
variable {s' : σ} {c' : γ}

theorem run_succ_of_next (h : M.step c s = .next c' s') (n : Nat) : M.run (n + 1) c s =
      ((M.observe c).toList ++ (M.run n c' s').1, (M.run n c' s').2) := by
  simp only [Machine.run, h]

theorem Matches.cases {x : Progress γ σ ω} {y : Progress δ σ ω} (h : Matches R x y) :
    (∃ answer s, x = .done answer s ∧ y = .done answer s) ∨
      ∃ c s d, x = .next c s ∧ y = .next d s ∧ R c s d := by
  cases x with
  | done answer s =>
    cases y with
    | done answer' s' =>
      obtain ⟨rfl, rfl⟩ := h
      exact .inl ⟨answer, s, rfl, rfl⟩
    | next d s' => exact h.elim
  | next c s =>
    cases y with
    | done answer' s' => exact h.elim
    | next d s' =>
      obtain ⟨rfl, hR⟩ := h
      exact .inr ⟨c, s, d, rfl, rfl, hR⟩

/-- Two runs that stand at related places after the same observations. -/
def Agree (R : γ → σ → δ → Prop) (x : List Ω × Progress γ σ ω) (y : List Ω × Progress δ σ ω) :
    Prop :=
  x.1 = y.1 ∧ Matches R x.2 y.2

theorem Agree.mono {S : γ → σ → δ → Prop} (hS : ∀ c s d, R c s d → S c s d)
    {x : List Ω × Progress γ σ ω} {y : List Ω × Progress δ σ ω} (h : Agree R x y) :
    Agree S x y := by
  refine ⟨h.1, ?_⟩
  rcases h.2.cases with ⟨answer, s, hx, hy⟩ | ⟨c, s, d, hx, hy, hR⟩
  · rw [hx, hy]
    exact ⟨rfl, rfl⟩
  · rw [hx, hy]
    exact ⟨rfl, hS c s d hR⟩

theorem agree_done (hobserve : M.observe c = N.observe d) {answer : ω}
    (hM : M.step c s = .done answer s') (hN : N.step d s = .done answer s') (m n : Nat) :
    Agree R (M.run (m + 1) c s) (N.run (n + 1) d s) := by
  simp only [Machine.run, hM, hN, hobserve]
  exact ⟨rfl, rfl, rfl⟩

theorem Agree.step (hobserve : M.observe c = N.observe d) {d' : δ}
    (hM : M.step c s = .next c' s') (hN : N.step d s = .next d' s') {m n : Nat}
    (h : Agree R (M.run m c' s') (N.run n d' s')) :
    Agree R (M.run (m + 1) c s) (N.run (n + 1) d s) := by
  rw [run_succ_of_next hM, run_succ_of_next hN, hobserve]
  exact ⟨by rw [h.1], h.2⟩

theorem Agree.silent (hsilent : M.observe c = none) (hM : M.step c s = .next c' s)
    {m n : Nat} (h : Agree R (M.run m c' s) (N.run n d s)) :
    Agree R (M.run (m + 1) c s) (N.run n d s) := by
  rw [run_succ_of_next hM, hsilent]
  exact h

theorem Simulates.run (h : Simulates M N R measure) (n : Nat) (hR : R c s d) :
    ∃ m ≤ n, Agree R (M.run n c s) (N.run m d s) := by
  induction n generalizing c s d with
  | zero => exact ⟨0, Nat.le_refl 0, rfl, rfl, hR⟩
  | succ n ih =>
    rcases h.step c s d hR with ⟨hobserve, hstep⟩ | ⟨hsilent, c', hnext, -, hR'⟩
    · rcases hstep.cases with ⟨answer, s', hM, hN⟩ | ⟨c', s', d', hM, hN, hR'⟩
      · exact ⟨1, by omega, agree_done hobserve hM hN n 0⟩
      · obtain ⟨m, hm, hagree⟩ := ih hR'
        exact ⟨m + 1, by omega, hagree.step hobserve hM hN⟩
    · obtain ⟨m, hm, hagree⟩ := ih hR'
      exact ⟨m, by omega, hagree.silent hsilent hnext⟩

theorem Simulates.run_back (h : Simulates M N R measure) (m : Nat) (hR : R c s d) :
    ∃ n, Agree R (M.run n c s) (N.run m d s) := by
  induction m generalizing c s d with
  | zero => exact ⟨0, rfl, rfl, hR⟩
  | succ m ih =>
    -- the silent steps before the next step of the second machine
    induction hk : measure c using Nat.strongRecOn generalizing c with
    | ind k ihk =>
      rcases h.step c s d hR with ⟨hobserve, hstep⟩ | ⟨hsilent, c', hnext, hlt, hR'⟩
      · rcases hstep.cases with ⟨answer, s', hM, hN⟩ | ⟨c', s', d', hM, hN, hR'⟩
        · exact ⟨1, agree_done hobserve hM hN 0 m⟩
        · obtain ⟨n, hagree⟩ := ih hR'
          exact ⟨n + 1, hagree.step hobserve hM hN⟩
      · obtain ⟨n, hagree⟩ := ihk (measure c') (hk ▸ hlt) hR' rfl
        exact ⟨n + 1, hagree.silent hsilent hnext⟩

end

end Waste.Simulation
