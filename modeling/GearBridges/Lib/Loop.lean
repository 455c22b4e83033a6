import Mathlib.Data.Nat.Init

/-!
# Lib.Loop

Loops without a bound, as a function for one turn that says to go on, to return or that it
panics, run for a number of turns.  `returns_of_measure` is the rule for loops that end,
`running_of_invariant` the one for loops that do not.
-/

namespace Loop

variable {σ α β : Type*}

/-- What one turn of a loop does. -/
inductive Turn (σ α : Type*) where
  | again (s : σ)
  | done (a : α)
  | panic

/-- What has become of a loop after some turns. -/
inductive Outcome (α : Type*) where
  | running
  | done (a : α)
  | panic
deriving DecidableEq

/-- What follows a loop that has returned. -/
def Outcome.bind : Outcome α → (α → Outcome β) → Outcome β
  | running, _ => running
  | done a, next => next a
  | panic, _ => panic

/-- Run a loop for a number of turns. -/
def run (body : σ → Turn σ α) : Nat → σ → Outcome α
  | 0, _ => .running
  | n + 1, s =>
      match body s with
      | .again s => run body n s
      | .done a => .done a
      | .panic => .panic

variable {body : σ → Turn σ α} {s s' : σ} {a : α} {n m : Nat}

/-- What has ended stays as it is. -/
theorem run_of_le (h : run body n s ≠ .running) (hle : n ≤ m) : run body m s = run body n s := by
  induction n generalizing m s with
  | zero => exact absurd rfl h
  | succ n ih =>
      obtain ⟨m, rfl⟩ := Nat.exists_eq_add_of_le' (Nat.le_trans (Nat.le_add_left 1 n) hle)
      cases hbody : body s with
      | again s' =>
          simp only [run, hbody] at h ⊢
          exact ih h (Nat.le_of_succ_le_succ hle)
      | done a => simp only [run, hbody]
      | panic => simp only [run, hbody]

/-- The loop returns a result. -/
def Returns (body : σ → Turn σ α) (s : σ) (a : α) : Prop := ∃ n, run body n s = .done a

theorem Returns.exists_le (h : Returns body s a) : ∃ n, ∀ m, n ≤ m → run body m s = .done a := by
  obtain ⟨n, hn⟩ := h
  refine ⟨n, ?_⟩
  intro m hle
  rw [run_of_le (by simp [hn]) hle, hn]

/-- A loop that returns is still running or has returned. -/
theorem Returns.run_eq (h : Returns body s a) (m : Nat) :
    run body m s = .running ∨ run body m s = .done a := by
  obtain ⟨n, hn⟩ := h.exists_le
  by_cases hm : run body m s = .running
  · exact .inl hm
  · refine .inr ?_
    rw [← run_of_le hm (Nat.le_max_left m n), hn _ (Nat.le_max_right m n)]

theorem Returns.unique {b : α} (h : Returns body s a) (h' : Returns body s b) : a = b := by
  obtain ⟨n, hn⟩ := h'
  have hrun := h.run_eq n
  rw [hn] at hrun
  simpa [eq_comm] using hrun

theorem returns_of_done (h : body s = .done a) : Returns body s a := ⟨1, by simp [run, h]⟩

theorem Returns.of_again (h : body s = .again s') (hreturns : Returns body s' a) :
    Returns body s a := by
  obtain ⟨n, hn⟩ := hreturns
  exact ⟨n + 1, by simp only [run, h, hn]⟩

/-- **Rule for loops that end**: in every turn the invariant is kept and the measure goes down,
or what is wanted is returned. -/
theorem returns_of_measure (I : σ → Prop) (measure : σ → Nat) (P : α → Prop)
    (hturn : ∀ s, I s → (∃ s', body s = .again s' ∧ I s' ∧ measure s' < measure s) ∨
      ∃ a, body s = .done a ∧ P a) (hs : I s) : ∃ a, Returns body s a ∧ P a := by
  induction hm : measure s using Nat.strong_induction_on generalizing s with
  | _ m ih =>
      rcases hturn s hs with ⟨s', hbody, hs', hlt⟩ | ⟨a, hbody, ha⟩
      · obtain ⟨a, hreturns, ha⟩ := ih (measure s') (hm ▸ hlt) hs' rfl
        exact ⟨a, hreturns.of_again hbody, ha⟩
      · exact ⟨a, returns_of_done hbody, ha⟩

/-- **Rule for loops that do not end**: every turn goes on and keeps the invariant. -/
theorem running_of_invariant (I : σ → Prop)
    (hturn : ∀ s, I s → ∃ s', body s = .again s' ∧ I s') (hs : I s) (n : Nat) :
    run body n s = .running := by
  induction n generalizing s with
  | zero => rfl
  | succ n ih =>
      obtain ⟨s', hbody, hs'⟩ := hturn s hs
      simp only [run, hbody, ih hs']

end Loop
