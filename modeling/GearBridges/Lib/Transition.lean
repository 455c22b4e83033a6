import Mathlib.Data.List.Basic

/-!
# Lib.Transition

Runs of a labelled partial step function.  A system is a step function
`step : σ → α → Option σ`: `step s a = some s'` says that action `a` is
enabled in `s` and leads to `s'`.  The module gives

* `Reachable` — the states reached by runs all of whose steps meet a guard
  `ok`, with its induction rule `Reachable.invariant`;
* `Trace` — the same runs with their history, newest state first, for
  statements that speak of what was stored earlier;
* `History` — the same runs with the actions taken, for statements that speak of an
  earlier call;
* `exec` — the run of a concrete list of actions, which is how a run is
  exhibited.
-/

namespace Transition

variable {σ α : Type*}

/-- States reached from `init` by steps that are enabled and meet the guard
`ok` in the state they are taken from. -/
inductive Reachable (step : σ → α → Option σ) (ok : σ → α → Prop) (init : σ → Prop) :
    σ → Prop
  | start {s : σ} : init s → Reachable step ok init s
  | next {s s' : σ} {a : α} :
      Reachable step ok init s → ok s a → step s a = some s' → Reachable step ok init s'

/-- The guard that lets every step pass. -/
def free : σ → α → Prop := fun _ _ => True

/-- **Invariant rule**: what holds initially and is kept by every guarded step
holds in every state reached. -/
theorem Reachable.invariant {step : σ → α → Option σ} {ok : σ → α → Prop} {init : σ → Prop}
    {I : σ → Prop} (hinit : ∀ s, init s → I s)
    (hstep : ∀ s a s', I s → ok s a → step s a = some s' → I s')
    {s : σ} (h : Reachable step ok init s) : I s := by
  induction h with
  | start hs => exact hinit _ hs
  | next _ hok hs ih => exact hstep _ _ _ ih hok hs

/-! ## runs with their history -/

/-- A run with its history: the states passed through, newest first. -/
inductive Trace (step : σ → α → Option σ) (init : σ → Prop) : List σ → Prop
  | start {s : σ} : init s → Trace step init [s]
  | next {s s' : σ} {past : List σ} {a : α} :
      Trace step init (s :: past) → step s a = some s' → Trace step init (s' :: s :: past)

/-- **Invariant rule with history**: a relation between the newest state and
the states before it that holds initially and is kept by every step holds of
every trace. -/
theorem Trace.invariant {step : σ → α → Option σ} {init : σ → Prop} {I : σ → List σ → Prop}
    (hinit : ∀ s, init s → I s [])
    (hstep : ∀ s a s' past, I s past → step s a = some s' → I s' (s :: past))
    {s : σ} {past : List σ} (h : Trace step init (s :: past)) : I s past := by
  generalize hl : s :: past = l at h
  induction h generalizing s past with
  | start hs =>
      injection hl with h1 h2
      subst h1 h2
      exact hinit _ hs
  | next _ hs ih =>
      injection hl with h1 h2
      subst h1 h2
      exact hstep _ _ _ _ (ih rfl) hs

/-- A run with the steps taken, newest first, each with the state it was taken in. -/
inductive History (step : σ → α → Option σ) (init : σ → Prop) : List (σ × α) → σ → Prop
  | start {s : σ} : init s → History step init [] s
  | next {s s' : σ} {past : List (σ × α)} {a : α} :
      History step init past s → step s a = some s' → History step init ((s, a) :: past) s'

/-- **Invariant rule with the steps taken.** -/
theorem History.invariant {step : σ → α → Option σ} {init : σ → Prop}
    {I : List (σ × α) → σ → Prop} (hinit : ∀ s, init s → I [] s)
    (hstep : ∀ past s a s', I past s → step s a = some s' → I ((s, a) :: past) s')
    {past : List (σ × α)} {s : σ} (h : History step init past s) : I past s := by
  induction h with
  | start hs => exact hinit _ hs
  | next _ hs ih => exact hstep _ _ _ _ ih hs

theorem History.mono {step : σ → α → Option σ} {init init' : σ → Prop}
    (hinit : ∀ s, init s → init' s) {past : List (σ × α)} {s : σ} (h : History step init past s) :
    History step init' past s := by
  induction h with
  | start hs => exact .start (hinit _ hs)
  | next _ hs ih => exact .next ih hs

/-- Every step of a history was taken in a state with a history of its own. -/
theorem History.of_mem {step : σ → α → Option σ} {init : σ → Prop} {past : List (σ × α)} {s s' : σ}
    {a : α} (h : History step init past s) (hmem : (s', a) ∈ past) :
    ∃ before s'', History step init before s' ∧ step s' a = some s'' ∧ before ⊆ past := by
  induction h with
  | start hs => contradiction
  | @next _ s'' before _ hbefore hs ih =>
      rcases List.mem_cons.mp hmem with heq | hold
      · injection heq with h1 h2
        subst h1 h2
        exact ⟨before, s'', hbefore, hs, List.subset_cons_self _ _⟩
      · obtain ⟨earlier, s'', hearlier, hs'', hsub⟩ := ih hold
        exact ⟨earlier, s'', hearlier, hs'', List.subset_cons_of_subset _ hsub⟩

/-! ## concrete runs -/

/-- Run a list of actions in order, checking the guard before each; `none` as
soon as one is not enabled or does not meet the guard. -/
def exec (step : σ → α → Option σ) (ok : σ → α → Prop) [∀ s a, Decidable (ok s a)] :
    σ → List α → Option σ
  | s, [] => some s
  | s, a :: rest => if ok s a then (step s a).bind (exec step ok · rest) else none

instance : ∀ (s : σ) (a : α), Decidable (free s a) := fun _ _ => inferInstanceAs (Decidable True)

/-- A concrete guarded run reaches its last state. -/
theorem Reachable.of_exec {step : σ → α → Option σ} {ok : σ → α → Prop}
    [∀ s a, Decidable (ok s a)] {init : σ → Prop} {s s' : σ} {acts : List α}
    (hs : Reachable step ok init s) (h : exec step ok s acts = some s') :
    Reachable step ok init s' := by
  induction acts generalizing s with
  | nil =>
      simp only [exec, Option.some.injEq] at h
      subst h
      exact hs
  | cons a rest ih =>
      by_cases hok : ok s a
      · cases ha : step s a with
        | none => simp [exec, hok, ha] at h
        | some s₁ =>
            simp only [exec, if_pos hok, ha, Option.bind_some] at h
            exact ih (.next hs hok ha) h
      · simp [exec, hok] at h

/-- A concrete run whose last state satisfies a decidable test exhibits a
reachable state that satisfies it. -/
theorem exists_reachable_of_exec (step : σ → α → Option σ) (ok : σ → α → Prop)
    [∀ s a, Decidable (ok s a)] {init : σ → Prop} {s : σ}
    (hs : init s) (acts : List α) (p : σ → Bool)
    (h : (exec step ok s acts).map p = some true) :
    ∃ s', Reachable step ok init s' ∧ p s' = true := by
  cases he : exec step ok s acts with
  | none => simp only [he, Option.map_none] at h; contradiction
  | some s' =>
      simp only [he, Option.map_some, Option.some.injEq] at h
      exact ⟨s', .of_exec (.start hs) he, h⟩

/-- A concrete run whose last state satisfies a decidable test, with its history. -/
theorem exists_trace_of_exec (step : σ → α → Option σ) {init : σ → Prop} {s : σ} (hs : init s)
    (acts : List α) (p : σ → Bool) (h : (exec step free s acts).map p = some true) :
    ∃ s' past, Trace step init (s' :: past) ∧ p s' = true := by
  -- the run so far is carried along, since a trace grows at its newest end
  suffices hrun : ∀ (acts : List α) (s₁ : σ) (past : List σ), Trace step init (s₁ :: past) →
      (exec step free s₁ acts).map p = some true →
      ∃ s' past, Trace step init (s' :: past) ∧ p s' = true from hrun acts s [] (.start hs) h
  intro acts
  induction acts with
  | nil =>
      intro s₁ past ht h
      exact ⟨s₁, past, ht, by simpa [exec] using h⟩
  | cons a rest ih =>
      intro s₁ past ht h
      cases ha : step s₁ a with
      | none => simp [exec, free, ha] at h
      | some s₂ =>
          simp only [exec, free, if_true, ha, Option.bind_some] at h
          exact ih s₂ (s₁ :: past) (.next ht ha) h

/-- A concrete run whose last state satisfies a decidable test, with the steps taken. -/
theorem exists_history_of_exec (step : σ → α → Option σ) {init : σ → Prop} {s : σ} (hs : init s)
    (acts : List α) (p : σ → Bool) (h : (exec step free s acts).map p = some true) :
    ∃ past s', History step init past s' ∧ p s' = true := by
  suffices hrun : ∀ (acts : List α) (s₁ : σ) (past : List (σ × α)), History step init past s₁ →
      (exec step free s₁ acts).map p = some true →
      ∃ past s', History step init past s' ∧ p s' = true from hrun acts s [] (.start hs) h
  intro acts
  induction acts with
  | nil =>
      intro s₁ past ht h
      exact ⟨past, s₁, ht, by simpa [exec] using h⟩
  | cons a rest ih =>
      intro s₁ past ht h
      cases ha : step s₁ a with
      | none => simp [exec, free, ha] at h
      | some s₂ =>
          simp only [exec, free, if_true, ha, Option.bind_some] at h
          exact ih s₂ ((s₁, a) :: past) (.next ht ha) h

end Transition
