import Mathlib.Data.List.Basic

/-!
# Lib.Reentrancy

Contracts that call code they know nothing about.  Foreign code is a tree of the calls it
makes (`Code`): it sees the whole state, calls the contracts under study, opens frames of
its own, and may ignore that a call has reverted.  A contract runs foreign code through a
callback; `handler` ties the knot by the depth of the call stack, and a call below the
deepest frame reverts, as it does when the gas is used up.

A revert gives back the state from before the frame, so what is in the state after a
transaction is what its surviving frames did.  `handler_rel` is the rule for relations
between the states before and after: it is enough that one call of a contract keeps the
relation if the foreign code it runs does.
-/

namespace Reentrancy

/-- Foreign code over states `σ` that can make the calls `ι`. -/
inductive Code (σ ι : Type)
  /-- Returns a value; a function without a return value returns `true`. -/
  | ret (value : Bool)
  | revert
  | look (next : σ → Code σ ι)
  /-- The next step depends on whether the call succeeded. -/
  | call (c : ι) (next : Bool → Code σ ι)
  /-- A frame of other foreign code. -/
  | frame (body : Code σ ι) (next : Bool → Code σ ι)

variable {σ ι : Type}

/-- A revert drops the error. -/
theorem ok_of_toOption {ε α : Type} {result : Except ε α} {a : α} (h : result.toOption = some a) :
    result = .ok a := by
  cases result with
  | error _ => cases h
  | ok b => exact congrArg Except.ok (Option.some.inj h)

/-- Run foreign code: the returned value with the state after it, or `none` if it reverts. -/
def exec (handle : ι → σ → Option σ) : Code σ ι → σ → Option (Bool × σ)
  | .ret value, s => some (value, s)
  | .revert, _ => none
  | .look next, s => exec handle (next s) s
  | .call c next, s =>
      match handle c s with
      | some s' => exec handle (next true) s'
      | none => exec handle (next false) s
  | .frame body next, s =>
      match exec handle body s with
      | some (_, s') => exec handle (next true) s'
      | none => exec handle (next false) s

/-- The calls of contracts, up to a depth of the call stack. -/
def handler (contract : (Code σ ι → σ → Option (Bool × σ)) → ι → σ → Option σ) :
    Nat → ι → σ → Option σ
  | 0 => fun _ _ => none
  | depth + 1 => contract (exec (handler contract depth))

/-- A transaction: code run at the top, with the depth its gas allows. -/
structure Transaction (σ ι : Type) where
  depth : Nat
  code : Code σ ι

section Run

variable (contract : (Code σ ι → σ → Option (Bool × σ)) → ι → σ → Option σ)

/-- A transaction that reverts leaves the state as it was. -/
def Transaction.apply (t : Transaction σ ι) (s : σ) : σ :=
  match exec (handler contract t.depth) t.code s with
  | some (_, s') => s'
  | none => s

/-- The state after a sequence of transactions. -/
def run (transactions : List (Transaction σ ι)) (s : σ) : σ :=
  transactions.foldl (fun s t => t.apply contract s) s

theorem run_append (before after : List (Transaction σ ι)) (s : σ) :
    run contract (before ++ after) s = run contract after (run contract before s) :=
  List.foldl_append

/-! ## relations kept by calls -/

variable {contract} {R : σ → σ → Prop}

/-- Foreign code keeps what its calls keep. -/
theorem exec_rel (hrefl : ∀ s, R s s) (htrans : ∀ s s' s'', R s s' → R s' s'' → R s s'')
    {handle : ι → σ → Option σ} (hhandle : ∀ c s s', handle c s = some s' → R s s')
    {code : Code σ ι} {s s' : σ} {value : Bool} (h : exec handle code s = some (value, s')) :
    R s s' := by
  induction code generalizing s s' value with
  | ret _ =>
      simp only [exec, Option.some.injEq, Prod.mk.injEq] at h
      rw [← h.2]
      exact hrefl s
  | revert => simp [exec] at h
  | look next ih => exact ih s h
  | call c next ih =>
      rw [exec] at h
      split at h
      · next s₁ hc => exact htrans _ _ _ (hhandle c s s₁ hc) (ih true h)
      · exact ih false h
  | frame body next ihbody ih =>
      rw [exec] at h
      split at h
      · next _ s₁ hbody => exact htrans _ _ _ (ihbody hbody) (ih true h)
      · exact ih false h

/-- **Rule for re-entrant calls**: a relation that one call keeps, provided the foreign
code it runs keeps it, is kept by calls of any depth. -/
theorem handler_rel (hrefl : ∀ s, R s s) (htrans : ∀ s s' s'', R s s' → R s' s'' → R s s'')
    (hcontract : ∀ callback : Code σ ι → σ → Option (Bool × σ),
      (∀ code s value s', callback code s = some (value, s') → R s s') →
      ∀ c s s', contract callback c s = some s' → R s s')
    (depth : Nat) {c : ι} {s s' : σ} (h : handler contract depth c s = some s') : R s s' := by
  induction depth generalizing c s s' with
  | zero => simp [handler] at h
  | succ depth ih =>
      refine hcontract (exec (handler contract depth)) ?_ c s s' h
      intro code s value s' hexec
      exact exec_rel hrefl htrans (fun c s s' hc => ih hc) hexec

/-- The same for transactions. -/
theorem run_rel (hrefl : ∀ s, R s s) (htrans : ∀ s s' s'', R s s' → R s' s'' → R s s'')
    (hcontract : ∀ callback : Code σ ι → σ → Option (Bool × σ),
      (∀ code s value s', callback code s = some (value, s') → R s s') →
      ∀ c s s', contract callback c s = some s' → R s s')
    (transactions : List (Transaction σ ι)) (s : σ) : R s (run contract transactions s) := by
  induction transactions generalizing s with
  | nil => exact hrefl s
  | cons t rest ih =>
      refine htrans _ _ _ ?_ (ih (t.apply contract s))
      unfold Transaction.apply
      split
      · next value s' h =>
        exact exec_rel hrefl htrans (fun _ _ _ hc => handler_rel hrefl htrans hcontract t.depth hc) h
      · exact hrefl s

/-- **Invariant rule for transactions.** -/
theorem run_invariant {I : σ → Prop}
    (hcontract : ∀ callback : Code σ ι → σ → Option (Bool × σ),
      (∀ code s value s', callback code s = some (value, s') → I s → I s') →
      ∀ c s s', contract callback c s = some s' → I s → I s')
    (transactions : List (Transaction σ ι)) {s : σ} (h : I s) : I (run contract transactions s) :=
  run_rel (R := fun s s' => I s → I s') (fun _ => id) (fun _ _ _ h h' => h' ∘ h) hcontract
    transactions s h

end Run

end Reentrancy
