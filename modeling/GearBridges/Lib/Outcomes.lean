import Mathlib.Data.List.Induction
import Mathlib.Data.Set.Functor

/-!
# Lib.Outcomes

Programs that leave several outcomes open, as sets of outcomes: a circuit with wires the
prover chooses is one.  `Set.monad` composes them; here are the rules to reason about a
composed program by its parts, and the two rules for a loop: an invariant every step keeps holds of
every outcome (`forall_mem_foldlM`), and one every step can keep holds of some outcome
(`exists_mem_foldlM`).
-/

namespace Outcomes

attribute [local instance] Set.monad

variable {α β : Type}

theorem mem_pure {a b : α} : b ∈ (pure a : Set α) ↔ b = a := Iff.rfl

theorem mem_bind {x : Set α} {f : α → Set β} {b : β} : b ∈ x >>= f ↔ ∃ a ∈ x, b ∈ f a := by
  simp only [Set.bind_def, Set.mem_iUnion, exists_prop]

theorem mem_guard_bind {p : Prop} [Decidable p] {f : Unit → Set β} {b : β} :
    b ∈ guard p >>= f ↔ p ∧ b ∈ f () := by
  by_cases h : p
  · rw [guard, if_pos h, pure_bind]
    exact (and_iff_right h).symm
  · rw [guard, if_neg h, mem_bind]
    exact ⟨fun ⟨_, ha, _⟩ => absurd ha (Set.notMem_empty _), fun hp => absurd hp.1 h⟩

/-- In the middle of a composed program. -/
theorem exists_mem_guard {p : Prop} [Decidable p] {q : Unit → Prop} :
    (∃ u ∈ (guard p : Set Unit), q u) ↔ p ∧ q () := by
  by_cases h : p
  · rw [guard, if_pos h]
    exact ⟨fun ⟨_, _, hq⟩ => ⟨h, hq⟩, fun hq => ⟨(), mem_pure.mpr rfl, hq.2⟩⟩
  · rw [guard, if_neg h]
    exact ⟨fun ⟨_, hu, _⟩ => absurd hu (Set.notMem_empty _), fun hp => absurd hp.1 h⟩

/-- At the end of one. -/
theorem mem_guard {p : Prop} [Decidable p] {u : Unit} : u ∈ (guard p : Set Unit) ↔ p := by
  by_cases h : p
  · rw [guard, if_pos h]
    exact ⟨fun _ => h, fun _ => mem_pure.mpr rfl⟩
  · rw [guard, if_neg h]
    exact ⟨fun hu => absurd hu (Set.notMem_empty _), fun hp => absurd hp h⟩

/-- A program with one outcome goes on with it. -/
theorem singleton_bind {a : α} {f : α → Set β} : ({a} : Set α) >>= f = f a := pure_bind a f

theorem mapM_singleton {f : α → Set β} {g : α → β} {l : List α} (h : ∀ x ∈ l, f x = {g x}) :
    l.mapM f = {l.map g} := by
  induction l with
  | nil => exact List.mapM_nil
  | cons x l ih =>
      rw [List.mapM_cons, h x List.mem_cons_self, singleton_bind,
        ih fun y hy => h y (List.mem_cons_of_mem x hy), singleton_bind, List.map_cons]
      rfl

/-! ## loops -/

section
variable {f : β → α → Set β} (inv : List α → β → Prop) {l : List α} {start : β}

/-- What every step keeps, of the elements done so far, holds after the loop. -/
theorem forall_mem_foldlM (hstart : inv [] start)
    (hstep : ∀ done x rest, l = done ++ x :: rest → ∀ s, inv done s → ∀ t ∈ f s x,
      inv (done ++ [x]) t) :
    ∀ t ∈ l.foldlM f start, inv l t := by
  induction l using List.reverseRecOn with
  | nil =>
      intro t ht
      rw [mem_pure.mp ht]
      exact hstart
  | append_singleton l x ih =>
      intro t ht
      rw [List.foldlM_append, mem_bind] at ht
      obtain ⟨s, hs, ht⟩ := ht
      simp only [List.foldlM_cons, List.foldlM_nil, bind_pure] at ht
      refine hstep l x [] rfl s (ih (fun done y rest h => hstep done y (rest ++ [x]) ?_) s hs) t ht
      rw [h, List.append_assoc, List.cons_append]

/-- What every step can keep holds after some run of the loop. -/
theorem exists_mem_foldlM (hstart : inv [] start)
    (hstep : ∀ done x rest, l = done ++ x :: rest → ∀ s, inv done s → ∃ t ∈ f s x,
      inv (done ++ [x]) t) :
    ∃ t ∈ l.foldlM f start, inv l t := by
  induction l using List.reverseRecOn with
  | nil => exact ⟨start, mem_pure.mpr rfl, hstart⟩
  | append_singleton l x ih =>
      obtain ⟨s, hs, hinv⟩ := ih fun done y rest h => hstep done y (rest ++ [x]) (by
        rw [h, List.append_assoc, List.cons_append])
      obtain ⟨t, ht, hinv⟩ := hstep l x [] rfl s hinv
      refine ⟨t, ?_, hinv⟩
      rw [List.foldlM_append, mem_bind]
      refine ⟨s, hs, ?_⟩
      simp only [List.foldlM_cons, List.foldlM_nil, bind_pure]
      exact ht

end


section
variable {f : β → Nat → Set β} (inv : Nat → β → Prop) {n : Nat} {start : β}

theorem range_eq_append {done : List Nat} {x : Nat} {rest : List Nat}
    (h : List.range n = done ++ x :: rest) : x = done.length ∧ x < n := by
  have hlt : done.length < (List.range n).length := by
    rw [h, List.length_append, List.length_cons]
    omega
  have hx : (List.range n)[done.length] = x := by simp [h]
  rw [List.getElem_range] at hx
  rw [List.length_range] at hlt
  exact ⟨hx.symm, hx ▸ hlt⟩

/-- The loop over the numbers below a bound. -/
theorem forall_mem_foldlM_range (hstart : inv 0 start)
    (hstep : ∀ i < n, ∀ s, inv i s → ∀ t ∈ f s i, inv (i + 1) t) :
    ∀ t ∈ (List.range n).foldlM f start, inv n t := by
  have h := forall_mem_foldlM (fun done => inv done.length) (l := List.range n) hstart
    (f := f) fun done x rest hl s hs t ht => by
      obtain ⟨rfl, hx⟩ := range_eq_append hl
      rw [List.length_append]
      exact hstep done.length hx s hs t ht
  rwa [List.length_range] at h

theorem exists_mem_foldlM_range (hstart : inv 0 start)
    (hstep : ∀ i < n, ∀ s, inv i s → ∃ t ∈ f s i, inv (i + 1) t) :
    ∃ t ∈ (List.range n).foldlM f start, inv n t := by
  have h := exists_mem_foldlM (fun done => inv done.length) (l := List.range n) hstart
    (f := f) fun done x rest hl s hs => by
      obtain ⟨rfl, hx⟩ := range_eq_append hl
      rw [List.length_append]
      exact hstep done.length hx s hs
  rwa [List.length_range] at h

/-- The loop that counts down. -/
theorem forall_mem_foldlM_range_reverse (hstart : inv n start)
    (hstep : ∀ i < n, ∀ s, inv (i + 1) s → ∀ t ∈ f s i, inv i t) :
    ∀ t ∈ (List.range n).reverse.foldlM f start, inv 0 t := by
  induction n generalizing start with
  | zero =>
      intro t ht
      rw [mem_pure.mp ht]
      exact hstart
  | succ n ih =>
      intro t ht
      rw [List.range_succ, List.reverse_append, List.reverse_singleton, List.singleton_append,
        List.foldlM_cons, mem_bind] at ht
      obtain ⟨s, hs, ht⟩ := ht
      exact ih (hstep n (Nat.lt_succ_self n) start hstart s hs)
        (fun i hi => hstep i (Nat.lt_succ_of_lt hi)) t ht

theorem exists_mem_foldlM_range_reverse (hstart : inv n start)
    (hstep : ∀ i < n, ∀ s, inv (i + 1) s → ∃ t ∈ f s i, inv i t) :
    ∃ t ∈ (List.range n).reverse.foldlM f start, inv 0 t := by
  induction n generalizing start with
  | zero => exact ⟨start, mem_pure.mpr rfl, hstart⟩
  | succ n ih =>
      obtain ⟨s, hs, hinv⟩ := hstep n (Nat.lt_succ_self n) start hstart
      obtain ⟨t, ht, hinv⟩ := ih hinv fun i hi => hstep i (Nat.lt_succ_of_lt hi)
      refine ⟨t, ?_, hinv⟩
      rw [List.range_succ, List.reverse_append, List.reverse_singleton, List.singleton_append,
        List.foldlM_cons, mem_bind]
      exact ⟨s, hs, ht⟩

end

end Outcomes
