import Mathlib.Data.Option.Basic
import GearBridges.Lib.Goldilocks

/-!
# Lib.Gadgets

Gadgets of circuits over the Goldilocks field as functions of their input targets: the
output targets, or `none` when no assignment meets the constraints.  Each gadget has one
lemma that says when it is satisfiable and what it returns.
-/

namespace Goldilocks

/-! ## constraints -/

section

variable {β : Type} {p : Prop} [Decidable p] {f : Unit → Option β}

theorem guard_bind_of (h : p) : (guard p >>= f : Option β) = f () := by
  simp [guard, h]

theorem guard_bind_of_not (h : ¬ p) : (guard p >>= f : Option β) = none := by
  simp [guard, h]

theorem guard_bind_eq_some {b : β} : (guard p >>= f : Option β) = some b ↔ p ∧ f () = some b := by
  by_cases h : p
  · rw [guard_bind_of h, and_iff_right h]
  · rw [guard_bind_of_not h]
    simp [h]

end

/-! ## decomposition -/

/-- `CircuitBuilder::low_bits`: the lowest bits of a value that has so many bits. -/
def lowBits (x : F) (n bits : Nat) : Option (List Bool) := do
  guard (rangeCheck x bits)
  return (List.range n).map x.val.testBit

theorem lowBits_natCast {x bits : Nat} (hbits : bits ≤ 32) (hx : x < 2 ^ bits) (n : Nat) :
    lowBits (x : F) n bits = some ((List.range n).map x.testBit) := by
  have hx32 : x < 2 ^ 32 := Nat.lt_of_lt_of_le hx (Nat.pow_le_pow_right (by decide) hbits)
  have hv : (x : F).val = x := val_natCast (by unfold modulus; omega)
  have hr : rangeCheck (x : F) bits := by rwa [rangeCheck, hv]
  rw [lowBits, guard_bind_of hr, hv]
  rfl

/-! ## loops -/

/-- A loop whose steps all succeed. -/
theorem mapM_eq_some_map {α β : Type} {f : α → Option β} {g : α → β} {l : List α}
    (h : ∀ x ∈ l, f x = some (g x)) : l.mapM f = some (l.map g) := by
  induction l with
  | nil => rfl
  | cons x l ih =>
      rw [List.mapM_cons, h x List.mem_cons_self, ih fun y hy => h y (List.mem_cons_of_mem _ hy)]
      rfl

/-- Loops with the same steps. -/
theorem mapM_congr {α β : Type} {f g : α → Option β} {l : List α} (h : ∀ x ∈ l, f x = g x) :
    l.mapM f = l.mapM g := by
  induction l with
  | nil => rfl
  | cons x l ih =>
      rw [List.mapM_cons, List.mapM_cons, h x List.mem_cons_self,
        ih fun y hy => h y (List.mem_cons_of_mem _ hy)]

/-- A loop with a step that fails. -/
theorem mapM_eq_none {α β : Type} {f : α → Option β} {l : List α} {x : α} (hx : x ∈ l)
    (h : f x = none) : l.mapM f = none := by
  induction l with
  | nil => cases hx
  | cons y l ih =>
      rw [List.mapM_cons]
      cases hx with
      | head => rw [h]; rfl
      | tail _ hx => rw [ih hx]; cases f y <;> rfl

end Goldilocks
