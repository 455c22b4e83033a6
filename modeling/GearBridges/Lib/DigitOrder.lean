import Mathlib.Data.Nat.Digits.Defs
import Mathlib.Data.Int.Order.Basic

/-!
# Lib.DigitOrder

The order of numbers by their digits, lowest first: the highest digits that differ decide
(`ofDigits_concat_le_iff`), and their difference has the sign of the difference of the
numbers (`topDiff_nonneg_iff`).
-/

namespace DigitOrder

/-- The number with the digits `f 0, …, f (n - 1)`. -/
def valueBelow (b : Nat) (f : Nat → Nat) (n : Nat) : Nat := Nat.ofDigits b ((List.range n).map f)

theorem valueBelow_succ (b : Nat) (f : Nat → Nat) (n : Nat) :
    valueBelow b f (n + 1) = valueBelow b f n + b ^ n * f n := by
  rw [valueBelow, List.range_succ, List.map_append, List.map_singleton, Nat.ofDigits_append,
    List.length_map, List.length_range, Nat.ofDigits_singleton, valueBelow]

theorem valueBelow_lt {b : Nat} (hb : 1 < b) {f : Nat → Nat} {n : Nat} (hf : ∀ i < n, f i < b) :
    valueBelow b f n < b ^ n := by
  have h := Nat.ofDigits_lt_base_pow_length (l := (List.range n).map f) hb (by
    intro d hd
    obtain ⟨i, hi, rfl⟩ := List.mem_map.mp hd
    exact hf i (List.mem_range.mp hi))
  rwa [List.length_map, List.length_range] at h

/-- A higher digit outweighs the lower ones. -/
theorem add_mul_le_add_mul_iff {p x y d e : Nat} (hx : x < p) (hy : y < p) :
    x + p * d ≤ y + p * e ↔ d < e ∨ d = e ∧ x ≤ y := by
  rcases Nat.lt_trichotomy d e with h | h | h
  · have hmul : p * d + p ≤ p * e := by
      rw [← Nat.mul_succ]
      exact Nat.mul_le_mul_left p h
    constructor
    · intro _
      exact Or.inl h
    · intro _
      omega
  · subst h
    constructor
    · intro hle
      exact Or.inr ⟨rfl, Nat.le_of_add_le_add_right hle⟩
    · rintro (hlt | ⟨-, hle⟩)
      · exact absurd hlt (Nat.lt_irrefl d)
      · exact Nat.add_le_add_right hle _
  · have hmul : p * e + p ≤ p * d := by
      rw [← Nat.mul_succ]
      exact Nat.mul_le_mul_left p h
    constructor
    · intro hle
      omega
    · rintro (hlt | ⟨heq, -⟩)
      · exact absurd hlt (Nat.lt_asymm h)
      · exact absurd heq (Nat.ne_of_gt h)

section
variable {b : Nat} {f g : Nat → Nat}

/-- The order by the highest digit, and by the lower ones where that is the same. -/
theorem valueBelow_succ_le_iff (hb : 1 < b) {n : Nat} (hf : ∀ i < n, f i < b) (hg : ∀ i < n, g i < b) :
    valueBelow b f (n + 1) ≤ valueBelow b g (n + 1) ↔
      f n < g n ∨ f n = g n ∧ valueBelow b f n ≤ valueBelow b g n := by
  rw [valueBelow_succ, valueBelow_succ]
  exact add_mul_le_add_mul_iff (valueBelow_lt hb hf) (valueBelow_lt hb hg)

/-- The difference of the highest digits that differ. -/
def topDiff (f g : Nat → Nat) : Nat → Int
  | 0 => 0
  | n + 1 => if f n = g n then topDiff f g n else (g n : Int) - f n

theorem topDiff_lt {n : Nat} (hpos : 0 < b) (hf : ∀ i < n, f i < b) (hg : ∀ i < n, g i < b) :
    -(b : Int) < topDiff f g n ∧ topDiff f g n < b := by
  induction n with
  | zero =>
      rw [topDiff]
      omega
  | succ n ih =>
      have hfn := hf n (Nat.lt_succ_self n)
      have hgn := hg n (Nat.lt_succ_self n)
      rw [topDiff]
      split
      · exact ih (fun i hi => hf i (by omega)) fun i hi => hg i (by omega)
      · omega

theorem topDiff_nonneg_iff (hb : 1 < b) {n : Nat} (hf : ∀ i < n, f i < b) (hg : ∀ i < n, g i < b) :
    0 ≤ topDiff f g n ↔ valueBelow b f n ≤ valueBelow b g n := by
  induction n with
  | zero => exact ⟨fun _ => Nat.le_refl _, fun _ => Int.le_refl 0⟩
  | succ n ih =>
      have hf' : ∀ i < n, f i < b := fun i hi => hf i (by omega)
      have hg' : ∀ i < n, g i < b := fun i hi => hg i (by omega)
      rw [topDiff, valueBelow_succ_le_iff hb hf' hg', ← ih hf' hg']
      split
      · next h =>
          rw [h]
          exact ⟨fun hle => Or.inr ⟨rfl, hle⟩, fun hor => hor.elim
            (fun hlt => absurd hlt (Nat.lt_irrefl _)) And.right⟩
      · next h => omega

end

end DigitOrder
