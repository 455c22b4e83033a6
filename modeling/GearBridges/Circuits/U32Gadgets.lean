import Mathlib.Algebra.BigOperators.Group.List.Basic
import Mathlib.Data.Set.Functor
import GearBridges.Circuits.U32Gates

/-!
# Circuits.U32Gadgets

The 32-bit gadgets of `plonky2_u32` on numbers: each leaves exactly one pair of outputs, the
low and the high part of the result.  Constants are folded while the circuit is built, with
the same outputs.
-/

namespace GearBridges.Plonky2U32

open Goldilocks

/-- `mul_u32`. -/
def mulU32 (a b : F) : Set (F × F) := mulAddU32 a b 0

/-- `add_many_u32`. -/
def addManyU32 (toAdd : List F) : Set (F × F) :=
  match toAdd with
  | [] => {(0, 0)}
  | [a] => {(a, 0)}
  | [a, b] => addU32 a b
  | _ => addManyOutputs toAdd 0

/-- `range_check_u32_circuit`: the limbs the gate has a row for. -/
def rangeCheckU32Circuit (vals : List F) : Prop := ∀ x ∈ vals, rangeCheck x 32

instance (vals : List F) : Decidable (rangeCheckU32Circuit vals) :=
  inferInstanceAs (Decidable (∀ x ∈ vals, rangeCheck x 32))

/-- The row of `range_check_u32_circuit` exists for limbs in range only. -/
theorem rangeCheckU32Circuit_iff (vals : List F) :
    rangeCheckU32Circuit vals ↔ ∃ localWires : Nat → F,
      AllZero ((U32RangeCheckGate.mk vals.length).evalUnfiltered localWires) ∧
        ∀ i < vals.length, localWires (U32RangeCheckGate.wireIthInputLimb i) = vals.getD i 0 := by
  rw [(U32RangeCheckGate.mk vals.length).exists_rangeCheck_row_iff]
  constructor
  · intro h i hi
    rw [List.getD_eq_getElem _ _ hi]
    exact h _ (List.getElem_mem hi)
  · intro h x hx
    obtain ⟨i, hi, rfl⟩ := List.mem_iff_getElem.mp hx
    have := h i hi
    rwa [List.getD_eq_getElem _ _ hi] at this

/-! ## the outputs on numbers -/

/-- The halves of a number below the modulus. -/
theorem halves_iff {s : Nat} (hs : s < modulus) {r : F × F} (hr : r.2.val * 2 ^ 32 + r.1.val < modulus)
    (hlow : r.1.val < 2 ^ 32) :
    r.2 * 2 ^ 32 + r.1 = (s : F) ↔ r = (((s % 2 ^ 32 : Nat) : F), ((s / 2 ^ 32 : Nat) : F)) := by
  rw [halves_eq_natCast_iff hs hr, Prod.ext_iff, eq_natCast_iff (Nat.lt_of_le_of_lt (Nat.mod_le _ _) hs),
    eq_natCast_iff (Nat.lt_of_le_of_lt (Nat.div_le_self _ _) hs)]
  omega

theorem val_halves {s : Nat} (hs : s < modulus) :
    ((s % 2 ^ 32 : Nat) : F).val = s % 2 ^ 32 ∧ ((s / 2 ^ 32 : Nat) : F).val = s / 2 ^ 32 :=
  ⟨val_natCast (Nat.lt_of_le_of_lt (Nat.mod_le _ _) hs),
    val_natCast (Nat.lt_of_le_of_lt (Nat.div_le_self _ _) hs)⟩

/-- The outputs of `mul_add_u32` are the halves of a canonical value. -/
theorem mulAddU32_eq_of_lt {x y z : F} {s : Nat} (h : x * y + z = (s : F)) (hs : s < modulus) :
    mulAddU32 x y z = {(((s % 2 ^ 32 : Nat) : F), ((s / 2 ^ 32 : Nat) : F))} := by
  have hmodulus : modulus = 18446744069414584321 := rfl
  ext r
  rw [mulAddU32, Set.mem_ofPred_eq, Set.mem_singleton_iff, h]
  constructor
  · rintro ⟨hlow, hhigh, ⟨inverse, hinverse⟩, heq⟩
    exact (halves_iff hs (lt_modulus_of_canonical hlow hhigh hinverse) hlow).mp heq
  · rintro rfl
    obtain ⟨h1, h2⟩ := val_halves hs
    refine ⟨?_, ?_, ⟨_, U32ArithmeticGate.canonical_inverse hs⟩, ?_⟩
    · rw [rangeCheck, h1]
      exact Nat.mod_lt _ (by decide)
    · rw [rangeCheck, h2]
      omega
    · rw [halves_iff hs (by rw [h1, h2]; omega) (by rw [h1]; exact Nat.mod_lt _ (by decide))]

theorem mulU32_natCast {a b : Nat} (ha : a < 2 ^ 32) (hb : b < 2 ^ 32) :
    mulU32 (a : F) (b : F) =
      {(((a * b % 2 ^ 32 : Nat) : F), ((a * b / 2 ^ 32 : Nat) : F))} := by
  apply mulAddU32_eq_of_lt
  · rw [add_zero, Nat.cast_mul]
  · have hmul : a * b ≤ (2 ^ 32 - 1) * (2 ^ 32 - 1) := Nat.mul_le_mul (by omega) (by omega)
    exact Nat.lt_of_le_of_lt hmul (by decide)

theorem foldl_add_natCast (l : List Nat) :
    (l.map fun n => ((n : Nat) : F)).foldl (· + ·) 0 = ((l.sum : Nat) : F) := by
  rw [← List.sum_eq_foldl, Nat.cast_list_sum]

/-- The outputs of a sum: those with a carry that fits four bits. -/
theorem mem_addManyOutputs {l : List Nat} {c : Nat} (hs : l.sum + c < modulus) {r : F × F} :
    r ∈ addManyOutputs (l.map fun n => ((n : Nat) : F)) (c : F) ↔ l.sum + c < 2 ^ 36 ∧
      r = ((((l.sum + c) % 2 ^ 32 : Nat) : F), (((l.sum + c) / 2 ^ 32 : Nat) : F)) := by
  have hmodulus : modulus = 18446744069414584321 := rfl
  rw [addManyOutputs, Set.mem_ofPred_eq, foldl_add_natCast, ← Nat.cast_add]
  constructor
  · rintro ⟨hlow, hhigh, heq⟩
    unfold rangeCheck at hlow hhigh
    have hr := (halves_iff hs (by omega) hlow).mp heq
    rw [hr, (val_halves hs).2] at hhigh
    exact ⟨by omega, hr⟩
  · rintro ⟨hfit, rfl⟩
    obtain ⟨h1, h2⟩ := val_halves hs
    refine ⟨?_, ?_, ?_⟩
    · rw [rangeCheck, h1]
      exact Nat.mod_lt _ (by decide)
    · rw [rangeCheck, h2]
      omega
    · rw [halves_iff hs (by rw [h1, h2]; omega) (by rw [h1]; exact Nat.mod_lt _ (by decide))]

/-- `add_u32s_with_carry` of 32-bit numbers. -/
theorem mem_addU32sWithCarry {l : List Nat} {c : Nat} (hl : ∀ n ∈ l, n < 2 ^ 32) (hc : c < 2 ^ 32)
    (hs : l.sum + c < modulus) {r : F × F} :
    r ∈ addU32sWithCarry (l.map fun n => ((n : Nat) : F)) (c : F) ↔ l.sum + c < 2 ^ 36 ∧
      r = ((((l.sum + c) % 2 ^ 32 : Nat) : F), (((l.sum + c) / 2 ^ 32 : Nat) : F)) := by
  rcases l with _ | ⟨a, _ | ⟨b, l⟩⟩
  · exact mem_addManyOutputs hs
  · have ha := hl a List.mem_cons_self
    rw [List.sum_singleton, List.map_singleton, addU32sWithCarry, addU32_natCast ha hc,
      Set.mem_singleton_iff]
    exact (and_iff_right (by omega)).symm
  · exact mem_addManyOutputs hs

/-- `add_many_u32` of a carry and two limbs. -/
theorem addManyU32_natCast {a b c : Nat} (ha : a < 2 ^ 32) (hb : b < 2 ^ 32) (hc : c < 2 ^ 32) :
    addManyU32 [(c : F), (a : F), (b : F)] =
      {((((a + b + c) % 2 ^ 32 : Nat) : F), (((a + b + c) / 2 ^ 32 : Nat) : F))} := by
  have hsum : [c, a, b].sum = a + b + c := by
    simp only [List.sum_cons, List.sum_nil]
    omega
  have hmodulus : modulus = 18446744069414584321 := rfl
  ext r
  have h := mem_addManyOutputs (l := [c, a, b]) (c := 0) (r := r) (by omega)
  rw [Nat.cast_zero, Nat.add_zero, hsum, and_iff_right (by omega)] at h
  exact h

/-- `sub_u32` of 32-bit numbers and a borrow. -/
theorem subU32_natCast {x y b : Nat} (hx : x < 2 ^ 32) (hy : y < 2 ^ 32) (hb : b ≤ 1) :
    subU32 (x : F) (y : F) (b : F) =
      {((U32SubtractionGate.wrappingDiff x y b : F), if x < y + b then 1 else 0)} := by
  have hmodulus : modulus = 18446744069414584321 := rfl
  have : Fact modulus.Prime := ⟨prime_modulus⟩
  have hdiff := U32SubtractionGate.wrappingDiff_lt (y := y) (b := b) hx
  obtain ⟨hvalue, hborrow⟩ := U32SubtractionGate.generated_difference hx hy hb
  simp only [hborrow] at hvalue
  ext r
  rw [subU32, Set.mem_ofPred_eq, Set.mem_singleton_iff]
  constructor
  · rintro ⟨hlow, hbit, heq⟩
    unfold rangeCheck at hlow
    have hbit : r.2 = 0 ∨ r.2 = 1 := by
      rcases mul_eq_zero.mp hbit with h | h
      · exact Or.inl h
      · exact Or.inr (sub_eq_zero.mp h).symm
    have hr2 : r.2 = if x < y + b then 1 else 0 := by
      rcases hbit with h0 | h1
      · rw [h0, mul_zero, add_zero] at heq
        rw [heq] at hlow
        rw [h0, if_neg fun h => absurd (hborrow.mpr h) (by omega)]
      · by_cases h : x < y + b
        · rw [h1, if_pos h]
        · -- a borrow that is not needed leaves the difference above 32 bits
          have hsum := U32SubtractionGate.natCast_sub_sub (n := 2 ^ 32) (x := x) (y := y) (b := b)
            (by omega)
          rw [h1, mul_one] at heq
          have hbig : r.1 = ((2 ^ 32 + x - y - b : Nat) : F) := by
            rw [heq, hsum]
            push_cast
            ring
          rw [hbig, val_natCast (by omega)] at hlow
          omega
    refine Prod.ext ?_ hr2
    rw [heq, hr2, hvalue]
  · rintro rfl
    refine ⟨?_, ?_, hvalue.symm⟩
    · rw [rangeCheck, val_natCast (by omega)]
      exact hdiff
    · simp only
      split
      · rw [sub_self, mul_zero]
      · rw [zero_mul]

end GearBridges.Plonky2U32
