import Mathlib.Data.Set.Defs
import GearBridges.Lib.Goldilocks

/-!
# Circuits.ArithmeticU32

The 32-bit adders of `plonky2_u32` as relations: the outputs that some assignment of the
internal wires of the gate meets the constraints with.  The two-bit limbs of an output
are its range check.  On 32-bit inputs the constraints leave one pair of outputs.
-/

namespace GearBridges.Plonky2U32

open Goldilocks

/-- `mul_add_u32`, the constraints of `U32ArithmeticGate`: low and high half of
`x * y + z`.  Constant inputs are added while the circuit is built, with the same halves. -/
def mulAddU32 (x y z : F) : Set (F × F) :=
  {r | rangeCheck r.1 32 ∧ rangeCheck r.2 32 ∧
    (∃ inverse : F, (inverse * ((2 ^ 32 - 1 : F) - r.2) - 1) * r.1 = 0) ∧
    r.2 * 2 ^ 32 + r.1 = x * y + z}

/-- `add_u32`. -/
def addU32 (a b : F) : Set (F × F) := mulAddU32 a 1 b

/-- `add_u32s_with_carry`, the constraints of `U32AddManyGate`. -/
def addU32sWithCarry (toAdd : List F) (carry : F) : Set (F × F) :=
  match toAdd with
  | [a] => addU32 a carry
  | _ => {r | rangeCheck r.1 32 ∧ rangeCheck r.2 4 ∧
      r.2 * 2 ^ 32 + r.1 = toAdd.foldl (· + ·) 0 + carry}

/-! ## the outputs are the sum -/

/-- A number by its halves. -/
theorem halves_eq_natCast_iff {low high : F} {s : Nat} (hs : s < modulus)
    (h : high.val * 2 ^ 32 + low.val < modulus) :
    high * 2 ^ 32 + low = (s : F) ↔ high.val * 2 ^ 32 + low.val = s := by
  have hcast : high * 2 ^ 32 + low = ((high.val * 2 ^ 32 + low.val : Nat) : F) := by
    rw [Nat.cast_add, Nat.cast_mul, Nat.cast_pow, Nat.cast_ofNat, ZMod.natCast_zmod_val,
      ZMod.natCast_zmod_val]
  rw [hcast, natCast_inj h hs]

theorem eq_natCast_iff {x : F} {n : Nat} (hn : n < modulus) : x = (n : F) ↔ x.val = n := by
  constructor
  · intro h
    rw [h, val_natCast hn]
  · intro h
    rw [← h, ZMod.natCast_zmod_val]

theorem natCast_u32Max : ((2 ^ 32 - 1 : Nat) : F) = 2 ^ 32 - 1 := by
  rw [Nat.cast_sub (by decide), Nat.cast_pow, Nat.cast_ofNat, Nat.cast_one]

/-- The canonicity check leaves out the halves of a number above the modulus. -/
theorem lt_modulus_of_canonical {low high : F} (hlow : rangeCheck low 32) (hhigh : rangeCheck high 32)
    {inverse : F} (h : (inverse * ((2 ^ 32 - 1 : F) - high) - 1) * low = 0) :
    high.val * 2 ^ 32 + low.val < modulus := by
  unfold rangeCheck at hlow hhigh
  by_cases hmax : high.val = 2 ^ 32 - 1
  · have heq : high = (2 ^ 32 - 1 : F) := by
      rw [← ZMod.natCast_zmod_val high, hmax, natCast_u32Max]
    rw [heq, sub_self, mul_zero, zero_sub, neg_one_mul, neg_eq_zero] at h
    rw [h, ZMod.val_zero, hmax]
    decide
  · have : modulus = 18446744069414584321 := rfl
    omega

/-- The halves of a sum of two 32-bit numbers pass it. -/
theorem exists_canonical {high : F} (h : high.val ≤ 1) (low : F) :
    ∃ inverse : F, (inverse * ((2 ^ 32 - 1 : F) - high) - 1) * low = 0 := by
  have hunit : IsUnit ((2 ^ 32 - 1 : F) - high) := by
    have hcast : (2 ^ 32 - 1 : F) - high = ((2 ^ 32 - 1 - high.val : Nat) : F) := by
      rw [Nat.cast_sub (by omega), ZMod.natCast_zmod_val, natCast_u32Max]
    rw [hcast, ZMod.isUnit_iff_coprime]
    have hcases : high.val = 0 ∨ high.val = 1 := by omega
    cases hcases with
    | inl h0 => rw [h0]; decide +kernel
    | inr h1 => rw [h1]; decide +kernel
  obtain ⟨inverse, hinverse⟩ := hunit.exists_left_inv
  exact ⟨inverse, by rw [hinverse, sub_self, zero_mul]⟩

theorem mulAddU32_eq {x y z : F} {s : Nat} (h : x * y + z = (s : F)) (hs : s < 2 ^ 33) :
    mulAddU32 x y z = {(((s % 2 ^ 32 : Nat) : F), ((s / 2 ^ 32 : Nat) : F))} := by
  have hmod : s < modulus := by unfold modulus; omega
  ext r
  rw [mulAddU32, Set.mem_ofPred_eq, Set.mem_singleton_iff, h, Prod.ext_iff,
    eq_natCast_iff (x := r.1) (by unfold modulus; omega),
    eq_natCast_iff (x := r.2) (by unfold modulus; omega)]
  constructor
  · rintro ⟨hlow, hhigh, ⟨inverse, hinverse⟩, heq⟩
    have hsum := (halves_eq_natCast_iff hmod (lt_modulus_of_canonical hlow hhigh hinverse)).mp heq
    unfold rangeCheck at hlow
    omega
  · rintro ⟨hlow, hhigh⟩
    have hbound : r.2.val * 2 ^ 32 + r.1.val < modulus := by omega
    unfold rangeCheck
    exact ⟨by omega, by omega, exists_canonical (by omega) r.1,
      (halves_eq_natCast_iff hmod hbound).mpr (by omega)⟩

/-- Sum and carry of two 32-bit numbers. -/
theorem addU32_natCast {a b : Nat} (ha : a < 2 ^ 32) (hb : b < 2 ^ 32) :
    addU32 (a : F) (b : F) =
      {((((a + b) % 2 ^ 32 : Nat) : F), (((a + b) / 2 ^ 32 : Nat) : F))} := by
  apply mulAddU32_eq _ (by omega)
  rw [mul_one, Nat.cast_add]

/-- Sum and carry of two 32-bit numbers and a carry. -/
theorem addU32sWithCarry_natCast {a b c : Nat} (ha : a < 2 ^ 32) (hb : b < 2 ^ 32)
    (hc : c < 2 ^ 32) :
    addU32sWithCarry [(a : F), (b : F)] (c : F) =
      {((((a + b + c) % 2 ^ 32 : Nat) : F), (((a + b + c) / 2 ^ 32 : Nat) : F))} := by
  have hsum : [(a : F), (b : F)].foldl (· + ·) 0 + (c : F) = ((a + b + c : Nat) : F) := by
    rw [List.foldl_cons, List.foldl_cons, List.foldl_nil, zero_add, Nat.cast_add, Nat.cast_add]
  ext r
  rw [addU32sWithCarry, Set.mem_ofPred_eq, Set.mem_singleton_iff, hsum, Prod.ext_iff,
    eq_natCast_iff (x := r.1) (by unfold modulus; omega),
    eq_natCast_iff (x := r.2) (by unfold modulus; omega)]
  · have hmod : a + b + c < modulus := by unfold modulus; omega
    unfold rangeCheck
    constructor
    · rintro ⟨hlow, hhigh, heq⟩
      have : modulus = 18446744069414584321 := rfl
      have hsum := (halves_eq_natCast_iff hmod (by omega)).mp heq
      omega
    · rintro ⟨hlow, hhigh⟩
      exact ⟨by omega, by omega,
        (halves_eq_natCast_iff hmod (by rw [hlow, hhigh]; unfold modulus; omega)).mpr (by omega)⟩
  · intro x h
    cases h

end GearBridges.Plonky2U32
