import GearBridges.Circuits.NonNative

/-!
# Circuits.NonNativeResidues

The gadgets of `Circuits.NonNative` compute with residues.  What their rows accept stands for
the sum, the difference, the product or the inverse (`Stands.add` and its kin), and the reduced
representative of it is accepted (`Reduced.add_mem` and its kin).
-/

namespace GearBridges.Plonky2Ed25519

open Goldilocks Outcomes Plonky2U32 Plonky2Ecdsa

attribute [local instance] Set.monad

variable {ff : PrimeField}

instance : NeZero ff.order := ⟨Nat.ne_of_gt (Nat.lt_trans Nat.zero_lt_one ff.one_lt_order)⟩

/-- Limbs that stand for a residue. -/
structure Stands (ff : PrimeField) (a : NonNativeTarget) (z : ZMod ff.order) : Prop where
  range : rangeCheckU32Circuit a
  length : a.length ≤ ff.numLimbs
  residue : (value a : ZMod ff.order) = z

/-- Limbs of the canonical representative. -/
structure Reduced (ff : PrimeField) (a : NonNativeTarget) (z : ZMod ff.order) : Prop where
  range : rangeCheckU32Circuit a
  length : a.length ≤ ff.numLimbs
  value : value a = z.val

theorem Reduced.stands {a : NonNativeTarget} {z : ZMod ff.order} (h : Reduced ff a z) : Stands ff a z :=
  ⟨h.range, h.length, by rw [h.value, ZMod.natCast_zmod_val]⟩

/-- The canonical representative in all the limbs. -/
def fullLimbs (ff : PrimeField) (z : ZMod ff.order) : NonNativeTarget := biguintOf ff.numLimbs z.val

@[simp] theorem length_fullLimbs (z : ZMod ff.order) : (fullLimbs ff z).length = ff.numLimbs :=
  length_biguintOf _ _

theorem val_lt_pow (z : ZMod ff.order) : z.val < (2 ^ 32) ^ ff.numLimbs :=
  Nat.lt_trans (ZMod.val_lt z) order_lt_pow

theorem value_fullLimbs (z : ZMod ff.order) : value (fullLimbs ff z) = z.val := by
  rw [fullLimbs, value_biguintOf, Nat.mod_eq_of_lt (val_lt_pow z)]

theorem isNonnative_fullLimbs (z : ZMod ff.order) : IsNonnative ff (fullLimbs ff z) :=
  isNonnative_biguintOf _

theorem reduced_fullLimbs (z : ZMod ff.order) : Reduced ff (fullLimbs ff z) z :=
  ⟨rangeCheck_biguintOf _ _, Nat.le_of_eq (length_fullLimbs z), value_fullLimbs z⟩

theorem IsNonnative.stands {r : NonNativeTarget} (h : IsNonnative ff r) {z : ZMod ff.order}
    (hz : (value r : ZMod ff.order) = z) : Stands ff r z :=
  ⟨h.range, Nat.le_of_eq h.length, hz⟩

theorem length_constantBiguint {v : Nat} (h : v < (2 ^ 32) ^ ff.numLimbs) :
    (constantBiguint v).length ≤ ff.numLimbs := by
  rw [constantBiguint, List.length_map]
  exact (Nat.digits_length_le_iff (by decide) _).mpr h

theorem reduced_constantNonnative (v : Nat) :
    Reduced ff (constantNonnative ff v) (v : ZMod ff.order) where
  range := rangeCheck_constantBiguint _
  length := length_constantBiguint (Nat.lt_trans (Nat.mod_lt _ (NeZero.pos _)) order_lt_pow)
  value := by rw [constantNonnative, value_constantBiguint, ZMod.val_natCast]

/-! ## what the rows accept stands for the result -/

section
variable {a b r : NonNativeTarget} {x y : ZMod ff.order}

/-- Representatives that differ by a multiple of the order. -/
theorem natCast_add_mul_order (n k : Nat) : ((n + k * ff.order : Nat) : ZMod ff.order) = n := by
  rw [Nat.cast_add, Nat.cast_mul, ZMod.natCast_self, mul_zero, add_zero]

theorem Stands.add (ha : Stands ff a x) (hb : Stands ff b y) (h : r ∈ addNonnative ff a b) :
    Stands ff r (x + y) := by
  obtain ⟨hr, -, bit, hsum⟩ := (mem_addNonnative ha.range hb.range).mp h
  refine hr.stands ?_
  rw [← ha.residue, ← hb.residue, ← Nat.cast_add, hsum, natCast_add_mul_order]

theorem Stands.sub (ha : Stands ff a x) (hb : Stands ff b y) (h : r ∈ subNonnative ff a b) :
    Stands ff r (x - y) := by
  obtain ⟨hr, bit, hdiff⟩ := (mem_subNonnative ha.range hb.range ha.length).mp h
  refine hr.stands ?_
  rw [eq_sub_iff_add_eq, ← ha.residue, ← hb.residue, ← Nat.cast_add, ← hdiff, natCast_add_mul_order]

theorem Stands.neg (ha : Stands ff a x) (h : r ∈ negNonnative ff a) : Stands ff r (-x) := by
  have hzero : Stands ff (constantBiguint 0) 0 :=
    ⟨rangeCheck_constantBiguint 0, Nat.zero_le _, by rw [value_constantBiguint, Nat.cast_zero]⟩
  rw [← zero_sub]
  exact hzero.sub ha h

variable (hlimbs : ff.numLimbs ≤ 8)
include hlimbs

theorem Stands.mul (ha : Stands ff a x) (hb : Stands ff b y) (h : r ∈ mulNonnative ff a b) :
    Stands ff r (x * y) := by
  have hlength : min a.length b.length ≤ 8 := by
    have := ha.length
    omega
  obtain ⟨hr, q, -, hproduct⟩ := ((mem_mulNonnative ha.range hb.range hlength hlimbs).mp h).2
  refine hr.stands ?_
  rw [← ha.residue, ← hb.residue, ← Nat.cast_mul, hproduct, Nat.mul_comm, natCast_add_mul_order]

theorem Stands.inv (ha : Stands ff a x) (h : r ∈ invNonnative ff a) :
    ∃ z, Stands ff r z ∧ x * z = 1 := by
  obtain ⟨⟨hlength, hrange⟩, q, -, hproduct⟩ :=
    (mem_invNonnative ha.range (Nat.le_trans ha.length hlimbs) hlimbs).mp h
  refine ⟨(value r : ZMod ff.order), ⟨hrange, hlength ▸ ha.length, rfl⟩, ?_⟩
  rw [← ha.residue, ← Nat.cast_mul, hproduct, Nat.add_comm, Nat.mul_comm, natCast_add_mul_order,
    Nat.cast_one]

end

/-! ## the reduced result is accepted -/

section
variable {a b : NonNativeTarget} {x y : ZMod ff.order}

theorem exists_carry (x y : ZMod ff.order) :
    ∃ bit : Bool, x.val + y.val = (x + y).val + bit.toNat * ff.order := by
  have hx := ZMod.val_lt x
  have hy := ZMod.val_lt y
  rw [ZMod.val_add]
  by_cases h : ff.order ≤ x.val + y.val
  · refine ⟨true, ?_⟩
    rw [Nat.mod_eq_sub_mod h, Nat.mod_eq_of_lt (by omega), Bool.toNat_true]
    omega
  · refine ⟨false, ?_⟩
    rw [Nat.mod_eq_of_lt (by omega), Bool.toNat_false]
    omega

theorem Reduced.add_mem (ha : Reduced ff a x) (hb : Reduced ff b y) :
    fullLimbs ff (x + y) ∈ addNonnative ff a b := by
  rw [mem_addNonnative ha.range hb.range, value_fullLimbs, ha.value, hb.value]
  exact ⟨isNonnative_fullLimbs _, Nat.le_of_lt (ZMod.val_lt _), exists_carry x y⟩

theorem Reduced.sub_mem (ha : Reduced ff a x) (hb : Reduced ff b y) :
    fullLimbs ff (x - y) ∈ subNonnative ff a b := by
  obtain ⟨bit, hdiff⟩ := exists_carry (x - y) y
  rw [sub_add_cancel] at hdiff
  rw [mem_subNonnative ha.range hb.range ha.length, value_fullLimbs, ha.value, hb.value]
  exact ⟨isNonnative_fullLimbs _, bit, hdiff.symm⟩

theorem Reduced.neg_mem (ha : Reduced ff a x) : fullLimbs ff (-x) ∈ negNonnative ff a := by
  have hzero : Reduced ff (constantBiguint 0) 0 :=
    ⟨rangeCheck_constantBiguint 0, Nat.zero_le _, by rw [value_constantBiguint, ZMod.val_zero]⟩
  rw [← zero_sub]
  exact hzero.sub_mem ha

/-- A quotient by the order is no larger than either of two reduced factors. -/
theorem quotient_lt {n m : Nat} (hx : n < ff.order) {p : Nat} (hp : m < p) :
    n * m / ff.order < p :=
  Nat.lt_of_le_of_lt (Nat.div_le_of_le_mul (Nat.mul_le_mul_right m (Nat.le_of_lt hx))) hp

variable (hlimbs : ff.numLimbs ≤ 8)

section
variable (horder : ff.modulus.length = ff.numLimbs)
include hlimbs horder

theorem Reduced.mul_mem (ha : Reduced ff a x) (hb : Reduced ff b y)
    (hfull : a.length = ff.numLimbs ∨ b.length = ff.numLimbs) :
    fullLimbs ff (x * y) ∈ mulNonnative ff a b := by
  have hlength : min a.length b.length ≤ 8 := by
    have := ha.length
    omega
  rw [mem_mulNonnative ha.range hb.range hlength hlimbs, value_fullLimbs, ha.value, hb.value,
    ZMod.val_mul]
  refine ⟨by omega, isNonnative_fullLimbs _, x.val * y.val / ff.order, ?_,
    (Nat.mod_add_div _ _).symm⟩
  rw [overflowLimbs, horder]
  rcases hfull with hfull | hfull
  · rw [hfull, Nat.add_sub_cancel_left]
    exact quotient_lt (ZMod.val_lt x) (hb.value ▸ value_lt hb.range)
  · rw [hfull, Nat.add_sub_cancel, Nat.mul_comm]
    exact quotient_lt (ZMod.val_lt y) (ha.value ▸ value_lt ha.range)

end

include hlimbs in
theorem Reduced.inv_mem (ha : Reduced ff a x) (hfull : a.length = ff.numLimbs)
    (h : x * y = 1) : fullLimbs ff y ∈ invNonnative ff a := by
  rw [mem_invNonnative ha.range (Nat.le_trans ha.length hlimbs) hlimbs, value_fullLimbs, ha.value, hfull]
  refine ⟨⟨length_fullLimbs y, rangeCheck_biguintOf _ _⟩, x.val * y.val / ff.order,
    quotient_lt (ZMod.val_lt x) (val_lt_pow y), ?_⟩
  have hone : x.val * y.val % ff.order = 1 := by
    rw [← ZMod.val_mul, h, ZMod.val_one'' (Nat.ne_of_gt ff.one_lt_order)]
  rw [← hone, Nat.div_add_mod]

end

/-! ## choices by a bit -/

section
variable {a b r : NonNativeTarget} {x y : ZMod ff.order} {bit : Bool}

theorem Stands.mulByBool (ha : Stands ff a x) :
    Stands ff (mulNonnativeByBool a (bit.toNat : F)) (if bit then x else 0) where
  range := rangeCheck_mulBiguintByBool ha.range bit
  length := by
    rw [mulNonnativeByBool, length_mulBiguintByBool]
    exact ha.length
  residue := by
    rw [mulNonnativeByBool, value_mulBiguintByBool, Nat.cast_mul, ha.residue]
    cases bit <;> simp

theorem Reduced.mulByBool (ha : Reduced ff a x) :
    Reduced ff (mulNonnativeByBool a (bit.toNat : F)) (if bit then x else 0) where
  range := rangeCheck_mulBiguintByBool ha.range bit
  length := by
    rw [mulNonnativeByBool, length_mulBiguintByBool]
    exact ha.length
  value := by
    rw [mulNonnativeByBool, value_mulBiguintByBool, ha.value]
    cases bit <;> simp

theorem ite_add_ite_not (x y : ZMod ff.order) :
    ((if bit then x else 0) + if !bit then y else 0) = if bit then x else y := by
  cases bit <;> simp

end

end GearBridges.Plonky2Ed25519
