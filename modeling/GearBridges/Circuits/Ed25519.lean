import Mathlib.Data.Nat.Digits.Lemmas
import GearBridges.Circuits.ProjectivePoint
import GearBridges.Circuits.ScalarMulMt
import GearBridges.Lib.Curve25519

/-!
# Circuits.Ed25519

The curve of `ed25519.rs` and the two fields of `ed25519_base.rs` and `ed25519_scalar.rs`.  Both
fields declare 256 bits, one more than the prime of the base field has and three more than the
order of the group; the constants of the curve still fill the eight limbs.  On this curve each of
the circuits that multiply a point has a solution for the scalars in range and for no others, and
makes the multiple (`windowed_ed25519`, `fixedBase_ed25519`, `mt_ed25519`), as the native code does
(`native_ed25519`).
-/

namespace GearBridges.Plonky2Ed25519

open Goldilocks Outcomes Plonky2U32 Plonky2Ecdsa

attribute [local instance] Set.monad

/-- `Ed25519Base`. -/
def ed25519Base : PrimeField where
  order := Curve25519.p
  bits := 256
  one_lt_order := by decide
  order_lt := by decide

/-- `Ed25519Scalar`, the integers modulo the order of the generator. -/
def ed25519Scalar : PrimeField where
  order := 2 ^ 252 + 27742317777372353535851937790883648493
  bits := 256
  one_lt_order := by decide
  order_lt := by decide

/-- `ED25519_GENERATOR_X`. -/
def generatorX : Nat := 15112221349535400772501151409588531511454012693041857206046113283949847762202

/-- `ED25519_GENERATOR_Y`. -/
def generatorY : Nat := 46316835694926478169428394003475163141307993866256225615783033603165251855960

instance : Fact ed25519Base.order.Prime := ⟨Curve25519.prime_p⟩

theorem contains_generator : Curve25519.edwards.Contains (generatorX : Curve25519.Base) generatorY := by
  have h : ((generatorY * generatorY : Nat) : Curve25519.Base) =
      ((1 + Curve25519.d * (generatorX * generatorX) * (generatorY * generatorY) +
        generatorX * generatorX : Nat) : Curve25519.Base) := Curve25519.natCast_eq (by decide +kernel)
  push_cast at h
  change -1 * (generatorX : Curve25519.Base) ^ 2 + (generatorY : Curve25519.Base) ^ 2 =
    1 + (Curve25519.d : Curve25519.Base) * (generatorX : Curve25519.Base) ^ 2 *
      (generatorY : Curve25519.Base) ^ 2
  linear_combination h

/-- A number of eight limbs and no fewer. -/
theorem length_constantBiguint_eq {v : Nat} (hlow : (2 ^ 32) ^ 7 ≤ v) (hhigh : v < (2 ^ 32) ^ 8) :
    (constantBiguint v).length = 8 := by
  rw [constantBiguint, List.length_map]
  exact Nat.le_antisymm ((Nat.digits_length_le_iff (by decide) _).mpr hhigh)
    ((Nat.lt_digits_length_iff (by decide) _).mpr hlow)

theorem val_a : (Curve25519.edwards.a : Curve25519.Base).val = Curve25519.p - 1 := by
  have h : ((Curve25519.p - 1 : Nat) : Curve25519.Base) = -1 := by
    rw [Nat.cast_sub (by decide), ZMod.natCast_self, zero_sub, Nat.cast_one]
  change (-1 : Curve25519.Base).val = _
  rw [← h, ZMod.val_natCast_of_lt (by decide)]

theorem val_d : (Curve25519.edwards.d : Curve25519.Base).val = Curve25519.d :=
  ZMod.val_natCast_of_lt (by decide)

/-- The coefficients, as `constant_nonnative` lays them out. -/
theorem length_constantNonnative_eq {v : Nat} (hlow : (2 ^ 32) ^ 7 ≤ v) (hhigh : v < Curve25519.p) :
    (constantNonnative ed25519Base v).length = 8 := by
  rw [constantNonnative, show v % ed25519Base.order = v from Nat.mod_eq_of_lt hhigh]
  exact length_constantBiguint_eq hlow (Nat.lt_trans hhigh (by decide))

/-- `Ed25519`. -/
def ed25519 : Curve where
  BaseField := ed25519Base
  ScalarField := ed25519Scalar
  prime := inferInstance
  law := Curve25519.edwards
  generator := ⟨(generatorX : Curve25519.Base), (generatorY : Curve25519.Base), contains_generator⟩
  limbs_le := Nat.le_refl 8
  whole_limbs := rfl
  length_modulus := length_constantBiguint_eq (by decide) (by decide)
  length_a := (congrArg (fun v => (constantNonnative ed25519Base v).length) val_a).trans
    (length_constantNonnative_eq (by decide) (by decide))
  length_d := (congrArg (fun v => (constantNonnative ed25519Base v).length) val_d).trans
    (length_constantNonnative_eq (by decide) (by decide))

/-! ## the generator -/

/-- Coordinates that use all the limbs, as those of a point the code starts a multiplication
from do. -/
theorem isFull_generator : IsFull ed25519 (constantAffinePoint ed25519 ed25519.generator) := by
  have hx : (generatorX : Curve25519.Base).val = generatorX := ZMod.val_natCast_of_lt (by decide)
  have hy : (generatorY : Curve25519.Base).val = generatorY := ZMod.val_natCast_of_lt (by decide)
  constructor
  · change (constantNonnative ed25519Base (generatorX : Curve25519.Base).val).length = 8
    rw [hx]
    exact length_constantNonnative_eq (by decide) (by decide)
  · change (constantNonnative ed25519Base (generatorY : Curve25519.Base).val).length = 8
    rw [hy]
    exact length_constantNonnative_eq (by decide) (by decide)

/-! ## the equation -/

/-- `curve_assert_valid` accepts the reduced coordinates of the points of the curve, and no
others. -/
theorem assertValid_ed25519 {t : AffinePointTarget} (hfull : IsFull ed25519 t)
    (hrange : rangeCheckU32Circuit (t.x ++ t.y)) (hx : value t.x < Curve25519.p)
    (hy : value t.y < Curve25519.p) :
    () ∈ curveAssertValid ed25519 t ↔ ∃ P : ed25519.Point, Canonical t P := by
  have hreducedX : Reduced ed25519.BaseField t.x (value t.x : Nat) :=
    ⟨fun z hz => hrange z (List.mem_append_left _ hz), Nat.le_of_eq hfull.x,
      (ZMod.val_natCast_of_lt hx).symm⟩
  have hreducedY : Reduced ed25519.BaseField t.y (value t.y : Nat) :=
    ⟨fun z hz => hrange z (List.mem_append_right _ hz), Nat.le_of_eq hfull.y,
      (ZMod.val_natCast_of_lt hy).symm⟩
  rw [mem_curveAssertValid hreducedX hreducedY hfull]
  constructor
  · intro h
    exact ⟨⟨_, _, h⟩, hreducedX, hreducedY⟩
  · rintro ⟨P, hP⟩
    have hPx := ZMod.val_injective _ (hreducedX.value.symm.trans hP.x.value)
    have hPy := ZMod.val_injective _ (hreducedY.value.symm.trans hP.y.value)
    rw [hPx, hPy]
    exact P.on_curve

/-- The coordinates of the generator are accepted. -/
theorem assertValid_ed25519_generator :
    () ∈ curveAssertValid ed25519 (fullPoint ed25519.generator) := by
  have hgenerator := canonical_fullPoint ed25519.generator
  refine (assertValid_ed25519 (isFull_fullPoint _) ?_ ?_ ?_).mpr ⟨ed25519.generator, hgenerator⟩
  · intro z hz
    exact (List.mem_append.mp hz).elim (hgenerator.x.range z) (hgenerator.y.range z)
  · rw [hgenerator.x.value]
    exact ZMod.val_lt _
  · rw [hgenerator.y.value]
    exact ZMod.val_lt _

/-! ## multiples -/

section
variable {P start : ed25519.Point} {p : AffinePointTarget} {n : NonNativeTarget}

/-- `curve_scalar_mul_windowed` multiplies by every scalar in range. -/
theorem windowed_ed25519 (hstart : IsFull ed25519 (constantAffinePoint ed25519 start))
    (hP : Represents p P) (hn : n.length = 8) :
    (Complete p P → ((∃ r, r ∈ curveScalarMulWindowed ed25519 start p n) ↔ rangeCheckU32Circuit n)) ∧
      ∀ r ∈ curveScalarMulWindowed ed25519 start p n, Represents r (value n • P) := by
  have hlength : 8 * n.length = ed25519.ScalarField.bits / windowSize := by
    rw [hn]
    rfl
  refine ⟨fun hcomplete => ⟨?_, fun hrange => ?_⟩, fun r hr => ?_⟩
  · rintro ⟨r, hr⟩
    exact rangeCheck_of_curveScalarMulWindowedPart hr
  · obtain ⟨r, hr, -⟩ := hcomplete.exists_curveScalarMulWindowed hlength hstart hrange
    exact ⟨r, hr⟩
  · exact hP.curveScalarMulWindowed hlength
      (rangeCheck_of_curveScalarMulWindowedPart hr) hr

/-- Five times the generator. -/
theorem windowed_ed25519_five :
    ∃ r ∈ curveScalarMulWindowed ed25519 ed25519.generator (fullPoint ed25519.generator) (biguintOf 8 5),
      Represents r (value (biguintOf 8 5) • ed25519.generator) := by
  have hP := complete_fullPoint ed25519.generator
  have h := windowed_ed25519 isFull_generator hP.canonical.represents (length_biguintOf 8 5)
  obtain ⟨r, hr⟩ := (h.1 hP).mpr (rangeCheck_biguintOf 8 5)
  exact ⟨r, hr, h.2 r hr⟩

/-- `fixed_base_curve_mul_circuit` multiplies by every scalar in range, whatever the point it
starts from. -/
theorem fixedBase_ed25519 (hn : n.length = 8) :
    ((∃ r, r ∈ fixedBaseCurveMulCircuit ed25519 start P n) ↔ rangeCheckU32Circuit n) ∧
      ∀ r ∈ fixedBaseCurveMulCircuit ed25519 start P n, Represents r (value n • P) := by
  refine ⟨⟨?_, fun hrange => ?_⟩, fun r hr => (Represents.fixedBaseCurveMulCircuit hr).2⟩
  · rintro ⟨r, hr⟩
    exact (Represents.fixedBaseCurveMulCircuit hr).1
  · obtain ⟨r, hr, -⟩ := @exists_fixedBaseCurveMulCircuit ed25519 P n start hrange (by rw [hn]; decide)
    exact ⟨r, hr⟩

/-- Five times the generator. -/
theorem fixedBase_ed25519_five :
    ∃ r ∈ fixedBaseCurveMulCircuit ed25519 0 ed25519.generator (biguintOf 8 5),
      Represents r (value (biguintOf 8 5) • ed25519.generator) := by
  have h := @fixedBase_ed25519 ed25519.generator 0 (biguintOf 8 5) (length_biguintOf 8 5)
  obtain ⟨r, hr⟩ := h.1.mpr (rangeCheck_biguintOf 8 5)
  exact ⟨r, hr, h.2 r hr⟩

/-- The two proofs of `build_curve_scalar_mul_windowed_mt_circuit` multiply by every scalar in
range. -/
theorem mt_ed25519 {verifyProof : Set (List F)} (hsound : VerifierSound ed25519 start verifyProof)
    (hstart : IsFull ed25519 (constantAffinePoint ed25519 start)) (hP : Represents p P)
    (hn : n.length = 8) :
    (VerifierComplete ed25519 start verifyProof → Complete p P →
      ((∃ q, (⟨p, n, q⟩ : CurveScalarMulMtTarget) ∈ mtCircuit ed25519 verifyProof) ↔
        rangeCheckU32Circuit n)) ∧
      ∀ q, (⟨p, n, q⟩ : CurveScalarMulMtTarget) ∈ mtCircuit ed25519 verifyProof →
        Represents q (value n • P) := by
  refine ⟨fun hcomplete hfull => ⟨?_, fun hrange => ?_⟩,
    fun q hq => (Represents.mtCircuit rfl hsound hq hP).2⟩
  · rintro ⟨q, hq⟩
    exact (Represents.mtCircuit rfl hsound hq hP).1
  · obtain ⟨q, hq, -⟩ := exists_mtCircuit rfl hcomplete hstart hfull hn hrange
    exact ⟨q, hq⟩

/-- Five times the generator, with a verifier that accepts what the inner circuit publishes. -/
theorem mt_ed25519_five : ∃ q,
    (⟨fullPoint ed25519.generator, biguintOf 8 5, q⟩ : CurveScalarMulMtTarget) ∈ mtCircuit ed25519
      {inputs | ∃ t ∈ partCircuit ed25519 ed25519.generator, inputs = t.publicInputs} ∧
    Represents q (value (biguintOf 8 5) • ed25519.generator) := by
  have hP := complete_fullPoint ed25519.generator
  have h := mt_ed25519 (fun _ hinputs => hinputs) isFull_generator hP.canonical.represents
    (length_biguintOf 8 5)
  obtain ⟨q, hq⟩ := (h.1 (fun t ht => ⟨t, ht, rfl⟩) hP).mpr (rangeCheck_biguintOf 8 5)
  exact ⟨q, hq, h.2 q hq⟩

end

/-- The native multiplication, of affine coordinates and back, is the multiple by the residue of
the scalar. -/
theorem native_ed25519 (P : ed25519.Point) (scalar : Nat) :
    (ProjectivePoint.mul scalar (ProjectivePoint.ofAffine P)).toAffine =
      (((scalar % ed25519Scalar.order) • P).x, ((scalar % ed25519Scalar.order) • P).y) :=
  ((ProjectivePoint.stands_ofAffine P).mul ⟨4, rfl⟩ scalar).toAffine

end GearBridges.Plonky2Ed25519
