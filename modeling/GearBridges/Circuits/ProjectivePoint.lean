import Mathlib.Data.List.Iterate
import Mathlib.Data.Nat.Digits.Lemmas
import GearBridges.Circuits.ScalarMul
import GearBridges.Lib.Yao

/-!
# Circuits.ProjectivePoint

The arithmetic of points that `plonky2_ed25519` does outside of its circuits, in projective
coordinates, for the constants that a circuit is built from.  The coordinates stand for a point of
the curve (`Stands`), a sum and a double stand for the sum, without exceptions, and the
multiplication by a scalar for the multiple (`Stands.mul`).
-/

namespace GearBridges.Plonky2Ed25519

open Goldilocks

variable (C : Curve)

@[ext]
structure ProjectivePoint where
  x : ZMod C.BaseField.order
  y : ZMod C.BaseField.order
  z : ZMod C.BaseField.order

namespace ProjectivePoint

variable {C}

def zero : ProjectivePoint C := ⟨0, 1, 1⟩

/-- `AffinePoint::to_projective`. -/
def ofAffine (P : C.Point) : ProjectivePoint C := ⟨P.x, P.y, 1⟩

/-- The coordinates of `to_affine`. -/
def toAffine (p : ProjectivePoint C) : ZMod C.BaseField.order × ZMod C.BaseField.order :=
  (p.x * p.z⁻¹, p.y * p.z⁻¹)

def double (p : ProjectivePoint C) : ProjectivePoint C :=
  let b := (p.x + p.y) ^ 2
  let c := p.x ^ 2
  let d := p.y ^ 2
  let e := c * C.law.a
  let f := e + d
  let h := p.z ^ 2
  let j := f - 2 * h
  ⟨(b - c - d) * j, f * (e - d), f * j⟩

def add (p q : ProjectivePoint C) : ProjectivePoint C :=
  let a := p.z * q.z
  let b := a ^ 2
  let c := p.x * q.x
  let d := p.y * q.y
  let e := C.law.d * (c * d)
  let f := b - e
  let g := b + e
  ⟨a * f * ((p.x + p.y) * (q.x + q.y) - c - d), a * g * (d - C.law.a * c), f * g⟩

def neg (p : ProjectivePoint C) : ProjectivePoint C := ⟨-p.x, p.y, p.z⟩

/-- `PartialEq`. -/
def eq (p q : ProjectivePoint C) : Bool := p.x * q.z == q.x * p.z && p.y * q.z == q.y * p.z

/-! ## multiplication -/

def windowBits : Nat := 4

def base : Nat := 2 ^ windowBits

/-- `digits_per_scalar`. -/
def digitsPerScalar (C : Curve) : Nat := (C.ScalarField.bits + windowBits - 1) / windowBits

/-- `to_digits`, over the digits of a big integer to the base `2 ^ 64`. -/
def toDigits (x : Nat) : List Nat :=
  (Nat.digits (2 ^ 64) x).flatMap fun limb => (List.range (64 / windowBits)).map fun j =>
    (limb >>> (j * windowBits)) % base

/-- `mul_precompute`. -/
def mulPrecompute (p : ProjectivePoint C) : List (ProjectivePoint C) :=
  List.iterate (fun power => double^[windowBits] power) p (digitsPerScalar C)

/-- `mul_with_precomputation`. -/
def mulWithPrecomputation (scalar : Nat) (powers : List (ProjectivePoint C)) : ProjectivePoint C :=
  Yao.yao add zero base (toDigits scalar) powers

/-- `CurveScalar` times a point. -/
def mul (scalar : Nat) (p : ProjectivePoint C) : ProjectivePoint C :=
  mulWithPrecomputation (scalar % C.ScalarField.order) (mulPrecompute p)

/-! ## the points they stand for -/

structure Stands (p : ProjectivePoint C) (P : C.Point) : Prop where
  z_ne_zero : p.z ≠ 0
  x : p.x = P.x * p.z
  y : p.y = P.y * p.z

theorem stands_zero : Stands (zero : ProjectivePoint C) 0 :=
  ⟨one_ne_zero, (zero_mul 1).symm, (one_mul 1).symm⟩

theorem stands_ofAffine (P : C.Point) : Stands (ofAffine P) P :=
  ⟨one_ne_zero, (mul_one _).symm, (mul_one _).symm⟩

section
variable {p q : ProjectivePoint C} {P Q : C.Point}

theorem Stands.toAffine (h : Stands p P) : p.toAffine = (P.x, P.y) := by
  rw [ProjectivePoint.toAffine, h.x, h.y, mul_inv_cancel_right₀ h.z_ne_zero, mul_inv_cancel_right₀ h.z_ne_zero]

theorem Stands.neg (h : Stands p P) : Stands p.neg (-P) :=
  ⟨h.z_ne_zero, by rw [ProjectivePoint.neg, h.x, Edwards.neg_x, neg_mul], h.y⟩

theorem Stands.add (hp : Stands p P) (hq : Stands q Q) : Stands (p.add q) (P + Q) := by
  have hadd := Edwards.one_add_product_ne_zero P Q
  have hsub := Edwards.one_sub_product_ne_zero P Q
  have hz := mul_ne_zero hp.z_ne_zero hq.z_ne_zero
  have hf : (p.z * q.z) ^ 2 - C.law.d * (p.x * q.x * (p.y * q.y)) =
      (p.z * q.z) ^ 2 * (1 - Edwards.product P Q) := by
    rw [hp.x, hp.y, hq.x, hq.y, Edwards.product]
    ring
  have hg : (p.z * q.z) ^ 2 + C.law.d * (p.x * q.x * (p.y * q.y)) =
      (p.z * q.z) ^ 2 * (1 + Edwards.product P Q) := by
    rw [hp.x, hp.y, hq.x, hq.y, Edwards.product]
    ring
  refine ⟨?_, ?_, ?_⟩
  · simp only [ProjectivePoint.add, hf, hg]
    exact mul_ne_zero (mul_ne_zero (pow_ne_zero 2 hz) hsub) (mul_ne_zero (pow_ne_zero 2 hz) hadd)
  · have hx := Edwards.add_x_mul P Q
    rw [Edwards.xNom] at hx
    simp only [ProjectivePoint.add, hf, hg]
    rw [hp.x, hp.y, hq.x, hq.y]
    linear_combination -(p.z * q.z) ^ 4 * (1 - Edwards.product P Q) * hx
  · have hy := Edwards.add_y_mul P Q
    rw [Edwards.yNom] at hy
    simp only [ProjectivePoint.add, hf, hg]
    rw [hp.x, hp.y, hq.x, hq.y]
    linear_combination -(p.z * q.z) ^ 4 * (1 + Edwards.product P Q) * hy

theorem Stands.double (hp : Stands p P) : Stands p.double (P + P) := by
  have hadd := Edwards.one_add_product_ne_zero P P
  have hsub := Edwards.one_sub_product_ne_zero P P
  have hcurve := P.on_curve
  rw [Edwards.Curve.Contains] at hcurve
  have hf : p.x ^ 2 * C.law.a + p.y ^ 2 = p.z ^ 2 * (1 + Edwards.product P P) := by
    rw [hp.x, hp.y, Edwards.product]
    linear_combination p.z ^ 2 * hcurve
  have hj : p.z ^ 2 * (1 + Edwards.product P P) - 2 * p.z ^ 2 =
      -(p.z ^ 2 * (1 - Edwards.product P P)) := by ring
  refine ⟨?_, ?_, ?_⟩
  · simp only [ProjectivePoint.double, hf, hj]
    exact mul_ne_zero (mul_ne_zero (pow_ne_zero 2 hp.z_ne_zero) hadd)
      (neg_ne_zero.mpr (mul_ne_zero (pow_ne_zero 2 hp.z_ne_zero) hsub))
  · have hx := Edwards.add_x_mul P P
    rw [Edwards.xNom] at hx
    simp only [ProjectivePoint.double, hf, hj]
    rw [hp.x, hp.y]
    linear_combination p.z ^ 4 * (1 - Edwards.product P P) * hx
  · have hy := Edwards.add_y_mul P P
    rw [Edwards.yNom] at hy
    simp only [ProjectivePoint.double, hf, hj]
    rw [hp.x, hp.y]
    linear_combination p.z ^ 4 * (1 + Edwards.product P P) * hy

/-- The comparison without a division is that of the points. -/
theorem Stands.eq_iff (hp : Stands p P) (hq : Stands q Q) : p.eq q = true ↔ P = Q := by
  have hpz := hp.z_ne_zero
  have hqz := hq.z_ne_zero
  rw [ProjectivePoint.eq, Bool.and_eq_true, beq_iff_eq, beq_iff_eq, hp.x, hp.y, hq.x, hq.y,
    mul_right_comm Q.x, mul_right_comm Q.y, mul_left_inj' hqz, mul_left_inj' hpz, mul_left_inj' hqz,
    mul_left_inj' hpz, Edwards.Point.ext_iff]

end

/-! ## multiples -/

/-- The digits of a limb, from the lowest. -/
theorem limbDigits_eq (limb : Nat) :
    (List.range (64 / windowBits)).map (fun j => (limb >>> (j * windowBits)) % base) =
      splitToLimbs 16 16 limb := by
  rw [splitToLimbs_eq_map]
  apply List.map_congr_left
  intro j _
  rw [Nat.shiftRight_eq_div_pow, Nat.mul_comm, pow_mul]
  rfl

theorem toDigits_lt (x : Nat) : ∀ d ∈ toDigits x, d < base := by
  intro d hd
  obtain ⟨limb, -, hd⟩ := List.mem_flatMap.mp hd
  obtain ⟨j, -, rfl⟩ := List.mem_map.mp hd
  exact Nat.mod_lt _ (by decide)

theorem ofDigits_toDigits (x : Nat) : Nat.ofDigits 16 (toDigits x) = x := by
  have hlimbs : ∀ limbs : List Nat, (∀ limb ∈ limbs, limb < 2 ^ 64) →
      Nat.ofDigits 16 (limbs.flatMap fun limb => (List.range (64 / windowBits)).map fun j =>
        (limb >>> (j * windowBits)) % base) = Nat.ofDigits (2 ^ 64) limbs := by
    intro limbs
    induction limbs with
    | nil => exact fun _ => rfl
    | cons limb limbs ih =>
        intro h
        rw [List.flatMap_cons, limbDigits_eq, Nat.ofDigits_append, ofDigits_splitToLimbs,
          length_splitToLimbs, ih fun l hl => h l (List.mem_cons_of_mem limb hl), Nat.ofDigits_cons,
          show 16 ^ 16 = 2 ^ 64 by decide, Nat.mod_eq_of_lt (h limb List.mem_cons_self)]
  rw [toDigits, hlimbs _ fun limb hlimb => Nat.digits_lt_base (by decide) hlimb, Nat.ofDigits_digits]

theorem length_toDigits (x : Nat) : (toDigits x).length = 16 * (Nat.digits (2 ^ 64) x).length := by
  rw [toDigits]
  induction Nat.digits (2 ^ 64) x with
  | nil => rfl
  | cons limb limbs ih =>
      rw [List.flatMap_cons, List.length_append, ih, List.length_map, List.length_range, List.length_cons]
      show 16 + _ = _
      omega

/-- A number that fits the scalars has no more digits than there are powers. -/
theorem length_toDigits_le {x : Nat} (hbits : 64 ∣ C.ScalarField.bits) (hx : x < 2 ^ C.ScalarField.bits) :
    (toDigits x).length ≤ digitsPerScalar C := by
  obtain ⟨k, hk⟩ := hbits
  have hlength : (Nat.digits (2 ^ 64) x).length ≤ k := by
    rw [Nat.digits_length_le_iff (by decide), ← pow_mul, ← hk]
    exact hx
  rw [length_toDigits, digitsPerScalar, hk]
  show _ ≤ (64 * k + 4 - 1) / 4
  omega

section
variable {p : ProjectivePoint C} {P : C.Point}

theorem Stands.iterate_double (h : Stands p P) (n : Nat) : Stands (ProjectivePoint.double^[n] p) (2 ^ n • P) := by
  induction n with
  | zero =>
      rw [pow_zero, one_nsmul]
      exact h
  | succ n ih =>
      rw [Function.iterate_succ_apply', two_pow_succ_nsmul]
      exact ih.double

theorem Stands.mulPrecompute (h : Stands p P) :
    List.Forall₂ Stands (mulPrecompute p) (List.iterate (fun Q => 16 • Q) P (digitsPerScalar C)) := by
  rw [ProjectivePoint.mulPrecompute]
  induction digitsPerScalar C generalizing p P with
  | zero => exact List.Forall₂.nil
  | succ n ih => exact List.Forall₂.cons h (ih (h.iterate_double windowBits))

/-- The digits count the powers of the base. -/
theorem sum_zip_iterate {digits : List Nat} {m : Nat} (h : digits.length ≤ m) (P : C.Point) :
    ((digits.zip (List.iterate (fun Q => 16 • Q) P m)).map fun de => de.1 • de.2).sum =
      Nat.ofDigits 16 digits • P := by
  induction digits generalizing m P with
  | nil => rw [List.zip_nil_left, List.map_nil, List.sum_nil, Nat.ofDigits_nil, zero_nsmul]
  | cons d digits ih =>
      obtain ⟨m, rfl⟩ : ∃ k, m = k + 1 := ⟨m - 1, by rw [List.length_cons] at h; omega⟩
      rw [List.iterate, List.zip_cons_cons, List.map_cons, List.sum_cons, ih (Nat.le_of_succ_le_succ h),
        Nat.ofDigits_cons, add_nsmul, Nat.mul_comm, mul_nsmul']

/-- The multiplication of the native code stands for the multiple by the residue of the scalar. -/
theorem Stands.mul (h : Stands p P) (hbits : 64 ∣ C.ScalarField.bits) (scalar : Nat) :
    Stands (mul scalar p) ((scalar % C.ScalarField.order) • P) := by
  have hlt : scalar % C.ScalarField.order < 2 ^ C.ScalarField.bits :=
    Nat.lt_trans (Nat.mod_lt _ (NeZero.pos _)) C.ScalarField.order_lt
  have hyao := Yao.yao_rel stands_zero (fun _ _ _ _ => Stands.add) h.mulPrecompute base
    (toDigits (scalar % C.ScalarField.order))
  rwa [Yao.yao_eq (toDigits_lt _), sum_zip_iterate (length_toDigits_le hbits hlt), ofDigits_toDigits] at hyao

end

end ProjectivePoint

end GearBridges.Plonky2Ed25519
