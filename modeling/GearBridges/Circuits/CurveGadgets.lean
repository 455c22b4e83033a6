import GearBridges.Circuits.NonNativeResidues
import GearBridges.Lib.Edwards

/-!
# Circuits.CurveGadgets

Points of a twisted Edwards curve as pairs of coordinates in the limbs of
`Circuits.NonNative`, and the gadgets of `plonky2_ed25519` that add, double and negate them.
For targets that represent points of the curve, the rows of a gadget accept targets of the sum
and no others (`Represents.curveAdd`, `Canonical.curveAdd_mem`).  None of the gadgets asserts
that its operands are points of the curve; only `curveAssertValid` does.
-/

namespace GearBridges.Plonky2Ed25519

open Goldilocks Outcomes Plonky2U32 Plonky2Ecdsa

attribute [local instance] Set.monad

/-- A curve over a field whose order and whose coefficients fill the limbs. -/
structure Curve where
  BaseField : PrimeField
  ScalarField : PrimeField
  [prime : Fact BaseField.order.Prime]
  law : Edwards.Curve (ZMod BaseField.order)
  generator : Edwards.Point law
  limbs_le : BaseField.numLimbs ≤ 8
  whole_limbs : BaseField.bits / 32 = BaseField.numLimbs
  length_modulus : BaseField.modulus.length = BaseField.numLimbs
  length_a : (constantNonnative BaseField law.a.val).length = BaseField.numLimbs
  length_d : (constantNonnative BaseField law.d.val).length = BaseField.numLimbs

attribute [instance] Curve.prime

/-- The points of the curve. -/
abbrev Curve.Point (C : Curve) : Type := Edwards.Point C.law

structure AffinePointTarget where
  x : NonNativeTarget
  y : NonNativeTarget
deriving DecidableEq

variable (C : Curve)

/-! ## the gadgets -/

/-- `constant_affine_point`. -/
def constantAffinePoint (point : C.Point) : AffinePointTarget where
  x := constantNonnative C.BaseField point.x.val
  y := constantNonnative C.BaseField point.y.val

/-- `connect_affine_point`. -/
def connectAffinePoint (lhs rhs : AffinePointTarget) : Prop :=
  connectNonnative lhs.x rhs.x ∧ connectNonnative lhs.y rhs.y

instance (lhs rhs : AffinePointTarget) : Decidable (connectAffinePoint lhs rhs) :=
  inferInstanceAs (Decidable (_ ∧ _))

/-- `add_virtual_affine_point_target`. -/
def addVirtualAffinePointTarget : Set AffinePointTarget := do
  let x ← addVirtualNonnativeTarget C.BaseField
  let y ← addVirtualNonnativeTarget C.BaseField
  return ⟨x, y⟩

/-- `curve_assert_valid`. -/
def curveAssertValid (p : AffinePointTarget) : Set Unit := do
  let a := constantNonnative C.BaseField C.law.a.val
  let d := constantNonnative C.BaseField C.law.d.val
  let one := constantNonnative C.BaseField 1
  let ySquared ← mulNonnative C.BaseField p.y p.y
  let xSquared ← mulNonnative C.BaseField p.x p.x
  let xSquaredYSquared ← mulNonnative C.BaseField xSquared ySquared
  let dXSquaredYSquared ← mulNonnative C.BaseField d xSquaredYSquared
  let aXSquared ← mulNonnative C.BaseField a xSquared
  let lhs ← addNonnative C.BaseField aXSquared ySquared
  let rhs ← addNonnative C.BaseField one dXSquaredYSquared
  guard (connectNonnative lhs rhs)

/-- `curve_neg`. -/
def curveNeg (p : AffinePointTarget) : Set AffinePointTarget := do
  let negX ← negNonnative C.BaseField p.x
  return ⟨negX, p.y⟩

/-- `curve_double`. -/
def curveDouble (p : AffinePointTarget) : Set AffinePointTarget := do
  let one := constantNonnative C.BaseField 1
  let a := constantNonnative C.BaseField C.law.a.val
  let d := constantNonnative C.BaseField C.law.d.val
  let xx ← mulNonnative C.BaseField p.x p.x
  let yy ← mulNonnative C.BaseField p.y p.y
  let xy ← mulNonnative C.BaseField p.x p.y
  let aXx ← mulNonnative C.BaseField a xx
  let xNom ← addNonnative C.BaseField xy xy
  let yNom ← subNonnative C.BaseField yy aXx
  let xxyy ← mulNonnative C.BaseField xx yy
  let dxxyy ← mulNonnative C.BaseField d xxyy
  let negDxxyy ← negNonnative C.BaseField dxxyy
  let onePlusDxxyy ← addNonnative C.BaseField one dxxyy
  let oneMinusDxxyy ← addNonnative C.BaseField one negDxxyy
  let invOnePlusDxxyy ← invNonnative C.BaseField onePlusDxxyy
  let invOneMinusDxxyy ← invNonnative C.BaseField oneMinusDxxyy
  let x3 ← mulNonnative C.BaseField xNom invOnePlusDxxyy
  let y3 ← mulNonnative C.BaseField yNom invOneMinusDxxyy
  return ⟨x3, y3⟩

/-- `curve_repeated_double`. -/
def curveRepeatedDouble (p : AffinePointTarget) (n : Nat) : Set AffinePointTarget :=
  (List.range n).foldlM (fun result _ => curveDouble C result) p

/-- `curve_add`. -/
def curveAdd (p1 p2 : AffinePointTarget) : Set AffinePointTarget := do
  let one := constantNonnative C.BaseField 1
  let a := constantNonnative C.BaseField C.law.a.val
  let d := constantNonnative C.BaseField C.law.d.val
  let x1y2 ← mulNonnative C.BaseField p1.x p2.y
  let y1x2 ← mulNonnative C.BaseField p1.y p2.x
  let y1y2 ← mulNonnative C.BaseField p1.y p2.y
  let x1x2 ← mulNonnative C.BaseField p1.x p2.x
  let ax1x2 ← mulNonnative C.BaseField a x1x2
  let xNom ← addNonnative C.BaseField x1y2 y1x2
  let yNom ← subNonnative C.BaseField y1y2 ax1x2
  let x1x2y1y2 ← mulNonnative C.BaseField x1y2 y1x2
  let dx1x2y1y2 ← mulNonnative C.BaseField d x1x2y1y2
  let oneAdd ← addNonnative C.BaseField one dx1x2y1y2
  let oneSub ← subNonnative C.BaseField one dx1x2y1y2
  let invOneAdd ← invNonnative C.BaseField oneAdd
  let invOneSub ← invNonnative C.BaseField oneSub
  let x3 ← mulNonnative C.BaseField xNom invOneAdd
  let y3 ← mulNonnative C.BaseField yNom invOneSub
  return ⟨x3, y3⟩

/-- The choice of `curve_conditional_add`, which `curve_scalar_mul` makes in the same way. -/
def selectPoint (b : F) (ifTrue ifFalse : AffinePointTarget) : Set AffinePointTarget := do
  let notB := not b
  let xIfTrue := mulNonnativeByBool ifTrue.x b
  let yIfTrue := mulNonnativeByBool ifTrue.y b
  let xIfFalse := mulNonnativeByBool ifFalse.x notB
  let yIfFalse := mulNonnativeByBool ifFalse.y notB
  let x ← addNonnative C.BaseField xIfTrue xIfFalse
  let y ← addNonnative C.BaseField yIfTrue yIfFalse
  return ⟨x, y⟩

/-- `curve_conditional_add`. -/
def curveConditionalAdd (p1 p2 : AffinePointTarget) (b : F) : Set AffinePointTarget := do
  let sum ← curveAdd C p1 p2
  selectPoint C b sum p1

/-! ## targets of points -/

variable {C}

/-- The coordinates stand for those of a point of the curve. -/
structure Represents (t : AffinePointTarget) (P : C.Point) : Prop where
  x : Stands C.BaseField t.x P.x
  y : Stands C.BaseField t.y P.y

/-- The coordinates are reduced. -/
structure Canonical (t : AffinePointTarget) (P : C.Point) : Prop where
  x : Reduced C.BaseField t.x P.x
  y : Reduced C.BaseField t.y P.y

/-- The coordinates use all the limbs. -/
structure IsFull (C : Curve) (t : AffinePointTarget) : Prop where
  x : t.x.length = C.BaseField.numLimbs
  y : t.y.length = C.BaseField.numLimbs

theorem Canonical.represents {t : AffinePointTarget} {P : C.Point} (h : Canonical t P) : Represents t P :=
  ⟨h.x.stands, h.y.stands⟩

/-- The reduced coordinates in all the limbs. -/
def fullPoint (P : C.Point) : AffinePointTarget := ⟨fullLimbs C.BaseField P.x, fullLimbs C.BaseField P.y⟩

theorem canonical_fullPoint (P : C.Point) : Canonical (fullPoint P) P :=
  ⟨reduced_fullLimbs P.x, reduced_fullLimbs P.y⟩

theorem isFull_fullPoint (P : C.Point) : IsFull C (fullPoint P) :=
  ⟨length_fullLimbs P.x, length_fullLimbs P.y⟩

theorem reduced_constant (z : ZMod C.BaseField.order) :
    Reduced C.BaseField (constantNonnative C.BaseField z.val) z := by
  have h := @reduced_constantNonnative C.BaseField z.val
  rwa [ZMod.natCast_zmod_val] at h

theorem canonical_constantAffinePoint (P : C.Point) : Canonical (constantAffinePoint C P) P :=
  ⟨reduced_constant P.x, reduced_constant P.y⟩

theorem reduced_one : Reduced C.BaseField (constantNonnative C.BaseField 1) 1 := by
  have h := @reduced_constantNonnative C.BaseField 1
  rwa [Nat.cast_one] at h

/-! ## sums -/

section
variable (P Q : C.Point)

theorem one_add_ne_zero : 1 + C.law.d * (P.x * Q.y * (P.y * Q.x)) ≠ 0 := by
  have h := Edwards.one_add_product_ne_zero P Q
  rwa [Edwards.product, show C.law.d * P.x * Q.x * P.y * Q.y = C.law.d * (P.x * Q.y * (P.y * Q.x)) by
    ring] at h

theorem one_sub_ne_zero : 1 - C.law.d * (P.x * Q.y * (P.y * Q.x)) ≠ 0 := by
  have h := Edwards.one_sub_product_ne_zero P Q
  rwa [Edwards.product, show C.law.d * P.x * Q.x * P.y * Q.y = C.law.d * (P.x * Q.y * (P.y * Q.x)) by
    ring] at h

/-- The coordinates of a sum the way `curve_add` computes them. -/
theorem add_x_eq : (P + Q).x =
    (P.x * Q.y + P.y * Q.x) * (1 + C.law.d * (P.x * Q.y * (P.y * Q.x)))⁻¹ := by
  rw [← div_eq_mul_inv, eq_div_iff (one_add_ne_zero P Q)]
  have h := Edwards.add_x_mul P Q
  rw [Edwards.product, Edwards.xNom] at h
  linear_combination h

theorem add_y_eq : (P + Q).y =
    (P.y * Q.y - C.law.a * (P.x * Q.x)) * (1 - C.law.d * (P.x * Q.y * (P.y * Q.x)))⁻¹ := by
  rw [← div_eq_mul_inv, eq_div_iff (one_sub_ne_zero P Q)]
  have h := Edwards.add_y_mul P Q
  rw [Edwards.product, Edwards.yNom] at h
  linear_combination h

/-- The product of the squares, as `curve_double` has it. -/
theorem squares_eq : P.x * P.x * (P.y * P.y) = P.x * P.y * (P.y * P.x) := by ring

end

section
variable {t u r : AffinePointTarget} {P Q : C.Point}

/-- What the rows of `curve_add` accept is the sum, also for two equal points. -/
theorem Represents.curveAdd (hP : Represents t P) (hQ : Represents u Q) (h : r ∈ curveAdd C t u) :
    Represents r (P + Q) := by
  have hlimbs := C.limbs_le
  simp only [Plonky2Ed25519.curveAdd, mem_bind, mem_pure] at h
  obtain ⟨x1y2, h1, y1x2, h2, y1y2, h3, x1x2, h4, ax1x2, h5, xNom, h6, yNom, h7, product, h8,
    dProduct, h9, oneAdd, h10, oneSub, h11, invAdd, h12, invSub, h13, x3, h14, y3, h15, rfl⟩ := h
  replace h1 := hP.x.mul hlimbs hQ.y h1
  replace h2 := hP.y.mul hlimbs hQ.x h2
  replace h3 := hP.y.mul hlimbs hQ.y h3
  replace h4 := hP.x.mul hlimbs hQ.x h4
  replace h5 := (reduced_constant C.law.a).stands.mul hlimbs h4 h5
  replace h6 := h1.add h2 h6
  replace h7 := h3.sub h5 h7
  replace h8 := h1.mul hlimbs h2 h8
  replace h9 := (reduced_constant C.law.d).stands.mul hlimbs h8 h9
  replace h10 := reduced_one.stands.add h9 h10
  replace h11 := reduced_one.stands.sub h9 h11
  obtain ⟨z, hz, hzMul⟩ := h10.inv hlimbs h12
  obtain ⟨w, hw, hwMul⟩ := h11.inv hlimbs h13
  replace h14 := h6.mul hlimbs hz h14
  replace h15 := h7.mul hlimbs hw h15
  rw [eq_inv_of_mul_eq_one_right hzMul, ← add_x_eq] at h14
  rw [eq_inv_of_mul_eq_one_right hwMul, ← add_y_eq] at h15
  exact ⟨h14, h15⟩

/-- The sum is accepted, when the coordinates of one of the points use all the limbs. -/
theorem Canonical.curveAdd_mem (hP : Canonical t P) (hQ : Canonical u Q)
    (hfull : IsFull C t ∨ IsFull C u) : fullPoint (P + Q) ∈ curveAdd C t u := by
  have hlimbs := C.limbs_le
  have hmod := C.length_modulus
  have hlong := @length_fullLimbs C.BaseField
  have hreduced := @reduced_fullLimbs C.BaseField
  simp only [Plonky2Ed25519.curveAdd, mem_bind, mem_pure]
  refine ⟨_, hP.x.mul_mem hlimbs hmod hQ.y (hfull.imp (·.x) (·.y)),
    _, hP.y.mul_mem hlimbs hmod hQ.x (hfull.imp (·.y) (·.x)),
    _, hP.y.mul_mem hlimbs hmod hQ.y (hfull.imp (·.y) (·.y)),
    _, hP.x.mul_mem hlimbs hmod hQ.x (hfull.imp (·.x) (·.x)),
    _, (reduced_constant C.law.a).mul_mem hlimbs hmod (hreduced _) (Or.inl C.length_a),
    _, (hreduced _).add_mem (hreduced _),
    _, (hreduced _).sub_mem (hreduced _),
    _, (hreduced _).mul_mem hlimbs hmod (hreduced _) (Or.inl (hlong _)),
    _, (reduced_constant C.law.d).mul_mem hlimbs hmod (hreduced _) (Or.inl C.length_d),
    _, reduced_one.add_mem (hreduced _),
    _, reduced_one.sub_mem (hreduced _),
    _, (hreduced _).inv_mem hlimbs (hlong _) (mul_inv_cancel₀ (one_add_ne_zero P Q)),
    _, (hreduced _).inv_mem hlimbs (hlong _) (mul_inv_cancel₀ (one_sub_ne_zero P Q)),
    _, (hreduced _).mul_mem hlimbs hmod (hreduced _) (Or.inl (hlong _)),
    _, (hreduced _).mul_mem hlimbs hmod (hreduced _) (Or.inl (hlong _)), ?_⟩
  rw [← add_x_eq, ← add_y_eq, fullPoint]

theorem Represents.curveDouble (hP : Represents t P) (h : r ∈ curveDouble C t) :
    Represents r (P + P) := by
  have hlimbs := C.limbs_le
  simp only [Plonky2Ed25519.curveDouble, mem_bind, mem_pure] at h
  obtain ⟨xx, h1, yy, h2, xy, h3, aXx, h4, xNom, h5, yNom, h6, xxyy, h7, dxxyy, h8, negDxxyy, h9,
    onePlus, h10, oneMinus, h11, invPlus, h12, invMinus, h13, x3, h14, y3, h15, rfl⟩ := h
  replace h1 := hP.x.mul hlimbs hP.x h1
  replace h2 := hP.y.mul hlimbs hP.y h2
  replace h3 := hP.x.mul hlimbs hP.y h3
  replace h4 := (reduced_constant C.law.a).stands.mul hlimbs h1 h4
  replace h5 := h3.add h3 h5
  replace h6 := h2.sub h4 h6
  replace h7 := h1.mul hlimbs h2 h7
  replace h8 := (reduced_constant C.law.d).stands.mul hlimbs h7 h8
  replace h9 := h8.neg h9
  replace h10 := reduced_one.stands.add h8 h10
  replace h11 := reduced_one.stands.add h9 h11
  obtain ⟨z, hz, hzMul⟩ := h10.inv hlimbs h12
  obtain ⟨w, hw, hwMul⟩ := h11.inv hlimbs h13
  replace h14 := h5.mul hlimbs hz h14
  replace h15 := h6.mul hlimbs hw h15
  rw [eq_inv_of_mul_eq_one_right hzMul, squares_eq, mul_comm P.y P.x] at h14
  rw [eq_inv_of_mul_eq_one_right hwMul, squares_eq, ← sub_eq_add_neg] at h15
  refine ⟨?_, ?_⟩
  · rwa [add_x_eq, mul_comm P.y P.x]
  · rwa [add_y_eq]

theorem Canonical.curveDouble_mem (hP : Canonical t P) (hfull : IsFull C t) :
    fullPoint (P + P) ∈ curveDouble C t := by
  have hlimbs := C.limbs_le
  have hmod := C.length_modulus
  have hlong := @length_fullLimbs C.BaseField
  have hreduced := @reduced_fullLimbs C.BaseField
  have hadd := one_add_ne_zero P P
  have hsub := one_sub_ne_zero P P
  rw [← squares_eq] at hadd hsub
  rw [sub_eq_add_neg] at hsub
  simp only [Plonky2Ed25519.curveDouble, mem_bind, mem_pure]
  refine ⟨_, hP.x.mul_mem hlimbs hmod hP.x (Or.inl hfull.x),
    _, hP.y.mul_mem hlimbs hmod hP.y (Or.inl hfull.y),
    _, hP.x.mul_mem hlimbs hmod hP.y (Or.inl hfull.x),
    _, (reduced_constant C.law.a).mul_mem hlimbs hmod (hreduced _) (Or.inl C.length_a),
    _, (hreduced _).add_mem (hreduced _),
    _, (hreduced _).sub_mem (hreduced _),
    _, (hreduced _).mul_mem hlimbs hmod (hreduced _) (Or.inl (hlong _)),
    _, (reduced_constant C.law.d).mul_mem hlimbs hmod (hreduced _) (Or.inl C.length_d),
    _, (hreduced _).neg_mem,
    _, reduced_one.add_mem (hreduced _),
    _, reduced_one.add_mem (hreduced _),
    _, (hreduced _).inv_mem hlimbs (hlong _) (mul_inv_cancel₀ hadd),
    _, (hreduced _).inv_mem hlimbs (hlong _) (mul_inv_cancel₀ hsub),
    _, (hreduced _).mul_mem hlimbs hmod (hreduced _) (Or.inl (hlong _)),
    _, (hreduced _).mul_mem hlimbs hmod (hreduced _) (Or.inl (hlong _)), ?_⟩
  rw [← sub_eq_add_neg, squares_eq, ← add_y_eq, fullPoint, add_x_eq, mul_comm P.y P.x]

theorem Represents.curveNeg (hP : Represents t P) (h : r ∈ curveNeg C t) : Represents r (-P) := by
  simp only [Plonky2Ed25519.curveNeg, mem_bind, mem_pure] at h
  obtain ⟨negX, hneg, rfl⟩ := h
  exact ⟨hP.x.neg hneg, hP.y⟩

theorem Canonical.curveNeg_mem (hP : Canonical t P) :
    ∃ r ∈ curveNeg C t, Canonical r (-P) ∧ (IsFull C t → IsFull C r) := by
  refine ⟨⟨fullLimbs C.BaseField (-P.x), t.y⟩, mem_bind.mpr ⟨_, hP.x.neg_mem, mem_pure.mpr rfl⟩,
    ⟨reduced_fullLimbs _, hP.y⟩, fun hfull => ⟨length_fullLimbs _, hfull.y⟩⟩

/-! ## the equation of the curve -/

/-- The rows of `curve_assert_valid` accept the coordinates of the points, and no others. -/
theorem mem_curveAssertValid {x y : ZMod C.BaseField.order} (hx : Reduced C.BaseField t.x x)
    (hy : Reduced C.BaseField t.y y) (hfull : IsFull C t) :
    () ∈ curveAssertValid C t ↔ C.law.Contains x y := by
  have hlimbs := C.limbs_le
  have hmod := C.length_modulus
  have hlong := @length_fullLimbs C.BaseField
  have hreduced := @reduced_fullLimbs C.BaseField
  have hcontains : C.law.a * (x * x) + y * y = 1 + C.law.d * (x * x * (y * y)) ↔
      C.law.Contains x y := by
    rw [Edwards.Curve.Contains, ← sq, ← sq, mul_assoc C.law.d]
  rw [← hcontains]
  simp only [curveAssertValid, mem_bind]
  constructor
  · rintro ⟨yy, h1, xx, h2, xxyy, h3, dxxyy, h4, aXx, h5, lhs, h6, rhs, h7, h8⟩
    replace h1 := hy.stands.mul hlimbs hy.stands h1
    replace h2 := hx.stands.mul hlimbs hx.stands h2
    replace h3 := h2.mul hlimbs h1 h3
    replace h4 := (reduced_constant C.law.d).stands.mul hlimbs h3 h4
    replace h5 := (reduced_constant C.law.a).stands.mul hlimbs h2 h5
    replace h6 := h5.add h1 h6
    replace h7 := reduced_one.stands.add h4 h7
    rw [mem_guard, connectNonnative, connectBiguint_iff h6.range h7.range] at h8
    rw [← h6.residue, ← h7.residue, h8]
  · intro h
    refine ⟨_, hy.mul_mem hlimbs hmod hy (Or.inl hfull.y),
      _, hx.mul_mem hlimbs hmod hx (Or.inl hfull.x),
      _, (hreduced _).mul_mem hlimbs hmod (hreduced _) (Or.inl (hlong _)),
      _, (reduced_constant C.law.d).mul_mem hlimbs hmod (hreduced _) (Or.inl C.length_d),
      _, (reduced_constant C.law.a).mul_mem hlimbs hmod (hreduced _) (Or.inl C.length_a),
      _, (hreduced _).add_mem (hreduced _),
      _, reduced_one.add_mem (hreduced _), ?_⟩
    rw [mem_guard, connectNonnative, connectBiguint_iff (hreduced _).range (hreduced _).range, h]

/-! ## choices -/

theorem ite_x (b : Bool) : (if b then P.x else Q.x) = (if b then P else Q).x := (apply_ite _ _ _ _).symm

theorem ite_y (b : Bool) : (if b then P.y else Q.y) = (if b then P else Q).y := (apply_ite _ _ _ _).symm

theorem Represents.selectPoint (hP : Represents t P) (hQ : Represents u Q) {bit : Bool}
    (h : r ∈ selectPoint C (bit.toNat : F) t u) : Represents r (if bit then P else Q) := by
  simp only [Plonky2Ed25519.selectPoint, not_natCast, mem_bind, mem_pure] at h
  obtain ⟨x, hx, y, hy, rfl⟩ := h
  replace hx := hP.x.mulByBool.add hQ.x.mulByBool hx
  replace hy := hP.y.mulByBool.add hQ.y.mulByBool hy
  rw [ite_add_ite_not, ite_x] at hx
  rw [ite_add_ite_not, ite_y] at hy
  exact ⟨hx, hy⟩

theorem Canonical.selectPoint_mem (hP : Canonical t P) (hQ : Canonical u Q) (bit : Bool) :
    fullPoint (if bit then P else Q) ∈ selectPoint C (bit.toNat : F) t u := by
  simp only [Plonky2Ed25519.selectPoint, not_natCast, mem_bind, mem_pure]
  refine ⟨_, hP.x.mulByBool.add_mem hQ.x.mulByBool, _, hP.y.mulByBool.add_mem hQ.y.mulByBool, ?_⟩
  rw [ite_add_ite_not, ite_add_ite_not, ite_x, ite_y, fullPoint]

/-- A conditional sum adds the second point or nothing. -/
theorem Represents.curveConditionalAdd (hP : Represents t P) (hQ : Represents u Q) {bit : Bool}
    (h : r ∈ curveConditionalAdd C t u (bit.toNat : F)) :
    Represents r (if bit then P + Q else P) := by
  obtain ⟨sum, hsum, h⟩ := mem_bind.mp h
  exact (hP.curveAdd hQ hsum).selectPoint hP h

theorem Canonical.curveConditionalAdd_mem (hP : Canonical t P) (hQ : Canonical u Q)
    (hfull : IsFull C t ∨ IsFull C u) (bit : Bool) :
    fullPoint (if bit then P + Q else P) ∈ curveConditionalAdd C t u (bit.toNat : F) :=
  mem_bind.mpr ⟨_, hP.curveAdd_mem hQ hfull, (canonical_fullPoint _).selectPoint_mem hP bit⟩

end

/-! ## repeated doubling -/

section
variable {t r : AffinePointTarget} {P : C.Point}

theorem two_pow_succ_nsmul (n : Nat) (P : C.Point) : 2 ^ (n + 1) • P = 2 ^ n • P + 2 ^ n • P := by
  rw [pow_succ, Nat.mul_two, add_nsmul]

theorem Represents.curveRepeatedDouble (hP : Represents t P) {n : Nat}
    (h : r ∈ curveRepeatedDouble C t n) : Represents r (2 ^ n • P) := by
  refine forall_mem_foldlM_range (fun i s => Represents s (2 ^ i • P)) ?_ ?_ r h
  · rwa [pow_zero, one_nsmul]
  · intro i _ s hs t ht
    rw [two_pow_succ_nsmul]
    exact hs.curveDouble ht

theorem Canonical.curveRepeatedDouble_mem (hP : Canonical t P) (hfull : IsFull C t) (n : Nat) :
    ∃ r ∈ curveRepeatedDouble C t n, Canonical r (2 ^ n • P) ∧ IsFull C r := by
  refine exists_mem_foldlM_range (fun i s => Canonical s (2 ^ i • P) ∧ IsFull C s) ?_ ?_
  · rw [pow_zero, one_nsmul]
    exact ⟨hP, hfull⟩
  · rintro i - s ⟨hs, hsFull⟩
    rw [two_pow_succ_nsmul]
    exact ⟨_, hs.curveDouble_mem hsFull, canonical_fullPoint _, isFull_fullPoint _⟩

end

end GearBridges.Plonky2Ed25519
