import Mathlib.Data.List.Iterate
import GearBridges.Circuits.CurveGadgets
import GearBridges.Circuits.SplitBase

/-!
# Circuits.ScalarMul

Scalar multiplication in windows of four bits.  A table of the multiples of a point is made with a
starting point added and subtracted again, a window of the scalar chooses an element of it, and
nothing is added for a window of zero.  Both the multiplication of a variable point
(`Represents.curveScalarMulWindowedPart`) and that of a fixed one
(`Represents.fixedBaseCurveMulCircuit`) accept the multiple and no other point.  The initial value
of the first is not added to the multiple as its comment says: the doublings of the loop reach
it too.
-/

namespace GearBridges.Plonky2Ed25519

open Goldilocks Outcomes Plonky2U32 Plonky2Ecdsa

attribute [local instance] Set.monad

def windowSize : Nat := 4

/-- `random_access` of the builder. -/
def randomAccess (accessIndex : F) (v : List F) : Set F := {x | v[accessIndex.val]? = some x}

/-- `is_equal` of the builder. -/
def isEqual (x y : F) : F := if x = y then 1 else 0

/-- The element of a list of points; the code reads none beyond its end. -/
def pointAt (v : List AffinePointTarget) (i : Nat) : AffinePointTarget := v.getD i ⟨[], []⟩

variable (C : Curve)

/-- `random_access_curve_points`. -/
def randomAccessCurvePoints (accessIndex : F) (v : List AffinePointTarget) : Set AffinePointTarget := do
  let x ← (List.range (C.BaseField.bits / 32)).mapM fun i : Nat =>
    randomAccess accessIndex (v.map fun p => p.x.getD i 0)
  let y ← (List.range (C.BaseField.bits / 32)).mapM fun i : Nat =>
    randomAccess accessIndex (v.map fun p => p.y.getD i 0)
  return ⟨x, y⟩

/-- `precompute_window`, from the point that the code derives from a hash. -/
def precomputeWindow (start : C.Point) (p : AffinePointTarget) : Set (List AffinePointTarget) := do
  let neg := constantAffinePoint C (-start)
  let multiples ← (List.range (2 ^ windowSize - 1)).foldlM (fun multiples i => do
    let sum ← curveAdd C p (pointAt multiples i)
    return multiples ++ [sum]) [constantAffinePoint C start]
  (List.range (2 ^ windowSize - 1)).foldlM (fun multiples i => do
    let sum ← curveAdd C neg (pointAt multiples (i + 1))
    return multiples.set (i + 1) sum) multiples

/-- The body of the loop of `curve_scalar_mul_windowed_part`. -/
def windowStep (precomputation : List AffinePointTarget) (windows : List F) (result : AffinePointTarget)
    (i : Nat) : Set AffinePointTarget := do
  let result ← curveRepeatedDouble C result windowSize
  let window := windows.getD i 0
  let toAdd ← randomAccessCurvePoints C window precomputation
  let isZero := isEqual window 0
  let shouldAdd := not isZero
  curveConditionalAdd C result toAdd shouldAdd

/-- `curve_scalar_mul_windowed_part`. -/
def curveScalarMulWindowedPart (start : C.Point) (numLimbs : Nat) (p qInit : AffinePointTarget)
    (n : NonNativeTarget) : Set AffinePointTarget := do
  let numBits := numLimbs * windowSize
  let startingPointMultiplied := (fun cur => cur + cur)^[numBits] start
  let result ← curveAdd C (constantAffinePoint C start) qInit
  let precomputation ← precomputeWindow C start p
  let windows ← splitNonnativeTo4BitLimbs n
  let windows := windows.take numLimbs
  let result ← (List.range windows.length).reverse.foldlM (windowStep C precomputation windows) result
  let toSubtract := constantAffinePoint C startingPointMultiplied
  let toAdd ← curveNeg C toSubtract
  curveAdd C result toAdd

/-- `curve_scalar_mul_windowed`. -/
def curveScalarMulWindowed (start : C.Point) (p : AffinePointTarget) (n : NonNativeTarget) :
    Set AffinePointTarget :=
  let numLimbs := C.ScalarField.bits / windowSize
  curveScalarMulWindowedPart C start numLimbs p (constantAffinePoint C 0) n

/-- The table of a point of `fixed_base_curve_mul_circuit`, whose first element stands in for
zero. -/
def mulsPoint (point : C.Point) : List AffinePointTarget :=
  let muls := ((List.iterate (fun acc => point + acc) 0 16).drop 1).map (constantAffinePoint C)
  pointAt muls 0 :: muls

/-- The body of the loop of `fixed_base_curve_mul_circuit`. -/
def fixedBaseStep (result : AffinePointTarget) (limbPoint : F × C.Point) : Set AffinePointTarget := do
  let isZero := isEqual limbPoint.1 0
  let shouldAdd := not isZero
  let r ← randomAccessCurvePoints C limbPoint.1 (mulsPoint C limbPoint.2)
  curveConditionalAdd C result r shouldAdd

/-- `fixed_base_curve_mul_circuit`. -/
def fixedBaseCurveMulCircuit (rando base : C.Point) (scalar : NonNativeTarget) :
    Set AffinePointTarget := do
  let scaledBase := List.iterate (fun acc => (fun p => p + p)^[4] acc) base (scalar.length * 8)
  let limbs ← splitNonnativeTo4BitLimbs scalar
  let result ← (limbs.zip scaledBase).foldlM (fixedBaseStep C) (constantAffinePoint C rando)
  let toAdd := constantAffinePoint C (-rando)
  curveAdd C result toAdd

variable {C}

/-! ## access to a table -/

theorem randomAccess_eq {accessIndex : F} {v : List F} (h : accessIndex.val < v.length) :
    randomAccess accessIndex v = {v.getD accessIndex.val 0} := by
  ext x
  rw [randomAccess, Set.mem_ofPred_eq, Set.mem_singleton_iff, List.getElem?_eq_getElem h,
    List.getD_eq_getElem _ _ h, Option.some_inj, eq_comm]

/-- Limbs with zeros behind. -/
def padLimbs (n : Nat) (a : BigUintTarget) : BigUintTarget := (List.range n).map fun i => a.getD i 0

theorem padLimbs_eq {n : Nat} {a : BigUintTarget} (h : a.length ≤ n) :
    padLimbs n a = a ++ List.replicate (n - a.length) 0 := by
  apply List.ext_getElem
  · simp [padLimbs, h]
  · intro i h1 h2
    simp only [padLimbs, List.getElem_map, List.getElem_range]
    by_cases hi : i < a.length
    · rw [List.getElem_append_left hi, List.getD_eq_getElem _ _ hi]
    · rw [List.getElem_append_right (Nat.le_of_not_lt hi), List.getElem_replicate,
        List.getD_eq_default _ _ (Nat.le_of_not_lt hi)]

theorem length_padLimbs (n : Nat) (a : BigUintTarget) : (padLimbs n a).length = n := by
  rw [padLimbs, List.length_map, List.length_range]

section
variable {ff : PrimeField} {a : NonNativeTarget} {x : ZMod ff.order}

theorem Stands.padLimbs (h : Stands ff a x) : Stands ff (padLimbs ff.numLimbs a) x where
  range := padLimbs_eq h.length ▸ rangeCheck_append_zeros h.range _
  length := Nat.le_of_eq (length_padLimbs _ _)
  residue := by rw [padLimbs_eq h.length, value_append_zeros, h.residue]

theorem Reduced.padLimbs (h : Reduced ff a x) : Reduced ff (padLimbs ff.numLimbs a) x where
  range := padLimbs_eq h.length ▸ rangeCheck_append_zeros h.range _
  length := Nat.le_of_eq (length_padLimbs _ _)
  value := by rw [padLimbs_eq h.length, value_append_zeros, h.value]

end

/-- A point with all the limbs. -/
def padPoint (C : Curve) (t : AffinePointTarget) : AffinePointTarget :=
  ⟨padLimbs C.BaseField.numLimbs t.x, padLimbs C.BaseField.numLimbs t.y⟩

theorem getD_map_limb (f : AffinePointTarget → BigUintTarget) (v : List AffinePointTarget) {k : Nat}
    (h : k < v.length) (i : Nat) : (v.map fun p => (f p).getD i 0).getD k 0 = (f (pointAt v k)).getD i 0 := by
  rw [pointAt, List.getD_eq_getElem _ _ (by rwa [List.length_map]), List.getElem_map,
    List.getD_eq_getElem _ _ h]

theorem randomAccessCurvePoints_eq {accessIndex : F} {v : List AffinePointTarget}
    (h : accessIndex.val < v.length) :
    randomAccessCurvePoints C accessIndex v = {padPoint C (pointAt v accessIndex.val)} := by
  have haccess : ∀ f : AffinePointTarget → BigUintTarget,
      ((List.range (C.BaseField.bits / 32)).mapM fun i : Nat =>
        randomAccess accessIndex (v.map fun p => (f p).getD i 0)) =
      {padLimbs C.BaseField.numLimbs (f (pointAt v accessIndex.val))} := by
    intro f
    rw [padLimbs, ← C.whole_limbs]
    apply mapM_singleton
    intro i _
    rw [randomAccess_eq (by rwa [List.length_map]), getD_map_limb f v h i]
  rw [randomAccessCurvePoints, haccess AffinePointTarget.x, singleton_bind, haccess AffinePointTarget.y,
    singleton_bind]
  rfl

section
variable {t : AffinePointTarget} {P : C.Point}

theorem Represents.padPoint (h : Represents t P) : Represents (padPoint C t) P :=
  ⟨h.x.padLimbs, h.y.padLimbs⟩

theorem Canonical.padPoint (h : Canonical t P) : Canonical (padPoint C t) P :=
  ⟨h.x.padLimbs, h.y.padLimbs⟩

theorem isFull_padPoint : IsFull C (padPoint C t) := ⟨length_padLimbs _ _, length_padLimbs _ _⟩

end

/-! ## the table of a window -/

theorem pointAt_append_left {v w : List AffinePointTarget} {i : Nat} (h : i < v.length) :
    pointAt (v ++ w) i = pointAt v i := by
  rw [pointAt, List.getD_append _ _ _ _ h, pointAt]

theorem pointAt_append_length {v : List AffinePointTarget} {t : AffinePointTarget} :
    pointAt (v ++ [t]) v.length = t := by
  rw [pointAt, List.getD_append_right _ _ _ _ (Nat.le_refl _), Nat.sub_self]
  rfl

theorem pointAt_set {v : List AffinePointTarget} {t : AffinePointTarget} {i j : Nat} (h : i < v.length) :
    pointAt (v.set i t) j = if j = i then t else pointAt v j := by
  rw [pointAt, pointAt, List.getD_eq_getElem?_getD, List.getElem?_set]
  by_cases hj : j = i
  · rw [if_pos hj, if_pos hj.symm, if_pos (hj ▸ h)]
    rfl
  · rw [if_neg hj, if_neg (Ne.symm hj), List.getD_eq_getElem?_getD]

/-- The first loop of `precompute_window` after `i` rounds: multiples with the start added. -/
structure SumsInv (good : AffinePointTarget → C.Point → Prop) (start P : C.Point) (i : Nat)
    (multiples : List AffinePointTarget) : Prop where
  length : multiples.length = i + 1
  sums : ∀ j ≤ i, good (pointAt multiples j) (start + j • P)

/-- The second loop after `i` rounds: the start is subtracted from the first of them. -/
structure MultiplesInv (good : AffinePointTarget → C.Point → Prop) (start P : C.Point) (i : Nat)
    (multiples : List AffinePointTarget) : Prop where
  length : multiples.length = 2 ^ windowSize
  first : good (pointAt multiples 0) start
  done : ∀ j, 0 < j → j ≤ i → good (pointAt multiples j) (j • P)
  rest : ∀ j, i < j → j < 2 ^ windowSize → good (pointAt multiples j) (start + j • P)

section
variable {good : AffinePointTarget → C.Point → Prop} {start P : C.Point} {i : Nat}
  {multiples : List AffinePointTarget} {sum : AffinePointTarget}

theorem SumsInv.push (h : SumsInv good start P i multiples) (hsum : good sum (start + (i + 1) • P)) :
    SumsInv good start P (i + 1) (multiples ++ [sum]) where
  length := by rw [List.length_append, h.length, List.length_singleton]
  sums := by
    intro j hj
    rcases Nat.lt_or_eq_of_le hj with hj | rfl
    · rw [pointAt_append_left (by rw [h.length]; exact hj)]
      exact h.sums j (by omega)
    · rw [← h.length, pointAt_append_length, h.length]
      exact hsum

theorem SumsInv.multiplesInv (h : SumsInv good start P (2 ^ windowSize - 1) multiples) :
    MultiplesInv good start P 0 multiples where
  length := h.length
  first := by
    have h0 := h.sums 0 (Nat.zero_le _)
    rwa [zero_nsmul, add_zero] at h0
  done := fun j hpos hle => absurd hpos (Nat.not_lt.mpr hle)
  rest := fun j _ hj => h.sums j (Nat.le_sub_one_of_lt hj)

theorem MultiplesInv.set (h : MultiplesInv good start P i multiples) (hi : i < 2 ^ windowSize - 1)
    (hsum : good sum ((i + 1) • P)) :
    MultiplesInv good start P (i + 1) (multiples.set (i + 1) sum) := by
  have hlt : i + 1 < multiples.length := by
    rw [h.length]
    exact Nat.add_lt_of_lt_sub hi
  refine ⟨by rw [List.length_set, h.length], ?_, ?_, ?_⟩
  · rw [pointAt_set hlt, if_neg (by omega)]
    exact h.first
  · intro j hpos hle
    rw [pointAt_set hlt]
    split
    · next hj => exact hj ▸ hsum
    · next hj => exact h.done j hpos (by omega)
  · intro j hj hlt16
    rw [pointAt_set hlt, if_neg (by omega)]
    exact h.rest j (by omega) hlt16

end

/-- A table of the multiples, the first element aside. -/
abbrev WindowTable (good : AffinePointTarget → C.Point → Prop) (start P : C.Point)
    (multiples : List AffinePointTarget) : Prop :=
  MultiplesInv good start P (2 ^ windowSize - 1) multiples

section
variable {start P : C.Point} {p : AffinePointTarget}

theorem add_nsmul_start (P start : C.Point) (i : Nat) :
    P + (start + i • P) = start + (i + 1) • P := by
  rw [succ_nsmul, ← add_assoc, add_comm]
  abel

theorem Represents.precomputeWindow (hP : Represents p P) {table : List AffinePointTarget}
    (h : table ∈ precomputeWindow C start p) : WindowTable Represents start P table := by
  obtain ⟨multiples, hmultiples, h⟩ := mem_bind.mp h
  have hstart := (canonical_constantAffinePoint start).represents
  have hneg := (canonical_constantAffinePoint (-start)).represents
  have hsums : SumsInv Represents start P (2 ^ windowSize - 1) multiples := by
    refine forall_mem_foldlM_range (SumsInv Represents start P) ?_ ?_ multiples hmultiples
    · refine ⟨rfl, fun j hj => ?_⟩
      rw [Nat.le_zero.mp hj, zero_nsmul, add_zero]
      exact hstart
    · intro i _ s hs t ht
      obtain ⟨sum, hsum, ht⟩ := mem_bind.mp ht
      rw [mem_pure.mp ht]
      have hsum := hP.curveAdd (hs.sums i (Nat.le_refl i)) hsum
      rw [add_nsmul_start] at hsum
      exact hs.push hsum
  refine forall_mem_foldlM_range (MultiplesInv Represents start P) hsums.multiplesInv ?_ table h
  intro i hi s hs t ht
  obtain ⟨sum, hsum, ht⟩ := mem_bind.mp ht
  rw [mem_pure.mp ht]
  have hsum := hneg.curveAdd (hs.rest (i + 1) (Nat.lt_succ_self i) (Nat.add_lt_of_lt_sub hi)) hsum
  rw [neg_add_cancel_left] at hsum
  exact hs.set hi hsum

/-- Reduced coordinates, in all the limbs. -/
structure Complete (t : AffinePointTarget) (P : C.Point) : Prop where
  canonical : Canonical t P
  full : IsFull C t

theorem complete_fullPoint (P : C.Point) : Complete (fullPoint P) P :=
  ⟨canonical_fullPoint P, isFull_fullPoint P⟩

theorem exists_precomputeWindow (hP : Complete p P)
    (hstart : IsFull C (constantAffinePoint C start)) :
    ∃ table ∈ Plonky2Ed25519.precomputeWindow C start p, WindowTable Complete start P table := by
  have hneg := canonical_constantAffinePoint (-start)
  obtain ⟨multiples, hmultiples, hsums⟩ : ∃ multiples ∈ (List.range (2 ^ windowSize - 1)).foldlM
      (fun multiples i => do
        let sum ← Plonky2Ed25519.curveAdd C p (pointAt multiples i)
        return multiples ++ [sum]) [constantAffinePoint C start],
      SumsInv Complete start P (2 ^ windowSize - 1) multiples := by
    refine exists_mem_foldlM_range (SumsInv Complete start P) ?_ ?_
    · refine ⟨rfl, fun j hj => ?_⟩
      rw [Nat.le_zero.mp hj, zero_nsmul, add_zero]
      exact ⟨canonical_constantAffinePoint start, hstart⟩
    · intro i _ s hs
      have hsum := hP.canonical.curveAdd_mem (hs.sums i (Nat.le_refl i)).canonical (Or.inl hP.full)
      refine ⟨_, mem_bind.mpr ⟨_, hsum, mem_pure.mpr rfl⟩, hs.push ?_⟩
      rw [add_nsmul_start]
      exact complete_fullPoint _
  obtain ⟨table, htable, hinv⟩ : ∃ table ∈ (List.range (2 ^ windowSize - 1)).foldlM
      (fun multiples i => do
        let sum ← Plonky2Ed25519.curveAdd C (constantAffinePoint C (-start)) (pointAt multiples (i + 1))
        return multiples.set (i + 1) sum) multiples,
      WindowTable Complete start P table := by
    refine exists_mem_foldlM_range (MultiplesInv Complete start P) hsums.multiplesInv fun i hi s hs => ?_
    have hrest := hs.rest (i + 1) (Nat.lt_succ_self i) (Nat.add_lt_of_lt_sub hi)
    have hsum := hneg.curveAdd_mem hrest.canonical (Or.inr hrest.full)
    refine ⟨_, mem_bind.mpr ⟨_, hsum, mem_pure.mpr rfl⟩, hs.set hi ?_⟩
    rw [neg_add_cancel_left]
    exact complete_fullPoint _
  exact ⟨table, mem_bind.mpr ⟨multiples, hmultiples, htable⟩, hinv⟩

end

/-! ## windows -/

section
variable {start P X : C.Point} {table : List AffinePointTarget} {windows : List F} {t r : AffinePointTarget}

theorem not_isEqual (x y : F) : not (isEqual x y) = ((decide (x ≠ y)).toNat : F) := by
  rw [isEqual]
  by_cases h : x = y <;> simp [not, h]

/-- A window as the code takes it from the digits of the scalar. -/
theorem windowLt (v i : Nat) : v / 16 ^ i % 16 < 2 ^ windowSize := Nat.mod_lt _ (by decide)

theorem natCast_window_ne_zero {w : Nat} (hw : w < 2 ^ windowSize) : (w : F) ≠ 0 ↔ w ≠ 0 := by
  rw [Ne, ← Nat.cast_zero (R := F), natCast_inj (Nat.lt_trans hw (by decide)) (by decide)]

theorem val_window {w : Nat} (hw : w < 2 ^ windowSize) : (w : F).val = w :=
  val_natCast (Nat.lt_trans hw (by decide))

/-- Adding a window of zero changes nothing. -/
theorem ite_window {w : Nat} (hw : w < 2 ^ windowSize) {Q : C.Point} (hQ : w ≠ 0 → Q = w • P) :
    (if decide ((w : F) ≠ 0) then X + Q else X) = X + w • P := by
  by_cases h : w = 0
  · rw [if_neg (by simp [h]), h, zero_nsmul, add_zero]
  · rw [if_pos (by rwa [decide_eq_true_eq, natCast_window_ne_zero hw]), hQ h]

/-- The element that a window chooses. -/
theorem MultiplesInv.pointAt {good : AffinePointTarget → C.Point → Prop}
    (h : WindowTable good start P table) {w : Nat} (hw : w < 2 ^ windowSize) :
    ∃ Q, good (pointAt table w) Q ∧ (w ≠ 0 → Q = w • P) := by
  rcases Nat.eq_zero_or_pos w with rfl | hpos
  · exact ⟨start, h.first, fun h0 => absurd rfl h0⟩
  · exact ⟨w • P, h.done w hpos (Nat.le_sub_one_of_lt hw), fun _ => rfl⟩

/-- A step of the loop: four doublings, and the multiple of the window. -/
theorem Represents.windowStep (h : Represents t X) (htable : WindowTable Represents start P table)
    {i w : Nat} (hwindow : windows.getD i 0 = (w : F)) (hw : w < 2 ^ windowSize)
    (hr : r ∈ windowStep C table windows t i) : Represents r (16 • X + w • P) := by
  obtain ⟨Q, hgood, hQ⟩ := htable.pointAt hw
  have hlength : (w : F).val < table.length := by
    rwa [val_window hw, htable.length]
  simp only [Plonky2Ed25519.windowStep, hwindow, mem_bind, randomAccessCurvePoints_eq hlength,
    Set.mem_singleton_iff, exists_eq_left, val_window hw, not_isEqual] at hr
  obtain ⟨doubled, hdoubled, hr⟩ := hr
  have hdoubled : Represents doubled (16 • X) := h.curveRepeatedDouble hdoubled
  have hsum := hdoubled.curveConditionalAdd hgood.padPoint hr
  rwa [ite_window hw hQ] at hsum

theorem Complete.exists_windowStep (h : Complete t X) (htable : WindowTable Canonical start P table)
    {i w : Nat} (hwindow : windows.getD i 0 = (w : F)) (hw : w < 2 ^ windowSize) :
    ∃ r ∈ Plonky2Ed25519.windowStep C table windows t i, Complete r (16 • X + w • P) := by
  obtain ⟨Q, hgood, hQ⟩ := htable.pointAt hw
  have hlength : (w : F).val < table.length := by
    rwa [val_window hw, htable.length]
  obtain ⟨doubled, hdoubled, hcanonical, hfull⟩ := h.canonical.curveRepeatedDouble_mem h.full windowSize
  have hcanonical : Canonical doubled (16 • X) := hcanonical
  have hsum := hcanonical.curveConditionalAdd_mem hgood.padPoint (Or.inl hfull) (decide ((w : F) ≠ 0))
  rw [ite_window hw hQ] at hsum
  refine ⟨_, ?_, complete_fullPoint _⟩
  simp only [Plonky2Ed25519.windowStep, hwindow, mem_bind, randomAccessCurvePoints_eq hlength,
    Set.mem_singleton_iff, exists_eq_left, val_window hw, not_isEqual]
  exact ⟨doubled, hdoubled, hsum⟩

/-- The multiple that a number of windows, counted from the highest, has made. -/
def partialMul (X P : C.Point) (m u i : Nat) : C.Point := 16 ^ (m - i) • X + (u / 16 ^ i) • P

theorem partialMul_start {m u : Nat} (hu : u < 16 ^ m) : partialMul X P m u m = X := by
  rw [partialMul, Nat.sub_self, pow_zero, one_nsmul, Nat.div_eq_of_lt hu, zero_nsmul, add_zero]

theorem partialMul_step {m u i : Nat} (hi : i < m) :
    16 • partialMul X P m u (i + 1) + (u / 16 ^ i % 16) • P = partialMul X P m u i := by
  have hdigit : 16 * (u / 16 ^ (i + 1)) + u / 16 ^ i % 16 = u / 16 ^ i := by
    rw [pow_succ, ← Nat.div_div_eq_div_mul, Nat.div_add_mod]
  rw [partialMul, nsmul_add, ← mul_nsmul', ← mul_nsmul', add_assoc, ← add_nsmul, hdigit, ← pow_succ',
    show m - (i + 1) + 1 = m - i by omega, partialMul]

theorem partialMul_zero (m u : Nat) : partialMul X P m u 0 = 16 ^ m • X + u • P := by
  rw [partialMul, Nat.sub_zero, pow_zero, Nat.div_one]

theorem iterate_add_self (P : C.Point) (n : Nat) : (fun cur => cur + cur)^[n] P = 2 ^ n • P := by
  induction n with
  | zero => rw [Function.iterate_zero_apply, pow_zero, one_nsmul]
  | succ n ih => rw [Function.iterate_succ_apply', ih, two_pow_succ_nsmul]

end

section
variable {start P Q : C.Point} {p q r : AffinePointTarget} {n : NonNativeTarget} {numLimbs : Nat}

/-- What is left when the doubled starting point is subtracted. -/
theorem partialMul_sub (u : Nat) :
    partialMul (start + Q) P numLimbs u 0 + -(2 ^ (numLimbs * windowSize) • start) =
      16 ^ numLimbs • Q + u • P := by
  rw [partialMul_zero, nsmul_add, Nat.mul_comm, pow_mul, show 2 ^ windowSize = 16 from rfl]
  abel

/-- The windows of the scalar, from its lowest digits. -/
theorem windows_eq (hnum : numLimbs ≤ 8 * n.length) :
    (digitTargets 16 (8 * n.length) (value n)).take numLimbs =
      digitTargets 16 numLimbs (value n % 16 ^ numLimbs) := take_digitTargets hnum _

/-- The rows of the windowed multiplication accept the multiple by the lowest digits of the
scalar, and a multiple of the initial value beside it. -/
theorem Represents.curveScalarMulWindowedPart (hP : Represents p P) (hQ : Represents q Q)
    (hnum : numLimbs ≤ 8 * n.length) (hr : r ∈ curveScalarMulWindowedPart C start numLimbs p q n) :
    Represents r (16 ^ numLimbs • Q + (value n % 16 ^ numLimbs) • P) := by
  simp only [Plonky2Ed25519.curveScalarMulWindowedPart, mem_bind, iterate_add_self] at hr
  obtain ⟨first, hfirst, table, htable, windows, hwindows, result, hloop, toAdd, hneg, hr⟩ := hr
  obtain ⟨-, rfl⟩ := mem_splitNonnativeTo4BitLimbs.mp hwindows
  rw [windows_eq hnum, length_digitTargets] at hloop
  replace hfirst := (canonical_constantAffinePoint start).represents.curveAdd hQ hfirst
  replace htable := hP.precomputeWindow htable
  replace hneg := (canonical_constantAffinePoint _).represents.curveNeg hneg
  have hresult : Represents result (partialMul (start + Q) P numLimbs (value n % 16 ^ numLimbs) 0) := by
    refine forall_mem_foldlM_range_reverse
      (fun i t => Represents t (partialMul (start + Q) P numLimbs (value n % 16 ^ numLimbs) i))
      ?_ ?_ result hloop
    · rw [partialMul_start (Nat.mod_lt _ (Nat.pow_pos (by decide)))]
      exact hfirst
    · intro i hi s hs t ht
      rw [← partialMul_step hi]
      exact hs.windowStep htable (getD_digitTargets hi) (windowLt _ _) ht
  have hsum := hresult.curveAdd hneg hr
  rwa [partialMul_sub] at hsum

theorem Complete.exists_curveScalarMulWindowedPart (hP : Complete p P) (hQ : Canonical q Q)
    (hstart : IsFull C (constantAffinePoint C start)) (hrange : rangeCheckU32Circuit n)
    (hnum : numLimbs ≤ 8 * n.length) :
    ∃ r ∈ Plonky2Ed25519.curveScalarMulWindowedPart C start numLimbs p q n,
      Complete r (16 ^ numLimbs • Q + (value n % 16 ^ numLimbs) • P) := by
  have hfirst := (canonical_constantAffinePoint start).curveAdd_mem hQ (Or.inl hstart)
  obtain ⟨table, htable, hinv⟩ := exists_precomputeWindow hP hstart
  have hcanonical : WindowTable Canonical start P table :=
    ⟨hinv.length, hinv.first.canonical, fun j hpos hle => (hinv.done j hpos hle).canonical,
      fun j hlt hle => (hinv.rest j hlt hle).canonical⟩
  obtain ⟨result, hloop, hresult⟩ : ∃ result ∈ (List.range numLimbs).reverse.foldlM
      (Plonky2Ed25519.windowStep C table (digitTargets 16 numLimbs (value n % 16 ^ numLimbs)))
      (fullPoint (start + Q)),
      Complete result (partialMul (start + Q) P numLimbs (value n % 16 ^ numLimbs) 0) := by
    refine exists_mem_foldlM_range_reverse
      (fun i t => Complete t (partialMul (start + Q) P numLimbs (value n % 16 ^ numLimbs) i)) ?_ ?_
    · rw [partialMul_start (Nat.mod_lt _ (Nat.pow_pos (by decide)))]
      exact complete_fullPoint _
    · intro i hi s hs
      rw [← partialMul_step hi]
      exact hs.exists_windowStep hcanonical (getD_digitTargets hi) (windowLt _ _)
  obtain ⟨toAdd, hneg, hnegCanonical, -⟩ := (canonical_constantAffinePoint
    (2 ^ (numLimbs * windowSize) • start)).curveNeg_mem
  have hsum := hresult.canonical.curveAdd_mem hnegCanonical (Or.inl hresult.full)
  rw [partialMul_sub] at hsum
  refine ⟨_, ?_, complete_fullPoint _⟩
  simp only [Plonky2Ed25519.curveScalarMulWindowedPart, mem_bind, iterate_add_self]
  refine ⟨_, hfirst, table, htable, _, mem_splitNonnativeTo4BitLimbs.mpr ⟨hrange, rfl⟩, result, ?_,
    toAdd, hneg, hsum⟩
  rw [windows_eq hnum, length_digitTargets]
  exact hloop

end

section
variable {start P : C.Point} {p r : AffinePointTarget} {n : NonNativeTarget}
  (hlength : 8 * n.length = C.ScalarField.bits / windowSize)
include hlength

theorem value_lt_windows (hrange : rangeCheckU32Circuit n) :
    value n < 16 ^ (C.ScalarField.bits / windowSize) := by
  have hlt := value_lt hrange
  rwa [show 2 ^ 32 = 16 ^ 8 by decide, ← pow_mul, hlength] at hlt

/-- For a scalar with all the limbs the rows accept its multiple. -/
theorem Represents.curveScalarMulWindowed (hP : Represents p P) (hrange : rangeCheckU32Circuit n)
    (hr : r ∈ curveScalarMulWindowed C start p n) : Represents r (value n • P) := by
  have h := hP.curveScalarMulWindowedPart (canonical_constantAffinePoint 0).represents
    (Nat.le_of_eq hlength.symm) hr
  rwa [nsmul_zero, zero_add, Nat.mod_eq_of_lt (value_lt_windows hlength hrange)] at h

theorem Complete.exists_curveScalarMulWindowed (hP : Complete p P)
    (hstart : IsFull C (constantAffinePoint C start)) (hrange : rangeCheckU32Circuit n) :
    ∃ r ∈ Plonky2Ed25519.curveScalarMulWindowed C start p n, Complete r (value n • P) := by
  obtain ⟨r, hr, hcomplete⟩ := hP.exists_curveScalarMulWindowedPart (canonical_constantAffinePoint 0)
    hstart hrange (Nat.le_of_eq hlength.symm)
  rw [nsmul_zero, zero_add, Nat.mod_eq_of_lt (value_lt_windows hlength hrange)] at hcomplete
  exact ⟨r, hr, hcomplete⟩

end

/-! ## a fixed base -/

section
variable {P X : C.Point} {t r : AffinePointTarget} {n : NonNativeTarget}

theorem iterate_add_left (P : C.Point) (k : Nat) : (fun acc => P + acc)^[k] 0 = k • P := by
  induction k with
  | zero => rw [Function.iterate_zero_apply, zero_nsmul]
  | succ k ih => rw [Function.iterate_succ_apply', ih, succ_nsmul, add_comm]

theorem iterate_doublings (P : C.Point) (k : Nat) :
    (fun acc => (fun p => p + p)^[4] acc)^[k] P = 16 ^ k • P := by
  induction k with
  | zero => rw [Function.iterate_zero_apply, pow_zero, one_nsmul]
  | succ k ih => rw [Function.iterate_succ_apply', ih, iterate_add_self, ← mul_nsmul', pow_succ' 16,
      show 2 ^ 4 = 16 from rfl]

theorem pointAt_mulsPoint {j : Nat} (hj : j < 15) :
    pointAt (mulsPoint C P) (j + 1) = constantAffinePoint C ((j + 1) • P) := by
  have hlt : j < (((List.iterate (fun acc => P + acc) 0 16).drop 1).map (constantAffinePoint C)).length := by
    rw [List.length_map, List.length_drop, List.length_iterate]
    exact hj
  rw [mulsPoint, pointAt, List.getD_cons_succ, List.getD_eq_getElem _ _ hlt, List.getElem_map,
    List.getElem_drop, List.getElem_iterate, iterate_add_left, Nat.add_comm]

/-- The table holds the multiples, and the point itself for zero. -/
theorem windowTable_mulsPoint (P : C.Point) : WindowTable Canonical P P (mulsPoint C P) where
  length := by
    rw [mulsPoint, List.length_cons, List.length_map, List.length_drop, List.length_iterate]
    rfl
  first := by
    have h := canonical_constantAffinePoint ((0 + 1) • P)
    rwa [← pointAt_mulsPoint (by decide), Nat.zero_add, one_nsmul] at h
  done := by
    intro j hpos hle
    have hlt : j - 1 < 15 := Nat.lt_of_lt_of_le (Nat.sub_lt hpos Nat.one_pos) hle
    rw [← Nat.sub_add_cancel hpos, pointAt_mulsPoint hlt]
    exact canonical_constantAffinePoint _
  rest := fun j hlt hle => absurd (Nat.lt_of_lt_of_le hle hlt) (Nat.lt_irrefl _)

theorem val_lt_length_mulsPoint {w : Nat} (hw : w < 2 ^ windowSize) :
    (w : F).val < (mulsPoint C P).length := by
  rwa [val_window hw, (windowTable_mulsPoint P).length]

theorem Represents.fixedBaseStep (h : Represents t X) {w : Nat} (hw : w < 2 ^ windowSize)
    (hr : r ∈ fixedBaseStep C t ((w : F), P)) : Represents r (X + w • P) := by
  obtain ⟨Q, hgood, hQ⟩ := (windowTable_mulsPoint P).pointAt hw
  simp only [Plonky2Ed25519.fixedBaseStep, mem_bind,
    randomAccessCurvePoints_eq (val_lt_length_mulsPoint hw), Set.mem_singleton_iff, exists_eq_left,
    val_window hw, not_isEqual] at hr
  have hsum := h.curveConditionalAdd hgood.padPoint.represents hr
  rwa [ite_window hw hQ] at hsum

theorem Canonical.exists_fixedBaseStep (h : Canonical t X) {w : Nat} (hw : w < 2 ^ windowSize) :
    ∃ r ∈ Plonky2Ed25519.fixedBaseStep C t ((w : F), P), Complete r (X + w • P) := by
  obtain ⟨Q, hgood, hQ⟩ := (windowTable_mulsPoint P).pointAt hw
  have hsum := h.curveConditionalAdd_mem hgood.padPoint (Or.inr isFull_padPoint)
    (decide ((w : F) ≠ 0))
  rw [ite_window hw hQ] at hsum
  refine ⟨_, ?_, complete_fullPoint _⟩
  simp only [Plonky2Ed25519.fixedBaseStep, mem_bind,
    randomAccessCurvePoints_eq (val_lt_length_mulsPoint hw), Set.mem_singleton_iff, exists_eq_left,
    val_window hw, not_isEqual]
  exact hsum

/-- The digits of the scalar beside the multiples of the base that they count. -/
theorem zip_scaledBase (m v : Nat) :
    (digitTargets 16 m v).zip (List.iterate (fun acc => (fun p => p + p)^[4] acc) P m) =
      (List.range m).map fun i : Nat => (((v / 16 ^ i % 16 : Nat) : F), 16 ^ i • P) := by
  apply List.ext_getElem
  · simp
  · intro i h1 h2
    have hi : i < m := by rwa [List.length_map, List.length_range] at h2
    rw [List.getElem_zip, List.getElem_map, List.getElem_range, List.getElem_iterate, iterate_doublings,
      ← getD_digitTargets hi, List.getD_eq_getElem _ _ (by rwa [length_digitTargets])]

/-- A digit more of the scalar. -/
theorem digit_step (X P : C.Point) (v i : Nat) :
    X + (v % 16 ^ i) • P + (v / 16 ^ i % 16) • 16 ^ i • P = X + (v % 16 ^ (i + 1)) • P := by
  rw [add_assoc, ← mul_nsmul', ← add_nsmul, Nat.mod_pow_succ, Nat.mul_comm]

variable {rando : C.Point}

theorem value_lt_digits (hrange : rangeCheckU32Circuit n) : value n < 16 ^ (8 * n.length) := by
  have hlt := value_lt hrange
  rwa [show 2 ^ 32 = 16 ^ 8 by decide, ← pow_mul] at hlt

/-- The rows of the multiplication of a fixed base accept the multiple, whatever the point they
start from. -/
theorem Represents.fixedBaseCurveMulCircuit (hr : r ∈ fixedBaseCurveMulCircuit C rando P n) :
    rangeCheckU32Circuit n ∧ Represents r (value n • P) := by
  simp only [Plonky2Ed25519.fixedBaseCurveMulCircuit, mem_bind] at hr
  obtain ⟨limbs, hlimbs, result, hloop, hr⟩ := hr
  obtain ⟨hrange, rfl⟩ := mem_splitNonnativeTo4BitLimbs.mp hlimbs
  rw [Nat.mul_comm n.length, zip_scaledBase, List.foldlM_map] at hloop
  have hresult : Represents result (rando + (value n % 16 ^ (8 * n.length)) • P) := by
    refine forall_mem_foldlM_range (fun i t => Represents t (rando + (value n % 16 ^ i) • P)) ?_ ?_
      result hloop
    · rw [pow_zero, Nat.mod_one, zero_nsmul, add_zero]
      exact (canonical_constantAffinePoint rando).represents
    · intro i _ s hs t ht
      rw [← digit_step]
      exact hs.fixedBaseStep (windowLt _ _) ht
  rw [Nat.mod_eq_of_lt (value_lt_digits hrange)] at hresult
  have hsum := hresult.curveAdd (canonical_constantAffinePoint (-rando)).represents hr
  rw [add_neg_cancel_comm] at hsum
  exact ⟨hrange, hsum⟩

theorem exists_fixedBaseCurveMulCircuit (hrange : rangeCheckU32Circuit n) (hpos : 0 < n.length) :
    ∃ r ∈ Plonky2Ed25519.fixedBaseCurveMulCircuit C rando P n, Complete r (value n • P) := by
  obtain ⟨result, hloop, hresult, hfull⟩ : ∃ result ∈ (List.range (8 * n.length)).foldlM
      (fun t i => Plonky2Ed25519.fixedBaseStep C t (((value n / 16 ^ i % 16 : Nat) : F), 16 ^ i • P))
      (constantAffinePoint C rando),
      Canonical result (rando + (value n % 16 ^ (8 * n.length)) • P) ∧
        (0 < 8 * n.length → IsFull C result) := by
    refine exists_mem_foldlM_range
      (fun i t => Canonical t (rando + (value n % 16 ^ i) • P) ∧ (0 < i → IsFull C t)) ?_ ?_
    · rw [pow_zero, Nat.mod_one, zero_nsmul, add_zero]
      exact ⟨canonical_constantAffinePoint rando, fun h => absurd h (Nat.lt_irrefl 0)⟩
    · rintro i - s ⟨hs, -⟩
      obtain ⟨t, ht, hcomplete⟩ := @Canonical.exists_fixedBaseStep C (16 ^ i • P) _ _ hs _ (windowLt (value n) i)
      rw [digit_step] at hcomplete
      exact ⟨t, ht, hcomplete.canonical, fun _ => hcomplete.full⟩
  have hsum := hresult.curveAdd_mem (canonical_constantAffinePoint (-rando)) (Or.inl (hfull (by omega)))
  rw [Nat.mod_eq_of_lt (value_lt_digits hrange), add_neg_cancel_comm] at hsum
  refine ⟨_, ?_, complete_fullPoint _⟩
  simp only [Plonky2Ed25519.fixedBaseCurveMulCircuit, mem_bind]
  refine ⟨_, mem_splitNonnativeTo4BitLimbs.mpr ⟨hrange, rfl⟩, result, ?_, hsum⟩
  rw [Nat.mul_comm n.length, zip_scaledBase, List.foldlM_map]
  exact hloop

end

end GearBridges.Plonky2Ed25519
