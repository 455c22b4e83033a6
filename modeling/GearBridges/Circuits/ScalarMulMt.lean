import GearBridges.Circuits.ScalarMul

/-!
# Circuits.ScalarMulMt

The multiplication of `curve_windowed_mul_mt.rs`: two proofs of the windowed circuit, each over
one half of the limbs of the scalar, and an outer circuit that verifies both and connects what
they publish.  The upper half starts from zero and its result is where the lower half starts, so
the outer circuit publishes the multiple by the whole scalar (`Represents.mtCircuit`,
`exists_mtCircuit`).  What plonky2's `verify_proof` accepts is a parameter: it is sound and
complete for the inner circuit (`VerifierSound`, `VerifierComplete`).
-/

namespace GearBridges.Plonky2Ed25519

open Goldilocks Outcomes Plonky2U32 Plonky2Ecdsa

attribute [local instance] Set.monad

/-- `NUM_LIMBS`. -/
def numLimbsMt : Nat := 32

/-- `CurveScalarMulWindowedPartTarget`. -/
structure CurveScalarMulWindowedPartTarget where
  pTarget : AffinePointTarget
  qInitTarget : AffinePointTarget
  nTarget : NonNativeTarget
  qTarget : AffinePointTarget

/-- `register_public_affine_point_target`. -/
def publicAffinePoint (target : AffinePointTarget) : List F := target.x ++ target.y

/-- What `build_curve_scalar_mul_windowed_part_circuit` registers. -/
def CurveScalarMulWindowedPartTarget.publicInputs (t : CurveScalarMulWindowedPartTarget) : List F :=
  publicAffinePoint t.pTarget ++ publicAffinePoint t.qInitTarget ++ t.nTarget ++ publicAffinePoint t.qTarget

variable (C : Curve)

/-- `build_curve_scalar_mul_windowed_part_circuit`. -/
def partCircuit (start : C.Point) : Set CurveScalarMulWindowedPartTarget := do
  let pTarget ← addVirtualAffinePointTarget C
  let qInitTarget ← addVirtualAffinePointTarget C
  let nTarget ← addVirtualNonnativeTarget C.ScalarField
  let qTarget ← curveScalarMulWindowedPart C start numLimbsMt pTarget qInitTarget nTarget
  return ⟨pTarget, qInitTarget, nTarget, qTarget⟩

/-- The public inputs that `verify_proof` accepts a proof of are those of a solution of the
inner circuit. -/
def VerifierSound (start : C.Point) (verifyProof : Set (List F)) : Prop :=
  ∀ inputs ∈ verifyProof, ∃ t ∈ partCircuit C start, inputs = t.publicInputs

/-- For every solution of the inner circuit there is a proof that `verify_proof` accepts. -/
def VerifierComplete (start : C.Point) (verifyProof : Set (List F)) : Prop :=
  ∀ t ∈ partCircuit C start, t.publicInputs ∈ verifyProof

/-- `load_curve_scalar_mul_windowed_part_circuit_public_inputs_target`. -/
def loadPublicInputs (publicInputTargets : List F) : Set CurveScalarMulWindowedPartTarget := do
  let pTarget ← addVirtualAffinePointTarget C
  let qInitTarget ← addVirtualAffinePointTarget C
  let nTarget ← addVirtualNonnativeTarget C.ScalarField
  let qTarget ← addVirtualAffinePointTarget C
  let t : CurveScalarMulWindowedPartTarget := ⟨pTarget, qInitTarget, nTarget, qTarget⟩
  guard (publicInputTargets = t.publicInputs)
  return t

/-- The targets of `CurveScalarMulMtData`. -/
structure CurveScalarMulMtTarget where
  pTarget : AffinePointTarget
  nTarget : NonNativeTarget
  qTarget : AffinePointTarget

/-- The halves of the scalar are those of the two proofs. -/
def connectHalves (n n0 n1 : NonNativeTarget) : Prop :=
  (∀ i < n.length / 2, n.getD i 0 = n1.getD i 0 ∧ n.getD (i + n.length / 2) 0 = n0.getD i 0) ∧
    ∀ i < n.length, n.length / 2 ≤ i → n0.getD i 0 = 0 ∧ n1.getD i 0 = 0

instance (n n0 n1 : NonNativeTarget) : Decidable (connectHalves n n0 n1) :=
  inferInstanceAs (Decidable (_ ∧ _))

/-- `build_curve_scalar_mul_windowed_mt_circuit`, over the public inputs of the proofs that
`verify_proof` accepts. -/
def mtCircuit (verifyProof : Set (List F)) : Set CurveScalarMulMtTarget := do
  let proof0 ← verifyProof
  let proof1 ← verifyProof
  let pTarget ← addVirtualAffinePointTarget C
  let nTarget ← addVirtualNonnativeTarget C.ScalarField
  let qTarget ← addVirtualAffinePointTarget C
  let proof0Targets ← loadPublicInputs C proof0
  let proof1Targets ← loadPublicInputs C proof1
  guard (connectAffinePoint pTarget proof0Targets.pTarget)
  guard (connectAffinePoint pTarget proof1Targets.pTarget)
  guard (connectHalves nTarget proof0Targets.nTarget proof1Targets.nTarget)
  guard (connectAffinePoint qTarget proof1Targets.qTarget)
  guard (connectAffinePoint proof0Targets.qTarget proof1Targets.qInitTarget)
  guard (connectAffinePoint (constantAffinePoint C 0) proof0Targets.qInitTarget)
  return ⟨pTarget, nTarget, qTarget⟩

variable {C}

/-! ## what connections carry over -/

section
variable {a b : BigUintTarget}

/-- Limbs that are connected to at most as many limbs repeat them and go on with zeros. -/
theorem eq_append_of_connectBiguint (h : connectBiguint a b) (hle : a.length ≤ b.length) :
    b = a ++ List.replicate (b.length - a.length) 0 := by
  obtain ⟨heq, -, hzero⟩ := h
  rw [Nat.min_eq_left hle] at heq hzero
  apply List.ext_getElem
  · rw [List.length_append, List.length_replicate]
    omega
  · intro i h1 h2
    by_cases hi : i < a.length
    · rw [List.getElem_append_left hi, ← List.getD_eq_getElem _ 0 h1, ← List.getD_eq_getElem _ 0 hi]
      exact (heq i hi).symm
    · rw [List.getElem_append_right (Nat.le_of_not_lt hi), List.getElem_replicate]
      exact hzero _ (List.mem_drop_iff_getElem.mpr ⟨i - a.length, by omega, by congr 1; omega⟩)

theorem connectBiguint_self (a : BigUintTarget) : connectBiguint a a := by
  refine ⟨fun _ _ => rfl, ?_, ?_⟩ <;> rw [Nat.min_self, List.drop_length] <;>
    exact fun x hx => absurd hx List.not_mem_nil

end

theorem Stands.connect {ff : PrimeField} {a b : NonNativeTarget} {z : ZMod ff.order} (h : Stands ff a z)
    (hconnect : connectNonnative a b) (hb : b.length = ff.numLimbs) : Stands ff b z := by
  have heq := eq_append_of_connectBiguint hconnect (hb ▸ h.length)
  refine ⟨?_, Nat.le_of_eq hb, ?_⟩
  · rw [heq]
    exact rangeCheck_append_zeros h.range _
  · rw [heq, value_append_zeros]
    exact h.residue

theorem Represents.connect {t u : AffinePointTarget} {P : C.Point} (h : Represents t P)
    (hconnect : connectAffinePoint t u) (hu : IsFull C u) : Represents u P :=
  ⟨h.x.connect hconnect.1 hu.x, h.y.connect hconnect.2 hu.y⟩

theorem connectAffinePoint_self (t : AffinePointTarget) : connectAffinePoint t t :=
  ⟨connectBiguint_self _, connectBiguint_self _⟩

theorem eq_of_connectNonnative {a b : NonNativeTarget} (h : connectNonnative a b)
    (hlength : a.length = b.length) : b = a := by
  have heq := eq_append_of_connectBiguint h (Nat.le_of_eq hlength)
  rwa [hlength, Nat.sub_self, List.replicate_zero, List.append_nil] at heq

theorem eq_of_connectAffinePoint {t u : AffinePointTarget} (h : connectAffinePoint t u)
    (ht : IsFull C t) (hu : IsFull C u) : u = t := by
  obtain ⟨x, y⟩ := u
  have hx : x = t.x := eq_of_connectNonnative h.1 (ht.x.trans hu.x.symm)
  have hy : y = t.y := eq_of_connectNonnative h.2 (ht.y.trans hu.y.symm)
  rw [hx, hy]

/-! ## public inputs -/

/-- The lengths that the targets of the windowed circuit have. -/
structure IsPart (C : Curve) (t : CurveScalarMulWindowedPartTarget) : Prop where
  p : IsFull C t.pTarget
  qInit : IsFull C t.qInitTarget
  n : t.nTarget.length = C.ScalarField.numLimbs
  q : IsFull C t.qTarget

theorem mem_addVirtualAffinePointTarget {t : AffinePointTarget} :
    t ∈ addVirtualAffinePointTarget C ↔ IsFull C t := by
  simp only [addVirtualAffinePointTarget, mem_bind, mem_pure]
  constructor
  · rintro ⟨x, hx, y, hy, rfl⟩
    exact ⟨hx, hy⟩
  · intro h
    exact ⟨t.x, h.x, t.y, h.y, rfl⟩

theorem isFull_curveAdd {t u r : AffinePointTarget} (h : r ∈ curveAdd C t u) : IsFull C r := by
  simp only [curveAdd, mulNonnative, mem_bind, mem_pure] at h
  obtain ⟨-, -, -, -, -, -, -, -, -, -, -, -, -, -, -, -, -, -, -, -, -, -, -, -, -, -,
    x3, ⟨-, -, prod, hx, -, -, -, -, rfl⟩, y3, ⟨-, -, prod', hy, -, -, -, -, rfl⟩, rfl⟩ := h
  exact ⟨hx, hy⟩

theorem mem_partCircuit {start : C.Point} {t : CurveScalarMulWindowedPartTarget} :
    t ∈ partCircuit C start ↔ IsPart C t ∧
      t.qTarget ∈ curveScalarMulWindowedPart C start numLimbsMt t.pTarget t.qInitTarget t.nTarget := by
  simp only [partCircuit, mem_bind, mem_pure, mem_addVirtualAffinePointTarget]
  constructor
  · rintro ⟨p, hp, qInit, hqInit, n, hn, q, hq, rfl⟩
    refine ⟨⟨hp, hqInit, hn, ?_⟩, hq⟩
    simp only [curveScalarMulWindowedPart, mem_bind] at hq
    obtain ⟨_, _, _, _, _, _, _, _, _, _, hq⟩ := hq
    exact isFull_curveAdd hq
  · rintro ⟨h, hq⟩
    exact ⟨_, h.p, _, h.qInit, _, h.n, _, hq, rfl⟩

theorem publicAffinePoint_inj {t u : AffinePointTarget} (ht : IsFull C t) (hu : IsFull C u)
    (h : publicAffinePoint t = publicAffinePoint u) : t = u := by
  obtain ⟨x, y⟩ := t
  obtain ⟨hx, hy⟩ := List.append_inj h (ht.x.trans hu.x.symm)
  exact congrArg₂ AffinePointTarget.mk hx hy

theorem length_publicAffinePoint {t : AffinePointTarget} (h : IsFull C t) :
    (publicAffinePoint t).length = C.BaseField.numLimbs + C.BaseField.numLimbs := by
  rw [publicAffinePoint, List.length_append, h.x, h.y]

/-- The public inputs determine the targets. -/
theorem IsPart.publicInputs_inj {t u : CurveScalarMulWindowedPartTarget} (ht : IsPart C t)
    (hu : IsPart C u) (h : t.publicInputs = u.publicInputs) : t = u := by
  obtain ⟨p, qInit, n, q⟩ := t
  have hlp := (length_publicAffinePoint ht.p).trans (length_publicAffinePoint hu.p).symm
  have hlq := (length_publicAffinePoint ht.qInit).trans (length_publicAffinePoint hu.qInit).symm
  have hln := ht.n.trans hu.n.symm
  simp only [CurveScalarMulWindowedPartTarget.publicInputs, List.append_assoc] at h
  obtain ⟨hp, h⟩ := List.append_inj h hlp
  obtain ⟨hqInit, h⟩ := List.append_inj h hlq
  obtain ⟨hn, hq⟩ := List.append_inj h hln
  congr 1
  · exact publicAffinePoint_inj ht.p hu.p hp
  · exact publicAffinePoint_inj ht.qInit hu.qInit hqInit
  · exact publicAffinePoint_inj ht.q hu.q hq

/-- What is loaded from public inputs are the targets that publish them. -/
theorem mem_loadPublicInputs {inputs : List F} {t : CurveScalarMulWindowedPartTarget} :
    t ∈ loadPublicInputs C inputs ↔ IsPart C t ∧ inputs = t.publicInputs := by
  simp only [loadPublicInputs, mem_bind, exists_mem_guard, mem_pure, mem_addVirtualAffinePointTarget]
  constructor
  · rintro ⟨p, hp, qInit, hqInit, n, hn, q, hq, heq, rfl⟩
    exact ⟨⟨hp, hqInit, hn, hq⟩, heq⟩
  · rintro ⟨h, heq⟩
    exact ⟨_, h.p, _, h.qInit, _, h.n, _, h.q, heq, rfl⟩

/-- What a proof publishes is a solution of the inner circuit. -/
theorem VerifierSound.mem_partCircuit {start : C.Point} {verifyProof : Set (List F)}
    (h : VerifierSound C start verifyProof) {t : CurveScalarMulWindowedPartTarget} (ht : IsPart C t)
    (hmem : t.publicInputs ∈ verifyProof) : t ∈ partCircuit C start := by
  obtain ⟨u, hu, heq⟩ := h _ hmem
  rwa [ht.publicInputs_inj (Plonky2Ed25519.mem_partCircuit.mp hu).1 heq]

/-- The rows of the outer circuit over the targets of the two proofs. -/
theorem mem_mtCircuit {verifyProof : Set (List F)} {m : CurveScalarMulMtTarget} :
    m ∈ mtCircuit C verifyProof ↔ ∃ part0 part1,
      (IsPart C part0 ∧ part0.publicInputs ∈ verifyProof) ∧
      (IsPart C part1 ∧ part1.publicInputs ∈ verifyProof) ∧
      IsFull C m.pTarget ∧ m.nTarget.length = C.ScalarField.numLimbs ∧ IsFull C m.qTarget ∧
      part0.pTarget = m.pTarget ∧ part1.pTarget = m.pTarget ∧
      connectHalves m.nTarget part0.nTarget part1.nTarget ∧ part1.qTarget = m.qTarget ∧
      part1.qInitTarget = part0.qTarget ∧
      connectAffinePoint (constantAffinePoint C 0) part0.qInitTarget := by
  simp only [mtCircuit, mem_bind, exists_mem_guard, mem_pure, mem_addVirtualAffinePointTarget,
    mem_loadPublicInputs]
  constructor
  · rintro ⟨_, hproof0, _, hproof1, p, hp, n, hn, q, hq, part0, ⟨hpart0, rfl⟩, part1, ⟨hpart1, rfl⟩,
      hp0, hp1, hn01, hq1, hq0, hstart, rfl⟩
    exact ⟨part0, part1, ⟨hpart0, hproof0⟩, ⟨hpart1, hproof1⟩, hp, hn, hq,
      eq_of_connectAffinePoint hp0 hp hpart0.p, eq_of_connectAffinePoint hp1 hp hpart1.p, hn01,
      eq_of_connectAffinePoint hq1 hq hpart1.q, eq_of_connectAffinePoint hq0 hpart0.q hpart1.qInit,
      hstart⟩
  · rintro ⟨part0, part1, ⟨hpart0, hproof0⟩, ⟨hpart1, hproof1⟩, hp, hn, hq, hp0, hp1, hn01, hq1, hq0,
      hstart⟩
    refine ⟨_, hproof0, _, hproof1, _, hp, _, hn, _, hq, part0, ⟨hpart0, rfl⟩, part1, ⟨hpart1, rfl⟩,
      ?_, ?_, hn01, ?_, ?_, hstart, rfl⟩
    · rw [hp0]
      exact connectAffinePoint_self _
    · rw [hp1]
      exact connectAffinePoint_self _
    · rw [hq1]
      exact connectAffinePoint_self _
    · rw [hq0]
      exact connectAffinePoint_self _

/-! ## the two halves -/

theorem eq_of_getD {a b : NonNativeTarget} (hlength : a.length = b.length)
    (h : ∀ i < a.length, a.getD i 0 = b.getD i 0) : a = b := by
  apply List.ext_getElem hlength
  intro i h1 h2
  rw [← List.getD_eq_getElem _ 0 h1, ← List.getD_eq_getElem _ 0 h2]
  exact h i h1

section
variable {n : NonNativeTarget} (hn : n.length = 8) (i : Nat)
include hn

theorem getD_lowHalf :
    (n.take 4 ++ List.replicate 4 0).getD i 0 = if i < 4 then n.getD i 0 else 0 := by
  have hlength : (n.take 4).length = 4 := by rw [List.length_take, hn]; rfl
  by_cases hi : i < 4
  · rw [List.getD_append _ _ _ _ (hlength.symm ▸ hi), if_pos hi]
    simp [List.getD_eq_getElem?_getD, hi]
  · rw [List.getD_append_right _ _ _ _ (hlength.symm ▸ Nat.le_of_not_lt hi), if_neg hi]
    simp [List.getD_eq_getElem?_getD]
    grind

theorem getD_highHalf :
    (n.drop 4 ++ List.replicate 4 0).getD i 0 = if i < 4 then n.getD (i + 4) 0 else 0 := by
  have hlength : (n.drop 4).length = 4 := by rw [List.length_drop, hn]
  by_cases hi : i < 4
  · rw [List.getD_append _ _ _ _ (hlength.symm ▸ hi), if_pos hi]
    simp [List.getD_eq_getElem?_getD, Nat.add_comm]
  · rw [List.getD_append_right _ _ _ _ (hlength.symm ▸ Nat.le_of_not_lt hi), if_neg hi]
    simp [List.getD_eq_getElem?_getD]
    grind

end

/-- Connected halves are the lower and the upper limbs of the scalar, with zeros behind. -/
theorem connectHalves_iff {n n0 n1 : NonNativeTarget} (hn : n.length = 8) (h0 : n0.length = 8)
    (h1 : n1.length = 8) :
    connectHalves n n0 n1 ↔
      n0 = n.drop 4 ++ List.replicate 4 0 ∧ n1 = n.take 4 ++ List.replicate 4 0 := by
  rw [connectHalves, hn]
  constructor
  · rintro ⟨hlow, hhigh⟩
    constructor
    · refine eq_of_getD (by simp [hn, h0]) fun i hi => ?_
      rw [getD_highHalf hn]
      split
      next hi => exact (hlow i hi).2.symm
      next hle => exact (hhigh i (h0 ▸ hi) (Nat.le_of_not_lt hle)).1
    · refine eq_of_getD (by simp [hn, h1]) fun i hi => ?_
      rw [getD_lowHalf hn]
      split
      next hi => exact (hlow i hi).1.symm
      next hle => exact (hhigh i (h1 ▸ hi) (Nat.le_of_not_lt hle)).2
  · rintro ⟨rfl, rfl⟩
    refine ⟨fun i hi => ?_, fun i _ hi => ?_⟩
    · rw [getD_lowHalf hn, getD_highHalf hn, if_pos hi, if_pos hi]
      exact ⟨rfl, rfl⟩
    · rw [getD_lowHalf hn, getD_highHalf hn, if_neg (Nat.not_lt.mpr hi), if_neg (Nat.not_lt.mpr hi)]
      exact ⟨rfl, rfl⟩

theorem rangeCheck_halves {n : NonNativeTarget} (hrange : rangeCheckU32Circuit n) :
    rangeCheckU32Circuit (n.take 4 ++ List.replicate 4 0) ∧
      rangeCheckU32Circuit (n.drop 4 ++ List.replicate 4 0) :=
  ⟨rangeCheck_append_zeros (fun x hx => hrange x (List.mem_of_mem_take hx)) _,
    rangeCheck_append_zeros (fun x hx => hrange x (List.mem_of_mem_drop hx)) _⟩

section
variable {n : NonNativeTarget} (hn : n.length = 8)
include hn

theorem value_halves : value n = value (n.take 4) + 16 ^ numLimbsMt * value (n.drop 4) := by
  conv_lhs => rw [← List.take_append_drop 4 n]
  rw [value_append, List.length_take, hn]
  rfl

/-- A half is all that the circuit reads of its scalar. -/
theorem value_half (hrange : rangeCheckU32Circuit n) :
    value (n.take 4 ++ List.replicate 4 0) % 16 ^ numLimbsMt = value (n.take 4) ∧
      value (n.drop 4 ++ List.replicate 4 0) % 16 ^ numLimbsMt = value (n.drop 4) := by
  have hlow := value_lt fun x hx => hrange x (List.mem_of_mem_take (i := 4) hx)
  have hhigh := value_lt fun x hx => hrange x (List.mem_of_mem_drop (i := 4) hx)
  rw [List.length_take, hn] at hlow
  rw [List.length_drop, hn] at hhigh
  rw [value_append_zeros, value_append_zeros]
  exact ⟨Nat.mod_eq_of_lt hlow, Nat.mod_eq_of_lt hhigh⟩

end

variable {start P : C.Point} {verifyProof : Set (List F)}

theorem rangeCheck_of_curveScalarMulWindowedPart {p q r : AffinePointTarget} {n : NonNativeTarget}
    {numLimbs : Nat} (h : r ∈ curveScalarMulWindowedPart C start numLimbs p q n) :
    rangeCheckU32Circuit n := by
  simp only [curveScalarMulWindowedPart, mem_bind] at h
  obtain ⟨_, _, _, _, _, hwindows, _⟩ := h
  exact (mem_splitNonnativeTo4BitLimbs.mp hwindows).1

/-- The two proofs make the multiple by the whole scalar. -/
theorem Represents.mtCircuit {m : CurveScalarMulMtTarget} (hlimbs : C.ScalarField.numLimbs = 8)
    (hsound : VerifierSound C start verifyProof) (hm : m ∈ mtCircuit C verifyProof)
    (hP : Represents m.pTarget P) :
    rangeCheckU32Circuit m.nTarget ∧ Represents m.qTarget (value m.nTarget • P) := by
  obtain ⟨part0, part1, ⟨hpart0, h0⟩, ⟨hpart1, h1⟩, -, hn, -, hp0, hp1, hn01, hq1, hq0, hzero⟩ :=
    mem_mtCircuit.mp hm
  have hmul0 := (mem_partCircuit.mp (hsound.mem_partCircuit hpart0 h0)).2
  have hmul1 := (mem_partCircuit.mp (hsound.mem_partCircuit hpart1 h1)).2
  rw [hlimbs] at hn
  obtain ⟨hhigh, hlow⟩ := (connectHalves_iff hn (hpart0.n.trans hlimbs) (hpart1.n.trans hlimbs)).mp hn01
  have hrange0 := rangeCheck_of_curveScalarMulWindowedPart hmul0
  have hrange1 := rangeCheck_of_curveScalarMulWindowedPart hmul1
  rw [hhigh] at hrange0
  rw [hlow] at hrange1
  have hrange : rangeCheckU32Circuit m.nTarget := by
    intro x hx
    rw [← List.take_append_drop 4 m.nTarget] at hx
    rcases List.mem_append.mp hx with hx | hx
    · exact hrange1 x (List.mem_append_left _ hx)
    · exact hrange0 x (List.mem_append_left _ hx)
  refine ⟨hrange, ?_⟩
  obtain ⟨hvalue1, hvalue0⟩ := value_half hn hrange
  have hstart := (canonical_constantAffinePoint (C := C) 0).represents.connect hzero hpart0.qInit
  have hupper := (hp0 ▸ hP).curveScalarMulWindowedPart hstart
    (by rw [hpart0.n, hlimbs]; decide) hmul0
  rw [hhigh, hvalue0, nsmul_zero, zero_add, ← hq0] at hupper
  have hwhole := (hp1 ▸ hP).curveScalarMulWindowedPart hupper
    (by rw [hpart1.n, hlimbs]; decide) hmul1
  rw [hlow, hvalue1, ← mul_nsmul', ← add_nsmul, Nat.add_comm, ← value_halves hn, hq1] at hwhole
  exact hwhole

/-- The multiple of a point is accepted for every scalar. -/
theorem exists_mtCircuit {p : AffinePointTarget} {n : NonNativeTarget}
    (hlimbs : C.ScalarField.numLimbs = 8) (hcomplete : VerifierComplete C start verifyProof)
    (hstart : IsFull C (constantAffinePoint C start))
    (hP : Complete p P) (hn : n.length = 8) (hrange : rangeCheckU32Circuit n) :
    ∃ q, (⟨p, n, q⟩ : CurveScalarMulMtTarget) ∈ Plonky2Ed25519.mtCircuit C verifyProof ∧
      Complete q (value n • P) := by
  obtain ⟨hrange1, hrange0⟩ := rangeCheck_halves hrange
  obtain ⟨hvalue1, hvalue0⟩ := value_half hn hrange
  have hlength0 : (n.drop 4 ++ List.replicate 4 (0 : F)).length = 8 := by simp [hn]
  have hlength1 : (n.take 4 ++ List.replicate 4 (0 : F)).length = 8 := by simp [hn]
  obtain ⟨q0, hq0, hupper⟩ := hP.exists_curveScalarMulWindowedPart
    (canonical_fullPoint 0) hstart hrange0 (show numLimbsMt ≤ _ by rw [hlength0]; decide)
  rw [hvalue0, nsmul_zero, zero_add] at hupper
  obtain ⟨q, hq, hwhole⟩ := hP.exists_curveScalarMulWindowedPart
    hupper.canonical hstart hrange1 (show numLimbsMt ≤ _ by rw [hlength1]; decide)
  rw [hvalue1, ← mul_nsmul', ← add_nsmul, Nat.add_comm, ← value_halves hn] at hwhole
  have hpart0 : IsPart C ⟨p, fullPoint 0, n.drop 4 ++ List.replicate 4 0, q0⟩ :=
    ⟨hP.full, isFull_fullPoint 0, hlength0.trans hlimbs.symm, hupper.full⟩
  have hpart1 : IsPart C ⟨p, q0, n.take 4 ++ List.replicate 4 0, q⟩ :=
    ⟨hP.full, hupper.full, hlength1.trans hlimbs.symm, hwhole.full⟩
  refine ⟨q, mem_mtCircuit.mpr ⟨_, _, ⟨hpart0, hcomplete _ (mem_partCircuit.mpr ⟨hpart0, hq0⟩)⟩,
    ⟨hpart1, hcomplete _ (mem_partCircuit.mpr ⟨hpart1, hq⟩)⟩, hP.full, hn.trans hlimbs.symm, hwhole.full, rfl, rfl,
    (connectHalves_iff hn hlength0 hlength1).mpr ⟨rfl, rfl⟩, rfl, rfl, ?_⟩, hwhole⟩
  have hconstant := canonical_constantAffinePoint (C := C) 0
  have hfull := canonical_fullPoint (C := C) 0
  exact ⟨(connectBiguint_iff hconstant.x.range hfull.x.range).mpr (hconstant.x.value.trans hfull.x.value.symm),
    (connectBiguint_iff hconstant.y.range hfull.y.range).mpr (hconstant.y.value.trans hfull.y.value.symm)⟩

end GearBridges.Plonky2Ed25519
