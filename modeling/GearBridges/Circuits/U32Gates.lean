import GearBridges.Circuits.ArithmeticU32
import GearBridges.Lib.SmallLimbs

/-!
# Circuits.U32Gates

The gates of `plonky2_u32` over 32-bit values, wire by wire: the constraints of a row, the
values the generators fill in, and that the rows meeting the constraints are those whose
operations are related as `Circuits.ArithmeticU32` takes them to be.

A row holds as many operations as fit.  The routed wires of the operations stand side by
side, and after the last of them the two-bit limbs of each operation (`rowOf`).  The
constraints are evaluated over any ring; a row of the trace is over the field.
-/

namespace GearBridges.Plonky2U32

open Goldilocks

/-- The part of the configuration that says how many operations a row holds. -/
structure CircuitConfig where
  numWires : Nat
  numRoutedWires : Nat

/-- All constraints evaluate to zero. -/
def AllZero {R : Type} [Zero R] (constraints : List R) : Prop := ∀ c ∈ constraints, c = 0

/-! ## rows -/

/-- The row with these routed wires and limbs of each operation. -/
def rowOf (routedPerOp limbsPerOp numOps : Nat) (routed limbs : Nat → Nat → F) (w : Nat) : F :=
  if w < routedPerOp * numOps then routed (w / routedPerOp) (w % routedPerOp)
  else limbs ((w - routedPerOp * numOps) / limbsPerOp) ((w - routedPerOp * numOps) % limbsPerOp)

section
variable {routedPerOp limbsPerOp numOps i : Nat} {routed limbs : Nat → Nat → F}

theorem rowOf_routed {c : Nat} (hi : i < numOps) (hc : c < routedPerOp) :
    rowOf routedPerOp limbsPerOp numOps routed limbs (routedPerOp * i + c) = routed i c := by
  have hpos : 0 < routedPerOp := Nat.lt_of_le_of_lt (Nat.zero_le c) hc
  have hlt : routedPerOp * i + c < routedPerOp * numOps :=
    calc routedPerOp * i + c < routedPerOp * i + routedPerOp := Nat.add_lt_add_left hc _
      _ = routedPerOp * (i + 1) := (Nat.mul_succ _ _).symm
      _ ≤ routedPerOp * numOps := Nat.mul_le_mul_left _ hi
  rw [rowOf, if_pos hlt, Nat.mul_add_div hpos, Nat.div_eq_of_lt hc, Nat.add_zero, Nat.mul_add_mod,
    Nat.mod_eq_of_lt hc]

theorem rowOf_limb {j : Nat} (hj : j < limbsPerOp) :
    rowOf routedPerOp limbsPerOp numOps routed limbs
      (routedPerOp * numOps + limbsPerOp * i + j) = limbs i j := by
  have hpos : 0 < limbsPerOp := Nat.lt_of_le_of_lt (Nat.zero_le j) hj
  rw [rowOf, if_neg (by rw [Nat.add_assoc]; exact Nat.not_lt.mpr (Nat.le_add_right _ _)),
    Nat.add_assoc, Nat.add_sub_cancel_left, Nat.mul_add_div hpos, Nat.div_eq_of_lt hj, Nat.add_zero,
    Nat.mul_add_mod, Nat.mod_eq_of_lt hj]

end

theorem allZero_flatMap {R : Type} [Zero R] {n : Nat} {f : Nat → List R} :
    AllZero ((List.range n).flatMap f) ↔ ∀ i < n, AllZero (f i) := by
  simp only [AllZero, List.forall_mem_flatMap, List.mem_range]

theorem allZero_append {R : Type} [Zero R] {l m : List R} :
    AllZero (l ++ m) ↔ AllZero l ∧ AllZero m := List.forall_mem_append

theorem allZero_cons {R : Type} [Zero R] {c : R} {l : List R} :
    AllZero (c :: l) ↔ c = 0 ∧ AllZero l := List.forall_mem_cons

theorem allZero_nil {R : Type} [Zero R] : AllZero ([] : List R) := by
  intro c hc
  cases hc

/-- The constraints on the limbs, pushed from the highest. -/
theorem allZero_map_reverse {R : Type} [Zero R] {n : Nat} {f : Nat → R} :
    AllZero ((List.range n).reverse.map f) ↔ ∀ j < n, f j = 0 := by
  constructor
  · intro h j hj
    exact h (f j) (List.mem_map.mpr ⟨j, List.mem_reverse.mpr (List.mem_range.mpr hj), rfl⟩)
  · intro h c hc
    obtain ⟨j, hj, rfl⟩ := List.mem_map.mp hc
    exact h j (List.mem_range.mp (List.mem_reverse.mp hj))

/-- Limbs of two numbers in a row, as generators fill them in. -/
def limbsOf (numLow numHigh low high j : Nat) : F :=
  (((splitToLimbs 4 numLow low ++ splitToLimbs 4 numHigh high).getD j 0 : Nat) : F)

/-- They meet the constraints on limbs and recombine to the numbers. -/
theorem limbsOf_spec {numLow numHigh low high : Nat} (hlow : low < 4 ^ numLow)
    (hhigh : high < 4 ^ numHigh) {limb : Nat → F}
    (hlimb : ∀ j < numLow + numHigh, limb j = limbsOf numLow numHigh low high j) :
    (∀ j < numLow + numHigh, rangeProduct 4 (limb j) = 0) ∧
      reduceWithPowers ((List.range numLow).map limb) ((4 : Nat) : F) = (low : F) ∧
      reduceWithPowers ((List.range numHigh).map fun j => limb (numLow + j)) ((4 : Nat) : F) =
        (high : F) := by
  have hfirst := @limbs_of_split 4 numLow limb (by decide) (by decide) low fun j hj => by
      rw [hlimb j (by omega), limbsOf, List.getD_append]
      rwa [length_splitToLimbs]
  have hsecond := @limbs_of_split 4 numHigh (fun j => limb (numLow + j)) (by decide) (by decide) high
    fun j hj => by
      rw [hlimb (numLow + j) (by omega), limbsOf, List.getD_append_right, length_splitToLimbs,
        Nat.add_sub_cancel_left]
      rw [length_splitToLimbs]
      exact Nat.le_add_right numLow j
  rw [Nat.mod_eq_of_lt hlow] at hfirst
  rw [Nat.mod_eq_of_lt hhigh] at hsecond
  refine ⟨?_, hfirst.2, hsecond.2⟩
  intro j hj
  by_cases h : j < numLow
  · exact hfirst.1 j h
  · have := hsecond.1 (j - numLow) (by omega)
    rwa [Nat.add_sub_cancel' (by omega)] at this

/-- A value by the halves of its canonical representative. -/
theorem natCast_halves (x : F) :
    ((x.val / 2 ^ 32 : Nat) : F) * 2 ^ 32 + ((x.val % 2 ^ 32 : Nat) : F) = x := by
  have hcast : ((x.val / 2 ^ 32 : Nat) : F) * 2 ^ 32 + ((x.val % 2 ^ 32 : Nat) : F) =
      ((x.val / 2 ^ 32 * 2 ^ 32 + x.val % 2 ^ 32 : Nat) : F) := by push_cast; rfl
  rw [hcast, Nat.div_add_mod', ZMod.natCast_zmod_val]

/-! ## `U32ArithmeticGate` -/

structure U32ArithmeticGate where
  numOps : Nat

namespace U32ArithmeticGate

def limbBits : Nat := 2
def numLimbs : Nat := 64 / limbBits
def routedWiresPerOp : Nat := 6

def numOpsOf (config : CircuitConfig) : Nat :=
  let wiresPerOp := routedWiresPerOp + numLimbs
  min (config.numWires / wiresPerOp) (config.numRoutedWires / routedWiresPerOp)

def newFromConfig (config : CircuitConfig) : U32ArithmeticGate := { numOps := numOpsOf config }

variable (gate : U32ArithmeticGate)

def wireIthMultiplicand0 (i : Nat) : Nat := routedWiresPerOp * i
def wireIthMultiplicand1 (i : Nat) : Nat := routedWiresPerOp * i + 1
def wireIthAddend (i : Nat) : Nat := routedWiresPerOp * i + 2
def wireIthOutputLowHalf (i : Nat) : Nat := routedWiresPerOp * i + 3
def wireIthOutputHighHalf (i : Nat) : Nat := routedWiresPerOp * i + 4
def wireIthInverse (i : Nat) : Nat := routedWiresPerOp * i + 5
def wireIthOutputJthLimb (i j : Nat) : Nat := routedWiresPerOp * gate.numOps + numLimbs * i + j

def numWires : Nat := gate.numOps * (routedWiresPerOp + numLimbs)

/-- The constraints of one operation. -/
def evalOp {R : Type} [CommRing R] (localWires : Nat → R) (i : Nat) : List R :=
  let multiplicand0 := localWires (wireIthMultiplicand0 i)
  let multiplicand1 := localWires (wireIthMultiplicand1 i)
  let addend := localWires (wireIthAddend i)
  let computedOutput := multiplicand0 * multiplicand1 + addend
  let outputLow := localWires (wireIthOutputLowHalf i)
  let outputHigh := localWires (wireIthOutputHighHalf i)
  let inverse := localWires (wireIthInverse i)
  let diff := (2 ^ 32 - 1 : R) - outputHigh
  let hiNotMax := inverse * diff - 1
  let hiNotMaxOrLoZero := hiNotMax * outputLow
  let combinedOutput := outputHigh * 2 ^ 32 + outputLow
  let limb j := localWires (gate.wireIthOutputJthLimb i j)
  let combined := combineLimbs ((2 ^ limbBits : Nat) : R) (numLimbs / 2) numLimbs limb
  [hiNotMaxOrLoZero, combinedOutput - computedOutput] ++
    (List.range numLimbs).reverse.map (fun j => rangeProduct (2 ^ limbBits) (limb j)) ++
    [combined.1 - outputLow, combined.2 - outputHigh]

def evalUnfiltered {R : Type} [CommRing R] (localWires : Nat → R) : List R :=
  (List.range gate.numOps).flatMap (gate.evalOp localWires)

/-- `U32ArithmeticGenerator::run_once`: the wires it sets. -/
def runOnce (i : Nat) (witness : Nat → F) : List (Nat × F) :=
  let multiplicand0 := witness (wireIthMultiplicand0 i)
  let multiplicand1 := witness (wireIthMultiplicand1 i)
  let addend := witness (wireIthAddend i)
  let output := multiplicand0 * multiplicand1 + addend
  let outputU64 := output.val
  let outputHighU64 : Nat := outputU64 / 2 ^ 32
  let outputLowU64 : Nat := outputU64 % 2 ^ 32
  let diff : Nat := 2 ^ 32 - 1 - outputHighU64
  let inverse : F := if diff = 0 then 0 else (diff : F)⁻¹
  [(wireIthOutputHighHalf i, (outputHighU64 : F)), (wireIthOutputLowHalf i, (outputLowU64 : F)),
    (wireIthInverse i, inverse)] ++
    (List.range numLimbs).map fun j =>
      (gate.wireIthOutputJthLimb i j,
        (((splitToLimbs (2 ^ limbBits) numLimbs outputU64).getD j 0 : Nat) : F))

/-- The values of the generators stand on the row. -/
def Filled (localWires : Nat → F) : Prop :=
  ∀ i < gate.numOps, ∀ set ∈ gate.runOnce i localWires, localWires set.1 = set.2

/-- The constraints of one operation, by their meaning. -/
theorem allZero_evalOp {R : Type} [CommRing R] {localWires : Nat → R} {i : Nat} :
    AllZero (gate.evalOp localWires i) ↔
      (localWires (wireIthInverse i) * ((2 ^ 32 - 1 : R) - localWires (wireIthOutputHighHalf i)) - 1) *
          localWires (wireIthOutputLowHalf i) = 0 ∧
        localWires (wireIthOutputHighHalf i) * 2 ^ 32 + localWires (wireIthOutputLowHalf i) =
          localWires (wireIthMultiplicand0 i) * localWires (wireIthMultiplicand1 i) +
            localWires (wireIthAddend i) ∧
        (∀ j < 32, rangeProduct 4 (localWires (gate.wireIthOutputJthLimb i j)) = 0) ∧
        reduceWithPowers ((List.range 16).map fun j => localWires (gate.wireIthOutputJthLimb i j))
            ((4 : Nat) : R) = localWires (wireIthOutputLowHalf i) ∧
        reduceWithPowers ((List.range 16).map fun j =>
            localWires (gate.wireIthOutputJthLimb i (16 + j))) ((4 : Nat) : R) =
          localWires (wireIthOutputHighHalf i) := by
  have hcombine := combineLimbs_eq ((4 : Nat) : R) 16 16 fun j =>
    localWires (gate.wireIthOutputJthLimb i j)
  unfold evalOp
  simp only [numLimbs, limbBits, Nat.reducePow, Nat.reduceDiv]
  rw [hcombine]
  simp only [allZero_append, allZero_cons, allZero_nil, and_true, allZero_map_reverse, sub_eq_zero,
    and_assoc]

/-! ### the rows of the gate -/

/-- A row that meets the constraints has the products and sums as outputs. -/
theorem mem_mulAddU32_of_allZero {localWires : Nat → F}
    (h : AllZero (gate.evalUnfiltered localWires)) {i : Nat} (hi : i < gate.numOps) :
    (localWires (wireIthOutputLowHalf i), localWires (wireIthOutputHighHalf i)) ∈
      mulAddU32 (localWires (wireIthMultiplicand0 i)) (localWires (wireIthMultiplicand1 i))
        (localWires (wireIthAddend i)) := by
  obtain ⟨hcanonical, hsum, hlimbs, hlow, hhigh⟩ :=
    gate.allZero_evalOp.mp (allZero_flatMap.mp h i hi)
  refine ⟨?_, ?_, ⟨_, hcanonical⟩, hsum⟩
  · rw [← hlow]
    exact @rangeCheck_limbs 4 16 _ (by decide) (by decide) (by decide) fun j hj =>
      hlimbs j (by omega)
  · rw [← hhigh]
    exact @rangeCheck_limbs 4 16 _ (by decide) (by decide) (by decide) fun j hj =>
      hlimbs (16 + j) (by omega)

/-- Multiplicands and addend of an operation. -/
def inputs (localWires : Nat → F) (i : Nat) : F × F × F :=
  (localWires (wireIthMultiplicand0 i), localWires (wireIthMultiplicand1 i),
    localWires (wireIthAddend i))

def outputs (localWires : Nat → F) (i : Nat) : F × F :=
  (localWires (wireIthOutputLowHalf i), localWires (wireIthOutputHighHalf i))

/-- A row with these values of the routed wires. -/
def rowFor (inp : Nat → F × F × F) (out : Nat → F × F) (inverse : Nat → F) : Nat → F :=
  rowOf routedWiresPerOp numLimbs gate.numOps
    (fun i c => [(inp i).1, (inp i).2.1, (inp i).2.2, (out i).1, (out i).2, inverse i].getD c 0)
    (fun i j => limbsOf 16 16 (out i).1.val (out i).2.val j)

section
variable (inp : Nat → F × F × F) (out : Nat → F × F) (inverse : Nat → F) {i : Nat}

theorem rowFor_routed (hi : i < gate.numOps) {c : Nat} (hc : c < 6) :
    gate.rowFor inp out inverse (6 * i + c) =
      [(inp i).1, (inp i).2.1, (inp i).2.2, (out i).1, (out i).2, inverse i].getD c 0 :=
  rowOf_routed hi hc

theorem rowFor_limb {j : Nat} (hj : j < 32) :
    gate.rowFor inp out inverse (gate.wireIthOutputJthLimb i j) =
      limbsOf 16 16 (out i).1.val (out i).2.val j :=
  rowOf_limb hj

theorem inputs_rowFor (hi : i < gate.numOps) : inputs (gate.rowFor inp out inverse) i = inp i :=
  Prod.ext (gate.rowFor_routed inp out inverse hi (show 0 < 6 by decide))
    (Prod.ext (gate.rowFor_routed inp out inverse hi (show 1 < 6 by decide))
      (gate.rowFor_routed inp out inverse hi (show 2 < 6 by decide)))

theorem outputs_rowFor (hi : i < gate.numOps) : outputs (gate.rowFor inp out inverse) i = out i :=
  Prod.ext (gate.rowFor_routed inp out inverse hi (show 3 < 6 by decide))
    (gate.rowFor_routed inp out inverse hi (show 4 < 6 by decide))

theorem inverse_rowFor (hi : i < gate.numOps) :
    gate.rowFor inp out inverse (wireIthInverse i) = inverse i :=
  gate.rowFor_routed inp out inverse hi (by decide)

end

/-- The rows of the gate, on the wires other gates see: the outputs of every operation are
outputs of `mul_add_u32`, in any combination. -/
theorem exists_arithmetic_row_iff {inp : Nat → F × F × F} {out : Nat → F × F} :
    (∃ localWires : Nat → F, AllZero (gate.evalUnfiltered localWires) ∧
      ∀ i < gate.numOps, inputs localWires i = inp i ∧ outputs localWires i = out i) ↔
      ∀ i < gate.numOps, out i ∈ mulAddU32 (inp i).1 (inp i).2.1 (inp i).2.2 := by
  constructor
  · rintro ⟨localWires, hzero, hwires⟩ i hi
    rw [← (hwires i hi).1, ← (hwires i hi).2]
    exact gate.mem_mulAddU32_of_allZero hzero hi
  · intro h
    have hinverse : ∀ i, ∃ inverse : F, i < gate.numOps →
        (inverse * ((2 ^ 32 - 1 : F) - (out i).2) - 1) * (out i).1 = 0 := by
      intro i
      by_cases hi : i < gate.numOps
      · obtain ⟨-, -, ⟨inverse, hinverse⟩, -⟩ := h i hi
        exact ⟨inverse, fun _ => hinverse⟩
      · exact ⟨0, fun hi' => absurd hi' hi⟩
    choose inverse hinverse using hinverse
    refine ⟨gate.rowFor inp out inverse, ?_, fun i hi =>
      ⟨gate.inputs_rowFor inp out inverse hi, gate.outputs_rowFor inp out inverse hi⟩⟩
    rw [evalUnfiltered, allZero_flatMap]
    intro i hi
    obtain ⟨hlow, hhigh, -, hsum⟩ := h i hi
    have hin := gate.inputs_rowFor inp out inverse hi
    have hout := gate.outputs_rowFor inp out inverse hi
    rw [inputs, Prod.ext_iff, Prod.ext_iff] at hin
    rw [outputs, Prod.ext_iff] at hout
    simp only at hin hout
    have hlimbs := limbsOf_spec hlow hhigh fun j hj =>
      gate.rowFor_limb inp out inverse (i := i) hj
    rw [ZMod.natCast_zmod_val, ZMod.natCast_zmod_val] at hlimbs
    rw [gate.allZero_evalOp, hin.1, hin.2.1, hin.2.2, hout.1, hout.2, gate.inverse_rowFor inp out inverse hi]
    exact ⟨hinverse i hi, hsum, hlimbs⟩

/-! ### the generators -/

/-- The halves of a canonical value pass the canonicity check with the generated inverse. -/
theorem canonical_inverse {v : Nat} (hv : v < modulus) :
    ((if 2 ^ 32 - 1 - v / 2 ^ 32 = 0 then 0 else ((2 ^ 32 - 1 - v / 2 ^ 32 : Nat) : F)⁻¹) *
      ((2 ^ 32 - 1 : F) - ((v / 2 ^ 32 : Nat) : F)) - 1) * ((v % 2 ^ 32 : Nat) : F) = 0 := by
  have hmodulus : modulus = 18446744069414584321 := rfl
  have hdiff : (2 ^ 32 - 1 : F) - ((v / 2 ^ 32 : Nat) : F) =
      ((2 ^ 32 - 1 - v / 2 ^ 32 : Nat) : F) := by
    rw [← natCast_u32Max]
    exact (Nat.cast_sub (by omega)).symm
  rw [hdiff]
  split
  · -- the high half is the largest one, so the canonical value ends in zeros
    next h =>
      have hlow : v % 2 ^ 32 = 0 := by omega
      rw [hlow, Nat.cast_zero, mul_zero]
  · next h =>
      rw [inv_mul_natCast (by omega) (by omega), sub_self, zero_mul]

/-- Whatever the inputs, the generated values meet the constraints. -/
theorem allZero_of_filled {localWires : Nat → F} (h : gate.Filled localWires) :
    AllZero (gate.evalUnfiltered localWires) := by
  rw [evalUnfiltered, allZero_flatMap]
  intro i hi
  have hset := h i hi
  unfold runOnce at hset
  simp only [List.forall_mem_append, List.forall_mem_cons, List.forall_mem_map, List.mem_range,
    List.not_mem_nil, false_imp_iff, implies_true, and_true] at hset
  obtain ⟨⟨hhigh, hlow, hinverse⟩, hlimb⟩ := hset
  set output := localWires (wireIthMultiplicand0 i) * localWires (wireIthMultiplicand1 i) +
    localWires (wireIthAddend i)
  have hv : output.val < modulus := ZMod.val_lt output
  have hhalves : output.val % 2 ^ 32 < 2 ^ 32 ∧ output.val / 2 ^ 32 < 2 ^ 32 := by
    have : modulus = 18446744069414584321 := rfl
    omega
  have hlimbsOf : ∀ j < 16 + 16, localWires (gate.wireIthOutputJthLimb i j) =
      limbsOf 16 16 (output.val % 2 ^ 32) (output.val / 2 ^ 32) j := by
    intro j hj
    have hsplit : splitToLimbs 4 32 output.val =
        splitToLimbs 4 16 (output.val % 2 ^ 32) ++ splitToLimbs 4 16 (output.val / 2 ^ 32) := by
      rw [show 2 ^ 32 = 4 ^ 16 by decide, splitToLimbs_mod, ← splitToLimbs_add]
    rw [limbsOf, ← hsplit]
    exact hlimb j hj
  have hlimbs := limbsOf_spec (show output.val % 2 ^ 32 < 4 ^ 16 from hhalves.1) hhalves.2 hlimbsOf
  rw [gate.allZero_evalOp, hhigh, hlow, hinverse]
  exact ⟨canonical_inverse hv, natCast_halves output, hlimbs⟩

/-- The generators of a row do not get in each other's way. -/
theorem exists_filled (inp : Nat → F × F × F) :
    ∃ localWires : Nat → F, gate.Filled localWires ∧
      ∀ i < gate.numOps, inputs localWires i = inp i := by
  let v := fun i => ((inp i).1 * (inp i).2.1 + (inp i).2.2).val
  let out : Nat → F × F := fun i => (((v i % 2 ^ 32 : Nat) : F), ((v i / 2 ^ 32 : Nat) : F))
  let inverse : Nat → F := fun i =>
    if 2 ^ 32 - 1 - v i / 2 ^ 32 = 0 then 0 else ((2 ^ 32 - 1 - v i / 2 ^ 32 : Nat) : F)⁻¹
  refine ⟨gate.rowFor inp out inverse, ?_, fun i hi => gate.inputs_rowFor inp out inverse hi⟩
  intro i hi
  have hin := gate.inputs_rowFor inp out inverse hi
  have hout := gate.outputs_rowFor inp out inverse hi
  rw [inputs, Prod.ext_iff, Prod.ext_iff] at hin
  rw [outputs, Prod.ext_iff] at hout
  simp only at hin hout
  unfold runOnce
  simp only [List.forall_mem_append, List.forall_mem_cons, List.forall_mem_map, List.mem_range,
    List.not_mem_nil, false_imp_iff, implies_true, and_true]
  rw [hin.1, hin.2.1, hin.2.2]
  refine ⟨⟨hout.2, hout.1, gate.inverse_rowFor inp out inverse hi⟩, ?_⟩
  intro j hj
  have hv : v i < modulus := ZMod.val_lt _
  have hmodulus : modulus = 18446744069414584321 := rfl
  rw [gate.rowFor_limb inp out inverse hj, val_natCast (by omega), val_natCast (by omega), limbsOf,
    show 2 ^ 32 = 4 ^ 16 by decide, splitToLimbs_mod, ← splitToLimbs_add]
  rfl

end U32ArithmeticGate

/-! ## `U32AddManyGate` -/

structure U32AddManyGate where
  numAddends : Nat
  numOps : Nat

/-- What the gate asks of the outputs of an operation. -/
def addManyOutputs (toAdd : List F) (carry : F) : Set (F × F) :=
  {r | rangeCheck r.1 32 ∧ rangeCheck r.2 4 ∧
    r.2 * 2 ^ 32 + r.1 = toAdd.foldl (· + ·) 0 + carry}

namespace U32AddManyGate

def log2MaxNumAddends : Nat := 4

def limbBits : Nat := 2
def numResultLimbs : Nat := (32 + limbBits - 1) / limbBits
def numCarryLimbs : Nat := (log2MaxNumAddends + limbBits - 1) / limbBits
def numLimbs : Nat := numResultLimbs + numCarryLimbs

def numOpsOf (numAddends : Nat) (config : CircuitConfig) : Nat :=
  let wiresPerOp := (numAddends + 3) + numLimbs
  let routedWiresPerOp := numAddends + 3
  min (config.numWires / wiresPerOp) (config.numRoutedWires / routedWiresPerOp)

def newFromConfig (config : CircuitConfig) (numAddends : Nat) : U32AddManyGate :=
  { numAddends, numOps := numOpsOf numAddends config }

variable (gate : U32AddManyGate)

def wireIthOpJthAddend (i j : Nat) : Nat := (gate.numAddends + 3) * i + j
def wireIthCarry (i : Nat) : Nat := (gate.numAddends + 3) * i + gate.numAddends
def wireIthOutputResult (i : Nat) : Nat := (gate.numAddends + 3) * i + gate.numAddends + 1
def wireIthOutputCarry (i : Nat) : Nat := (gate.numAddends + 3) * i + gate.numAddends + 2
def wireIthOutputJthLimb (i j : Nat) : Nat :=
  (gate.numAddends + 3) * gate.numOps + numLimbs * i + j

def numWires : Nat := (gate.numAddends + 3) * gate.numOps + numLimbs * gate.numOps

/-- The addends of an operation. -/
def addends {R : Type} (localWires : Nat → R) (i : Nat) : List R :=
  (List.range gate.numAddends).map fun j => localWires (gate.wireIthOpJthAddend i j)

/-- The constraints of one operation. -/
def evalOp {R : Type} [CommRing R] (localWires : Nat → R) (i : Nat) : List R :=
  let carry := localWires (gate.wireIthCarry i)
  let computedOutput := (gate.addends localWires i).foldl (· + ·) 0 + carry
  let outputResult := localWires (gate.wireIthOutputResult i)
  let outputCarry := localWires (gate.wireIthOutputCarry i)
  let combinedOutput := outputCarry * 2 ^ 32 + outputResult
  let limb j := localWires (gate.wireIthOutputJthLimb i j)
  let combined := combineLimbs ((2 ^ limbBits : Nat) : R) numResultLimbs numLimbs limb
  [combinedOutput - computedOutput] ++
    (List.range numLimbs).reverse.map (fun j => rangeProduct (2 ^ limbBits) (limb j)) ++
    [combined.1 - outputResult, combined.2 - outputCarry]

def evalUnfiltered {R : Type} [CommRing R] (localWires : Nat → R) : List R :=
  (List.range gate.numOps).flatMap (gate.evalOp localWires)

/-- `U32AddManyGenerator::run_once`: the wires it sets. -/
def runOnce (i : Nat) (witness : Nat → F) : List (Nat × F) :=
  let carry := witness (gate.wireIthCarry i)
  let output := (gate.addends witness i).foldl (· + ·) 0 + carry
  let outputU64 := output.val
  let outputCarryU64 : Nat := outputU64 / 2 ^ 32
  let outputResultU64 : Nat := outputU64 % 2 ^ 32
  let limbs := splitToLimbs (2 ^ limbBits) numResultLimbs outputResultU64 ++
    splitToLimbs (2 ^ limbBits) numCarryLimbs outputCarryU64
  [(gate.wireIthOutputCarry i, (outputCarryU64 : F)),
    (gate.wireIthOutputResult i, (outputResultU64 : F))] ++
    (List.range numLimbs).map fun j =>
      (gate.wireIthOutputJthLimb i j, ((limbs.getD j 0 : Nat) : F))

/-- The values of the generators stand on the row. -/
def Filled (localWires : Nat → F) : Prop :=
  ∀ i < gate.numOps, ∀ set ∈ gate.runOnce i localWires, localWires set.1 = set.2

/-- The constraints of one operation, by their meaning. -/
theorem allZero_evalOp {R : Type} [CommRing R] {localWires : Nat → R} {i : Nat} :
    AllZero (gate.evalOp localWires i) ↔
      localWires (gate.wireIthOutputCarry i) * 2 ^ 32 + localWires (gate.wireIthOutputResult i) =
          (gate.addends localWires i).foldl (· + ·) 0 + localWires (gate.wireIthCarry i) ∧
        (∀ j < 16 + 2, rangeProduct 4 (localWires (gate.wireIthOutputJthLimb i j)) = 0) ∧
        reduceWithPowers ((List.range 16).map fun j => localWires (gate.wireIthOutputJthLimb i j))
            ((4 : Nat) : R) = localWires (gate.wireIthOutputResult i) ∧
        reduceWithPowers ((List.range 2).map fun j =>
            localWires (gate.wireIthOutputJthLimb i (16 + j))) ((4 : Nat) : R) =
          localWires (gate.wireIthOutputCarry i) := by
  have hcombine := combineLimbs_eq ((4 : Nat) : R) 16 2 fun j =>
    localWires (gate.wireIthOutputJthLimb i j)
  unfold evalOp
  simp only [numLimbs, numResultLimbs, numCarryLimbs, log2MaxNumAddends, limbBits, Nat.reducePow,
    Nat.reduceDiv, Nat.reduceAdd, Nat.reduceSub]
  rw [hcombine]
  simp only [allZero_append, allZero_cons, allZero_nil, and_true, allZero_map_reverse, sub_eq_zero,
    and_assoc]

/-! ### the rows of the gate -/

/-- Addends and carry of an operation. -/
def inputs (localWires : Nat → F) (i : Nat) : List F × F :=
  (gate.addends localWires i, localWires (gate.wireIthCarry i))

def outputs (localWires : Nat → F) (i : Nat) : F × F :=
  (localWires (gate.wireIthOutputResult i), localWires (gate.wireIthOutputCarry i))

/-- A row with these values of the routed wires. -/
def rowFor (inp : Nat → List F × F) (out : Nat → F × F) : Nat → F :=
  rowOf (gate.numAddends + 3) numLimbs gate.numOps
    (fun i c => ((inp i).1 ++ [(inp i).2, (out i).1, (out i).2]).getD c 0)
    (fun i j => limbsOf 16 2 (out i).1.val (out i).2.val j)

section
variable (inp : Nat → List F × F) (out : Nat → F × F) {i : Nat}

theorem rowFor_routed (hi : i < gate.numOps) {c : Nat} (hc : c < gate.numAddends + 3) :
    gate.rowFor inp out ((gate.numAddends + 3) * i + c) =
      ((inp i).1 ++ [(inp i).2, (out i).1, (out i).2]).getD c 0 :=
  rowOf_routed hi hc

theorem rowFor_limb {j : Nat} (hj : j < 18) :
    gate.rowFor inp out (gate.wireIthOutputJthLimb i j) =
      limbsOf 16 2 (out i).1.val (out i).2.val j :=
  rowOf_limb hj

/-- The wires behind the addends. -/
theorem rowFor_after (hlength : (inp i).1.length = gate.numAddends) (hi : i < gate.numOps) {c : Nat}
    (hc : c < 3) :
    gate.rowFor inp out ((gate.numAddends + 3) * i + gate.numAddends + c) =
      [(inp i).2, (out i).1, (out i).2].getD c 0 := by
  rw [Nat.add_assoc, gate.rowFor_routed inp out hi (Nat.add_lt_add_left hc _),
    List.getD_append_right _ _ _ _ (by omega), hlength, Nat.add_sub_cancel_left]

theorem inputs_rowFor (hlength : (inp i).1.length = gate.numAddends) (hi : i < gate.numOps) :
    gate.inputs (gate.rowFor inp out) i = inp i := by
  refine Prod.ext ?_ (gate.rowFor_after inp out hlength hi (show 0 < 3 by decide))
  rw [inputs, addends]
  apply List.ext_getElem
  · rw [List.length_map, List.length_range, hlength]
  · intro j h1 h2
    rw [List.getElem_map, List.getElem_range, wireIthOpJthAddend,
      gate.rowFor_routed inp out hi (by omega), List.getD_append _ _ _ _ h2,
      List.getD_eq_getElem _ _ h2]

theorem outputs_rowFor (hlength : (inp i).1.length = gate.numAddends) (hi : i < gate.numOps) :
    gate.outputs (gate.rowFor inp out) i = out i :=
  Prod.ext (gate.rowFor_after inp out hlength hi (show 1 < 3 by decide))
    (gate.rowFor_after inp out hlength hi (show 2 < 3 by decide))

end

/-- The rows of the gate, on the wires other gates see. -/
theorem exists_addMany_row_iff {inp : Nat → List F × F} {out : Nat → F × F}
    (hlength : ∀ i < gate.numOps, (inp i).1.length = gate.numAddends) :
    (∃ localWires : Nat → F, AllZero (gate.evalUnfiltered localWires) ∧
      ∀ i < gate.numOps, gate.inputs localWires i = inp i ∧ gate.outputs localWires i = out i) ↔
      ∀ i < gate.numOps, out i ∈ addManyOutputs (inp i).1 (inp i).2 := by
  constructor
  · rintro ⟨localWires, hzero, hwires⟩ i hi
    rw [← (hwires i hi).1, ← (hwires i hi).2]
    obtain ⟨hsum, hlimbs, hresult, hcarry⟩ := gate.allZero_evalOp.mp (allZero_flatMap.mp hzero i hi)
    refine ⟨?_, ?_, hsum⟩
    · rw [outputs, ← hresult]
      exact @rangeCheck_limbs 4 16 _ (by decide) (by decide) (by decide) fun j hj =>
        hlimbs j (by omega)
    · rw [outputs, ← hcarry]
      exact @rangeCheck_limbs 4 2 _ (by decide) (by decide) (by decide) fun j hj =>
        hlimbs (16 + j) (by omega)
  · intro h
    refine ⟨gate.rowFor inp out, ?_, fun i hi => ⟨gate.inputs_rowFor inp out (hlength i hi) hi,
      gate.outputs_rowFor inp out (hlength i hi) hi⟩⟩
    rw [evalUnfiltered, allZero_flatMap]
    intro i hi
    obtain ⟨hresult, hcarry, hsum⟩ := h i hi
    have hin := gate.inputs_rowFor inp out (hlength i hi) hi
    have hout := gate.outputs_rowFor inp out (hlength i hi) hi
    rw [inputs, Prod.ext_iff] at hin
    rw [outputs, Prod.ext_iff] at hout
    simp only at hin hout
    have hlimbs := limbsOf_spec (show (out i).1.val < 4 ^ 16 from hresult)
      (show (out i).2.val < 4 ^ 2 from hcarry) fun j hj => gate.rowFor_limb inp out (i := i) hj
    rw [ZMod.natCast_zmod_val, ZMod.natCast_zmod_val] at hlimbs
    rw [gate.allZero_evalOp, hin.1, hin.2, hout.1, hout.2]
    exact ⟨hsum, hlimbs⟩

/-- A row of one operation, with one and two as its addends. -/
theorem exists_addMany_row_iff_three :
    ∃ localWires : Nat → F, AllZero ((⟨2, 1⟩ : U32AddManyGate).evalUnfiltered localWires) ∧
      ∀ i < 1, (⟨2, 1⟩ : U32AddManyGate).inputs localWires i = ([1, 2], 0) ∧
        (⟨2, 1⟩ : U32AddManyGate).outputs localWires i = (((3 : Nat) : F), ((0 : Nat) : F)) := by
  refine (@exists_addMany_row_iff ⟨2, 1⟩ (fun _ => ([1, 2], 0))
    (fun _ => (((3 : Nat) : F), ((0 : Nat) : F))) fun _ _ => rfl).mpr fun i _ => ⟨?_, ?_, ?_⟩
  · exact (rangeCheck_natCast (by decide)).mpr (by decide)
  · exact (rangeCheck_natCast (by decide)).mpr (by decide)
  · norm_num

/-! ### the generators -/

/-- The generated values meet the constraints of every operation whose sum fits the limbs. -/
theorem allZero_of_filled {localWires : Nat → F} (h : gate.Filled localWires)
    (hfit : ∀ i < gate.numOps, ((gate.addends localWires i).foldl (· + ·) 0 +
      localWires (gate.wireIthCarry i)).val < 2 ^ 36) :
    AllZero (gate.evalUnfiltered localWires) := by
  rw [evalUnfiltered, allZero_flatMap]
  intro i hi
  have hset := h i hi
  unfold runOnce at hset
  simp only [List.forall_mem_append, List.forall_mem_cons, List.forall_mem_map, List.mem_range,
    List.not_mem_nil, false_imp_iff, implies_true, and_true] at hset
  obtain ⟨⟨hcarry, hresult⟩, hlimb⟩ := hset
  have hv := hfit i hi
  set output := (gate.addends localWires i).foldl (· + ·) 0 + localWires (gate.wireIthCarry i)
  have hlimbs := limbsOf_spec (show output.val % 2 ^ 32 < 4 ^ 16 from Nat.mod_lt _ (by decide))
    (show output.val / 2 ^ 32 < 4 ^ 2 by omega) hlimb
  rw [gate.allZero_evalOp, hcarry, hresult]
  exact ⟨natCast_halves output, hlimbs⟩

/-- The generators of a row do not get in each other's way. -/
theorem exists_filled {inp : Nat → List F × F}
    (hlength : ∀ i < gate.numOps, (inp i).1.length = gate.numAddends)
    (hfit : ∀ i < gate.numOps, ((inp i).1.foldl (· + ·) 0 + (inp i).2).val < 2 ^ 36) :
    ∃ localWires : Nat → F, gate.Filled localWires ∧
      ∀ i < gate.numOps, gate.inputs localWires i = inp i := by
  let v := fun i => ((inp i).1.foldl (· + ·) 0 + (inp i).2).val
  let out : Nat → F × F := fun i => (((v i % 2 ^ 32 : Nat) : F), ((v i / 2 ^ 32 : Nat) : F))
  refine ⟨gate.rowFor inp out, ?_, fun i hi => gate.inputs_rowFor inp out (hlength i hi) hi⟩
  intro i hi
  have hin := gate.inputs_rowFor inp out (hlength i hi) hi
  have hout := gate.outputs_rowFor inp out (hlength i hi) hi
  rw [inputs, Prod.ext_iff] at hin
  rw [outputs, Prod.ext_iff] at hout
  simp only at hin hout
  unfold runOnce
  simp only [List.forall_mem_append, List.forall_mem_cons, List.forall_mem_map, List.mem_range,
    List.not_mem_nil, false_imp_iff, implies_true, and_true]
  rw [hin.1, hin.2]
  refine ⟨⟨hout.2, hout.1⟩, ?_⟩
  intro j hj
  have hv : v i < 2 ^ 36 := hfit i hi
  have hmodulus : modulus = 18446744069414584321 := rfl
  rw [gate.rowFor_limb inp out hj, val_natCast (by omega), val_natCast (by omega)]
  rfl

end U32AddManyGate

/-! ## `U32SubtractionGate` -/

structure U32SubtractionGate where
  numOps : Nat

/-- `sub_u32`, the constraints of `U32SubtractionGate`: difference and borrow. -/
def subU32 (x y borrow : F) : Set (F × F) :=
  {r | rangeCheck r.1 32 ∧ r.2 * (1 - r.2) = 0 ∧ r.1 = x - y - borrow + 2 ^ 32 * r.2}

namespace U32SubtractionGate

def limbBits : Nat := 2
def numLimbs : Nat := 32 / limbBits

def numOpsOf (config : CircuitConfig) : Nat :=
  let wiresPerOp := 5 + numLimbs
  let routedWiresPerOp := 5
  min (config.numWires / wiresPerOp) (config.numRoutedWires / routedWiresPerOp)

def newFromConfig (config : CircuitConfig) : U32SubtractionGate := { numOps := numOpsOf config }

variable (gate : U32SubtractionGate)

def wireIthInputX (i : Nat) : Nat := 5 * i
def wireIthInputY (i : Nat) : Nat := 5 * i + 1
def wireIthInputBorrow (i : Nat) : Nat := 5 * i + 2
def wireIthOutputResult (i : Nat) : Nat := 5 * i + 3
def wireIthOutputBorrow (i : Nat) : Nat := 5 * i + 4
def wireIthOutputJthLimb (i j : Nat) : Nat := 5 * gate.numOps + numLimbs * i + j

def numWires : Nat := gate.numOps * (5 + numLimbs)

/-- The constraints of one operation. -/
def evalOp {R : Type} [CommRing R] (localWires : Nat → R) (i : Nat) : List R :=
  let inputX := localWires (wireIthInputX i)
  let inputY := localWires (wireIthInputY i)
  let inputBorrow := localWires (wireIthInputBorrow i)
  let resultInitial := inputX - inputY - inputBorrow
  let outputResult := localWires (wireIthOutputResult i)
  let outputBorrow := localWires (wireIthOutputBorrow i)
  let limb j := localWires (gate.wireIthOutputJthLimb i j)
  let combined := combineLimbs ((2 ^ limbBits : Nat) : R) numLimbs numLimbs limb
  [outputResult - (resultInitial + 2 ^ 32 * outputBorrow)] ++
    (List.range numLimbs).reverse.map (fun j => rangeProduct (2 ^ limbBits) (limb j)) ++
    [combined.1 - outputResult, outputBorrow * (1 - outputBorrow)]

def evalUnfiltered {R : Type} [CommRing R] (localWires : Nat → R) : List R :=
  (List.range gate.numOps).flatMap (gate.evalOp localWires)

/-- `U32SubtractionGenerator::run_once`: the wires it sets. -/
def runOnce (i : Nat) (witness : Nat → F) : List (Nat × F) :=
  let inputX := witness (wireIthInputX i)
  let inputY := witness (wireIthInputY i)
  let inputBorrow := witness (wireIthInputBorrow i)
  let resultInitial := inputX - inputY - inputBorrow
  let resultInitialU64 := resultInitial.val
  let outputBorrow : F := if resultInitialU64 > 2 ^ 32 then 1 else 0
  let outputResult := resultInitial + 2 ^ 32 * outputBorrow
  let limbs := splitToLimbs (2 ^ limbBits) numLimbs outputResult.val
  [(wireIthOutputResult i, outputResult), (wireIthOutputBorrow i, outputBorrow)] ++
    (List.range numLimbs).map fun j =>
      (gate.wireIthOutputJthLimb i j, ((limbs.getD j 0 : Nat) : F))

/-- The values of the generators stand on the row. -/
def Filled (localWires : Nat → F) : Prop :=
  ∀ i < gate.numOps, ∀ set ∈ gate.runOnce i localWires, localWires set.1 = set.2

/-- The constraints of one operation, by their meaning. -/
theorem allZero_evalOp {R : Type} [CommRing R] {localWires : Nat → R} {i : Nat} :
    AllZero (gate.evalOp localWires i) ↔
      localWires (wireIthOutputResult i) =
          localWires (wireIthInputX i) - localWires (wireIthInputY i) -
            localWires (wireIthInputBorrow i) + 2 ^ 32 * localWires (wireIthOutputBorrow i) ∧
        (∀ j < 16, rangeProduct 4 (localWires (gate.wireIthOutputJthLimb i j)) = 0) ∧
        reduceWithPowers ((List.range 16).map fun j => localWires (gate.wireIthOutputJthLimb i j))
            ((4 : Nat) : R) = localWires (wireIthOutputResult i) ∧
        localWires (wireIthOutputBorrow i) * (1 - localWires (wireIthOutputBorrow i)) = 0 := by
  have hcombine := combineLimbs_eq ((4 : Nat) : R) 16 0 fun j =>
    localWires (gate.wireIthOutputJthLimb i j)
  unfold evalOp
  simp only [numLimbs, limbBits, Nat.reducePow, Nat.reduceDiv]
  rw [hcombine]
  simp only [allZero_append, allZero_cons, allZero_nil, and_true, allZero_map_reverse, sub_eq_zero,
    and_assoc]

/-! ### the rows of the gate -/

/-- Minuend, subtrahend and borrow of an operation. -/
def inputs (localWires : Nat → F) (i : Nat) : F × F × F :=
  (localWires (wireIthInputX i), localWires (wireIthInputY i), localWires (wireIthInputBorrow i))

def outputs (localWires : Nat → F) (i : Nat) : F × F :=
  (localWires (wireIthOutputResult i), localWires (wireIthOutputBorrow i))

/-- A row with these values of the routed wires. -/
def rowFor (inp : Nat → F × F × F) (out : Nat → F × F) : Nat → F :=
  rowOf 5 numLimbs gate.numOps
    (fun i c => [(inp i).1, (inp i).2.1, (inp i).2.2, (out i).1, (out i).2].getD c 0)
    (fun i j => limbsOf 16 0 (out i).1.val 0 j)

section
variable (inp : Nat → F × F × F) (out : Nat → F × F) {i : Nat}

theorem rowFor_routed (hi : i < gate.numOps) {c : Nat} (hc : c < 5) :
    gate.rowFor inp out (5 * i + c) =
      [(inp i).1, (inp i).2.1, (inp i).2.2, (out i).1, (out i).2].getD c 0 :=
  rowOf_routed hi hc

theorem rowFor_limb {j : Nat} (hj : j < 16) :
    gate.rowFor inp out (gate.wireIthOutputJthLimb i j) = limbsOf 16 0 (out i).1.val 0 j :=
  rowOf_limb hj

theorem inputs_rowFor (hi : i < gate.numOps) : inputs (gate.rowFor inp out) i = inp i :=
  Prod.ext (gate.rowFor_routed inp out hi (show 0 < 5 by decide))
    (Prod.ext (gate.rowFor_routed inp out hi (show 1 < 5 by decide))
      (gate.rowFor_routed inp out hi (show 2 < 5 by decide)))

theorem outputs_rowFor (hi : i < gate.numOps) : outputs (gate.rowFor inp out) i = out i :=
  Prod.ext (gate.rowFor_routed inp out hi (show 3 < 5 by decide))
    (gate.rowFor_routed inp out hi (show 4 < 5 by decide))

end

/-- The rows of the gate, on the wires other gates see. -/
theorem exists_subtraction_row_iff {inp : Nat → F × F × F} {out : Nat → F × F} :
    (∃ localWires : Nat → F, AllZero (gate.evalUnfiltered localWires) ∧
      ∀ i < gate.numOps, inputs localWires i = inp i ∧ outputs localWires i = out i) ↔
      ∀ i < gate.numOps, out i ∈ subU32 (inp i).1 (inp i).2.1 (inp i).2.2 := by
  constructor
  · rintro ⟨localWires, hzero, hwires⟩ i hi
    rw [← (hwires i hi).1, ← (hwires i hi).2]
    obtain ⟨hsum, hlimbs, hresult, hborrow⟩ :=
      gate.allZero_evalOp.mp (allZero_flatMap.mp hzero i hi)
    refine ⟨?_, hborrow, hsum⟩
    rw [outputs, ← hresult]
    exact @rangeCheck_limbs 4 16 _ (by decide) (by decide) (by decide) hlimbs
  · intro h
    refine ⟨gate.rowFor inp out, ?_, fun i hi =>
      ⟨gate.inputs_rowFor inp out hi, gate.outputs_rowFor inp out hi⟩⟩
    rw [evalUnfiltered, allZero_flatMap]
    intro i hi
    obtain ⟨hresult, hborrow, hsum⟩ := h i hi
    have hin := gate.inputs_rowFor inp out hi
    have hout := gate.outputs_rowFor inp out hi
    rw [inputs, Prod.ext_iff, Prod.ext_iff] at hin
    rw [outputs, Prod.ext_iff] at hout
    simp only at hin hout
    have hlimbs := limbsOf_spec (show (out i).1.val < 4 ^ 16 from hresult)
      (show 0 < 4 ^ 0 by decide) fun j hj => gate.rowFor_limb inp out (i := i) hj
    rw [ZMod.natCast_zmod_val] at hlimbs
    rw [gate.allZero_evalOp, hin.1, hin.2.1, hin.2.2, hout.1, hout.2]
    exact ⟨hsum, hlimbs.1, hlimbs.2.1, hborrow⟩

/-! ### the generators -/

/-- A difference of numbers, with a multiple added that keeps it from being negative. -/
theorem natCast_sub_sub {n x y b : Nat} (h : y + b ≤ n + x) :
    ((n + x - y - b : Nat) : F) = (n : F) + x - y - b := by
  rw [Nat.cast_sub (by omega), Nat.cast_sub (by omega), Nat.cast_add]

/-- The difference modulo `2 ^ 32`. -/
def wrappingDiff (x y b : Nat) : Nat := if x < y + b then 2 ^ 32 + x - y - b else x - y - b

theorem wrappingDiff_lt {x y b : Nat} (hx : x < 2 ^ 32) : wrappingDiff x y b < 2 ^ 32 := by
  unfold wrappingDiff
  split <;> omega

/-- The generated borrow says whether the difference is negative, and the borrow makes the
difference a 32-bit number. -/
theorem generated_difference {x y b : Nat} (hx : x < 2 ^ 32) (hy : y < 2 ^ 32) (hb : b ≤ 1) :
    ((x : F) - y - b + 2 ^ 32 * (if ((x : F) - y - b).val > 2 ^ 32 then 1 else 0)) =
        (wrappingDiff x y b : F) ∧
      (((x : F) - y - b).val > 2 ^ 32 ↔ x < y + b) := by
  have hmodulus : modulus = 18446744069414584321 := rfl
  by_cases h : y + b ≤ x
  · have hcast := natCast_sub_sub (n := 0) (x := x) (y := y) (b := b) (by omega)
    simp only [Nat.cast_zero, zero_add] at hcast
    have hval : ¬ ((x : F) - y - b).val > 2 ^ 32 := by
      rw [← hcast, val_natCast (by omega)]
      omega
    rw [if_neg hval, mul_zero, add_zero, wrappingDiff, if_neg (by omega), hcast]
    exact ⟨rfl, fun hgt => absurd hgt hval, fun hlt => absurd h (by omega)⟩
  · have hcast := natCast_sub_sub (n := modulus) (x := x) (y := y) (b := b) (by omega)
    rw [ZMod.natCast_self, zero_add] at hcast
    have hval : ((x : F) - y - b).val > 2 ^ 32 := by
      rw [← hcast, val_natCast (by omega)]
      omega
    have hsum := natCast_sub_sub (n := 2 ^ 32) (x := x) (y := y) (b := b) (by omega)
    rw [if_pos hval, mul_one, wrappingDiff, if_pos (by omega), hsum]
    refine ⟨?_, fun _ => by omega, fun _ => hval⟩
    push_cast
    ring

/-- On 32-bit operands and a bit the generated values meet the constraints. -/
theorem allZero_of_filled {localWires : Nat → F} (h : gate.Filled localWires)
    (hin : ∀ i < gate.numOps, rangeCheck (inputs localWires i).1 32 ∧
      rangeCheck (inputs localWires i).2.1 32 ∧ (inputs localWires i).2.2.val ≤ 1) :
    AllZero (gate.evalUnfiltered localWires) := by
  rw [evalUnfiltered, allZero_flatMap]
  intro i hi
  have hset := h i hi
  unfold runOnce at hset
  simp only [List.forall_mem_append, List.forall_mem_cons, List.forall_mem_map, List.mem_range,
    List.not_mem_nil, false_imp_iff, implies_true, and_true] at hset
  obtain ⟨⟨hresult, hborrow⟩, hlimb⟩ := hset
  obtain ⟨hx, hy, hb⟩ := hin i hi
  have hdifference := (generated_difference hx hy hb).1
  simp only [inputs, ZMod.natCast_zmod_val] at hdifference
  have hlt : wrappingDiff (localWires (wireIthInputX i)).val (localWires (wireIthInputY i)).val
      (localWires (wireIthInputBorrow i)).val < 4 ^ 16 := wrappingDiff_lt hx
  have hlimbsOf : ∀ j < 16 + 0, localWires (gate.wireIthOutputJthLimb i j) =
      limbsOf 16 0 (wrappingDiff (localWires (wireIthInputX i)).val
        (localWires (wireIthInputY i)).val (localWires (wireIthInputBorrow i)).val) 0 j := by
    intro j hj
    rw [hlimb j hj, hdifference, val_natCast (Nat.lt_trans hlt (by decide)), limbsOf, splitToLimbs,
      List.append_nil]
    rfl
  have hlimbs := limbsOf_spec hlt (show 0 < 4 ^ 0 by decide) hlimbsOf
  rw [gate.allZero_evalOp, hborrow]
  refine ⟨hresult, hlimbs.1, ?_, ?_⟩
  · rw [hresult, hdifference, hlimbs.2.1]
  · split
    · rw [sub_self, mul_zero]
    · rw [zero_mul]

/-- The generators of a row do not get in each other's way. -/
theorem exists_filled (inp : Nat → F × F × F) :
    ∃ localWires : Nat → F, gate.Filled localWires ∧
      ∀ i < gate.numOps, inputs localWires i = inp i := by
  let initial := fun i => (inp i).1 - (inp i).2.1 - (inp i).2.2
  let borrow : Nat → F := fun i => if (initial i).val > 2 ^ 32 then 1 else 0
  let out : Nat → F × F := fun i => (initial i + 2 ^ 32 * borrow i, borrow i)
  refine ⟨gate.rowFor inp out, ?_, fun i hi => gate.inputs_rowFor inp out hi⟩
  intro i hi
  have hin := gate.inputs_rowFor inp out hi
  have hout := gate.outputs_rowFor inp out hi
  rw [inputs, Prod.ext_iff, Prod.ext_iff] at hin
  rw [outputs, Prod.ext_iff] at hout
  simp only at hin hout
  unfold runOnce
  simp only [List.forall_mem_append, List.forall_mem_cons, List.forall_mem_map, List.mem_range,
    List.not_mem_nil, false_imp_iff, implies_true, and_true]
  rw [hin.1, hin.2.1, hin.2.2]
  refine ⟨⟨hout.1, hout.2⟩, ?_⟩
  intro j hj
  rw [gate.rowFor_limb inp out hj, limbsOf, splitToLimbs, List.append_nil]
  rfl

end U32SubtractionGate

/-! ## `U32RangeCheckGate` -/

structure U32RangeCheckGate where
  numInputLimbs : Nat

namespace U32RangeCheckGate

def auxLimbBits : Nat := 2
def base : Nat := 2 ^ auxLimbBits
def auxLimbsPerInputLimb : Nat := (32 + auxLimbBits - 1) / auxLimbBits

variable (gate : U32RangeCheckGate)

def wireIthInputLimb (i : Nat) : Nat := i
def wireIthInputLimbJthAuxLimb (i j : Nat) : Nat :=
  gate.numInputLimbs + auxLimbsPerInputLimb * i + j

/-- The constraints on one input limb. -/
def evalLimb {R : Type} [CommRing R] (localWires : Nat → R) (i : Nat) : List R :=
  let inputLimb := localWires (wireIthInputLimb i)
  let auxLimbs := (List.range auxLimbsPerInputLimb).map fun j =>
    localWires (gate.wireIthInputLimbJthAuxLimb i j)
  let computedSum := reduceWithPowers auxLimbs (base : R)
  (computedSum - inputLimb) :: auxLimbs.map (rangeProduct base)

def evalUnfiltered {R : Type} [CommRing R] (localWires : Nat → R) : List R :=
  (List.range gate.numInputLimbs).flatMap (gate.evalLimb localWires)

/-- `U32RangeCheckGenerator::run_once`: the wires it sets for one input limb. -/
def runOnce (i : Nat) (witness : Nat → F) : List (Nat × F) :=
  let sumValue : Nat := (witness (wireIthInputLimb i)).val % 2 ^ 32
  let limbs := splitToLimbs base auxLimbsPerInputLimb sumValue
  (List.range auxLimbsPerInputLimb).map fun j =>
    (gate.wireIthInputLimbJthAuxLimb i j, ((limbs.getD j 0 : Nat) : F))

/-- The values of the generator stand on the row. -/
def Filled (localWires : Nat → F) : Prop :=
  ∀ i < gate.numInputLimbs, ∀ set ∈ gate.runOnce i localWires, localWires set.1 = set.2

theorem allZero_evalLimb {R : Type} [CommRing R] {localWires : Nat → R} {i : Nat} :
    AllZero (gate.evalLimb localWires i) ↔
      reduceWithPowers ((List.range 16).map fun j =>
          localWires (gate.wireIthInputLimbJthAuxLimb i j)) ((4 : Nat) : R) =
          localWires (wireIthInputLimb i) ∧
        ∀ j < 16, rangeProduct 4 (localWires (gate.wireIthInputLimbJthAuxLimb i j)) = 0 := by
  unfold evalLimb
  simp only [AllZero, auxLimbsPerInputLimb, base, auxLimbBits, List.forall_mem_cons,
    List.forall_mem_map, List.mem_range, sub_eq_zero, Nat.reducePow, Nat.reduceDiv, Nat.reduceAdd,
    Nat.reduceSub]

/-- The generated limbs meet the constraints when the input is in range. -/
theorem allZero_of_filled {localWires : Nat → F} (h : gate.Filled localWires)
    (hin : ∀ i < gate.numInputLimbs, rangeCheck (localWires (wireIthInputLimb i)) 32) :
    AllZero (gate.evalUnfiltered localWires) := by
  rw [evalUnfiltered, allZero_flatMap]
  intro i hi
  have hset := h i hi
  have hlt : (localWires (wireIthInputLimb i)).val < 4 ^ 16 := hin i hi
  unfold runOnce at hset
  simp only [List.forall_mem_map, List.mem_range] at hset
  have hlimbsOf : ∀ j < 16 + 0, localWires (gate.wireIthInputLimbJthAuxLimb i j) =
      limbsOf 16 0 (localWires (wireIthInputLimb i)).val 0 j := by
    intro j hj
    rw [hset j hj, Nat.mod_eq_of_lt (hin i hi), limbsOf, splitToLimbs, List.append_nil]
    rfl
  have hlimbs := limbsOf_spec hlt (show 0 < 4 ^ 0 by decide) hlimbsOf
  rw [gate.allZero_evalLimb, hlimbs.2.1, ZMod.natCast_zmod_val]
  exact ⟨rfl, hlimbs.1⟩

/-- The rows of the gate, on the wires other gates see. -/
theorem exists_rangeCheck_row_iff {inp : Nat → F} :
    (∃ localWires : Nat → F, AllZero (gate.evalUnfiltered localWires) ∧
      ∀ i < gate.numInputLimbs, localWires (wireIthInputLimb i) = inp i) ↔
      ∀ i < gate.numInputLimbs, rangeCheck (inp i) 32 := by
  constructor
  · rintro ⟨localWires, hzero, hwires⟩ i hi
    obtain ⟨hsum, hlimbs⟩ := gate.allZero_evalLimb.mp (allZero_flatMap.mp hzero i hi)
    rw [← hwires i hi, ← hsum]
    exact @rangeCheck_limbs 4 16 _ (by decide) (by decide) (by decide) hlimbs
  · intro h
    let row := rowOf 1 16 gate.numInputLimbs (fun i _ => inp i) fun i j =>
      limbsOf 16 0 (inp i).val 0 j
    have hrow : ∀ i < gate.numInputLimbs, row (wireIthInputLimb i) = inp i := by
      intro i hi
      have hrouted := @rowOf_routed 1 16 gate.numInputLimbs i (fun i _ => inp i)
        (fun i j => limbsOf 16 0 (inp i).val 0 j) 0 hi Nat.zero_lt_one
      rwa [Nat.one_mul] at hrouted
    refine ⟨row, gate.allZero_of_filled ?_ (fun i hi => by rw [hrow i hi]; exact h i hi), hrow⟩
    intro i hi
    unfold runOnce
    simp only [List.forall_mem_map, List.mem_range]
    intro j hj
    have hlimb := @rowOf_limb 1 16 gate.numInputLimbs i (fun i _ => inp i)
      (fun i j => limbsOf 16 0 (inp i).val 0 j) j hj
    rw [Nat.one_mul] at hlimb
    rw [hrow i hi, Nat.mod_eq_of_lt (h i hi)]
    refine hlimb.trans ?_
    rw [limbsOf, splitToLimbs, List.append_nil]
    rfl

end U32RangeCheckGate

/-! ## the configuration -/

/-- As many operations as the configuration has wires for. -/
theorem fits_config {routedPerOp limbsPerOp : Nat} (config : CircuitConfig) :
    let numOps := min (config.numWires / (routedPerOp + limbsPerOp))
      (config.numRoutedWires / routedPerOp)
    routedPerOp * numOps ≤ config.numRoutedWires ∧
      routedPerOp * numOps + limbsPerOp * numOps ≤ config.numWires := by
  intro numOps
  constructor
  · calc routedPerOp * numOps ≤ routedPerOp * (config.numRoutedWires / routedPerOp) :=
        Nat.mul_le_mul_left _ (Nat.min_le_right _ _)
      _ ≤ config.numRoutedWires := Nat.mul_div_le _ _
  · calc routedPerOp * numOps + limbsPerOp * numOps = (routedPerOp + limbsPerOp) * numOps :=
        (Nat.add_mul _ _ _).symm
      _ ≤ (routedPerOp + limbsPerOp) * (config.numWires / (routedPerOp + limbsPerOp)) :=
        Nat.mul_le_mul_left _ (Nat.min_le_left _ _)
      _ ≤ config.numWires := Nat.mul_div_le _ _

theorem U32ArithmeticGate.fits (config : CircuitConfig) :
    routedWiresPerOp * (newFromConfig config).numOps ≤ config.numRoutedWires ∧
      (newFromConfig config).numWires ≤ config.numWires := by
  rw [numWires, Nat.mul_add, Nat.mul_comm _ routedWiresPerOp, Nat.mul_comm _ numLimbs]
  exact fits_config config

theorem U32AddManyGate.fits (config : CircuitConfig) (numAddends : Nat) :
    (numAddends + 3) * (newFromConfig config numAddends).numOps ≤ config.numRoutedWires ∧
      (newFromConfig config numAddends).numWires ≤ config.numWires :=
  fits_config config

theorem U32SubtractionGate.fits (config : CircuitConfig) :
    5 * (newFromConfig config).numOps ≤ config.numRoutedWires ∧
      (newFromConfig config).numWires ≤ config.numWires := by
  rw [numWires, Nat.mul_add, Nat.mul_comm _ 5, Nat.mul_comm _ numLimbs]
  exact fits_config config

end GearBridges.Plonky2U32
