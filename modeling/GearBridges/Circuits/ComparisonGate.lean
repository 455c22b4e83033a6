import GearBridges.Circuits.U32Gates
import GearBridges.Lib.DigitOrder
import GearBridges.Lib.Outcomes
import GearBridges.Prover.Targets

/-!
# Circuits.ComparisonGate

`ComparisonGate` of `plonky2_u32`, wire by wire, and the comparison of lists of limbs built
from it.

The gate splits both inputs into chunks and keeps the difference of the highest chunks that
differ.  The top bit of `2 ^ chunk_bits` plus this difference is the result: it is set when
the difference is not negative (`topBit_iff`).  The chunks are range checks of the inputs as
well, up to the bits all chunks have together.  For one limb of 32 bits this is the comparison
of the storage circuits (`mem_listLeU32Circuit_singleton`).
-/

namespace GearBridges.Plonky2U32

open Goldilocks DigitOrder Outcomes

structure ComparisonGate where
  numBits : Nat
  numChunks : Nat

namespace ComparisonGate

variable (gate : ComparisonGate)

def chunkBits : Nat := (gate.numBits + gate.numChunks - 1) / gate.numChunks

def wireFirstInput : Nat := 0
def wireSecondInput : Nat := 1
def wireResultBool : Nat := 2
def wireMostSignificantDiff : Nat := 3
def wireFirstChunkVal (chunk : Nat) : Nat := 4 + chunk
def wireSecondChunkVal (chunk : Nat) : Nat := 4 + gate.numChunks + chunk
def wireEqualityDummy (chunk : Nat) : Nat := 4 + 2 * gate.numChunks + chunk
def wireChunksEqual (chunk : Nat) : Nat := 4 + 3 * gate.numChunks + chunk
def wireIntermediateValue (chunk : Nat) : Nat := 4 + 4 * gate.numChunks + chunk
def wireMostSignificantDiffBit (bitIndex : Nat) : Nat := 4 + 5 * gate.numChunks + bitIndex

section
variable {R : Type} [CommRing R] (localWires : Nat → R)

/-- One iteration of the loop over the chunks: the difference so far, and the constraints
pushed so far. -/
def evalChunk (state : R × List R) (i : Nat) : R × List R :=
  let mostSignificantDiffSoFar := state.1
  let firstChunk := localWires (wireFirstChunkVal i)
  let secondChunk := localWires (gate.wireSecondChunkVal i)
  let chunkSize := 2 ^ gate.chunkBits
  let difference := secondChunk - firstChunk
  let equalityDummy := localWires (gate.wireEqualityDummy i)
  let chunksEqual := localWires (gate.wireChunksEqual i)
  let intermediateValue := localWires (gate.wireIntermediateValue i)
  (intermediateValue + (1 - chunksEqual) * difference,
    state.2 ++ [rangeProduct chunkSize firstChunk, rangeProduct chunkSize secondChunk,
      difference * equalityDummy - (1 - chunksEqual), chunksEqual * difference,
      intermediateValue - chunksEqual * mostSignificantDiffSoFar])

def evalUnfiltered : List R :=
  let firstInput := localWires wireFirstInput
  let secondInput := localWires wireSecondInput
  let firstChunks := (List.range gate.numChunks).map fun i => localWires (wireFirstChunkVal i)
  let secondChunks := (List.range gate.numChunks).map fun i => localWires (gate.wireSecondChunkVal i)
  let firstChunksCombined := reduceWithPowers firstChunks ((2 ^ gate.chunkBits : Nat) : R)
  let secondChunksCombined := reduceWithPowers secondChunks ((2 ^ gate.chunkBits : Nat) : R)
  let constraints := [firstChunksCombined - firstInput, secondChunksCombined - secondInput]
  let state := (List.range gate.numChunks).foldl (gate.evalChunk localWires) (0, constraints)
  let mostSignificantDiff := localWires wireMostSignificantDiff
  let mostSignificantDiffBits := (List.range (gate.chunkBits + 1)).map fun i =>
    localWires (gate.wireMostSignificantDiffBit i)
  let bitsCombined := reduceWithPowers mostSignificantDiffBits ((2 : Nat) : R)
  let twoN := ((2 ^ gate.chunkBits : Nat) : R)
  let resultBool := localWires wireResultBool
  state.2 ++ [mostSignificantDiff - state.1] ++
    mostSignificantDiffBits.map (fun bit => bit * (1 - bit)) ++
    [twoN + mostSignificantDiff - bitsCombined,
      resultBool - localWires (gate.wireMostSignificantDiffBit gate.chunkBits)]

/-- The difference after the first chunks. -/
def diffAfter : Nat → R
  | 0 => 0
  | i + 1 => localWires (gate.wireIntermediateValue i) + (1 - localWires (gate.wireChunksEqual i)) *
      (localWires (gate.wireSecondChunkVal i) - localWires (wireFirstChunkVal i))

/-- What the constraints say about one chunk. -/
structure ChunkHolds (i : Nat) : Prop where
  first : rangeProduct (2 ^ gate.chunkBits) (localWires (wireFirstChunkVal i)) = 0
  second : rangeProduct (2 ^ gate.chunkBits) (localWires (gate.wireSecondChunkVal i)) = 0
  dummy : (localWires (gate.wireSecondChunkVal i) - localWires (wireFirstChunkVal i)) *
    localWires (gate.wireEqualityDummy i) = 1 - localWires (gate.wireChunksEqual i)
  equal : localWires (gate.wireChunksEqual i) *
    (localWires (gate.wireSecondChunkVal i) - localWires (wireFirstChunkVal i)) = 0
  intermediate : localWires (gate.wireIntermediateValue i) =
    localWires (gate.wireChunksEqual i) * gate.diffAfter localWires i

theorem foldl_evalChunk (constraints : List R) (n : Nat) :
    ((List.range n).foldl (gate.evalChunk localWires) (0, constraints)).1 =
        gate.diffAfter localWires n ∧
      (AllZero ((List.range n).foldl (gate.evalChunk localWires) (0, constraints)).2 ↔
        AllZero constraints ∧ ∀ i < n, gate.ChunkHolds localWires i) := by
  induction n with
  | zero => exact ⟨rfl, ⟨fun h => ⟨h, fun i hi => absurd hi (Nat.not_lt_zero i)⟩, fun h => h.1⟩⟩
  | succ n ih =>
      rw [List.range_succ, List.foldl_append, List.foldl_cons, List.foldl_nil]
      refine ⟨rfl, ?_⟩
      rw [evalChunk]
      simp only [allZero_append, allZero_cons, allZero_nil, and_true, sub_eq_zero]
      rw [ih.1, ih.2, Nat.forall_lt_succ_right]
      constructor
      · rintro ⟨⟨hstart, hchunks⟩, hfirst, hsecond, hdummy, hequal, hintermediate⟩
        exact ⟨hstart, hchunks, ⟨hfirst, hsecond, hdummy, hequal, hintermediate⟩⟩
      · rintro ⟨hstart, hchunks, hlast⟩
        exact ⟨⟨hstart, hchunks⟩, hlast.first, hlast.second, hlast.dummy, hlast.equal,
          hlast.intermediate⟩

/-- The constraints, by their meaning: those on all wires but the result ... -/
structure Decomposes : Prop where
  first : reduceWithPowers ((List.range gate.numChunks).map fun i =>
    localWires (wireFirstChunkVal i)) ((2 ^ gate.chunkBits : Nat) : R) = localWires wireFirstInput
  second : reduceWithPowers ((List.range gate.numChunks).map fun i =>
    localWires (gate.wireSecondChunkVal i)) ((2 ^ gate.chunkBits : Nat) : R) =
      localWires wireSecondInput
  chunks : ∀ i < gate.numChunks, gate.ChunkHolds localWires i
  diff : localWires wireMostSignificantDiff = gate.diffAfter localWires gate.numChunks
  bits : ∀ i < gate.chunkBits + 1, localWires (gate.wireMostSignificantDiffBit i) *
    (1 - localWires (gate.wireMostSignificantDiffBit i)) = 0
  sum : ((2 ^ gate.chunkBits : Nat) : R) + localWires wireMostSignificantDiff =
    reduceWithPowers ((List.range (gate.chunkBits + 1)).map fun i =>
      localWires (gate.wireMostSignificantDiffBit i)) ((2 : Nat) : R)

/-- ... and the result. -/
structure Holds : Prop extends Decomposes gate localWires where
  result : localWires wireResultBool = localWires (gate.wireMostSignificantDiffBit gate.chunkBits)

theorem allZero_iff : AllZero (gate.evalUnfiltered localWires) ↔ gate.Holds localWires := by
  have hloop := gate.foldl_evalChunk localWires
    [reduceWithPowers ((List.range gate.numChunks).map fun i => localWires (wireFirstChunkVal i))
        ((2 ^ gate.chunkBits : Nat) : R) - localWires wireFirstInput,
      reduceWithPowers ((List.range gate.numChunks).map fun i =>
        localWires (gate.wireSecondChunkVal i)) ((2 ^ gate.chunkBits : Nat) : R) -
        localWires wireSecondInput] gate.numChunks
  have hbits : AllZero (((List.range (gate.chunkBits + 1)).map fun i =>
      localWires (gate.wireMostSignificantDiffBit i)).map fun bit => bit * (1 - bit)) ↔
      ∀ i < gate.chunkBits + 1, localWires (gate.wireMostSignificantDiffBit i) *
        (1 - localWires (gate.wireMostSignificantDiffBit i)) = 0 := by
    simp only [AllZero, List.forall_mem_map, List.mem_range]
  unfold evalUnfiltered
  simp only
  rw [hloop.1]
  simp only [allZero_append, hloop.2, hbits, allZero_cons, allZero_nil, and_true, sub_eq_zero]
  constructor
  · rintro ⟨⟨⟨⟨⟨hfirst, hsecond⟩, hchunks⟩, hdiff⟩, hbits⟩, hsum, hresult⟩
    exact ⟨⟨hfirst, hsecond, hchunks, hdiff, hbits, hsum⟩, hresult⟩
  · intro h
    exact ⟨⟨⟨⟨⟨h.first, h.second⟩, h.chunks⟩, h.diff⟩, h.bits⟩, h.sum, h.result⟩

end

/-! ### soundness -/

theorem eq_zero_or_one {x : F} (h : x * (1 - x) = 0) : x = 0 ∨ x = 1 := by
  have : Fact modulus.Prime := ⟨prime_modulus⟩
  rcases mul_eq_zero.mp h with h | h
  · exact Or.inl h
  · exact Or.inr (sub_eq_zero.mp h).symm

/-- Limbs on wires recombine to the number with their values as digits. -/
theorem reduceWithPowers_wires (base n : Nat) (limb : Nat → F) :
    reduceWithPowers ((List.range n).map limb) (base : F) =
      ((valueBelow base (fun i => (limb i).val) n : Nat) : F) := by
  rw [reduceWithPowers_natCast, List.map_map]
  rfl

section
variable {gate : ComparisonGate} {localWires : Nat → F}

/-- The digits of the inputs. -/
def firstDigit (localWires : Nat → F) (i : Nat) : Nat := (localWires (wireFirstChunkVal i)).val

def secondDigit (gate : ComparisonGate) (localWires : Nat → F) (i : Nat) : Nat :=
  (localWires (gate.wireSecondChunkVal i)).val

theorem digits_lt (h : gate.Decomposes localWires) (hsize : 2 ^ gate.chunkBits ≤ modulus) :
    (∀ i < gate.numChunks, firstDigit localWires i < 2 ^ gate.chunkBits) ∧
      ∀ i < gate.numChunks, gate.secondDigit localWires i < 2 ^ gate.chunkBits :=
  ⟨fun i hi => (rangeProduct_eq_zero_iff hsize).mp (h.chunks i hi).first,
    fun i hi => (rangeProduct_eq_zero_iff hsize).mp (h.chunks i hi).second⟩

/-- The loop keeps the difference of the highest chunks that differ. -/
theorem diffAfter_eq_topDiff {n : Nat} (h : ∀ i < n, gate.ChunkHolds localWires i) :
    gate.diffAfter localWires n =
      ((topDiff (firstDigit localWires) (gate.secondDigit localWires) n : Int) : F) := by
  have : Fact modulus.Prime := ⟨prime_modulus⟩
  induction n with
  | zero => rw [diffAfter, topDiff, Int.cast_zero]
  | succ n ih =>
      have hlast := h n (Nat.lt_succ_self n)
      have ih := ih fun i hi => h i (Nat.lt_succ_of_lt hi)
      rw [diffAfter, topDiff]
      split
      · next heq =>
          have hsame := ZMod.val_injective modulus heq
          have hequal : localWires (gate.wireChunksEqual n) = 1 := by
            have hdummy := hlast.dummy
            rw [← hsame, sub_self, zero_mul] at hdummy
            exact (sub_eq_zero.mp hdummy.symm).symm
          rw [hlast.intermediate, hequal, one_mul, sub_self, zero_mul, add_zero, ih]
      · next hne =>
          have hdiff : localWires (gate.wireSecondChunkVal n) -
              localWires (wireFirstChunkVal n) ≠ 0 := by
            intro hzero
            exact hne (congrArg ZMod.val (sub_eq_zero.mp hzero).symm)
          have hequal := (mul_eq_zero.mp hlast.equal).resolve_right hdiff
          rw [hlast.intermediate, hequal, zero_mul, zero_add, sub_zero, one_mul, Int.cast_sub,
            Int.cast_natCast, Int.cast_natCast, firstDigit, secondDigit, ZMod.natCast_zmod_val,
            ZMod.natCast_zmod_val]

/-- The top bit of a shifted difference. -/
theorem bit_of_shifted {p low bit : Nat} {diff : Int} (hlow : low < p) (hbit : bit < 2)
    (hdiff : -(p : Int) < diff ∧ diff < p) (hsum : low + p * bit = ((p : Int) + diff).toNat) :
    bit = if 0 ≤ diff then 1 else 0 := by
  have hcases : bit = 0 ∨ bit = 1 := by omega
  rcases hcases with rfl | rfl
  · rw [if_neg (by omega)]
  · rw [if_pos (by omega)]

/-- The top bit of the shifted difference says that it is not negative. -/
theorem topBit_iff (h : gate.Decomposes localWires) (hsize : 2 ^ (gate.chunkBits + 1) ≤ modulus) :
    localWires (gate.wireMostSignificantDiffBit gate.chunkBits) =
      if 0 ≤ topDiff (firstDigit localWires) (gate.secondDigit localWires) gate.numChunks
      then 1 else 0 := by
  have hle : 2 ^ gate.chunkBits ≤ modulus :=
    Nat.le_trans (Nat.pow_le_pow_right (by decide) (Nat.le_succ _)) hsize
  obtain ⟨hf, hg⟩ := digits_lt h hle
  have hdiff := topDiff_lt (Nat.two_pow_pos gate.chunkBits) hf hg
  set bit := fun i => (localWires (gate.wireMostSignificantDiffBit i)).val with hbitdef
  set diff := topDiff (firstDigit localWires) (gate.secondDigit localWires) gate.numChunks
  have hbit : ∀ i < gate.chunkBits + 1, bit i < 2 := by
    intro i hi
    rw [hbitdef]
    rcases eq_zero_or_one (h.bits i hi) with h0 | h1
    · simp only [h0, ZMod.val_zero, Nat.zero_lt_two]
    · simp only [h1]
      decide
  have hlow : valueBelow 2 bit gate.chunkBits < 2 ^ gate.chunkBits :=
    valueBelow_lt (by decide) fun i hi => hbit i (by omega)
  have hall : valueBelow 2 bit (gate.chunkBits + 1) < 2 ^ (gate.chunkBits + 1) :=
    valueBelow_lt (by decide) hbit
  have hcast : (((((2 ^ gate.chunkBits : Nat) : Int) + diff).toNat : Nat) : F) =
      ((2 ^ gate.chunkBits : Nat) : F) + ((diff : Int) : F) := by
    rw [← Int.cast_natCast, Int.toNat_of_nonneg (by omega), Int.cast_add, Int.cast_natCast]
  have hsum : ((valueBelow 2 bit (gate.chunkBits + 1) : Nat) : F) =
      (((((2 ^ gate.chunkBits : Nat) : Int) + diff).toNat : Nat) : F) := by
    rw [hcast, ← diffAfter_eq_topDiff h.chunks, ← h.diff, h.sum, reduceWithPowers_wires]
  rw [pow_succ] at hsize hall
  rw [natCast_inj (by omega) (by omega), valueBelow_succ] at hsum
  have htop := bit_of_shifted hlow (hbit gate.chunkBits (Nat.lt_succ_self _)) hdiff hsum
  rw [← ZMod.natCast_zmod_val (localWires (gate.wireMostSignificantDiffBit gate.chunkBits))]
  simp only [hbitdef] at htop
  rw [htop]
  split
  · exact Nat.cast_one
  · exact Nat.cast_zero

/-- The top bit compares the inputs, both of which are in range. -/
theorem topBit_eq (h : gate.Decomposes localWires) (hpos : 0 < gate.chunkBits)
    (hsize : 2 ^ (gate.chunkBits + 1) ≤ modulus)
    (hinput : (2 ^ gate.chunkBits) ^ gate.numChunks ≤ modulus) :
    (localWires wireFirstInput).val < (2 ^ gate.chunkBits) ^ gate.numChunks ∧
      (localWires wireSecondInput).val < (2 ^ gate.chunkBits) ^ gate.numChunks ∧
      localWires (gate.wireMostSignificantDiffBit gate.chunkBits) =
        if (localWires wireFirstInput).val ≤ (localWires wireSecondInput).val then 1 else 0 := by
  have hle : 2 ^ gate.chunkBits ≤ modulus :=
    Nat.le_trans (Nat.pow_le_pow_right (by decide) (Nat.le_succ _)) hsize
  have hbase : 1 < 2 ^ gate.chunkBits := Nat.one_lt_two_pow (Nat.pos_iff_ne_zero.mp hpos)
  obtain ⟨hf, hg⟩ := digits_lt h hle
  have hfirst : (localWires wireFirstInput).val =
      valueBelow (2 ^ gate.chunkBits) (firstDigit localWires) gate.numChunks := by
    rw [← h.first, reduceWithPowers_wires]
    exact val_natCast (Nat.lt_of_lt_of_le (valueBelow_lt hbase hf) hinput)
  have hsecond : (localWires wireSecondInput).val =
      valueBelow (2 ^ gate.chunkBits) (gate.secondDigit localWires) gate.numChunks := by
    rw [← h.second, reduceWithPowers_wires]
    exact val_natCast (Nat.lt_of_lt_of_le (valueBelow_lt hbase hg) hinput)
  rw [topBit_iff h hsize, hfirst, hsecond]
  refine ⟨valueBelow_lt hbase hf, valueBelow_lt hbase hg, ?_⟩
  simp only [topDiff_nonneg_iff hbase hf hg]

end

/-! ### the generator -/

section
variable (gate : ComparisonGate)

/-- The chunks of an input. -/
def inputChunk (x : F) (i : Nat) : F :=
  (((splitToLimbs (2 ^ gate.chunkBits) gate.numChunks x.val).getD i 0 : Nat) : F)

/-- The loop of the generator over the chunks. -/
def generatedDiff (first second : Nat → F) : Nat → F
  | 0 => 0
  | i + 1 => if first i ≠ second i then second i - first i else generatedDiff first second i

def generatedDummy (first second : Nat → F) (i : Nat) : F :=
  if first i = second i then 1 else (second i - first i)⁻¹

def generatedIntermediate (first second : Nat → F) (i : Nat) : F :=
  if first i ≠ second i then 0 else generatedDiff first second i

/-- The values of the five wires of a chunk. -/
def generatedChunk (first second : Nat → F) (i : Nat) : List F :=
  [first i, second i, generatedDummy first second i, if first i = second i then 1 else 0,
    generatedIntermediate first second i]

/-- The bits of the shifted difference. -/
def generatedBit (diff : F) (i : Nat) : F :=
  let twoNPlusMsd := (((2 ^ gate.chunkBits : Nat) : F) + diff).val
  (((splitToLimbs 2 (gate.chunkBits + 1) twoNPlusMsd).getD i 0 : Nat) : F)

/-- `ComparisonGenerator::run_once`: the wires it sets. -/
def runOnce (witness : Nat → F) : List (Nat × F) :=
  let firstInput := witness wireFirstInput
  let secondInput := witness wireSecondInput
  let result : F := if firstInput.val ≤ secondInput.val then 1 else 0
  let first := gate.inputChunk firstInput
  let second := gate.inputChunk secondInput
  let mostSignificantDiff := generatedDiff first second gate.numChunks
  [(wireResultBool, result), (wireMostSignificantDiff, mostSignificantDiff)] ++
    (List.range gate.numChunks).flatMap (fun i =>
      [(wireFirstChunkVal i, first i), (gate.wireSecondChunkVal i, second i),
        (gate.wireEqualityDummy i, generatedDummy first second i),
        (gate.wireChunksEqual i, if first i = second i then 1 else 0),
        (gate.wireIntermediateValue i, generatedIntermediate first second i)]) ++
    (List.range (gate.chunkBits + 1)).map fun i =>
      (gate.wireMostSignificantDiffBit i, gate.generatedBit mostSignificantDiff i)

/-- The values of the generator stand on the row. -/
def Filled (localWires : Nat → F) : Prop :=
  ∀ set ∈ gate.runOnce localWires, localWires set.1 = set.2

/-- The generated values, wire by wire. -/
theorem filled_iff {localWires : Nat → F} :
    let first := gate.inputChunk (localWires wireFirstInput)
    let second := gate.inputChunk (localWires wireSecondInput)
    gate.Filled localWires ↔
      (localWires wireResultBool =
          (if (localWires wireFirstInput).val ≤ (localWires wireSecondInput).val then 1 else 0) ∧
        localWires wireMostSignificantDiff = generatedDiff first second gate.numChunks) ∧
      (∀ i < gate.numChunks, localWires (wireFirstChunkVal i) = first i ∧
        localWires (gate.wireSecondChunkVal i) = second i ∧
        localWires (gate.wireEqualityDummy i) = generatedDummy first second i ∧
        localWires (gate.wireChunksEqual i) = (if first i = second i then 1 else 0) ∧
        localWires (gate.wireIntermediateValue i) = generatedIntermediate first second i) ∧
      ∀ i < gate.chunkBits + 1, localWires (gate.wireMostSignificantDiffBit i) =
        gate.generatedBit (generatedDiff first second gate.numChunks) i := by
  intro first second
  unfold Filled runOnce
  simp only [List.forall_mem_append, List.forall_mem_cons, List.forall_mem_map, List.mem_range,
    List.not_mem_nil, false_imp_iff, implies_true, and_true, List.forall_mem_flatMap]
  rw [and_assoc]

/-- The generated chunks of an input in range. -/
theorem inputChunk_spec (hsize : 2 ^ gate.chunkBits ≤ modulus) {x : F}
    (hx : x.val < (2 ^ gate.chunkBits) ^ gate.numChunks) {limb : Nat → F}
    (hlimb : ∀ i < gate.numChunks, limb i = gate.inputChunk x i) :
    (∀ i < gate.numChunks, rangeProduct (2 ^ gate.chunkBits) (limb i) = 0) ∧
      reduceWithPowers ((List.range gate.numChunks).map limb) ((2 ^ gate.chunkBits : Nat) : F) = x := by
  have h := limbs_of_split (Nat.two_pow_pos gate.chunkBits) hsize hlimb
  rwa [Nat.mod_eq_of_lt hx, ZMod.natCast_zmod_val] at h

/-- The dummy is the inverse of a difference that is not zero. -/
theorem generatedDummy_spec (first second : Nat → F) (i : Nat) :
    (second i - first i) * generatedDummy first second i =
      1 - if first i = second i then 1 else 0 := by
  have : Fact modulus.Prime := ⟨prime_modulus⟩
  unfold generatedDummy
  split
  · next h => rw [h, sub_self, zero_mul, sub_self]
  · next h => rw [mul_inv_cancel₀ (sub_ne_zero.mpr (Ne.symm h)), sub_zero]

/-- Bits split off a number are bits. -/
theorem bit_of_rangeProduct {x : F} (h : rangeProduct 2 x = 0) : x * (1 - x) = 0 := by
  have hlt := (rangeProduct_eq_zero_iff (by decide)).mp h
  have hcases : x.val = 0 ∨ x.val = 1 := by omega
  rcases hcases with h0 | h1
  · rw [(ZMod.val_eq_zero x).mp h0, zero_mul]
  · rw [← ZMod.natCast_zmod_val x, h1, Nat.cast_one, sub_self, mul_zero]

/-- On inputs in range the generated values meet the constraints. -/
theorem holds_of_filled {localWires : Nat → F} (hpos : 0 < gate.chunkBits)
    (hsize : 2 ^ (gate.chunkBits + 1) ≤ modulus)
    (hinput : (2 ^ gate.chunkBits) ^ gate.numChunks ≤ modulus) (h : gate.Filled localWires)
    (hfirst : (localWires wireFirstInput).val < (2 ^ gate.chunkBits) ^ gate.numChunks)
    (hsecond : (localWires wireSecondInput).val < (2 ^ gate.chunkBits) ^ gate.numChunks) :
    gate.Holds localWires := by
  have hle : 2 ^ gate.chunkBits ≤ modulus :=
    Nat.le_trans (Nat.pow_le_pow_right (by decide) (Nat.le_succ _)) hsize
  obtain ⟨⟨hresult, hmsd⟩, hchunk, hbit⟩ := gate.filled_iff.mp h
  set first := gate.inputChunk (localWires wireFirstInput)
  set second := gate.inputChunk (localWires wireSecondInput)
  have hfirsts := gate.inputChunk_spec hle hfirst fun i hi => (hchunk i hi).1
  have hseconds := gate.inputChunk_spec hle hsecond fun i hi => (hchunk i hi).2.1
  -- the wires of the loop hold the difference the generator keeps
  have hdiff : ∀ n ≤ gate.numChunks, gate.diffAfter localWires n = generatedDiff first second n := by
    intro n hn
    cases n with
    | zero => rfl
    | succ n =>
        obtain ⟨hf, hs, -, hequal, hintermediate⟩ := hchunk n hn
        rw [diffAfter, hf, hs, hequal, hintermediate, generatedIntermediate, generatedDiff]
        by_cases heq : first n = second n
        · rw [if_neg (not_not.mpr heq), if_neg (not_not.mpr heq), if_pos heq, sub_self, zero_mul,
            add_zero]
        · rw [if_pos heq, if_pos heq, if_neg heq, zero_add, sub_zero, one_mul]
  have hchunks : ∀ i < gate.numChunks, gate.ChunkHolds localWires i := by
    intro i hi
    obtain ⟨hf, hs, hdummy, hequal, hintermediate⟩ := hchunk i hi
    refine ⟨hfirsts.1 i hi, hseconds.1 i hi, ?_, ?_, ?_⟩
    · rw [hf, hs, hdummy, hequal, generatedDummy_spec]
    · rw [hf, hs, hequal]
      split
      · next heq => rw [heq, sub_self, mul_zero]
      · rw [zero_mul]
    · rw [hintermediate, hequal, hdiff i (Nat.le_of_lt hi), generatedIntermediate]
      by_cases heq : first i = second i
      · rw [if_neg (not_not.mpr heq), if_pos heq, one_mul]
      · rw [if_pos heq, if_neg heq, zero_mul]
  have hmsd' : localWires wireMostSignificantDiff = gate.diffAfter localWires gate.numChunks := by
    rw [hmsd, hdiff _ (Nat.le_refl _)]
  -- the shifted difference has one bit more than a chunk
  have hfit : (((2 ^ gate.chunkBits : Nat) : F) + localWires wireMostSignificantDiff).val <
      2 ^ (gate.chunkBits + 1) := by
    have hlt := topDiff_lt (Nat.two_pow_pos gate.chunkBits)
      (fun i hi => (rangeProduct_eq_zero_iff hle).mp (hchunks i hi).first)
      (fun i hi => (rangeProduct_eq_zero_iff hle).mp (hchunks i hi).second)
    rw [hmsd', diffAfter_eq_topDiff hchunks]
    rw [pow_succ] at hsize ⊢
    set diff := topDiff (fun i => (localWires (wireFirstChunkVal i)).val)
      (fun i => (localWires (gate.wireSecondChunkVal i)).val) gate.numChunks
    have hcast : ((2 ^ gate.chunkBits : Nat) : F) + ((diff : Int) : F) =
        (((((2 ^ gate.chunkBits : Nat) : Int) + diff).toNat : Nat) : F) := by
      rw [← Int.cast_natCast (R := F) (Int.toNat _), Int.toNat_of_nonneg (by omega), Int.cast_add,
        Int.cast_natCast]
    have hval : (((2 ^ gate.chunkBits : Nat) : F) + ((diff : Int) : F)).val =
        (((2 ^ gate.chunkBits : Nat) : Int) + diff).toNat := by
      rw [hcast, val_natCast (by omega)]
    exact hval ▸ (by omega)
  have hbits := limbs_of_split Nat.zero_lt_two (show 2 ≤ modulus by decide) hbit
  rw [← hmsd, Nat.mod_eq_of_lt hfit, ZMod.natCast_zmod_val] at hbits
  have hdecomposes : gate.Decomposes localWires :=
    ⟨hfirsts.2, hseconds.2, hchunks, hmsd', fun i hi => bit_of_rangeProduct (hbits.1 i hi),
      hbits.2.symm⟩
  refine ⟨hdecomposes, ?_⟩
  rw [hresult, (topBit_eq hdecomposes hpos hsize hinput).2.2]

/-! ### the rows of the gate -/

/-- The row the generator fills in. -/
def rowFor (a b : F) (w : Nat) : F :=
  let first := gate.inputChunk a
  let second := gate.inputChunk b
  let diff := generatedDiff first second gate.numChunks
  if w < 4 then [a, b, if a.val ≤ b.val then 1 else 0, diff].getD w 0
  else if w < 4 + 5 * gate.numChunks then
    (generatedChunk first second ((w - 4) % gate.numChunks)).getD ((w - 4) / gate.numChunks) 0
  else gate.generatedBit diff (w - (4 + 5 * gate.numChunks))

theorem rowFor_chunk (a b : F) {k i : Nat} (hk : k < 5) (hi : i < gate.numChunks) :
    gate.rowFor a b (4 + k * gate.numChunks + i) =
      (generatedChunk (gate.inputChunk a) (gate.inputChunk b) i).getD k 0 := by
  have hpos : 0 < gate.numChunks := Nat.lt_of_le_of_lt (Nat.zero_le i) hi
  have hlt : k * gate.numChunks + i < 5 * gate.numChunks :=
    calc k * gate.numChunks + i < k * gate.numChunks + gate.numChunks := Nat.add_lt_add_left hi _
      _ = (k + 1) * gate.numChunks := (Nat.succ_mul _ _).symm
      _ ≤ 5 * gate.numChunks := Nat.mul_le_mul_right _ hk
  have h4 : ¬ 4 + k * gate.numChunks + i < 4 := by omega
  simp only [rowFor]
  rw [if_neg h4, if_pos (by omega), Nat.add_assoc, Nat.add_sub_cancel_left,
    Nat.mul_comm k, Nat.mul_add_mod, Nat.mod_eq_of_lt hi, Nat.mul_add_div hpos, Nat.div_eq_of_lt hi,
    Nat.add_zero]

theorem rowFor_bit (a b : F) (i : Nat) :
    gate.rowFor a b (gate.wireMostSignificantDiffBit i) =
      gate.generatedBit (generatedDiff (gate.inputChunk a) (gate.inputChunk b) gate.numChunks) i := by
  have h4 : ¬ gate.wireMostSignificantDiffBit i < 4 := by
    unfold wireMostSignificantDiffBit
    omega
  have hchunks : ¬ gate.wireMostSignificantDiffBit i < 4 + 5 * gate.numChunks := by
    unfold wireMostSignificantDiffBit
    omega
  have hindex : gate.wireMostSignificantDiffBit i - (4 + 5 * gate.numChunks) = i :=
    Nat.add_sub_cancel_left _ _
  simp only [rowFor]
  rw [if_neg h4, if_neg hchunks, hindex]

theorem filled_rowFor (a b : F) : gate.Filled (gate.rowFor a b) := by
  refine gate.filled_iff.mpr ⟨⟨rfl, rfl⟩, fun i hi => ?_, fun i _ => gate.rowFor_bit a b i⟩
  have hwire : ∀ k, k < 5 → gate.rowFor a b (4 + k * gate.numChunks + i) =
      (generatedChunk (gate.inputChunk a) (gate.inputChunk b) i).getD k 0 := fun k hk =>
    gate.rowFor_chunk a b hk hi
  have h0 := hwire 0 (by decide)
  have h1 := hwire 1 (by decide)
  rw [Nat.zero_mul, Nat.add_zero] at h0
  rw [Nat.one_mul] at h1
  exact ⟨h0, h1, hwire 2 (by decide), hwire 3 (by decide), hwire 4 (by decide)⟩

/-- The rows of the gate, on the wires other gates see: inputs out of range have none, those in
range are compared. -/
theorem exists_comparison_row_iff (hpos : 0 < gate.chunkBits)
    (hsize : 2 ^ (gate.chunkBits + 1) ≤ modulus)
    (hinput : (2 ^ gate.chunkBits) ^ gate.numChunks ≤ modulus) {a b r : F} :
    (∃ localWires : Nat → F, AllZero (gate.evalUnfiltered localWires) ∧
      localWires wireFirstInput = a ∧ localWires wireSecondInput = b ∧
      localWires wireResultBool = r) ↔
      a.val < (2 ^ gate.chunkBits) ^ gate.numChunks ∧ b.val < (2 ^ gate.chunkBits) ^ gate.numChunks ∧
        r = if a.val ≤ b.val then 1 else 0 := by
  constructor
  · rintro ⟨localWires, hzero, rfl, rfl, rfl⟩
    have h := (gate.allZero_iff localWires).mp hzero
    rw [h.result]
    exact topBit_eq h.toDecomposes hpos hsize hinput
  · rintro ⟨ha, hb, rfl⟩
    exact ⟨gate.rowFor a b, (gate.allZero_iff _).mpr
      (gate.holds_of_filled hpos hsize hinput (gate.filled_rowFor a b) ha hb), rfl, rfl, rfl⟩

end

end ComparisonGate

/-! ## `list_le_circuit` -/

attribute [local instance] Set.monad

/-- The results a row of the gate allows for two inputs. -/
def compare (gate : ComparisonGate) (a b : F) : Set F :=
  {r | ∃ localWires : Nat → F, AllZero (gate.evalUnfiltered localWires) ∧
    localWires ComparisonGate.wireFirstInput = a ∧
    localWires ComparisonGate.wireSecondInput = b ∧
    localWires ComparisonGate.wireResultBool = r}

/-- One iteration of the loop of `list_le_circuit`. -/
def listLeStep (gate : ComparisonGate) (result : F) (limbs : F × F) : Set F := do
  let aLeBResult ← compare gate limbs.1 limbs.2
  let bLeAResult ← compare gate limbs.2 limbs.1
  let theseLimbsEqual := aLeBResult * bLeAResult
  let theseLimbsLessThan := 1 - bLeAResult
  return theseLimbsEqual * result + theseLimbsLessThan

/-- The gate `list_le_circuit` takes for limbs of so many bits. -/
def listLeGate (numBits : Nat) : ComparisonGate :=
  let chunkBits := 2
  { numBits, numChunks := (numBits + chunkBits - 1) / chunkBits }

/-- `list_le_circuit`. -/
def listLeCircuit (a b : List F) (numBits : Nat) : Set F := do
  guard (a.length = b.length)
  (a.zip b).foldlM (listLeStep (listLeGate numBits)) 1

/-- `list_le_u32_circuit`. -/
def listLeU32Circuit (a b : List F) : Set F := listLeCircuit a b 32

/-! ### the order of limbs -/

/-- The order of two numbers that continue others. -/
def leWith (acc : Bool) (x y : Nat) : Bool := decide (x < y) || decide (x = y) && acc

theorem leWith_true (x y : Nat) : leWith true x y = decide (x ≤ y) := by
  rw [leWith, Bool.and_true, ← Bool.decide_or, decide_eq_decide]
  omega

/-- The higher digits decide first. -/
theorem leWith_cons {p x y d e : Nat} (acc : Bool) (hx : x < p) (hy : y < p) :
    leWith (leWith acc x y) d e = leWith acc (x + p * d) (y + p * e) := by
  have hlt := DigitOrder.add_mul_le_add_mul_iff (d := d) (e := e) hx hy
  have hgt := DigitOrder.add_mul_le_add_mul_iff (d := e) (e := d) hy hx
  cases acc <;> simp only [leWith, Bool.and_true, Bool.and_false, Bool.or_false] <;>
    rw [Bool.eq_iff_iff] <;>
    simp only [Bool.or_eq_true, Bool.and_eq_true, decide_eq_true_eq] <;>
    omega

section
variable {numBits : Nat}

/-- Limbs are below this number, by the chunks of the gate. -/
def listLeBase (numBits : Nat) : Nat :=
  (2 ^ (listLeGate numBits).chunkBits) ^ (listLeGate numBits).numChunks

/-- The gate for limbs of at most 62 bits meets the bounds its rows need. -/
theorem listLeGate_bounds (hpos : 0 < numBits) (hbits : numBits ≤ 62) :
    0 < (listLeGate numBits).chunkBits ∧ 2 ^ ((listLeGate numBits).chunkBits + 1) ≤ modulus ∧
      listLeBase numBits ≤ modulus := by
  have hchunks : 0 < (listLeGate numBits).numChunks ∧ (listLeGate numBits).numChunks ≤ 31 := by
    simp only [listLeGate]
    omega
  have hchunkBits : 0 < (listLeGate numBits).chunkBits ∧ (listLeGate numBits).chunkBits ≤ 2 := by
    rw [ComparisonGate.chunkBits]
    constructor
    · apply Nat.div_pos _ hchunks.1
      simp only [listLeGate]
      omega
    · rw [Nat.div_le_iff_le_mul_add_pred hchunks.1]
      simp only [listLeGate]
      omega
  refine ⟨hchunkBits.1, ?_, ?_⟩
  · calc 2 ^ ((listLeGate numBits).chunkBits + 1) ≤ 2 ^ 3 :=
          Nat.pow_le_pow_right (by decide) (by omega)
      _ ≤ modulus := by decide
  · calc listLeBase numBits = 2 ^ ((listLeGate numBits).chunkBits * (listLeGate numBits).numChunks) :=
          (pow_mul _ _ _).symm
      _ ≤ 2 ^ (2 * 31) := Nat.pow_le_pow_right (by decide) (Nat.mul_le_mul hchunkBits.2 hchunks.2)
      _ ≤ modulus := by decide

theorem compare_eq (hpos : 0 < numBits) (hbits : numBits ≤ 62) (a b : F) :
    compare (listLeGate numBits) a b =
      {r | a.val < listLeBase numBits ∧ b.val < listLeBase numBits ∧
        r = if a.val ≤ b.val then 1 else 0} := by
  obtain ⟨h1, h2, h3⟩ := listLeGate_bounds hpos hbits
  ext r
  exact (listLeGate numBits).exists_comparison_row_iff h1 h2 h3

/-- The bits of a step, by the order of its limbs. -/
theorem step_value (x y : Nat) (acc : Bool) :
    ((if x ≤ y then 1 else 0) * (if y ≤ x then 1 else 0) * (acc.toNat : F) +
      (1 - if y ≤ x then 1 else 0) : F) = ((leWith acc x y).toNat : F) := by
  rcases Nat.lt_trichotomy x y with h | h | h
  · rw [if_neg (show ¬ y ≤ x by omega), mul_zero, zero_mul, zero_add, sub_zero, leWith,
      decide_eq_true h]
    exact Nat.cast_one.symm
  · subst h
    rw [if_pos (Nat.le_refl _), one_mul, one_mul, sub_self, add_zero, leWith,
      decide_eq_false (Nat.lt_irrefl _), decide_eq_true rfl, Bool.true_and, Bool.false_or]
  · rw [if_pos (show y ≤ x by omega), if_neg (show ¬ x ≤ y by omega), zero_mul, zero_mul, sub_self,
      leWith, decide_eq_false (by omega), decide_eq_false (by omega)]
    exact (zero_add 0).trans Nat.cast_zero.symm

theorem mem_listLeStep (hpos : 0 < numBits) (hbits : numBits ≤ 62) {acc : Bool} {limbs : F × F}
    {r : F} : r ∈ listLeStep (listLeGate numBits) (acc.toNat : F) limbs ↔
      limbs.1.val < listLeBase numBits ∧ limbs.2.val < listLeBase numBits ∧
        r = ((leWith acc limbs.1.val limbs.2.val).toNat : F) := by
  unfold listLeStep
  simp only [compare_eq hpos hbits, mem_bind, mem_pure, Set.mem_ofPred_eq]
  constructor
  · rintro ⟨_, ⟨ha, hb, rfl⟩, _, ⟨-, -, rfl⟩, rfl⟩
    exact ⟨ha, hb, step_value _ _ _⟩
  · rintro ⟨ha, hb, rfl⟩
    exact ⟨_, ⟨ha, hb, rfl⟩, _, ⟨hb, ha, rfl⟩, (step_value _ _ _).symm⟩

/-- The loop over the limbs, from the lowest. -/
theorem mem_foldlM_listLeStep (hpos : 0 < numBits) (hbits : numBits ≤ 62) {a b : List F}
    (hlength : a.length = b.length) {acc : Bool} {r : F} :
    r ∈ (a.zip b).foldlM (listLeStep (listLeGate numBits)) (acc.toNat : F) ↔
      (∀ x ∈ a, x.val < listLeBase numBits) ∧ (∀ x ∈ b, x.val < listLeBase numBits) ∧
        r = ((leWith acc (Nat.ofDigits (listLeBase numBits) (a.map ZMod.val))
          (Nat.ofDigits (listLeBase numBits) (b.map ZMod.val))).toNat : F) := by
  induction a generalizing b acc with
  | nil =>
      cases b with
      | nil =>
          simp only [List.zip_nil_left, List.foldlM_nil, mem_pure, List.not_mem_nil, false_imp_iff, implies_true, true_and, List.map_nil, Nat.ofDigits_nil]
          rw [leWith, decide_eq_false (Nat.lt_irrefl 0), decide_eq_true rfl, Bool.true_and,
            Bool.false_or]
      | cons y b => cases hlength
  | cons x a ih =>
      cases b with
      | nil => cases hlength
      | cons y b =>
          have hlength := Nat.succ.inj hlength
          simp only [List.zip_cons_cons, List.foldlM_cons, mem_bind, List.forall_mem_cons, List.map_cons, Nat.ofDigits_cons]
          constructor
          · rintro ⟨s, hs, hr⟩
            obtain ⟨hx, hy, rfl⟩ := (mem_listLeStep hpos hbits).mp hs
            obtain ⟨ha, hb, rfl⟩ := (ih hlength).mp hr
            exact ⟨⟨hx, ha⟩, ⟨hy, hb⟩, by rw [leWith_cons acc hx hy]⟩
          · rintro ⟨⟨hx, ha⟩, ⟨hy, hb⟩, rfl⟩
            exact ⟨_, (mem_listLeStep hpos hbits).mpr ⟨hx, hy, rfl⟩,
              (ih hlength).mpr ⟨ha, hb, by rw [leWith_cons acc hx hy]⟩⟩

/-- `list_le_circuit` accepts limbs in range only, and compares the numbers they make. -/
theorem mem_listLeCircuit (hpos : 0 < numBits) (hbits : numBits ≤ 62) {a b : List F} {r : F} :
    r ∈ listLeCircuit a b numBits ↔ a.length = b.length ∧
      (∀ x ∈ a, x.val < listLeBase numBits) ∧ (∀ x ∈ b, x.val < listLeBase numBits) ∧
        r = if Nat.ofDigits (listLeBase numBits) (a.map ZMod.val) ≤
          Nat.ofDigits (listLeBase numBits) (b.map ZMod.val) then 1 else 0 := by
  rw [listLeCircuit, mem_guard_bind]
  apply and_congr_right
  intro hlength
  have hloop := @mem_foldlM_listLeStep numBits hpos hbits a b hlength true r
  rw [Bool.toNat_true, Nat.cast_one, leWith_true] at hloop
  rw [hloop]
  simp only [Bool.toNat, Bool.cond_decide, Nat.cast_ite, Nat.cast_one, Nat.cast_zero]

end

/-! ## 32-bit limbs -/

theorem listLeBase_32 : listLeBase 32 = 2 ^ 32 := by decide

/-- `list_le_u32_circuit`: numbers of 32-bit limbs. -/
theorem mem_listLeU32Circuit {a b : List F} {r : F} :
    r ∈ listLeU32Circuit a b ↔ a.length = b.length ∧ (∀ x ∈ a, rangeCheck x 32) ∧
      (∀ x ∈ b, rangeCheck x 32) ∧
        r = if Nat.ofDigits (2 ^ 32) (a.map ZMod.val) ≤ Nat.ofDigits (2 ^ 32) (b.map ZMod.val)
          then 1 else 0 := by
  rw [listLeU32Circuit, mem_listLeCircuit (by decide) (by decide), listLeBase_32]
  rfl

/-- On one limb each, the comparison the storage circuits are modelled with. -/
theorem mem_listLeU32Circuit_singleton {a b r : F} :
    r ∈ listLeU32Circuit [a] [b] ↔ ∃ v, Prover.listLe a b = some v ∧ r = (v.toNat : F) := by
  rw [mem_listLeU32Circuit]
  simp only [List.length_singleton, List.forall_mem_singleton, List.map_singleton,
    Nat.ofDigits_singleton, true_and]
  constructor
  · rintro ⟨ha, hb, rfl⟩
    refine ⟨decide (a.val ≤ b.val), ?_, ?_⟩
    · rw [Prover.listLe, guard_bind_of ha, guard_bind_of hb]
      rfl
    · simp only [Bool.toNat, Bool.cond_decide, Nat.cast_ite, Nat.cast_one, Nat.cast_zero]
  · rintro ⟨v, hv, rfl⟩
    rw [Prover.listLe, guard_bind_eq_some, guard_bind_eq_some] at hv
    obtain ⟨ha, hb, hv⟩ := hv
    rw [← Option.some.inj hv]
    refine ⟨ha, hb, ?_⟩
    simp only [Bool.toNat, Bool.cond_decide, Nat.cast_ite, Nat.cast_one, Nat.cast_zero]

end GearBridges.Plonky2U32
