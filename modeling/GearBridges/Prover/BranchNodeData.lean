import Mathlib.Tactic.Ring
import GearBridges.Prover.NodeParser

/-!
# Prover.BranchNodeData

Reads of the padded data of a branch node, five blocks of 128 bytes, at a variable
index.  A read past the data is not refused: no block is selected for it and the sum of
the selected bytes stays zero (`randomRead_eq`), until the comparison of the offset goes
out of its range (`reads_in_bounds_iff`).
-/

namespace GearBridges.Prover

open Goldilocks

def maxBranchNodeDataLengthInBlocks : Nat := 5

def maxBranchNodeDataBytes : Nat := nodeDataBlockBytes * maxBranchNodeDataLengthInBlocks

/-- Bytes that are range checked where they are made. -/
structure BranchNodeDataPaddedTarget where
  bytes : List UInt8
  length_bytes : bytes.length = maxBranchNodeDataBytes

namespace BranchNodeDataPaddedTarget

/-! ## random_read -/

/-- The loop of `random_read` over so many blocks, with the offset relative to the first
of them, the flag that a block was selected, and the sum so far. -/
def readLoop : Nat → List UInt8 → F → Bool → F → Option F
  | 0, _, _, _, finalData => some finalData
  | n + 1, bytes, currentOffset, blockAlreadySelected, finalData => do
      let shiftedCurrentOffset := currentOffset + (maxBranchNodeDataBytes : F) + 1
      let currentOffsetEligible ← listLe shiftedCurrentOffset
        ((nodeDataBlockBytes : F) + (maxBranchNodeDataBytes : F))
      let readFromCurrentBlock := currentOffsetEligible && !blockAlreadySelected
      let readData ← ArrayTarget.randomRead (bytes.take nodeDataBlockBytes)
        (if readFromCurrentBlock then currentOffset else 0)
      readLoop n (bytes.drop nodeDataBlockBytes) (currentOffset - (nodeDataBlockBytes : F))
        (readFromCurrentBlock || blockAlreadySelected)
        (finalData + (readData.toNat : F) * (readFromCurrentBlock.toNat : F))

/-- `random_read`. -/
def randomRead (data : BranchNodeDataPaddedTarget) (index : F) : Option F :=
  readLoop maxBranchNodeDataLengthInBlocks data.bytes index false 0

/-- `random_read_array`. -/
def randomReadArray (n : Nat) (data : BranchNodeDataPaddedTarget) (index : F) : Option (List F) :=
  (List.range n).mapM fun offset : Nat => data.randomRead (index + (offset : F))

/-- The bytes of an array as the callers decompose them into bits. -/
def randomReadBytes (n : Nat) (data : BranchNodeDataPaddedTarget) (index : F) :
    Option (List UInt8) := do
  let targets ← data.randomReadArray n index
  targets.mapM asByte

/-! ## what is read -/

/-- Once a block is selected the rest of the loop adds nothing. -/
theorem readLoop_selected {n : Nat} {bytes : List UInt8} (hlen : bytes.length = nodeDataBlockBytes * n)
    {shifted : Nat} (hshifted : shifted < 2 ^ 32) (hroom : nodeDataBlockBytes * n ≤ shifted)
    {currentOffset : F} (hoffset : currentOffset + (maxBranchNodeDataBytes : F) + 1 = (shifted : F))
    (finalData : F) : readLoop n bytes currentOffset true finalData = some finalData := by
  have hblock : nodeDataBlockBytes = 128 := rfl
  induction n generalizing bytes shifted currentOffset with
  | zero => rfl
  | succ n ih =>
      rw [Nat.mul_succ] at hlen hroom
      have hbound : (nodeDataBlockBytes : F) + (maxBranchNodeDataBytes : F) = ((768 : Nat) : F) := by
        rw [← Nat.cast_add]
        rfl
      have hread : ArrayTarget.randomRead (bytes.take nodeDataBlockBytes) ((0 : Nat) : F) =
          some (bytes.getD 0 0) := randomRead_block (by omega) (by decide)
      rw [Nat.cast_zero] at hread
      have hnext : currentOffset - (nodeDataBlockBytes : F) + (maxBranchNodeDataBytes : F) + 1 =
          ((shifted - nodeDataBlockBytes : Nat) : F) := by
        rw [Nat.cast_sub (by omega), ← hoffset]
        ring
      rw [readLoop]
      simp only [hoffset, hbound, listLe_natCast hshifted (show 768 < 2 ^ 32 by decide),
        Option.bind_eq_bind, Option.bind_some, Bool.not_true, Bool.and_false, Bool.false_eq_true,
        if_false, hread, Bool.toNat_false, Nat.cast_zero, mul_zero, add_zero, Bool.false_or]
      exact ih (by rw [List.length_drop]; omega) (by omega) (by omega) hnext

/-- Before a block is selected the loop looks for the byte at the offset; it finds none
past the bytes. -/
theorem readLoop_eq {n : Nat} (hn : n ≤ maxBranchNodeDataLengthInBlocks) {bytes : List UInt8}
    (hlen : bytes.length = nodeDataBlockBytes * n) {i : Nat}
    (hi : i + maxBranchNodeDataBytes + 1 < 2 ^ 32) (finalData : F) :
    readLoop n bytes (i : F) false finalData =
      some (finalData + ((bytes.getD i 0).toNat : F)) := by
  have hblock : nodeDataBlockBytes = 128 := rfl
  have hmax : maxBranchNodeDataBytes = 640 := rfl
  have hblocks : maxBranchNodeDataLengthInBlocks = 5 := rfl
  induction n generalizing bytes i finalData with
  | zero =>
      have hnil : bytes = [] := List.length_eq_zero_iff.mp hlen
      simp [readLoop, hnil]
  | succ n ih =>
      rw [Nat.mul_succ] at hlen
      have hmul : nodeDataBlockBytes * n = 128 * n := rfl
      have hshift : (i : F) + (maxBranchNodeDataBytes : F) + 1 =
          ((i + maxBranchNodeDataBytes + 1 : Nat) : F) := by
        push_cast
        rfl
      have hbound : (nodeDataBlockBytes : F) + (maxBranchNodeDataBytes : F) = ((768 : Nat) : F) := by
        rw [← Nat.cast_add]
        rfl
      rw [readLoop]
      simp only [hshift, hbound, listLe_natCast hi (show 768 < 2 ^ 32 by decide),
        Option.bind_eq_bind, Option.bind_some, Bool.not_false, Bool.and_true, Bool.or_false]
      by_cases hin : i < nodeDataBlockBytes
      · have hle : i + maxBranchNodeDataBytes + 1 ≤ 768 := by omega
        have hnext : (i : F) - (nodeDataBlockBytes : F) + (maxBranchNodeDataBytes : F) + 1 =
            ((i + maxBranchNodeDataBytes + 1 - nodeDataBlockBytes : Nat) : F) := by
          rw [Nat.cast_sub (by omega)]
          push_cast
          ring
        have hblockLen : nodeDataBlockBytes ≤ bytes.length := by omega
        simp only [hle, decide_true, if_true, randomRead_block hblockLen hin, Option.bind_some,
          Bool.toNat_true, Nat.cast_one, mul_one]
        exact readLoop_selected (by rw [List.length_drop]; omega) (by omega) (by omega) hnext _
      · have hle : ¬ i + maxBranchNodeDataBytes + 1 ≤ 768 := by omega
        have hread : ArrayTarget.randomRead (bytes.take nodeDataBlockBytes) ((0 : Nat) : F) =
            some (bytes.getD 0 0) := randomRead_block (by omega) (by decide)
        rw [Nat.cast_zero] at hread
        have hnext : (i : F) - (nodeDataBlockBytes : F) = ((i - nodeDataBlockBytes : Nat) : F) :=
          (Nat.cast_sub (by omega)).symm
        simp only [hle, decide_false, Bool.false_eq_true, if_false, hread, Option.bind_some,
          Bool.toNat_false, Nat.cast_zero, mul_zero, add_zero, hnext]
        rw [ih (by omega) (by rw [List.length_drop]; omega) (by omega)]
        rw [List.getD_eq_getElem?_getD, List.getElem?_drop, Nat.add_sub_cancel' (by omega),
          ← List.getD_eq_getElem?_getD]

/-- No other index is accepted: its first comparison fails, or the first block is selected
and has no such byte. -/
theorem readLoop_eq_none {n : Nat} {bytes : List UInt8}
    (hlen : bytes.length = nodeDataBlockBytes * (n + 1)) {index : F}
    (hindex : 2 ^ 32 ≤ index.val + maxBranchNodeDataBytes + 1) (finalData : F) :
    readLoop (n + 1) bytes index false finalData = none := by
  have hblock : nodeDataBlockBytes = 128 := rfl
  have hmax : maxBranchNodeDataBytes = 640 := rfl
  have hlt : index.val < modulus := ZMod.val_lt index
  have hindexCast : index = ((index.val : Nat) : F) := (ZMod.natCast_zmod_val index).symm
  have hshift : index + (maxBranchNodeDataBytes : F) + 1 =
      ((index.val + maxBranchNodeDataBytes + 1 : Nat) : F) := by
    conv_lhs => rw [hindexCast]
    push_cast
    rfl
  rw [readLoop, hshift]
  by_cases hwrap : index.val + maxBranchNodeDataBytes + 1 < modulus
  · have hrange : ¬ rangeCheck ((index.val + maxBranchNodeDataBytes + 1 : Nat) : F) 32 := by
      rw [rangeCheck_natCast hwrap]
      omega
    rw [listLe_of_not_rangeCheck hrange]
    rfl
  · -- the sum wraps around to a small number, so the first block is selected
    have hcast : ((index.val + maxBranchNodeDataBytes + 1 : Nat) : F) =
        ((index.val + maxBranchNodeDataBytes + 1 - modulus : Nat) : F) := by
      rw [Nat.cast_sub (by omega), ZMod.natCast_self, sub_zero]
    have hbound : (nodeDataBlockBytes : F) + (maxBranchNodeDataBytes : F) = ((768 : Nat) : F) := by
      rw [← Nat.cast_add]
      rfl
    rw [Nat.mul_succ] at hlen
    have htake : (bytes.take nodeDataBlockBytes).length = 128 := by
      rw [List.length_take]
      omega
    have hle : index.val + maxBranchNodeDataBytes + 1 - modulus ≤ 768 := by omega
    have hread : ArrayTarget.randomRead (bytes.take nodeDataBlockBytes) index = none :=
      ArrayTarget.randomRead_of_le (nextPowerOfTwo_block (by omega)) (by unfold modulus at *; omega)
    rw [hcast, hbound, listLe_natCast (by omega) (by decide)]
    simp only [hle, decide_true, Option.bind_eq_bind, Option.bind_some, Bool.not_false,
      Bool.and_true, if_true, hread, Option.bind_none]

/-- **What a read returns**: the byte at the index, or zero for an index past the data. -/
theorem randomRead_eq (data : BranchNodeDataPaddedTarget) (index : F) :
    data.randomRead index = if index.val + maxBranchNodeDataBytes + 1 < 2 ^ 32 then
      some ((data.bytes.getD index.val 0).toNat : F) else none := by
  split
  · rename_i h
    have hindex : index = ((index.val : Nat) : F) := (ZMod.natCast_zmod_val index).symm
    rw [randomRead]
    conv_lhs => rw [hindex]
    rw [readLoop_eq (Nat.le_refl _) data.length_bytes h, zero_add]
  · exact readLoop_eq_none data.length_bytes (by omega) 0

theorem randomRead_natCast (data : BranchNodeDataPaddedTarget) {i : Nat} (hi : i < 2 ^ 32) :
    data.randomRead (i : F) = if i + maxBranchNodeDataBytes + 1 < 2 ^ 32 then
      some ((data.bytes.getD i 0).toNat : F) else none := by
  rw [randomRead_eq, val_natCast (by unfold modulus; omega)]

/-- `n` bytes from a position on, with zeros past the end. -/
def slice (bytes : List UInt8) (i n : Nat) : List UInt8 :=
  (List.range n).map fun j => bytes.getD (i + j) 0

theorem slice_congr {bytes other : List UInt8} {i k n : Nat}
    (h : ∀ j < n, bytes.getD (i + j) 0 = other.getD (k + j) 0) : slice bytes i n = slice other k n := by
  unfold slice
  rw [List.map_inj_left]
  intro j hj
  exact h j (List.mem_range.mp hj)

theorem slice_eq_take {bytes : List UInt8} {i n : Nat} (h : i + n ≤ bytes.length) :
    slice bytes i n = (bytes.drop i).take n := by
  apply List.ext_getElem
  · simp only [slice, List.length_take, List.length_drop, List.length_map, List.length_range]
    omega
  · intro j hj _
    rw [slice, List.length_map, List.length_range] at hj
    simp only [slice, List.getElem_take, List.getElem_drop, List.getElem_map, List.getElem_range]
    rw [List.getD_eq_getElem _ _ (by omega)]

theorem randomReadBytes_natCast (data : BranchNodeDataPaddedTarget) {i n : Nat} (hn : 0 < n)
    (hi : i + n < 2 ^ 32) :
    data.randomReadBytes n (i : F) =
      if i + n + maxBranchNodeDataBytes < 2 ^ 32 then some (slice data.bytes i n) else none := by
  rw [randomReadBytes, Option.bind_eq_bind]
  split
  · rename_i hroom
    have hstep : ∀ offset ∈ List.range n, data.randomRead ((i : F) + (offset : F)) =
        some ((data.bytes.getD (i + offset) 0).toNat : F) := by
      intro offset hoffset
      rw [List.mem_range] at hoffset
      rw [← Nat.cast_add, randomRead_natCast data (by omega), if_pos (by omega)]
    have hbytes : ((List.range n).map
        fun offset => ((data.bytes.getD (i + offset) 0).toNat : F)).mapM asByte =
          some (slice data.bytes i n) := by
      rw [List.mapM_map]
      exact mapM_eq_some_map fun offset _ => asByte_natCast _
    rw [randomReadArray, mapM_eq_some_map hstep, Option.bind_some, hbytes]
  · rename_i hroom
    have hlast : data.randomRead ((i : F) + ((n - 1 : Nat) : F)) = none := by
      rw [← Nat.cast_add, randomRead_natCast data (by omega), if_neg (by omega)]
    have hmem : n - 1 ∈ List.range n := List.mem_range.mpr (by omega)
    have hnone : (List.range n).mapM
        (fun offset : Nat => data.randomRead ((i : F) + (offset : F))) = none := mapM_eq_none hmem hlast
    rw [randomReadArray, hnone, Option.bind_none]

/-! ## reads and the end of the data -/

/-- An array is read as long as its last index is accepted. -/
theorem randomReadArray_eq (data : BranchNodeDataPaddedTarget) (index : F) (n : Nat) :
    data.randomReadArray n index =
      if n = 0 ∨ index.val + n + maxBranchNodeDataBytes < 2 ^ 32 then
        some ((slice data.bytes index.val n).map fun byte => ((byte.toNat : Nat) : F))
      else none := by
  have hmax : maxBranchNodeDataBytes = 640 := rfl
  have hindex : index = ((index.val : Nat) : F) := (ZMod.natCast_zmod_val index).symm
  split
  · rename_i hroom
    have hstep : ∀ offset ∈ List.range n, data.randomRead (index + (offset : F)) =
        some ((data.bytes.getD (index.val + offset) 0).toNat : F) := by
      intro offset hoffset
      rw [List.mem_range] at hoffset
      conv_lhs => rw [hindex]
      rw [← Nat.cast_add, randomRead_natCast data (by omega), if_pos (by omega)]
    rw [randomReadArray, mapM_eq_some_map hstep, slice, List.map_map]
    rfl
  · rename_i hroom
    obtain ⟨offset, hoffset, hlarge⟩ : ∃ offset, offset ∈ List.range n ∧
        2 ^ 32 ≤ index.val + offset + maxBranchNodeDataBytes + 1 ∧
          index.val + offset < modulus := by
      have hlt : index.val < modulus := ZMod.val_lt index
      have hmodulus : 2 ^ 32 < modulus := by decide
      by_cases hfirst : 2 ^ 32 ≤ index.val + maxBranchNodeDataBytes + 1
      · exact ⟨0, List.mem_range.mpr (by omega), hfirst, hlt⟩
      · refine ⟨2 ^ 32 - (index.val + maxBranchNodeDataBytes + 1), List.mem_range.mpr ?_, ?_, ?_⟩
        all_goals omega
    have hnone : data.randomRead (index + (offset : F)) = none := by
      conv_lhs => rw [hindex]
      rw [← Nat.cast_add, randomRead_eq, val_natCast hlarge.2, if_neg (by omega)]
    exact mapM_eq_none (f := fun offset : Nat => data.randomRead (index + (offset : F))) hoffset
      hnone

/-- A read is satisfiable exactly for an index of the data, and returns the byte there. -/
structure ReadsInBounds (data : BranchNodeDataPaddedTarget) (index : F) : Prop where
  satisfiable_iff : (∃ target, data.randomRead index = some target) ↔
    index.val < maxBranchNodeDataBytes
  result : ∀ target, data.randomRead index = some target →
    ∃ byte, data.bytes[index.val]? = some byte ∧ target = ((byte.toNat : Nat) : F)

/-- The same of `n` bytes from an index on. -/
structure ReadsArrayInBounds (n : Nat) (data : BranchNodeDataPaddedTarget) (index : F) : Prop where
  satisfiable_iff : (∃ targets, data.randomReadArray n index = some targets) ↔
    index.val + n ≤ maxBranchNodeDataBytes
  result : ∀ targets, data.randomReadArray n index = some targets →
    targets = ((data.bytes.drop index.val).take n).map fun byte => ((byte.toNat : Nat) : F)

theorem readsInBounds_iff (data : BranchNodeDataPaddedTarget) (index : F) :
    ReadsInBounds data index ↔ index.val < maxBranchNodeDataBytes ∨
      2 ^ 32 ≤ index.val + maxBranchNodeDataBytes + 1 := by
  have hmax : maxBranchNodeDataBytes = 640 := rfl
  have hread := randomRead_eq data index
  constructor
  · intro h
    have hiff := h.satisfiable_iff
    rw [hread] at hiff
    by_cases hroom : index.val + maxBranchNodeDataBytes + 1 < 2 ^ 32
    · rw [if_pos hroom] at hiff
      exact .inl (hiff.mp ⟨_, rfl⟩)
    · exact .inr (Nat.not_lt.mp hroom)
  · rintro (hin | hlarge)
    · rw [if_pos (by omega)] at hread
      have hlt : index.val < data.bytes.length := by rwa [data.length_bytes]
      refine ⟨iff_of_true ⟨_, hread⟩ hin, fun target h => ?_⟩
      cases hread.symm.trans h
      exact ⟨_, List.getElem?_eq_getElem hlt, by rw [List.getD_eq_getElem _ _ hlt]⟩
    · rw [if_neg (by omega)] at hread
      exact ⟨iff_of_false (by simp [hread]) (by omega), by simp [hread]⟩

theorem readsArrayInBounds_iff (n : Nat) (data : BranchNodeDataPaddedTarget) (index : F) :
    ReadsArrayInBounds n data index ↔ index.val + n ≤ maxBranchNodeDataBytes ∨
      0 < n ∧ 2 ^ 32 ≤ index.val + n + maxBranchNodeDataBytes := by
  have hmax : maxBranchNodeDataBytes = 640 := rfl
  have hread := randomReadArray_eq data index n
  constructor
  · intro h
    have hiff := h.satisfiable_iff
    rw [hread] at hiff
    by_cases hroom : n = 0 ∨ index.val + n + maxBranchNodeDataBytes < 2 ^ 32
    · rw [if_pos hroom] at hiff
      exact .inl (hiff.mp ⟨_, rfl⟩)
    · exact .inr (by omega)
  · rintro (hin | hlarge)
    · rw [if_pos (by omega)] at hread
      refine ⟨iff_of_true ⟨_, hread⟩ hin, fun targets h => ?_⟩
      cases hread.symm.trans h
      rw [slice_eq_take (by rwa [data.length_bytes])]
    · rw [if_neg (by omega)] at hread
      exact ⟨iff_of_false (by simp [hread]) (by omega), by simp [hread]⟩

/-- **Where reads are in bounds**: for the indices of the data and those from about `2 ^ 32` on.
Every index between is accepted, and the data end with zeros there. -/
theorem reads_in_bounds_iff (data : BranchNodeDataPaddedTarget) (index : F) (n : Nat) :
    (ReadsInBounds data index ↔ index.val < maxBranchNodeDataBytes ∨
      2 ^ 32 ≤ index.val + maxBranchNodeDataBytes + 1) ∧
    (ReadsArrayInBounds n data index ↔ index.val + n ≤ maxBranchNodeDataBytes ∨
      0 < n ∧ 2 ^ 32 ≤ index.val + n + maxBranchNodeDataBytes) :=
  ⟨readsInBounds_iff data index, readsArrayInBounds_iff n data index⟩

/-- The first index behind the data is read. -/
theorem past_end_read : ¬ (∀ data index, ReadsInBounds data index) ∧
    ¬ ∀ n data index, ReadsArrayInBounds n data index := by
  let data : BranchNodeDataPaddedTarget :=
    ⟨List.replicate maxBranchNodeDataBytes 0xAA, List.length_replicate⟩
  have hval : ((640 : Nat) : F).val = 640 := val_natCast (by decide)
  refine ⟨fun hall => ?_, fun hall => ?_⟩
  · have hread := (readsInBounds_iff data ((640 : Nat) : F)).mp (hall data _)
    rw [hval] at hread
    revert hread
    decide
  · have hread := (readsArrayInBounds_iff 32 data ((640 : Nat) : F)).mp (hall 32 data _)
    rw [hval] at hread
    revert hread
    decide

end BranchNodeDataPaddedTarget

end GearBridges.Prover
