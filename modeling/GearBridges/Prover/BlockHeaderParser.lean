import GearBridges.Prover.BranchNodeData
import GearBridges.Prover.GenericBlake2

/-!
# Prover.BlockHeaderParser

The circuit that takes the state root out of a hashed block header.  The block number in
front of it is a SCALE compact integer, whose length says where the state root is.

The check against the big-integer mode compares the mode, a number of two bits, with
four, so that an integer in this mode is read as one of four bytes.
`blockHeaderParser_iff` says for which headers the state root is read from its place.
-/

namespace GearBridges.Prover

open Goldilocks Plonky2Blake2b256 SubstrateTrie

/-! ## scale_compact_integer_parser -/

structure FullIntParserOutputTarget where
  decoded : F
  length : F
  deriving DecidableEq

def tryParseSingleByte (refinedByte : F) : FullIntParserOutputTarget := ⟨refinedByte, 1⟩

def tryParseTwoByte (refinedByte second : F) : FullIntParserOutputTarget :=
  ⟨((2 ^ 6 : Nat) : F) * second + refinedByte, 2⟩

def tryParseFourByte (refinedByte second third fourth : F) : FullIntParserOutputTarget :=
  ⟨refinedByte + ((2 ^ 6 : Nat) : F) * second + ((2 ^ 14 : Nat) : F) * third +
    ((2 ^ 22 : Nat) : F) * fourth, 4⟩

/-- `full::define`. -/
def fullIntParser (paddedBytes : List UInt8) : Option FullIntParserOutputTarget := do
  let byte (i : Nat) : F := ((paddedBytes.getD i 0).toNat : F)
  let firstByteBits ← lowBits (byte 0) 8 8
  let mode : F := 2 * ((firstByteBits.getD 1 false).toNat : F) +
    ((firstByteBits.getD 0 false).toNat : F)
  let refinedFirstByte := leSum (firstByteBits.drop 2)
  -- the assertion against the big-integer mode
  guard (mode ≠ 4)
  let out := if mode = 0 then tryParseSingleByte refinedFirstByte
    else tryParseFourByte refinedFirstByte (byte 1) (byte 2) (byte 3)
  return if mode = 1 then tryParseTwoByte refinedFirstByte (byte 1) else out

/-! ## BlockHeaderParser -/

def blockNumberOffsetInBlockHeader : Nat := 32

def maxBlockNumberDataLength : Nat := 4

def stateRootSize : Nat := 32

structure BlockHeaderParserTarget (C : Compression) where
  blockHash : C.Digest
  stateRoot : List UInt8

/-- `BlockHeaderParser` with the public inputs of its hasher and the parsed block number as
private targets. -/
structure BlockHeaderParser (C : Compression) (hasher : GenericBlake2Target C)
    (blockNumber : FullIntParserOutputTarget) (pis : BlockHeaderParserTarget C) : Prop where
  hashed : GenericBlake2 C hasher
  parsed : fullIntParser ((hasher.data.val.drop blockNumberOffsetInBlockHeader).take
    maxBlockNumberDataLength) = some blockNumber
  read : ArrayTarget.randomReadArray stateRootSize
    ((hasher.data.val.drop blockNumberOffsetInBlockHeader).take
      (maxBlockNumberDataLength + stateRootSize)) blockNumber.length = some pis.stateRoot
  blockHash : pis.blockHash = hasher.hash

/-! ## what the integer parser returns -/

/-- The mode of a compact integer: the two lowest bits of its first byte. -/
def compactMode (first : UInt8) : Nat := first.toNat % 4

theorem compactMode_lt (first : UInt8) : compactMode first < 4 := Nat.mod_lt _ (by decide)

/-- Mode and remaining bits of a first byte, as the circuit recombines them. -/
theorem firstByteBits_eq : ∀ first : UInt8,
    2 * ((((List.range 8).map first.toNat.testBit).getD 1 false).toNat : F) +
        ((((List.range 8).map first.toNat.testBit).getD 0 false).toNat : F) =
      ((compactMode first : Nat) : F) ∧
    leSum (((List.range 8).map first.toNat.testBit).drop 2) = ((first.toNat / 4 : Nat) : F) :=
  forall_byte (by decide +kernel)

/-- The parser by modes; there is no fifth one to refuse. -/
theorem fullIntParser_eq (bytes : List UInt8) :
    fullIntParser bytes = some
      (if compactMode (bytes.getD 0 0) = 1 then
        tryParseTwoByte (((bytes.getD 0 0).toNat / 4 : Nat) : F) ((bytes.getD 1 0).toNat : F)
      else if compactMode (bytes.getD 0 0) = 0 then
        tryParseSingleByte (((bytes.getD 0 0).toNat / 4 : Nat) : F)
      else tryParseFourByte (((bytes.getD 0 0).toNat / 4 : Nat) : F) ((bytes.getD 1 0).toNat : F)
        ((bytes.getD 2 0).toNat : F) ((bytes.getD 3 0).toNat : F)) := by
  have hmode := compactMode_lt (bytes.getD 0 0)
  have hcast : ∀ n : Nat, n < 8 → (((compactMode (bytes.getD 0 0) : Nat) : F) = (n : F) ↔
      compactMode (bytes.getD 0 0) = n) := fun n hn =>
    natCast_inj (by unfold modulus; omega) (by unfold modulus; omega)
  have hzero := hcast 0 (by decide)
  have hone := hcast 1 (by decide)
  have hfour := hcast 4 (by decide)
  rw [Nat.cast_zero] at hzero
  rw [Nat.cast_one] at hone
  rw [Nat.cast_ofNat] at hfour
  obtain ⟨hbits, hrefined⟩ := firstByteBits_eq (bytes.getD 0 0)
  simp only [fullIntParser, lowBits_natCast (show 8 ≤ 32 by decide) (bytes.getD 0 0).toNat_lt,
    Option.bind_eq_bind, Option.bind_some, hbits, hrefined, hzero, hone, hfour, ne_eq]
  exact guard_bind_of (by omega)

/-- **Value and length of the supported modes**: the little-endian number above the mode
bits, in one, two or four bytes. -/
theorem fullIntParser_of_mode {bytes : List UInt8} (h : compactMode (bytes.getD 0 0) ≠ 3) :
    fullIntParser bytes = some
      ⟨((leNat (BranchNodeDataPaddedTarget.slice bytes 0 (2 ^ compactMode (bytes.getD 0 0))) / 4 :
        Nat) : F), ((2 ^ compactMode (bytes.getD 0 0) : Nat) : F)⟩ := by
  have hmode := compactMode_lt (bytes.getD 0 0)
  rw [fullIntParser_eq]
  obtain hzero | hone | htwo : compactMode (bytes.getD 0 0) = 0 ∨ compactMode (bytes.getD 0 0) = 1 ∨
      compactMode (bytes.getD 0 0) = 2 := by omega
  · rw [hzero]
    have hvalue : leNat (BranchNodeDataPaddedTarget.slice bytes 0 (2 ^ 0)) = (bytes.getD 0 0).toNat := rfl
    rw [hvalue]
    rfl
  · rw [hone]
    have hvalue : leNat (BranchNodeDataPaddedTarget.slice bytes 0 (2 ^ 1)) / 4 =
        2 ^ 6 * (bytes.getD 1 0).toNat + (bytes.getD 0 0).toNat / 4 := by
      show ((bytes.getD 0 0).toNat + 256 * ((bytes.getD 1 0).toNat + 256 * 0)) / 4 = _
      omega
    rw [hvalue, Nat.cast_add, Nat.cast_mul]
    rfl
  · rw [htwo]
    have hvalue : leNat (BranchNodeDataPaddedTarget.slice bytes 0 (2 ^ 2)) / 4 =
        (bytes.getD 0 0).toNat / 4 + 2 ^ 6 * (bytes.getD 1 0).toNat +
          2 ^ 14 * (bytes.getD 2 0).toNat + 2 ^ 22 * (bytes.getD 3 0).toNat := by
      show ((bytes.getD 0 0).toNat + 256 * ((bytes.getD 1 0).toNat + 256 * ((bytes.getD 2 0).toNat +
        256 * ((bytes.getD 3 0).toNat + 256 * 0)))) / 4 = _
      omega
    rw [hvalue]
    simp only [Nat.cast_add, Nat.cast_mul]
    rfl

/-- Whatever the bytes are, a length is returned that leaves room for the state root. -/
theorem fullIntParser_length (bytes : List UInt8) : ∃ decoded length, length ≤ 4 ∧
    fullIntParser bytes = some ⟨decoded, ((length : Nat) : F)⟩ := by
  rw [fullIntParser_eq]
  split
  · exact ⟨_, 2, by decide, rfl⟩
  · split
    · exact ⟨_, 1, by decide, by rw [Nat.cast_one]; rfl⟩
    · exact ⟨_, 4, by decide, rfl⟩

/-- SCALE decoding gives the same, where it accepts the encoding. -/
theorem decodeCompact_of_mode {bytes rest : List UInt8} {number : Nat}
    (hmode : compactMode (bytes.getD 0 0) ≠ 3) (h : decodeCompact bytes = some (number, rest)) :
    2 ^ compactMode (bytes.getD 0 0) ≤ bytes.length ∧
      number = leNat (BranchNodeDataPaddedTarget.slice bytes 0 (2 ^ compactMode (bytes.getD 0 0))) / 4 ∧
      rest = bytes.drop (2 ^ compactMode (bytes.getD 0 0)) := by
  have hwidth : ∀ width least, compactOfWidth width least bytes = some (number, rest) →
      width ≤ bytes.length ∧
        number = leNat (BranchNodeDataPaddedTarget.slice bytes 0 width) / 4 ∧
        rest = bytes.drop width := by
    intro width least h
    unfold compactOfWidth at h
    simp only [Option.bind_eq_bind, Option.bind_eq_some_iff, Option.guard_eq_some',
      Option.pure_def, Option.some.injEq, Prod.mk.injEq, Prod.exists] at h
    obtain ⟨_, _, htake, _, -, rfl, rfl⟩ := h
    obtain ⟨hle, rfl, rfl⟩ := takeBytes_eq_some htake
    rw [BranchNodeDataPaddedTarget.slice_eq_take (by omega), List.drop_zero]
    exact ⟨hle, rfl, rfl⟩
  match bytes, h with
  | first :: tail, h =>
      have hfirst : (first :: tail).getD 0 0 = first := rfl
      rw [hfirst] at hmode ⊢
      unfold compactMode at hmode ⊢
      have hlt : first.toNat % 4 < 4 := Nat.mod_lt _ (by decide)
      simp only [decodeCompact] at h
      split at h
      · rename_i hzero
        rw [Option.some.injEq, Prod.mk.injEq] at h
        obtain ⟨rfl, rfl⟩ := h
        rw [hzero]
        exact ⟨Nat.le_add_left _ _, rfl, rfl⟩
      · rename_i hone
        rw [hone]
        exact hwidth _ _ h
      · rename_i htwo
        rw [htwo]
        exact hwidth _ _ h
      · rename_i hzero hone htwo
        change ¬ first.toNat % 4 = 0 at hzero
        change ¬ first.toNat % 4 = 1 at hone
        change ¬ first.toNat % 4 = 2 at htwo
        omega

/-! ## the state root -/

/-- What a header says: a block number of one, two or four bytes at its offset, with the
value SCALE decoding gives where it accepts the encoding, and the state root behind it.
Positions past the header read as zeros, as in the padded data. -/
structure HeaderRead (header : List UInt8) (blockNumber : FullIntParserOutputTarget)
    (stateRoot : List UInt8) : Prop where
  mode : compactMode (header.getD blockNumberOffsetInBlockHeader 0) ≠ 3
  blockNumber_eq : blockNumber =
    ⟨((leNat (BranchNodeDataPaddedTarget.slice header blockNumberOffsetInBlockHeader
        (2 ^ compactMode (header.getD blockNumberOffsetInBlockHeader 0))) / 4 : Nat) : F),
      ((2 ^ compactMode (header.getD blockNumberOffsetInBlockHeader 0) : Nat) : F)⟩
  decoded : ∀ number rest,
    decodeCompact (header.drop blockNumberOffsetInBlockHeader) = some (number, rest) →
    blockNumber = ⟨(number : F),
        (((header.drop blockNumberOffsetInBlockHeader).length - rest.length : Nat) : F)⟩ ∧
      (stateRootSize ≤ rest.length → stateRoot = rest.take stateRootSize)
  stateRoot_eq : stateRoot = BranchNodeDataPaddedTarget.slice header
    (blockNumberOffsetInBlockHeader +
      2 ^ compactMode (header.getD blockNumberOffsetInBlockHeader 0)) stateRootSize

section

variable {C : Compression} {header : List UInt8}

/-- In the first block the hashed data are those of the header. -/
theorem getD_data {data : List UInt8} (hblocks : padMessage header <+: data) {i : Nat}
    (hi : i < blockBytes) : data.getD i 0 = header.getD i 0 := by
  obtain ⟨rest, rfl⟩ := hblocks
  have hlen := length_padMessage header
  have hpos := Nat.mul_le_mul_right blockBytes (blockCount_pos header.length)
  rw [List.getD_append _ _ _ _ (by omega), padMessage, getD_append_replicate]

theorem getD_drop (bytes : List UInt8) (offset i : Nat) :
    (bytes.drop offset).getD i 0 = bytes.getD (offset + i) 0 := by
  rw [List.getD_eq_getElem?_getD, List.getElem?_drop, ← List.getD_eq_getElem?_getD]

theorem getD_drop_take {bytes : List UInt8} {offset n i : Nat} (hi : i < n) :
    ((bytes.drop offset).take n).getD i 0 = bytes.getD (offset + i) 0 := by
  rw [getD_take hi, getD_drop]

/-- What the codec decodes in the place of the block number. -/
theorem decodeCompact_header {number width : Nat} {rest : List UInt8}
    (hmode : compactMode (header.getD blockNumberOffsetInBlockHeader 0) ≠ 3)
    (hwidth : width = 2 ^ compactMode (header.getD blockNumberOffsetInBlockHeader 0))
    (hdecode : decodeCompact (header.drop blockNumberOffsetInBlockHeader) = some (number, rest)) :
    number = leNat (BranchNodeDataPaddedTarget.slice header blockNumberOffsetInBlockHeader width) / 4 ∧
      rest = header.drop (blockNumberOffsetInBlockHeader + width) ∧
      (header.drop blockNumberOffsetInBlockHeader).length - rest.length = width := by
  have hfirst : (header.drop blockNumberOffsetInBlockHeader).getD 0 0 =
      header.getD blockNumberOffsetInBlockHeader 0 := getD_drop header _ 0
  obtain ⟨hle, rfl, rfl⟩ := decodeCompact_of_mode (hfirst ▸ hmode) hdecode
  rw [hfirst, ← hwidth] at hle ⊢
  refine ⟨?_, List.drop_drop, ?_⟩
  · congr 2
    apply BranchNodeDataPaddedTarget.slice_congr
    intro j hj
    rw [Nat.zero_add, getD_drop]
  · rw [List.length_drop (i := width)]
    omega

/-- **The state root of a header in a supported mode** is read from its place. -/
theorem BlockHeaderParser.headerRead (hfree : SecondPreimageFree C header)
    (hmode : compactMode (header.getD blockNumberOffsetInBlockHeader 0) ≠ 3)
    {hasher : GenericBlake2Target C} {blockNumber : FullIntParserOutputTarget}
    {pis : BlockHeaderParserTarget C} (h : BlockHeaderParser C hasher blockNumber pis)
    (hhash : pis.blockHash = blake2Circuit C header) :
    HeaderRead header blockNumber pis.stateRoot := by
  have hoffset : blockNumberOffsetInBlockHeader = 32 := rfl
  have hroot : stateRootSize = 32 := rfl
  have hnumber : maxBlockNumberDataLength = 4 := rfl
  obtain ⟨-, hblocks⟩ := h.hashed.of_hash_eq hfree (h.blockHash.symm.trans hhash)
  have hget : ∀ i < 128, hasher.data.val.getD i 0 = header.getD i 0 := fun i hi => getD_data hblocks hi
  have hdata : hasher.data.val.length = 1024 := hasher.data.property
  have hparsed := h.parsed
  have hread := h.read
  obtain ⟨front, hfront⟩ : ∃ front, front =
      (hasher.data.val.drop blockNumberOffsetInBlockHeader).take maxBlockNumberDataLength := ⟨_, rfl⟩
  obtain ⟨useful, huseful⟩ : ∃ useful, useful = (hasher.data.val.drop
      blockNumberOffsetInBlockHeader).take (maxBlockNumberDataLength + stateRootSize) := ⟨_, rfl⟩
  rw [← hfront] at hparsed
  rw [← huseful] at hread
  have hfrontGet : ∀ i < 4, front.getD i 0 = header.getD (32 + i) 0 := by
    intro i hi
    rw [hfront, getD_drop_take (by omega), hget _ (by omega), hoffset]
  have husefulGet : ∀ i < 36, useful.getD i 0 = header.getD (32 + i) 0 := by
    intro i hi
    rw [huseful, getD_drop_take (by omega), hget _ (by omega), hoffset]
  have husefulLength : useful.length = 36 := by
    rw [huseful, List.length_take, List.length_drop]
    omega
  have hfirst : front.getD 0 0 = header.getD blockNumberOffsetInBlockHeader 0 := hfrontGet 0 (by decide)
  have hmodeLt := compactMode_lt (header.getD blockNumberOffsetInBlockHeader 0)
  obtain ⟨width, hwidth⟩ : ∃ width,
      width = 2 ^ compactMode (header.getD blockNumberOffsetInBlockHeader 0) := ⟨_, rfl⟩
  have hwidthLe : width ≤ 4 := by
    rw [hwidth]
    exact Nat.pow_le_pow_right (by decide) (show _ ≤ 2 by omega)
  have hslice : BranchNodeDataPaddedTarget.slice front 0 width =
      BranchNodeDataPaddedTarget.slice header blockNumberOffsetInBlockHeader width := by
    apply BranchNodeDataPaddedTarget.slice_congr
    intro j hj
    rw [Nat.zero_add, hfrontGet j (by omega), hoffset]
  rw [fullIntParser_of_mode (hfirst ▸ hmode), hfirst, ← hwidth, hslice, Option.some.injEq] at hparsed
  have hstateRoot : pis.stateRoot = BranchNodeDataPaddedTarget.slice header
      (blockNumberOffsetInBlockHeader + width) stateRootSize := by
    rw [← hparsed, ArrayTarget.randomReadArray_natCast (by omega) (by omega),
      ← BranchNodeDataPaddedTarget.slice_eq_take (by omega), Option.some.injEq] at hread
    rw [← hread]
    apply BranchNodeDataPaddedTarget.slice_congr
    intro j hj
    rw [husefulGet _ (by omega), hoffset, Nat.add_assoc]
  refine ⟨hmode, hwidth ▸ hparsed.symm, ?_, hwidth ▸ hstateRoot⟩
  intro number rest hdecode
  obtain ⟨hnumber, rfl, hconsumed⟩ := decodeCompact_header hmode hwidth hdecode
  rw [hnumber, hconsumed]
  refine ⟨hparsed.symm, fun hroom => ?_⟩
  rw [List.length_drop] at hroom
  rw [hstateRoot, BranchNodeDataPaddedTarget.slice_eq_take (by omega)]

/-- Every header has a proof. -/
theorem exists_blockHeaderParser (hmax : header.length ≤ maxDataBytes) :
    ∃ hasher blockNumber pis, BlockHeaderParser C hasher blockNumber pis ∧
      pis.blockHash = blake2Circuit C header := by
  have hoffset : blockNumberOffsetInBlockHeader = 32 := rfl
  have hroot : stateRootSize = 32 := rfl
  have hnumber : maxBlockNumberDataLength = 4 := rfl
  have hdata : maxDataBytes = 1024 := rfl
  have hlength := length_padData hmax
  obtain ⟨decoded, length, hle, hparsed⟩ := fullIntParser_length
    (((padData header).drop blockNumberOffsetInBlockHeader).take maxBlockNumberDataLength)
  have huseful : (((padData header).drop blockNumberOffsetInBlockHeader).take
      (maxBlockNumberDataLength + stateRootSize)).length = 36 := by
    rw [List.length_take, List.length_drop]
    omega
  have hread : ArrayTarget.randomReadArray stateRootSize
      (((padData header).drop blockNumberOffsetInBlockHeader).take
        (maxBlockNumberDataLength + stateRootSize)) (length : F) = some _ :=
    ArrayTarget.randomReadArray_natCast (by omega) (by omega)
  exact ⟨⟨⟨padData header, hlength⟩, (header.length : F), blake2Circuit C header⟩, ⟨decoded, length⟩,
    ⟨blake2Circuit C header, _⟩,
    ⟨genericBlake2_of_blocks C hmax (padMessage_prefix_padData hmax), hparsed, hread, rfl⟩, rfl⟩

/-- **When the state root of a header is taken from the right place**: whenever the block
number is not in big-integer mode.  A number in this mode is not refused. -/
theorem blockHeaderParser_iff (hmax : header.length ≤ maxDataBytes)
    (hfree : SecondPreimageFree C header) :
    (∀ hasher blockNumber pis, BlockHeaderParser C hasher blockNumber pis →
        pis.blockHash = blake2Circuit C header → HeaderRead header blockNumber pis.stateRoot) ↔
      compactMode (header.getD blockNumberOffsetInBlockHeader 0) ≠ 3 := by
  constructor
  · intro h
    obtain ⟨hasher, blockNumber, pis, hparser, hhash⟩ := exists_blockHeaderParser hmax
    exact (h hasher blockNumber pis hparser hhash).mode
  · intro hmode hasher blockNumber pis hparser hhash
    exact hparser.headerRead hfree hmode hhash

end

/-- A header with a block number, and bytes of sevens behind it. -/
def sampleHeader (blockNumber : List UInt8) : List UInt8 :=
  List.replicate 32 0 ++ blockNumber ++ List.replicate 64 7

/-- Block number 100 takes two bytes. -/
theorem blockHeaderParser_iff_sample :
    (sampleHeader [145, 1]).length ≤ maxDataBytes ∧
      SecondPreimageFree freeCompression (sampleHeader [145, 1]) ∧
      ∀ hasher blockNumber pis, BlockHeaderParser freeCompression hasher blockNumber pis →
        pis.blockHash = blake2Circuit freeCompression (sampleHeader [145, 1]) →
        HeaderRead (sampleHeader [145, 1]) blockNumber pis.stateRoot := by
  refine ⟨by decide, secondPreimageFree_free _, ?_⟩
  exact (blockHeaderParser_iff (by decide) (secondPreimageFree_free _)).mpr (by decide)

/-- A header with block number `2 ^ 30`, encoded in big-integer mode, has a proof. -/
theorem bigInteger_accepted :
    ((decodeCompact ((sampleHeader [3, 0, 0, 0, 64]).drop blockNumberOffsetInBlockHeader)).map
        Prod.fst = some (2 ^ 30)) ∧
      ∃ hasher blockNumber pis, BlockHeaderParser blake2b hasher blockNumber pis ∧
        pis.blockHash = blake2Circuit blake2b (sampleHeader [3, 0, 0, 0, 64]) ∧
        ¬ HeaderRead (sampleHeader [3, 0, 0, 0, 64]) blockNumber pis.stateRoot := by
  refine ⟨by decide +kernel, ?_⟩
  obtain ⟨hasher, blockNumber, pis, hparser, hhash⟩ := exists_blockHeaderParser (C := blake2b)
    (show (sampleHeader [3, 0, 0, 0, 64]).length ≤ maxDataBytes by decide)
  refine ⟨hasher, blockNumber, pis, hparser, hhash, fun hread => ?_⟩
  exact hread.mode (by decide)

end GearBridges.Prover
