import GearBridges.Prover.NodeParser

/-!
# Prover.LeafParser

The circuit that parses an encoded leaf node of at most 128 bytes, with 32 bytes of
inlined data or with the hash of its data.  What it accepts is the encoding of a leaf
(`leafParser_sound`).
-/

namespace GearBridges.Prover

open Goldilocks Plonky2Blake2b256 SubstrateTrie

/-- Blake2b-256 of bytes. -/
@[irreducible] def blake2 (bytes : List UInt8) : List UInt8 := blake2Circuit blake2b bytes

/-! ## the data of a leaf -/

def inlinedDataLength : Nat := 32

structure DataParserOutputTarget where
  resultingOffset : F
  dataHash : List UInt8
  deriving DecidableEq

/-- `inlined_data_parser::define`. -/
def inlinedDataParser (nodeData : List UInt8) (readOffset : F) : Option DataParserOutputTarget := do
  let firstByte ← ArrayTarget.randomRead nodeData readOffset
  let parsedLength ← singleByteParser (firstByte.toNat : F)
  guard (parsedLength = (inlinedDataLength : F))
  let dataOffset := readOffset + 1
  let inlinedData ← ArrayTarget.randomReadArray inlinedDataLength nodeData dataOffset
  return ⟨dataOffset + (inlinedDataLength : F), blake2 inlinedData⟩

/-- `hashed_data_parser::define`. -/
def hashedDataParser (nodeData : List UInt8) (readOffset : F) : Option DataParserOutputTarget := do
  let hashData ← ArrayTarget.randomReadArray hashLength nodeData readOffset
  return ⟨readOffset + (hashLength : F), hashData⟩

/-! ## LeafParser -/

inductive LeafType
  | leaf
  | hashedValueLeaf

def LeafType.descriptor : LeafType → HeaderDescriptor
  | .leaf => .leaf
  | .hashedValueLeaf => .hashedValueLeaf

def LeafType.parseData : LeafType → List UInt8 → F → Option DataParserOutputTarget
  | .leaf => inlinedDataParser
  | .hashedValueLeaf => hashedDataParser

structure LeafParserTarget where
  paddedNodeData : { bytes : List UInt8 // bytes.length = nodeDataBlockBytes }
  nodeDataLength : F
  storageDataHash : List UInt8
  partialAddress : StorageAddressTarget
  finalAddress : StorageAddressTarget

/-- `LeafParser` for a type of leaf: each type is a circuit of its own. -/
def LeafParser (leafType : LeafType) (pis : LeafParserTarget) : Prop :=
  ∃ header nibbles data,
    headerParser (pis.paddedNodeData.val.getD 0 0) (pis.paddedNodeData.val.getD 1 0)
      leafType.descriptor = some header ∧
    nibbleParser pis.paddedNodeData.val header.resultingOffset header.nibbleCount
      pis.partialAddress = some nibbles ∧
    leafType.parseData pis.paddedNodeData.val nibbles.resultingOffset = some data ∧
    pis.nodeDataLength = data.resultingOffset ∧ pis.storageDataHash = data.dataHash ∧
    pis.finalAddress = nibbles.partialAddress

/-! ## what the leaf parser accepts -/

def LeafType.kind : LeafType → NodeKind
  | .leaf => .leaf
  | .hashedValueLeaf => .hashedValueLeaf

theorem LeafType.describes (leafType : LeafType) : leafType.descriptor.Describes leafType.kind := by
  cases leafType with
  | leaf => exact describes_leaf
  | hashedValueLeaf => exact describes_hashedValueLeaf

/-- What the data circuits accept the codec decodes, up to the end of the node. -/
theorem LeafType.parseData_sound {leafType : LeafType} {data : List UInt8}
    (hdata : nodeDataBlockBytes ≤ data.length) {offset : Nat} (hoffset : offset ≤ 34)
    {out : DataParserOutputTarget}
    (h : leafType.parseData (data.take nodeDataBlockBytes) (offset : F) = some out) :
    ∃ (length : Nat) (value : LeafValue), offset ≤ length ∧ length ≤ nodeDataBlockBytes ∧
      out = ⟨(length : F), value.hash blake2⟩ ∧
      decodeLeafValue leafType.kind ((data.take length).drop offset) = some (value, []) := by
  have hblock : nodeDataBlockBytes = 128 := rfl
  have hlen : (data.take nodeDataBlockBytes).length = 128 := by
    rw [List.length_take]
    omega
  have htake : ∀ i, i + 32 ≤ nodeDataBlockBytes →
      ((data.take nodeDataBlockBytes).drop i).take 32 = (data.take (i + 32)).drop i := by
    intro i hi
    rw [List.drop_take, List.take_take, List.drop_take, Nat.min_eq_left (by omega),
      Nat.add_sub_cancel_left]
  have hexact : ∀ i, i + 32 ≤ nodeDataBlockBytes → ((data.take (i + 32)).drop i).length = 32 := by
    intro i hi
    rw [List.length_drop, List.length_take]
    omega
  cases leafType with
  | leaf =>
      have hread : ArrayTarget.randomReadArray inlinedDataLength (data.take nodeDataBlockBytes)
          ((offset : F) + 1) = some ((data.take (offset + 1 + 32)).drop (offset + 1)) := by
        rw [← Nat.cast_one, ← Nat.cast_add, ArrayTarget.randomReadArray_natCast
          (by omega) (by unfold inlinedDataLength; omega)]
        exact congrArg some (htake _ (by omega))
      have hbyte := (data.getD offset 0).toNat_lt
      simp only [LeafType.parseData, inlinedDataParser,
        randomRead_block hdata (show offset < nodeDataBlockBytes by omega), hread,
        singleByteParser_natCast, Option.bind_eq_bind, Option.bind_some, Option.bind_eq_some_iff,
        Option.guard_eq_some', Option.pure_def, Option.ite_none_right_eq_some, Option.some.injEq] at h
      obtain ⟨_, ⟨hmode, rfl⟩, _, hlength, rfl⟩ := h
      rw [natCast_inj (by unfold modulus; omega) (by decide)] at hlength
      refine ⟨offset + 1 + 32, .inline ((data.take (offset + 1 + 32)).drop (offset + 1)), by omega,
        by omega, ?_, ?_⟩
      · push_cast
        rfl
      · have hcons : (data.take (offset + 1 + 32)).drop offset =
            data.getD offset 0 :: (data.take (offset + 1 + 32)).drop (offset + 1) := by
          rw [drop_eq_cons_getD (by rw [List.length_take]; omega), getD_take (by omega)]
        have hall : takeBytes inlinedDataLength ((data.take (offset + 1 + 32)).drop (offset + 1)) =
            some ((data.take (offset + 1 + 32)).drop (offset + 1), []) :=
          takeBytes_of_length (hexact _ (by omega))
        simp only [decodeLeafValue, LeafType.kind, hcons, decodeCompact, hmode, hlength, hall,
          Option.bind_eq_bind, Option.bind_some, Option.pure_def]
  | hashedValueLeaf =>
      have hread : ArrayTarget.randomReadArray hashLength (data.take nodeDataBlockBytes) (offset : F) =
          some ((data.take (offset + 32)).drop offset) := by
        rw [ArrayTarget.randomReadArray_natCast (by omega)
          (by unfold hashLength; omega)]
        exact congrArg some (htake _ (by omega))
      simp only [LeafType.parseData, hashedDataParser, hread, Option.bind_eq_bind, Option.bind_some,
        Option.pure_def, Option.some.injEq] at h
      refine ⟨offset + 32, .hashed ((data.take (offset + 32)).drop offset), by omega, by omega, ?_, ?_⟩
      · rw [← h, Nat.cast_add]
        rfl
      · have hall : takeBytes hashLength ((data.take (offset + 32)).drop offset) =
            some ((data.take (offset + 32)).drop offset, []) :=
          takeBytes_of_length (hexact _ (by omega))
        simp only [decodeLeafValue, LeafType.kind, hall, Option.bind_eq_bind, Option.bind_some,
          Option.pure_def]

/-- **What the leaf circuit accepts is a leaf** whose value has the exposed hash, and it
appends the partial key of the leaf to the address. -/
theorem leafParser_sound {leafType : LeafType} {data : List UInt8} {pis : LeafParserTarget}
    {previous : List F} (hdata : pis.paddedNodeData.val = data.take nodeDataBlockBytes)
    (hprevious : previous.length ≤ maxStorageAddressLengthInNibbles)
    (hprev : pis.partialAddress = .ofNibbles previous) (h : LeafParser leafType pis) :
    ∃ (length : Nat) (leaf : Leaf), pis.nodeDataLength = (length : F) ∧
      length ≤ nodeDataBlockBytes ∧
      (previous ++ leaf.key.map Nat.cast).length ≤ maxStorageAddressLengthInNibbles ∧
      pis.finalAddress = .ofNibbles (previous ++ leaf.key.map Nat.cast) ∧
      pis.storageDataHash = leaf.value.hash blake2 ∧
      decodeLeaf (data.take length) = some leaf := by
  have hdataLength : nodeDataBlockBytes ≤ data.length := by
    have hlen := pis.paddedNodeData.property
    rw [hdata, List.length_take] at hlen
    omega
  obtain ⟨header, nibbles, parsed, hheader, hnibbles, hparsed, hlength, hhash, haddress⟩ := h
  rw [hdata] at hheader hnibbles hparsed
  rw [hprev] at hnibbles
  obtain ⟨key, offset, hoffset, hoffsetLe, hkey, rfl, hdecode⟩ := headerNibbles_sound
    leafType.describes (by cases leafType <;> decide) hdataLength hprevious hheader hnibbles
  obtain ⟨length, value, hroom, hlengthLe, rfl, hvalue⟩ :=
    LeafType.parseData_sound hdataLength hoffsetLe hparsed
  obtain ⟨count, rest, hheaderDecode, hkeyDecode⟩ := hdecode length hroom (by omega)
  refine ⟨length, ⟨key, value⟩, hlength, hlengthLe, hkey, haddress, hhash, ?_⟩
  simp only [decodeLeaf, hheaderDecode, Option.bind_eq_bind, Option.bind_some, hkeyDecode, hvalue,
    guard, if_true, Option.pure_def]

end GearBridges.Prover
