import GearBridges.Prover.BranchParser
import GearBridges.Prover.NodeFront

/-!
# Prover.BranchCodec

The branch parser against the node codec.  As long as the node stays inside the padded
data an accepted branch is the one the codec decodes, and every branch with short
children is accepted (`branchParser_codec_iff`).  A read past the data is not refused, so
that a parser also accepts data that end inside a child (`overlong_accepted`).
-/

namespace GearBridges.Prover

open Goldilocks SubstrateTrie

/-- What the public inputs of a branch proof claim: the node bytes are the encoding of a
branch without value, the claimed child is the hash reference at the nibble, and the
address goes on with the partial key and the nibble. -/
structure BranchParserTarget.AgreesWithCodec (claimedChildNodeNibble : F) (pis : BranchParserTarget)
    (branch : NibbledBranch) : Prop where
  length_le : pis.nodeDataLength.val ≤ pis.paddedNodeData.bytes.length
  decoded : decodeBranch (pis.paddedNodeData.bytes.take pis.nodeDataLength.val) = some branch
  child : branch.children[claimedChildNodeNibble.val]? = some (some pis.childNodeHash)
  hashReference : pis.childNodeHash.length = hashLength
  fits : (pis.partialAddress.nibbles ++ branch.key.map Nat.cast ++
    [claimedChildNodeNibble]).length ≤ maxStorageAddressLengthInNibbles
  address : pis.resultingPartialAddress = .ofNibbles
    (pis.partialAddress.nibbles ++ branch.key.map Nat.cast ++ [claimedChildNodeNibble])

/-! ## what is accepted -/

/-- What stands behind the nibbles of the address does not matter. -/
theorem BranchParser.nibbles {nibble : F} {pis : BranchParserTarget}
    (haddress : pis.partialAddress.paddedAddress.length = maxStorageAddressLengthInNibbles)
    (h : BranchParser nibble pis) :
    pis.partialAddress.nibbles.length ≤ maxStorageAddressLengthInNibbles ∧
      BranchParser nibble { pis with partialAddress := .ofNibbles pis.partialAddress.nibbles } := by
  have hdata : nodeDataBlockBytes ≤ pis.paddedNodeData.bytes.length := by
    rw [pis.paddedNodeData.length_bytes]
    decide
  obtain ⟨hnibble, header, nibbles, bitmap, hheader, hnibbles, hrest⟩ := h
  obtain ⟨count, size, rfl, hcount, -, hsize, -⟩ :=
    headerParser_sound describes_branchWithoutValue (by decide) hheader
  obtain ⟨hlength, hparser⟩ := nibbleParser_nibbles hdata hsize hcount haddress hnibbles
  exact ⟨hlength, hnibble, _, nibbles, bitmap, hheader, hparser, hrest⟩

/-- **Accepted branches inside the data** are the ones the codec decodes. -/
theorem BranchParser.agreesWithCodec {nibble : F} {pis : BranchParserTarget}
    (haddress : pis.partialAddress.paddedAddress.length = maxStorageAddressLengthInNibbles)
    (hlength : pis.nodeDataLength.val ≤ maxBranchNodeDataBytes) (h : BranchParser nibble pis) :
    ∃ branch, pis.AgreesWithCodec nibble branch := by
  have hbytes := pis.paddedNodeData.length_bytes
  obtain ⟨hprevious, h⟩ := h.nibbles haddress
  have hdata : pis.paddedNodeData.bytes = pis.paddedNodeData.bytes.take maxBranchNodeDataBytes :=
    (List.take_of_length_le (Nat.le_of_eq hbytes)).symm
  have hsound := @branchParser_sound pis.paddedNodeData.bytes nibble
    { pis with partialAddress := .ofNibbles pis.partialAddress.nibbles } _ hdata hprevious rfl h
  obtain ⟨n, length, start, key, bits, hn, rfl, hsmall, hlen, hfits, hresult, hwalk, hfront⟩ := hsound
  simp only at hlen hresult hwalk hfront
  have hval : pis.nodeDataLength.val = length := by
    rw [hlen, val_natCast hsmall]
  have hnval : ((n : Nat) : F).val = n := val_natCast (by unfold modulus; omega)
  rw [hval] at hlength
  have hnode : (pis.paddedNodeData.bytes.take length).length = length := by
    rw [List.length_take]
    omega
  have hfront := hfront (by omega)
  rw [← hnode] at hwalk
  have hagree : AgreesWithin pis.paddedNodeData.bytes (pis.paddedNodeData.bytes.take length) := by
    intro i _ hi
    exact (getD_take (by omega)).symm
  obtain ⟨branch, hbranch, hchild⟩ := (hwalk.decodeBranch_iff hagree hfront).mpr fun position _ hpast =>
    List.getD_eq_default _ _ (by omega)
  obtain ⟨children, -, rfl⟩ := (decodeBranch_eq_some_iff hfront).mp hbranch
  refine ⟨_, ⟨by omega, by rwa [hval], by rwa [hnval], ?_, hfits, hresult⟩⟩
  rw [hwalk.isClaimed.1]
  simp [BranchNodeDataPaddedTarget.slice, hashLength, blake2DigestSize]

/-! ## what can be proved -/

/-- `compose_padded_node_data`. -/
def composePaddedNodeData (node : List UInt8) (h : node.length ≤ maxBranchNodeDataBytes) :
    BranchNodeDataPaddedTarget :=
  ⟨node ++ List.replicate (maxBranchNodeDataBytes - node.length) 0, by
    rw [List.length_append, List.length_replicate]
    omega⟩

theorem getD_composePaddedNodeData {node : List UInt8} (h : node.length ≤ maxBranchNodeDataBytes)
    (i : Nat) : (composePaddedNodeData node h).bytes.getD i 0 = node.getD i 0 :=
  getD_append_replicate node _ i 0

theorem partialKeyAt_composePaddedNodeData {node : List UInt8}
    (h : node.length ≤ maxBranchNodeDataBytes) {offset count : Nat}
    (hsize : offset + (count + 1) / 2 ≤ node.length) :
    partialKeyAt (composePaddedNodeData node h).bytes offset count = partialKeyAt node offset count := by
  unfold partialKeyAt composePaddedNodeData
  rw [List.drop_append_of_le_length (by omega), List.take_append_of_le_length
    (by rw [List.length_drop]; omega)]

/-- What the circuits read in front of the children: a header of `size` bytes for `count`
nibbles, the partial key, and the bitmap at `offset`. -/
structure BranchFront (bytes : List UInt8) (count size offset : Nat) (key : List Nat)
    (bits : List Bool) : Prop where
  size_le : size ≤ 2
  count_le : count ≤ maxStorageAddressLengthInNibbles
  offset_eq : offset = size + (count + 1) / 2
  header : headerParser (bytes.getD 0 0) (bytes.getD 1 0) .branchWithoutValue =
    some ⟨(count : F), (size : F)⟩
  padding : count % 2 = 1 → (bytes.getD size 0).toNat / 16 = 0
  key_eq : key = partialKeyAt bytes size count
  bits_eq : bits = byteBits (bytes.getD offset 0) ++ byteBits (bytes.getD (offset + 1) 0)

/-- The codec decodes a front with a key that is not too long as the circuits read it. -/
theorem branchFront_of_decode {node rest : List UInt8} {key : List Nat} {bits : List Bool}
    (h : decodeBranchFront node = some (key, bits, rest))
    (hkey : key.length ≤ maxStorageAddressLengthInNibbles) :
    ∃ count size offset : Nat, BranchFront node count size offset key bits ∧
      offset + 2 ≤ node.length ∧ rest = node.drop (offset + 2) := by
  have hmax : maxStorageAddressLengthInNibbles = 64 := rfl
  simp only [decodeBranchFront, Option.bind_eq_bind, Option.bind_eq_some_iff, Option.guard_eq_some',
    Option.pure_def, Option.some.injEq, Prod.mk.injEq, Prod.exists] at h
  obtain ⟨kind, count, afterHeader, hheader, _, rfl, _, afterKey, hpartial, _, _, hbitmap, rfl, rfl,
    rfl⟩ := h
  obtain ⟨hcount, hafterKey⟩ := length_of_decodePartial hpartial
  obtain ⟨htwo, rfl, rfl⟩ := decodeBitmap_eq_some hbitmap
  cases node with
  | nil => contradiction
  | cons first tail =>
  cases tail with
  | nil =>
      have hnone := length_of_decodeHeader hheader
      rw [List.length_nil] at hnone
      omega
  | cons second tail =>
      have hshort := decodeHeader_short_of_lt hheader (by omega)
      rw [List.length_cons] at hshort
      obtain ⟨size, -, hsize, -, rfl, hparser⟩ :=
        headerParser_complete .branchWithoutValue hheader (by omega)
      have hroom := le_length_of_decodePartial hpartial
      rw [List.length_drop] at hroom
      have hroom : size + (count + 1) / 2 ≤ (first :: second :: tail).length := by
        simp only [List.length_cons] at hroom ⊢
        omega
      rw [decodePartial_drop hroom, Option.ite_none_right_eq_some, Option.some.injEq,
        Prod.mk.injEq] at hpartial
      obtain ⟨hpadding, rfl, rfl⟩ := hpartial
      rw [List.length_drop] at htwo
      refine ⟨count, size, _, ⟨hsize, by omega, rfl, hparser, hpadding, rfl, ?_⟩, by omega, ?_⟩
      · simp only [List.getD_eq_getElem?_getD, List.getElem?_drop, Nat.add_zero]
      · rw [List.drop_drop]

/-- The padded data read like the node. -/
theorem BranchFront.compose {node : List UInt8} {count size offset : Nat} {key : List Nat}
    {bits : List Bool} (h : BranchFront node count size offset key bits)
    (hle : node.length ≤ maxBranchNodeDataBytes) (hroom : offset ≤ node.length) :
    BranchFront (composePaddedNodeData node hle).bytes count size offset key bits := by
  have hget := getD_composePaddedNodeData hle
  exact {
    size_le := h.size_le
    count_le := h.count_le
    offset_eq := h.offset_eq
    header := by
      rw [hget, hget]
      exact h.header
    padding := by
      rw [hget]
      exact h.padding
    key_eq := by
      rw [partialKeyAt_composePaddedNodeData hle (h.offset_eq ▸ hroom)]
      exact h.key_eq
    bits_eq := by
      rw [hget, hget]
      exact h.bits_eq }

theorem BranchWalk.compose {node child : List UInt8} {bits : List Bool} {start nibble length : Nat}
    (h : BranchWalk node bits start nibble length child)
    (hle : node.length ≤ maxBranchNodeDataBytes) :
    BranchWalk (composePaddedNodeData node hle).bytes bits start nibble length child := by
  have hget := getD_composePaddedNodeData hle
  have hposition : ∀ k, childPosition (composePaddedNodeData node hle).bytes start k =
      childPosition node start k := fun k => childPosition_congr fun j _ => hget _
  exact {
    claimed := h.claimed
    mode := fun k hk => by
      rw [hposition, hget]
      exact h.mode k hk
    final := by
      rw [hposition]
      exact h.final
    isClaimed := by
      have hclaimed := h.isClaimed
      simp only [IsClaimedChild, BranchNodeDataPaddedTarget.slice] at hclaimed ⊢
      simp only [hposition, hget]
      exact hclaimed }

/-- **What a prover needs for a branch proof**: a front and a walk in the padded data, not
beyond what the comparisons of the reads allow. -/
theorem branchParser_of_walk {data : BranchNodeDataPaddedTarget} {child : List UInt8}
    {count size offset nibble length : Nat} {key : List Nat} {bits : List Bool} {previous : List F}
    (hfront : BranchFront data.bytes count size offset key bits)
    (hwalk : BranchWalk data.bytes bits (offset + 2) nibble length child) (hlength : length ≤ 2 ^ 16)
    (hfits : previous.length + key.length + 1 ≤ maxStorageAddressLengthInNibbles) :
    BranchParser (nibble : F) ⟨data, (length : F), child, .ofNibbles previous,
      .ofNibbles (previous ++ key.map Nat.cast ++ [(nibble : F)])⟩ := by
  have hblock : nodeDataBlockBytes = 128 := rfl
  have hmax : maxBranchNodeDataBytes = 640 := rfl
  have hmaxNibbles : maxStorageAddressLengthInNibbles = 64 := rfl
  have hdigest : blake2DigestSize = 32 := rfl
  have hcount := hfront.count_le
  have hsize := hfront.size_le
  have hoffset := hfront.offset_eq
  have hdata : nodeDataBlockBytes ≤ data.bytes.length := by
    rw [data.length_bytes]
    omega
  have hbitsLength : bits.length = 16 := by
    rw [hfront.bits_eq]
    simp [byteBits]
  have hcountLe : bits.count true ≤ 16 := hbitsLength ▸ List.count_le_length
  have hnibble : nibble < 16 := by
    obtain ⟨hlt, -⟩ := List.getElem?_eq_some_iff.mp hwalk.claimed
    omega
  have hindex := count_take_lt hwalk.claimed
  have hrange : rangeCheck (nibble : F) 4 := by
    rw [rangeCheck_natCast (by unfold modulus; omega)]
    omega
  have hheader : headerParser ((data.bytes.take nodeDataBlockBytes).getD 0 0)
      ((data.bytes.take nodeDataBlockBytes).getD 1 0) .branchWithoutValue =
        some ⟨(count : F), (size : F)⟩ := by
    rw [getD_take (by decide), getD_take (by decide)]
    exact hfront.header
  have hfit : (previous ++ key.map Nat.cast).length ≤ maxStorageAddressLengthInNibbles := by
    rw [List.length_append, List.length_map]
    omega
  have hnibbles := nibbleParser_eq hdata hsize hcount (show previous.length ≤ _ by omega)
  rw [← hfront.key_eq, if_pos ⟨hfront.padding, hfit⟩, ← hoffset] at hnibbles
  have happend : (StorageAddressTarget.ofNibbles (previous ++ key.map Nat.cast)).append
      (.fromSingleNibbleTarget (nibble : F)) =
        some (.ofNibbles (previous ++ key.map Nat.cast ++ [(nibble : F)])) := by
    rw [StorageAddressTarget.fromSingleNibbleTarget_eq]
    exact StorageAddressTarget.append_eq (by
      rw [List.length_singleton, List.length_append, List.length_map]
      omega)
  have hbitmap := bitmapParser_eq hdata (show offset ≤ 64 by omega) hnibble
  rw [← hfront.bits_eq, if_pos hwalk.claimed] at hbitmap
  have hchildren : childrenRead data child (((bits.take nibble).count true : Nat) : F)
      ((offset + 2 : Nat) : F) (bits.count true) = some (length : F) := by
    refine (childrenRead_eq_some_iff (by omega)).mpr ⟨fun k hk => ⟨?_, hwalk.mode k hk, ?_⟩, ?_⟩
    · have hbefore := childPosition_add_le data.bytes (offset + 2) k (bits.count true - k)
      rw [Nat.add_sub_cancel' (Nat.le_of_lt hk), hwalk.final] at hbefore
      unfold ChildReadable
      omega
    · intro heq
      rw [natCast_inj (by unfold modulus; omega) (by unfold modulus; omega)] at heq
      rw [← heq]
      exact hwalk.isClaimed
    · rw [hwalk.final]
  exact ⟨hrange, _, _, _, hheader, hnibbles, happend, hbitmap,
    (childNodeArrayParser_iff _).mpr ⟨_, by omega, rfl, hchildren⟩⟩

/-- **The walk over a branch with short children**, in the node itself: it ends where the
node ends and meets the claimed child. -/
theorem walk_of_decodeBranch {node child : List UInt8} {bits : List Bool} {start nibble : Nat}
    {children : List (Option (List UInt8))} (hstart : start ≤ node.length)
    (h : decodeChildren bits (node.drop start) = some (children, []))
    (hshort : ∀ inner, some inner ∈ children → inner.length ≤ blake2DigestSize)
    (hchild : children[nibble]? = some (some child)) (hlength : child.length = blake2DigestSize) :
    BranchWalk node bits start nibble node.length child ∧
      node.length ≤ start + bits.count true * (blake2DigestSize + 1) := by
  obtain ⟨hmode, hlen, hrest, hbits⟩ := @walk_of_decodeChildren node start blake2DigestSize
    (by decide) bits 0 children [] hstart hshort h
  have hmodes := decodeChildren_of_positions bits (fun j hkj hj => (hmode j hkj hj).1) hlen
  simp only [Nat.zero_add, Nat.zero_le, true_implies] at hmode hlen hrest hmodes
  have hfinal : childPosition node start (bits.count true) = node.length := by
    have hnone := congrArg List.length hrest
    rw [List.length_nil, List.length_drop] at hnone
    omega
  have hclaimed := hbits nibble child hchild
  have hindex := count_take_lt hclaimed
  have hnext := childPosition_add_le node start ((bits.take nibble).count true + 1)
    (bits.count true - ((bits.take nibble).count true + 1))
  rw [Nat.add_sub_cancel' hindex, childPosition_succ] at hnext
  obtain ⟨children', hchildren', hat⟩ := hmodes
  have heq := h.symm.trans hchildren'
  rw [Option.some.injEq, Prod.mk.injEq] at heq
  obtain ⟨rfl, -⟩ := heq
  have hchildAt := (hat nibble hclaimed).symm.trans hchild
  rw [Option.some.injEq, Option.some.injEq] at hchildAt
  have hsize : (node.getD (childPosition node start ((bits.take nibble).count true)) 0).toNat / 4 =
      blake2DigestSize := by
    rw [← hlength, ← hchildAt, childAt, List.length_take, List.length_drop]
    omega
  refine ⟨⟨hclaimed, fun k hk => (hmode k hk).1, hfinal, ?_, hsize⟩, ?_⟩
  · have hslice := (slice_eq_iff (fun _ _ _ => rfl : AgreesWithin node node)
      (show childPosition node start ((bits.take nibble).count true) + 1 + blake2DigestSize ≤
        node.length by omega)).mpr fun _ _ hpast => List.getD_eq_default _ _ hpast
    rw [← hchildAt, childAt, hsize, hslice]
  · rw [← hfinal]
    exact childPosition_le fun j hj => (hmode j hj).2

/-- **Every branch with short children can be proved.** -/
theorem branchParser_complete {node child : List UInt8} {branch : NibbledBranch} {nibble : Nat}
    {previous : List F} (hbranch : decodeBranch node = some branch)
    (hshort : ∀ inner, some inner ∈ branch.children → inner.length ≤ blake2DigestSize)
    (hchild : branch.children[nibble]? = some (some child)) (hlength : child.length = blake2DigestSize)
    (hfits : previous.length + branch.key.length + 1 ≤ maxStorageAddressLengthInNibbles) :
    ∃ h : node.length ≤ maxBranchNodeDataBytes,
      BranchParser (nibble : F) ⟨composePaddedNodeData node h, (node.length : F), child,
        .ofNibbles previous, .ofNibbles (previous ++ branch.key.map Nat.cast ++ [(nibble : F)])⟩ := by
  have hblock : nodeDataBlockBytes = 128 := rfl
  have hmax : maxBranchNodeDataBytes = 640 := rfl
  have hmaxNibbles : maxStorageAddressLengthInNibbles = 64 := rfl
  have hdigest : blake2DigestSize = 32 := rfl
  obtain ⟨⟨key, bits, bytes⟩, hdecode, hbranch⟩ := Option.bind_eq_some_iff.mp hbranch
  simp only [Option.bind_eq_bind, Option.bind_eq_some_iff, Option.guard_eq_some',
    Option.pure_def, Option.some.injEq, Prod.exists] at hbranch
  obtain ⟨children, rest, hchildren, _, rfl, rfl⟩ := hbranch
  simp only at hshort hchild hfits
  obtain ⟨count, size, offset, hfront, hroom, rfl⟩ := branchFront_of_decode hdecode (by omega)
  obtain ⟨hwalk, hnode⟩ := walk_of_decodeBranch hroom hchildren hshort hchild hlength
  have hcountLe : bits.count true ≤ 16 := by
    have hbitsLength : bits.length = 16 := by
      rw [hfront.bits_eq]
      simp [byteBits]
    exact hbitsLength ▸ List.count_le_length
  have hoffset := hfront.offset_eq
  have hsize := hfront.size_le
  have hcount := hfront.count_le
  have hle : node.length ≤ maxBranchNodeDataBytes := by
    rw [hdigest] at hnode
    omega
  exact ⟨hle, branchParser_of_walk (hfront.compose hle (by omega)) (hwalk.compose hle)
    (by omega) hfits⟩

/-- **The branch parser against the codec.**  An accepted branch is the one the codec
decodes exactly if the node length stays inside the padded data; and every branch with
children of at most 32 bytes, of which the claimed one is a hash, has a proof. -/
theorem branchParser_codec_iff {nibble : F} {pis : BranchParserTarget}
    (haddress : pis.partialAddress.paddedAddress.length = maxStorageAddressLengthInNibbles)
    (h : BranchParser nibble pis) :
    ((∃ branch, pis.AgreesWithCodec nibble branch) ↔
      pis.nodeDataLength.val ≤ maxBranchNodeDataBytes) ∧
    ∀ (node child : List UInt8) (branch : NibbledBranch) (nibble : Nat) (previous : List F),
      decodeBranch node = some branch →
      (∀ inner, some inner ∈ branch.children → inner.length ≤ hashLength) →
      branch.children[nibble]? = some (some child) → child.length = hashLength →
      previous.length + branch.key.length + 1 ≤ maxStorageAddressLengthInNibbles →
      ∃ h : node.length ≤ maxBranchNodeDataBytes,
        BranchParser (nibble : F) ⟨composePaddedNodeData node h, (node.length : F), child,
          .ofNibbles previous, .ofNibbles (previous ++ branch.key.map Nat.cast ++ [(nibble : F)])⟩ := by
  refine ⟨⟨?_, fun hlength => h.agreesWithCodec haddress hlength⟩, ?_⟩
  · rintro ⟨branch, hagrees⟩
    rw [← pis.paddedNodeData.length_bytes]
    exact hagrees.length_le
  · intro node child branch nibble previous hbranch hshort hchild hlength hfits
    exact branchParser_complete hbranch hshort hchild hlength hfits

/-- A branch with an empty key and one child, at nibble zero. -/
def singleChildNode : List UInt8 := [0x80, 0x01, 0x00, 128] ++ List.replicate 32 7

theorem length_singleChildNode_le : singleChildNode.length ≤ maxBranchNodeDataBytes := by
  decide +kernel

def singleChildPis : BranchParserTarget :=
  ⟨composePaddedNodeData singleChildNode length_singleChildNode_le, ((36 : Nat) : F),
    List.replicate 32 7, .ofNibbles [], .ofNibbles [((0 : Nat) : F)]⟩

theorem branchParser_singleChildPis : BranchParser ((0 : Nat) : F) singleChildPis := by
  have hfront : BranchFront singleChildPis.paddedNodeData.bytes 0 1 1 []
      (byteBits 0x01 ++ byteBits 0x00) := {
    size_le := by decide
    count_le := by decide
    offset_eq := rfl
    header := by decide +kernel
    padding := nofun
    key_eq := rfl
    bits_eq := by decide +kernel }
  have hwalk : BranchWalk singleChildPis.paddedNodeData.bytes (byteBits 0x01 ++ byteBits 0x00)
      3 0 36 (List.replicate 32 7) := {
    claimed := by decide +kernel
    mode := by decide +kernel
    final := by decide +kernel
    isClaimed := by decide +kernel }
  exact branchParser_of_walk hfront hwalk (by decide) (show [].length + _ + 1 ≤ _ by decide)

/-- The proof of a small branch says what the codec decodes. -/
theorem branchParser_codec_iff_singleChild :
    BranchParser ((0 : Nat) : F) singleChildPis ∧
      ∃ branch, singleChildPis.AgreesWithCodec ((0 : Nat) : F) branch :=
  ⟨branchParser_singleChildPis,
    (branchParser_codec_iff (by decide +kernel) branchParser_singleChildPis).1.mpr
      (by decide +kernel)⟩

/-- Data with eleven children: the claimed one, nine of 63 bytes, and a last one whose
length of 63 stands at position 612. -/
def overlongNode : List UInt8 :=
  [0x80, 0xFF, 0x07] ++ 128 :: List.replicate 32 7 ++
    (List.replicate 9 (252 :: List.replicate 63 0)).flatten ++ [252]

theorem length_overlongNode_le : overlongNode.length ≤ maxBranchNodeDataBytes := by
  decide +kernel

def overlongPis : BranchParserTarget :=
  ⟨composePaddedNodeData overlongNode length_overlongNode_le, ((676 : Nat) : F),
    List.replicate 32 7, .ofNibbles [], .ofNibbles [((0 : Nat) : F)]⟩

/-- Accepted data that are not the encoding of a node of the claimed length: it is larger
than the data. -/
theorem overlong_accepted :
    overlongPis.partialAddress.paddedAddress.length = maxStorageAddressLengthInNibbles ∧
      BranchParser ((0 : Nat) : F) overlongPis ∧
      ¬ ∃ branch, overlongPis.AgreesWithCodec ((0 : Nat) : F) branch := by
  have hfront : BranchFront overlongPis.paddedNodeData.bytes 0 1 1 []
      (byteBits 0xFF ++ byteBits 0x07) := {
    size_le := by decide
    count_le := by decide
    offset_eq := rfl
    header := by decide +kernel
    padding := nofun
    key_eq := rfl
    bits_eq := by decide +kernel }
  have hwalk : BranchWalk overlongPis.paddedNodeData.bytes (byteBits 0xFF ++ byteBits 0x07)
      3 0 676 (List.replicate 32 7) := {
    claimed := by decide +kernel
    mode := by decide +kernel
    final := by decide +kernel
    isClaimed := by decide +kernel }
  refine ⟨by decide +kernel,
    branchParser_of_walk hfront hwalk (by decide) (show [].length + _ + 1 ≤ _ by decide), ?_⟩
  rintro ⟨branch, hagrees⟩
  have hlength := hagrees.length_le
  rw [BranchNodeDataPaddedTarget.length_bytes] at hlength
  exact absurd hlength (by decide +kernel)

end GearBridges.Prover
