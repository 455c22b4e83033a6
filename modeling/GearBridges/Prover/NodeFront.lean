import GearBridges.Prover.NodeParser

/-!
# Prover.NodeFront

Header and partial key of a node against the node codec, in both directions: the two
circuits are satisfiable exactly on the blocks the codec decodes to a short header and a
key that fits (`headerNibbles_eq_some_iff`).
-/

namespace GearBridges.Prover

open Goldilocks SubstrateTrie

/-- The kinds of nodes the circuits parse. -/
inductive SupportedNode
  | branchWithoutValue
  | leaf
  | hashedValueLeaf

namespace SupportedNode

def descriptor : SupportedNode → HeaderDescriptor
  | branchWithoutValue => .branchWithoutValue
  | leaf => .leaf
  | hashedValueLeaf => .hashedValueLeaf

def kind : SupportedNode → NodeKind
  | branchWithoutValue => .branchWithoutValue
  | leaf => .leaf
  | hashedValueLeaf => .hashedValueLeaf

theorem describes (node : SupportedNode) : node.descriptor.Describes node.kind := by
  cases node with
  | branchWithoutValue => exact describes_branchWithoutValue
  | leaf => exact describes_leaf
  | hashedValueLeaf => exact describes_hashedValueLeaf

theorem prefixLength_le (node : SupportedNode) : node.descriptor.prefixLength ≤ 7 := by
  cases node <;> decide

/-- Every first byte that announces the kind has the prefix. -/
theorem prefixMatches (node : SupportedNode) : ∀ first : UInt8,
    (nodeKind first).map Prod.fst = some node.kind →
      node.descriptor.prefixMatches first = true := by
  cases node with
  | branchWithoutValue => exact forall_byte (by decide +kernel)
  | leaf => exact forall_byte (by decide +kernel)
  | hashedValueLeaf => exact forall_byte (by decide +kernel)

end SupportedNode

/-! ## the header -/

/-- The header circuit is satisfiable on what the codec decodes to a header of its kind and
of at most two bytes. -/
theorem headerParser_satisfiable (node : SupportedNode) {first second : UInt8} {tail rest : List UInt8}
    {count : Nat} (h : decodeHeader (first :: second :: tail) = some (node.kind, count, rest))
    (hshort : tail.length ≤ rest.length) :
    ∃ out, headerParser first second node.descriptor = some out := by
  obtain ⟨kindBits, hkind, hsecond⟩ := decodeHeader_short h (by rw [List.length_cons]; omega)
  have hmatch := node.prefixMatches first (by rw [hkind]; rfl)
  obtain ⟨hnode, hfirst⟩ := node.describes first hmatch
  rw [hkind, Option.some.injEq, Prod.mk.injEq] at hnode
  obtain ⟨-, rfl⟩ := hnode
  have hmax : 255 >>> node.descriptor.prefixLength = 255 / 2 ^ node.descriptor.prefixLength :=
    Nat.shiftRight_eq_div_pow 255 _
  have hle : 255 / 2 ^ node.descriptor.prefixLength ≤ 255 := Nat.div_le_self _ _
  have hvalue : (first.toNat : F) - (node.descriptor.maskedPrefix.toNat : F) =
      ((first.toNat % (255 / 2 ^ node.descriptor.prefixLength + 1) : Nat) : F) := by
    conv_lhs => rw [hfirst, Nat.cast_add]
    exact add_sub_cancel_left _ _
  have hlt : first.toNat % (255 / 2 ^ node.descriptor.prefixLength + 1) < 256 := by
    have hmod : first.toNat % (255 / 2 ^ node.descriptor.prefixLength + 1) <
        255 / 2 ^ node.descriptor.prefixLength + 1 := Nat.mod_lt _ (Nat.succ_pos _)
    omega
  have hcase : (decide ((first.toNat : F) - (node.descriptor.maskedPrefix.toNat : F) ≠
        ((255 >>> node.descriptor.prefixLength : Nat) : F)) ||
      (decide ((first.toNat : F) - (node.descriptor.maskedPrefix.toNat : F) =
        ((255 >>> node.descriptor.prefixLength : Nat) : F)) && second != 255)) = true := by
    rw [hmax, hvalue]
    by_cases hlast : first.toNat % (255 / 2 ^ node.descriptor.prefixLength + 1) =
        255 / 2 ^ node.descriptor.prefixLength
    · obtain ⟨_, hbyte, hcons⟩ := hsecond hlast
      rw [List.cons.injEq] at hcons
      have hne : second ≠ 255 := by
        rintro rfl
        rw [← hcons.1] at hbyte
        exact absurd hbyte (by decide)
      simp [hlast, hne]
    · have hne := mt (natCast_inj (by unfold modulus; omega) (by unfold modulus; omega)).mp hlast
      simp [hne]
  unfold headerParser
  exact ⟨_, by rw [guard_bind_of hmatch, guard_bind_of hcase]; rfl⟩

/-- **The header circuit returns what the codec decodes**, when that is a header of at most
two bytes. -/
theorem headerParser_complete (node : SupportedNode) {first second : UInt8} {tail rest : List UInt8}
    {count : Nat} (h : decodeHeader (first :: second :: tail) = some (node.kind, count, rest))
    (hshort : tail.length ≤ rest.length) :
    ∃ size, 0 < size ∧ size ≤ 2 ∧ count < 512 ∧ rest = (first :: second :: tail).drop size ∧
      headerParser first second node.descriptor = some ⟨(count : F), (size : F)⟩ := by
  obtain ⟨out, hout⟩ := headerParser_satisfiable node h hshort
  obtain ⟨count', size, rfl, hcount, hpos, hsize, hdecode⟩ :=
    headerParser_sound node.describes node.prefixLength_le hout
  have heq := h.symm.trans (hdecode (second :: tail) fun _ => rfl)
  rw [Option.some.injEq, Prod.mk.injEq, Prod.mk.injEq] at heq
  obtain ⟨-, rfl, rfl⟩ := heq
  exact ⟨size, hpos, hsize, hcount, rfl, hout⟩

/-! ## header and partial key -/

/-- `header_parser::define` followed by `nibble_parser::define`, on the first block of a
node. -/
def headerNibbles (firstNodeDataBlock : List UInt8) (descriptor : HeaderDescriptor)
    (partialAddress : StorageAddressTarget) :
    Option (HeaderParserOutputTarget × NibbleParserOutputTarget) := do
  let header ← headerParser (firstNodeDataBlock.getD 0 0) (firstNodeDataBlock.getD 1 0) descriptor
  let nibbles ← nibbleParser firstNodeDataBlock header.resultingOffset header.nibbleCount
    partialAddress
  return (header, nibbles)

/-- What is left after so many bytes tells how many they are. -/
theorem length_sub_drop {data : List UInt8} {n : Nat} (h : n ≤ data.length) :
    data.length - (data.drop n).length = n := by
  rw [List.length_drop]
  omega

/-- A block starts with the two bytes the header is read from. -/
theorem eq_cons_cons {data : List UInt8} (h : 2 ≤ data.length) :
    data = data.getD 0 0 :: data.getD 1 0 :: data.drop 2 := by
  rw [← drop_eq_cons_getD (by omega), ← drop_eq_cons_getD (by omega), List.drop_zero]

section

variable {node : SupportedNode} {data : List UInt8} {previous : List F}

theorem headerNibbles_decodes {header : HeaderParserOutputTarget} {nibbles : NibbleParserOutputTarget}
    (hdata : data.length = nodeDataBlockBytes)
    (hprevious : previous.length ≤ maxStorageAddressLengthInNibbles)
    (hheader : headerParser (data.getD 0 0) (data.getD 1 0) node.descriptor = some header)
    (hnibbles : nibbleParser data header.resultingOffset header.nibbleCount (.ofNibbles previous) =
      some nibbles) :
    ∃ count afterHeader key afterKey,
      decodeHeader data = some (node.kind, count, afterHeader) ∧ data.length ≤ afterHeader.length + 2 ∧
      decodePartial count afterHeader = some (key, afterKey) ∧
      previous.length + key.length ≤ maxStorageAddressLengthInNibbles ∧
      (header, nibbles) = (⟨(count : F), ((data.length - afterHeader.length : Nat) : F)⟩,
        ⟨((data.length - afterKey.length : Nat) : F), .ofNibbles (previous ++ key.map Nat.cast)⟩) := by
  have hblock : nodeDataBlockBytes = 128 := rfl
  have hmax : maxStorageAddressLengthInNibbles = 64 := rfl
  have hle : nodeDataBlockBytes ≤ data.length := Nat.le_of_eq hdata.symm
  have htake : data.take nodeDataBlockBytes = data := List.take_of_length_le (Nat.le_of_eq hdata)
  obtain ⟨count, size, rfl, hcount, hpos, hsize, hdecode⟩ :=
    headerParser_sound node.describes node.prefixLength_le hheader
  have hdecode := hdecode (data.getD 1 0 :: data.drop 2) fun _ => rfl
  rw [← eq_cons_cons (by omega)] at hdecode
  simp only at hnibbles
  rw [← htake] at hnibbles
  obtain ⟨hfit, hpadding, hlength, rfl⟩ := nibbleParser_sound hle hsize hcount hprevious hnibbles
  rw [List.length_append, List.length_map] at hlength
  refine ⟨count, data.drop size, partialKeyAt data size count,
    data.drop (size + (count + 1) / 2), hdecode, ?_, ?_, hlength, ?_⟩
  · rw [List.length_drop]
    omega
  · rw [decodePartial_drop (by omega), if_pos hpadding]
  · rw [length_sub_drop (by omega), length_sub_drop (by omega)]

theorem headerNibbles_of_decodes {count : Nat} {afterHeader afterKey : List UInt8} {key : List Nat}
    (hdata : data.length = nodeDataBlockBytes)
    (hprevious : previous.length ≤ maxStorageAddressLengthInNibbles)
    (hheader : decodeHeader data = some (node.kind, count, afterHeader))
    (hshort : data.length ≤ afterHeader.length + 2)
    (hkey : decodePartial count afterHeader = some (key, afterKey))
    (hlength : previous.length + key.length ≤ maxStorageAddressLengthInNibbles) :
    ∃ header, headerParser (data.getD 0 0) (data.getD 1 0) node.descriptor = some header ∧
      ∃ nibbles, nibbleParser data header.resultingOffset header.nibbleCount (.ofNibbles previous) =
        some nibbles ∧
      (header, nibbles) = (⟨(count : F), ((data.length - afterHeader.length : Nat) : F)⟩,
        ⟨((data.length - afterKey.length : Nat) : F), .ofNibbles (previous ++ key.map Nat.cast)⟩) := by
  have hblock : nodeDataBlockBytes = 128 := rfl
  have hmax : maxStorageAddressLengthInNibbles = 64 := rfl
  have hle : nodeDataBlockBytes ≤ data.length := Nat.le_of_eq hdata.symm
  have htake : data.take nodeDataBlockBytes = data := List.take_of_length_le (Nat.le_of_eq hdata)
  have hcons := eq_cons_cons (show 2 ≤ data.length by omega)
  have htail : data.length = (data.drop 2).length + 2 := by
    rw [List.length_drop]
    omega
  rw [hcons] at hheader
  obtain ⟨size, hpos, hsize, hcount, hrest, hparser⟩ :=
    headerParser_complete node hheader (by omega)
  rw [← hcons] at hrest
  subst hrest
  have hroom : size + (count + 1) / 2 ≤ data.length := by
    have hle := le_length_of_decodePartial hkey
    rw [List.length_drop] at hle
    omega
  rw [decodePartial_drop hroom, Option.ite_none_right_eq_some, Option.some.injEq,
    Prod.mk.injEq] at hkey
  obtain ⟨hpadding, rfl, rfl⟩ := hkey
  rw [length_partialKeyAt hroom] at hlength
  have hnibbles := nibbleParser_eq hle hsize (show count ≤ _ by omega) hprevious
  rw [htake, if_pos ⟨hpadding, by
    rw [List.length_append, List.length_map, length_partialKeyAt hroom]; omega⟩] at hnibbles
  refine ⟨_, hparser, _, hnibbles, ?_⟩
  rw [length_sub_drop (by omega), length_sub_drop (by omega)]

end

/-- **The front of a node**: the circuits are satisfiable exactly when the codec decodes
the block to a header of the kind, of at most two bytes, and a partial key that fits
behind the previous address, and they return what it decodes.  The codec checks the
padding of an odd key. -/
theorem headerNibbles_eq_some_iff (node : SupportedNode)
    (block : { bytes : List UInt8 // bytes.length = nodeDataBlockBytes })
    (previous : { nibbles : List F // nibbles.length ≤ maxStorageAddressLengthInNibbles })
    (out : HeaderParserOutputTarget × NibbleParserOutputTarget) :
    headerNibbles block.val node.descriptor (.ofNibbles previous.val) = some out ↔
      ∃ count afterHeader key afterKey,
        decodeHeader block.val = some (node.kind, count, afterHeader) ∧
        block.val.length ≤ afterHeader.length + 2 ∧
        decodePartial count afterHeader = some (key, afterKey) ∧
        previous.val.length + key.length ≤ maxStorageAddressLengthInNibbles ∧
        out = (⟨(count : F), ((block.val.length - afterHeader.length : Nat) : F)⟩,
          ⟨((block.val.length - afterKey.length : Nat) : F),
            .ofNibbles (previous.val ++ key.map Nat.cast)⟩) := by
  unfold headerNibbles
  simp only [Option.bind_eq_bind, Option.bind_eq_some_iff, Option.pure_def, Option.some.injEq]
  constructor
  · rintro ⟨header, hheader, nibbles, hnibbles, rfl⟩
    exact headerNibbles_decodes block.property previous.property hheader hnibbles
  · rintro ⟨count, afterHeader, key, afterKey, hheader, hshort, hkey, hlength, rfl⟩
    exact headerNibbles_of_decodes block.property previous.property hheader hshort hkey hlength

end GearBridges.Prover
