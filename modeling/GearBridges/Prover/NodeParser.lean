import GearBridges.Lib.SubstrateTrie
import GearBridges.Prover.Limbs
import GearBridges.Prover.StorageAddress

/-!
# Prover.NodeParser

Header, partial key and single-byte lengths of an encoded trie node, as the circuits
parse them.  What a parser accepts is what the node codec decodes: `headerParser_sound`
and `nibbleParser_sound`.
-/

namespace GearBridges.Prover

open Goldilocks SubstrateTrie

def nodeDataBlockBytes : Nat := 128

/-- A property of all bytes can be checked byte by byte. -/
theorem forall_byte {p : UInt8 → Prop} (h : ∀ n : Fin 256, p (UInt8.ofNat n.val)) (b : UInt8) :
    p b := by
  have hb := h ⟨b.toNat, b.toNat_lt⟩
  rwa [UInt8.ofNat_toNat] at hb

theorem nextPowerOfTwo_block {data : List UInt8} (h : nodeDataBlockBytes ≤ data.length) :
    (data.take nodeDataBlockBytes).length.nextPowerOfTwo = (data.take nodeDataBlockBytes).length := by
  rw [List.length_take, Nat.min_eq_left h]
  decide +kernel

theorem randomRead_block {bytes : List UInt8} (hlen : nodeDataBlockBytes ≤ bytes.length) {i : Nat}
    (hi : i < nodeDataBlockBytes) :
    ArrayTarget.randomRead (bytes.take nodeDataBlockBytes) (i : F) = some (bytes.getD i 0) := by
  have hblock : nodeDataBlockBytes = 128 := rfl
  have htake : (bytes.take nodeDataBlockBytes).length = 128 := by
    rw [List.length_take]
    omega
  rw [ArrayTarget.randomRead_natCast (nextPowerOfTwo_block hlen) (by omega) (by omega) (by omega),
    List.getElem?_take_of_lt hi, List.getElem?_eq_getElem (by omega), List.getD_eq_getElem]

/-! ## scale_compact_integer_parser -/

/-- `single_byte::define`: the two lowest bits of the byte are the mode. -/
def singleByteParser (firstByte : F) : Option F := do
  let bits ← lowBits firstByte 8 8
  guard (bits.getD 0 false = false)
  guard (bits.getD 1 false = false)
  return leSum (bits.drop 2)

theorem singleByteParser_natCast : ∀ byte : UInt8, singleByteParser (byte.toNat : F) =
    if byte.toNat % 4 = 0 then some ((byte.toNat / 4 : Nat) : F) else none :=
  forall_byte (by decide +kernel)

/-! ## header_parser -/

structure HeaderDescriptor where
  maskedPrefix : UInt8
  prefixLength : Nat

def HeaderDescriptor.branchWithoutValue : HeaderDescriptor := ⟨0b10000000, 2⟩

def HeaderDescriptor.hashedValueLeaf : HeaderDescriptor := ⟨0b00100000, 3⟩

def HeaderDescriptor.leaf : HeaderDescriptor := ⟨0b01000000, 2⟩

/-- The bits of a first byte that `define` compares with those of the descriptor. -/
def HeaderDescriptor.prefixMatches (descriptor : HeaderDescriptor) (first : UInt8) : Bool :=
  (List.range' (8 - descriptor.prefixLength) descriptor.prefixLength).all fun i =>
    first.toNat.testBit i == descriptor.maskedPrefix.toNat.testBit i

structure HeaderParserOutputTarget where
  nibbleCount : F
  resultingOffset : F
  deriving DecidableEq

/-- `header_parser::define`. -/
def headerParser (firstByte secondByte : UInt8) (descriptor : HeaderDescriptor) :
    Option HeaderParserOutputTarget := do
  guard (descriptor.prefixMatches firstByte)
  let firstByteValue := (firstByte.toNat : F) - (descriptor.maskedPrefix.toNat : F)
  let maxFirstByteValue := ((255 >>> descriptor.prefixLength : Nat) : F)
  let firstCaseAppliable := decide (firstByteValue ≠ maxFirstByteValue)
  let secondCaseAppliable := decide (firstByteValue = maxFirstByteValue) && secondByte != 255
  guard (firstCaseAppliable || secondCaseAppliable)
  return ⟨if firstCaseAppliable then firstByteValue else (secondByte.toNat : F) + maxFirstByteValue,
    if firstCaseAppliable then 1 else 2⟩

/-! ## nibble_parser -/

structure NibbleParserOutputTarget where
  resultingOffset : F
  partialAddress : StorageAddressTarget
  deriving DecidableEq

def maxStorageAddressLengthInBytes : Nat := maxStorageAddressLengthInNibbles / 2

/-- The half bytes of a byte, the most significant one first. -/
def halfByteTargets (byte : UInt8) : List F := (byteNibbles byte).map Nat.cast

/-- `CircuitBuilder::div` by two. -/
def halve (x : F) : F := x * (2 : F)⁻¹

/-- `nibble_parser::define`. -/
def nibbleParser (firstNodeDataBlock : List UInt8) (readOffset nibbleCount : F)
    (partialAddress : StorageAddressTarget) : Option NibbleParserOutputTarget := do
  guard (rangeCheck ((maxStorageAddressLengthInNibbles : F) - nibbleCount) 32)
  let potentialAddressBytes ←
    ArrayTarget.randomReadArray maxStorageAddressLengthInBytes firstNodeDataBlock readOffset
  let potentialAddressNibbles := potentialAddressBytes.flatMap halfByteTargets ++ [0]
  let firstNibble := potentialAddressNibbles.headD 0
  let remainingNibbles := potentialAddressNibbles.tail
  let nibbleCountOdd := (← lowBits nibbleCount 1 32).headD false
  -- the padding nibble of an odd count
  guard (nibbleCountOdd = true → firstNibble = 0)
  let takeFirstNibble := !(nibbleCountOdd || decide (nibbleCount = 0))
  let firstNibblePadded := firstNibble :: List.replicate (maxStorageAddressLengthInNibbles - 1) 0
  let firstNibbleAddressPart ←
    StorageAddressTarget.fromHalfByteTargetsSafe firstNibblePadded (takeFirstNibble.toNat : F)
  let remainingNibblesAddressPart ← StorageAddressTarget.fromHalfByteTargetsSafe remainingNibbles
    (nibbleCount - (takeFirstNibble.toNat : F))
  let partialAddress ← partialAddress.append firstNibbleAddressPart
  let partialAddress ← partialAddress.append remainingNibblesAddressPart
  let readBytes := halve (nibbleCount - (nibbleCountOdd.toNat : F)) + (nibbleCountOdd.toNat : F)
  return ⟨readOffset + readBytes, partialAddress⟩

/-! ## what the header parser accepts -/

/-- The kind of node a descriptor describes. -/
def HeaderDescriptor.Describes (descriptor : HeaderDescriptor) (kind : NodeKind) : Prop :=
  ∀ first : UInt8, descriptor.prefixMatches first = true →
    nodeKind first = some (kind, descriptor.prefixLength) ∧ first.toNat =
      descriptor.maskedPrefix.toNat + first.toNat % (255 / 2 ^ descriptor.prefixLength + 1)

theorem describes_branchWithoutValue :
    HeaderDescriptor.branchWithoutValue.Describes .branchWithoutValue :=
  forall_byte (by decide +kernel)

theorem describes_leaf : HeaderDescriptor.leaf.Describes .leaf :=
  forall_byte (by decide +kernel)

theorem describes_hashedValueLeaf : HeaderDescriptor.hashedValueLeaf.Describes .hashedValueLeaf :=
  forall_byte (by decide +kernel)

/-- **The header circuit accepts headers of one or two bytes** that the codec decodes to
the same number of nibbles. -/
theorem headerParser_sound {descriptor : HeaderDescriptor} {kind : NodeKind}
    (hkind : descriptor.Describes kind) (hbits : descriptor.prefixLength ≤ 7) {first second : UInt8}
    {out : HeaderParserOutputTarget} (h : headerParser first second descriptor = some out) :
    ∃ count size : Nat, out = ⟨(count : F), (size : F)⟩ ∧ count < 512 ∧ 0 < size ∧ size ≤ 2 ∧
      ∀ rest, (size = 2 → rest.head? = some second) →
        decodeHeader (first :: rest) = some (kind, count, (first :: rest).drop size) := by
  unfold headerParser at h
  rw [guard_bind_eq_some, guard_bind_eq_some] at h
  obtain ⟨hmatch, hcase, hout⟩ := h
  obtain ⟨hnode, hfirst⟩ := hkind first hmatch
  have hmax : 255 >>> descriptor.prefixLength = 255 / 2 ^ descriptor.prefixLength :=
    Nat.shiftRight_eq_div_pow 255 _
  have hle : 255 / 2 ^ descriptor.prefixLength ≤ 255 := Nat.div_le_self _ _
  have hpos : 0 < 255 / 2 ^ descriptor.prefixLength := by
    apply Nat.div_pos _ (Nat.pow_pos (by decide))
    calc 2 ^ descriptor.prefixLength ≤ 2 ^ 7 := Nat.pow_le_pow_right (by decide) hbits
      _ ≤ 255 := by decide
  rw [hmax] at hcase hout
  obtain ⟨maxValue, hmaxValue⟩ : ∃ maxValue, maxValue = 255 / 2 ^ descriptor.prefixLength :=
    ⟨_, rfl⟩
  rw [← hmaxValue] at hcase hout hfirst hle hpos
  have hv : first.toNat % (maxValue + 1) < maxValue + 1 := Nat.mod_lt _ (by omega)
  have hvalue : (first.toNat : F) - (descriptor.maskedPrefix.toNat : F) =
      ((first.toNat % (maxValue + 1) : Nat) : F) := by
    conv_lhs => rw [hfirst, Nat.cast_add]
    exact add_sub_cancel_left _ _
  rw [hvalue] at hcase hout
  have hinj : ((first.toNat % (maxValue + 1) : Nat) : F) = (maxValue : F) ↔
      first.toNat % (maxValue + 1) = maxValue :=
    natCast_inj (by unfold modulus; omega) (by unfold modulus; omega)
  have hsecond := second.toNat_lt
  by_cases hlast : first.toNat % (maxValue + 1) = maxValue
  · have hne : second.toNat ≠ 255 := by
      have hbyte : second ≠ 255 := by simpa [hinj, hlast] using hcase
      intro h255
      exact hbyte (UInt8.toNat_inj.mp h255)
    refine ⟨second.toNat + maxValue, 2, ?_, by omega, by decide, by decide, ?_⟩
    · simp only [hinj.mpr hlast] at hout
      simpa using hout.symm
    · intro rest hrest
      obtain ⟨tail, rfl⟩ := List.head?_eq_some_iff.mp (hrest rfl)
      subst hmaxValue
      exact decodeHeader_two hnode hpos hlast (by omega) tail
  · refine ⟨first.toNat % (maxValue + 1), 1, ?_, by omega, by decide, by decide, ?_⟩
    · have hne := mt hinj.mp hlast
      simpa [hne] using hout.symm
    · intro rest _
      subst hmaxValue
      exact decodeHeader_one hnode (by omega) rest

/-! ## what the nibble parser accepts -/

theorem halve_two_mul (x : F) : halve (2 * x) = x := by
  have hinv : (2 : F) * (2 : F)⁻¹ = 1 := ZMod.coe_mul_inv_eq_one 2 (by decide +kernel)
  rw [halve, mul_right_comm, hinv, one_mul]

/-- The bytes of so many nibbles, as the circuit computes them. -/
theorem readBytes_natCast (count : Nat) :
    halve ((count : F) - ((decide (count % 2 = 1)).toNat : F)) + ((decide (count % 2 = 1)).toNat : F) =
      (((count + 1) / 2 : Nat) : F) := by
  by_cases hodd : count % 2 = 1
  · have hcount : count = 2 * (count / 2) + 1 := by omega
    have hsize : (count + 1) / 2 = count / 2 + 1 := by omega
    rw [hsize]
    conv_lhs => rw [hcount]
    simp [halve_two_mul]
  · have hcount : count = 2 * (count / 2) := by omega
    have hsize : (count + 1) / 2 = count / 2 := by omega
    rw [hsize]
    conv_lhs => rw [hcount]
    simp [halve_two_mul]

/-- The two parts the circuit appends are the nibbles after the padding. -/
theorem takenNibbles {first : F} {tail : List F} (htail : tail.length = 63) {count : Nat}
    (hcount : count ≤ 64) {takeFirst : Bool}
    (htake : takeFirst = !(decide (count % 2 = 1) || decide (count = 0))) :
    (first :: List.replicate 63 0).take takeFirst.toNat ++
        (tail ++ [0]).take (count - takeFirst.toNat) =
      ((first :: tail).take (2 * ((count + 1) / 2))).drop (count % 2) := by
  by_cases hodd : count % 2 = 1
  · have hsize : 2 * ((count + 1) / 2) = count + 1 := by omega
    rw [hsize, hodd, List.take_succ_cons, List.drop_one, List.tail_cons]
    simp only [htake, hodd, decide_true, Bool.true_or, Bool.not_true, Bool.toNat_false,
      List.take_zero, List.nil_append, Nat.sub_zero]
    exact List.take_append_of_le_length (by omega)
  · by_cases hzero : count = 0
    · simp [htake, hzero]
    · obtain ⟨n, rfl⟩ := Nat.exists_eq_succ_of_ne_zero hzero
      have hsize : 2 * ((n + 1 + 1) / 2) = n + 1 := by omega
      have heven : (n + 1) % 2 = 0 := by omega
      rw [hsize, heven, List.drop_zero, List.take_succ_cons]
      simp only [htake, heven, zero_ne_one, decide_false, Nat.succ_ne_zero, Bool.or_false,
        Bool.not_false, Bool.toNat_true, List.take_succ_cons, List.take_zero, List.cons_append,
        List.nil_append, Nat.succ_eq_add_one, Nat.add_sub_cancel]
      rw [List.take_append_of_le_length (by omega)]

theorem flatMap_halfByteTargets (bytes : List UInt8) :
    bytes.flatMap halfByteTargets = (bytes.flatMap byteNibbles).map Nat.cast := by
  rw [List.map_flatMap]
  rfl

/-- The first half byte of a window may be padding, so it is taken apart. -/
theorem exists_halfByteTargets {data : List UInt8} {offset : Nat} (h : offset + 32 ≤ data.length) :
    ∃ (first : F) (tail : List F), first = (((data.getD offset 0).toNat / 16 : Nat) : F) ∧
      tail.length = 63 ∧ ((data.drop offset).take 32).flatMap halfByteTargets = first :: tail := by
  obtain ⟨tail, hnibbles⟩ : ∃ tail : List F, ((data.drop offset).take 32).flatMap halfByteTargets =
      (((data.getD offset 0).toNat / 16 : Nat) : F) :: tail := by
    rw [drop_eq_cons_getD (by omega)]
    exact ⟨_, rfl⟩
  refine ⟨_, tail, rfl, ?_, hnibbles⟩
  have hlength := congrArg List.length hnibbles
  rw [flatMap_halfByteTargets, List.length_map, length_flatMap_byteNibbles, List.length_take,
    List.length_drop, List.length_cons] at hlength
  omega

/-- **What the nibble circuit computes** for a count that passes its first check: it
appends the nibbles at the offset in two parts, after a check of the padding. -/
theorem nibbleParser_run {data : List UInt8} (hdata : nodeDataBlockBytes ≤ data.length)
    {offset count : Nat} (hoffset : offset ≤ 2) (hfit : count ≤ maxStorageAddressLengthInNibbles) :
    ∃ front back : List F, front ++ back = (partialKeyAt data offset count).map Nat.cast ∧
      front.length + back.length ≤ maxStorageAddressLengthInNibbles ∧
      ∀ previous : StorageAddressTarget,
        nibbleParser (data.take nodeDataBlockBytes) (offset : F) (count : F) previous = (do
          guard (count % 2 = 1 → (data.getD offset 0).toNat / 16 = 0)
          let middle ← previous.append (.ofNibbles front)
          let result ← middle.append (.ofNibbles back)
          return ⟨((offset + (count + 1) / 2 : Nat) : F), result⟩) := by
  have hblock : nodeDataBlockBytes = 128 := rfl
  have hmax : maxStorageAddressLengthInNibbles = 64 := rfl
  have hbytes : maxStorageAddressLengthInBytes = 32 := rfl
  have hlen : (data.take nodeDataBlockBytes).length = 128 := by
    rw [List.length_take]
    omega
  have hread : ((data.take nodeDataBlockBytes).drop offset).take 32 = (data.drop offset).take 32 := by
    rw [List.drop_take, List.take_take, Nat.min_eq_left (by omega)]
  obtain ⟨first, tail, hfirst, htail, hnibbles⟩ := exists_halfByteTargets
    (show offset + 32 ≤ data.length by omega)
  have hbit : ((List.range 1).map count.testBit).headD false = decide (count % 2 = 1) := by
    simp [Nat.testBit_zero]
  have hzero : (count : F) = 0 ↔ count = 0 := by
    rw [← Nat.cast_zero, natCast_inj (by unfold modulus; omega) (by unfold modulus; omega)]
  have hfirstZero : first = 0 ↔ (data.getD offset 0).toNat / 16 = 0 := by
    have hbyte := (data.getD offset 0).toNat_lt
    rw [hfirst, ← Nat.cast_zero,
      natCast_inj (by unfold modulus; omega) (by unfold modulus; omega)]
  obtain ⟨takeFirst, htake⟩ : ∃ takeFirst,
      takeFirst = !(decide (count % 2 = 1) || decide (count = 0)) := ⟨_, rfl⟩
  have htoNat := Bool.toNat_le takeFirst
  have hone : takeFirst.toNat ≤ count := by
    by_cases hcount0 : count = 0
    · simp [htake, hcount0]
    · omega
  have hkey : (first :: List.replicate 63 0).take takeFirst.toNat ++
      (tail ++ [0]).take (count - takeFirst.toNat) =
        (partialKeyAt data offset count).map Nat.cast := by
    rw [takenNibbles htail hfit htake, ← hnibbles, flatMap_halfByteTargets, ← List.map_take,
      ← List.map_drop, ← take_flatMap_byteNibbles, List.take_take, Nat.min_eq_left (by omega)]
    rfl
  refine ⟨_, _, hkey, by simp only [List.length_take]; omega, fun previous => ?_⟩
  unfold nibbleParser
  rw [guard_bind_of (by rw [hmax, rangeCheck_sub (by decide) (by omega)]; omega), hbytes,
    ArrayTarget.randomReadArray_natCast (by omega) (by omega), hread,
    lowBits_natCast (by decide) (by omega)]
  simp only [Option.bind_eq_bind, Option.bind_some, hnibbles, List.cons_append, List.headD_cons,
    List.tail_cons, hbit, hzero, decide_eq_true_iff, hfirstZero]
  rw [← htake, StorageAddressTarget.fromHalfByteTargetsSafe_eq (by simp [hmax]) (by omega),
    ← Nat.cast_sub hone, StorageAddressTarget.fromHalfByteTargetsSafe_eq (by simp [hmax, htail])
    (by omega), Nat.cast_add offset, ← readBytes_natCast]
  rfl

/-- The first check of the nibble circuit. -/
theorem le_of_nibbleParser {block : List UInt8} {offset : F} {count : Nat} (hcount : count < 512)
    {previous : StorageAddressTarget} {out : NibbleParserOutputTarget}
    (h : nibbleParser block offset (count : F) previous = some out) :
    count ≤ maxStorageAddressLengthInNibbles := by
  unfold nibbleParser at h
  rw [guard_bind_eq_some, rangeCheck_sub (by decide) (by omega)] at h
  exact h.1

/-- Behind a list of nibbles the parts are appended when all of them fit. -/
theorem nibbleParser_eq {data : List UInt8} (hdata : nodeDataBlockBytes ≤ data.length)
    {offset count : Nat} (hoffset : offset ≤ 2) (hfit : count ≤ maxStorageAddressLengthInNibbles)
    {previous : List F} (hprevious : previous.length ≤ maxStorageAddressLengthInNibbles) :
    nibbleParser (data.take nodeDataBlockBytes) (offset : F) (count : F)
        (StorageAddressTarget.ofNibbles previous) =
      if (count % 2 = 1 → (data.getD offset 0).toNat / 16 = 0) ∧
        (previous ++ (partialKeyAt data offset count).map Nat.cast).length ≤
          maxStorageAddressLengthInNibbles
      then some ⟨((offset + (count + 1) / 2 : Nat) : F), StorageAddressTarget.ofNibbles
        (previous ++ (partialKeyAt data offset count).map Nat.cast)⟩
      else none := by
  obtain ⟨front, back, hkey, hlength, hrun⟩ := nibbleParser_run hdata hoffset hfit
  rw [hrun, ← hkey, ← List.append_assoc, List.length_append]
  by_cases hpadding : count % 2 = 1 → (data.getD offset 0).toNat / 16 = 0
  · simp only [guard, if_pos hpadding, Option.pure_def, Option.bind_eq_bind, Option.bind_some]
    rw [StorageAddressTarget.append_ofNibbles hprevious (by omega)]
    split
    · rename_i hfirstFit
      rw [Option.bind_some, StorageAddressTarget.append_ofNibbles
        (by rw [List.length_append]; omega) (by omega)]
      split
      · rename_i hallFit
        rw [if_pos ⟨hpadding, hallFit⟩]
        rfl
      · rename_i hallFit
        rw [if_neg fun h => hallFit h.2]
        rfl
    · rename_i hfirstFit
      rw [if_neg, Option.bind_none]
      rintro ⟨-, hallFit⟩
      rw [List.length_append] at hallFit
      omega
  · rw [if_neg fun h => hpadding h.1]
    simp only [guard, if_neg hpadding]
    rfl

/-- **The nibble circuit reads the partial key**: it appends the nibbles that stand at
its offset, and checks the padding of an odd number of them. -/
theorem nibbleParser_sound {data : List UInt8} (hdata : nodeDataBlockBytes ≤ data.length)
    {offset count : Nat} (hoffset : offset ≤ 2) (hcount : count < 512) {previous : List F}
    (hprevious : previous.length ≤ maxStorageAddressLengthInNibbles)
    {out : NibbleParserOutputTarget}
    (h : nibbleParser (data.take nodeDataBlockBytes) (offset : F) (count : F)
      (StorageAddressTarget.ofNibbles previous) = some out) :
    count ≤ maxStorageAddressLengthInNibbles ∧
      (count % 2 = 1 → (data.getD offset 0).toNat / 16 = 0) ∧
      (previous ++ (partialKeyAt data offset count).map Nat.cast).length ≤
        maxStorageAddressLengthInNibbles ∧
      out = ⟨((offset + (count + 1) / 2 : Nat) : F), StorageAddressTarget.ofNibbles
        (previous ++ (partialKeyAt data offset count).map Nat.cast)⟩ := by
  have hfit := le_of_nibbleParser hcount h
  rw [nibbleParser_eq hdata hoffset hfit hprevious, Option.ite_none_right_eq_some,
    Option.some.injEq] at h
  exact ⟨hfit, h.1.1, h.1.2, h.2.symm⟩

/-- What stands behind the nibbles of the previous address does not matter. -/
theorem nibbleParser_nibbles {data : List UInt8} (hdata : nodeDataBlockBytes ≤ data.length)
    {offset count : Nat} (hoffset : offset ≤ 2) (hcount : count < 512)
    {previous : StorageAddressTarget}
    (hprevious : previous.paddedAddress.length = maxStorageAddressLengthInNibbles)
    {out : NibbleParserOutputTarget}
    (h : nibbleParser (data.take nodeDataBlockBytes) (offset : F) (count : F) previous = some out) :
    previous.nibbles.length ≤ maxStorageAddressLengthInNibbles ∧
      nibbleParser (data.take nodeDataBlockBytes) (offset : F) (count : F)
        (StorageAddressTarget.ofNibbles previous.nibbles) = some out := by
  obtain ⟨front, back, -, hlength, hrun⟩ :=
    nibbleParser_run hdata hoffset (le_of_nibbleParser hcount h)
  rw [hrun] at h ⊢
  simp only [Option.bind_eq_bind, Option.bind_eq_some_iff] at h ⊢
  obtain ⟨_, hpadding, middle, hmiddle, result, hresult, hout⟩ := h
  obtain ⟨hnibbles, hmiddle⟩ := StorageAddressTarget.append_nibbles hprevious (by omega) hmiddle
  exact ⟨hnibbles, _, hpadding, middle, hmiddle, result, hresult, hout⟩

/-- **Header and partial key of a node**: what the two circuits parse from the first block
the codec decodes from the node, for every length of the node that leaves room for it. -/
theorem headerNibbles_sound {descriptor : HeaderDescriptor} {kind : NodeKind}
    (hkind : descriptor.Describes kind) (hbits : descriptor.prefixLength ≤ 7) {data : List UInt8}
    (hdata : nodeDataBlockBytes ≤ data.length) {previous : List F}
    (hprevious : previous.length ≤ maxStorageAddressLengthInNibbles)
    {header : HeaderParserOutputTarget} {nibbles : NibbleParserOutputTarget}
    (hheader : headerParser ((data.take nodeDataBlockBytes).getD 0 0)
      ((data.take nodeDataBlockBytes).getD 1 0) descriptor = some header)
    (hnibbles : nibbleParser (data.take nodeDataBlockBytes) header.resultingOffset
      header.nibbleCount (StorageAddressTarget.ofNibbles previous) = some nibbles) :
    ∃ (key : List Nat) (offset : Nat), 0 < offset ∧ offset ≤ 34 ∧
      (previous ++ key.map Nat.cast).length ≤ maxStorageAddressLengthInNibbles ∧
      nibbles = ⟨(offset : F), StorageAddressTarget.ofNibbles (previous ++ key.map Nat.cast)⟩ ∧
      ∀ length, offset ≤ length → length ≤ data.length →
        ∃ count rest, decodeHeader (data.take length) = some (kind, count, rest) ∧
          decodePartial count rest = some (key, (data.take length).drop offset) := by
  have hblock : nodeDataBlockBytes = 128 := rfl
  have hmax : maxStorageAddressLengthInNibbles = 64 := rfl
  rw [getD_take (by decide), getD_take (by decide)] at hheader
  obtain ⟨count, size, rfl, hcount, hpos, hsize, hdecode⟩ := headerParser_sound hkind hbits hheader
  obtain ⟨hfit, hpadding, hlength, rfl⟩ := nibbleParser_sound hdata hsize hcount hprevious hnibbles
  refine ⟨_, size + (count + 1) / 2, by omega, by omega, hlength, rfl, ?_⟩
  intro length hroom hle
  have hnode : data.take length = data.getD 0 0 :: (data.take length).drop 1 := by
    have hcons : (data.take length).drop 0 = _ :=
      drop_eq_cons_getD (by rw [List.length_take]; omega)
    rwa [List.drop_zero, getD_take (by omega)] at hcons
  refine ⟨count, (data.take length).drop size, ?_, decodePartial_at hroom hle hpadding⟩
  rw [hnode]
  apply hdecode
  intro htwo
  rw [drop_eq_cons_getD (by rw [List.length_take]; omega), getD_take (by omega)]
  rfl

end GearBridges.Prover
