import GearBridges.Prover.BranchNodeData

/-!
# Prover.BranchParser

The circuits that parse an encoded branch node: its bitmap, the recursion over its
children and the branch as a whole.  What they accept is a walk over the children in the
padded data (`BranchWalk`) after a header, a partial key and a bitmap that the node codec
decodes (`branchParser_sound`).
-/

namespace GearBridges.Prover

open Goldilocks CyclicRecursion SubstrateTrie

def blake2DigestSize : Nat := 32

/-! ## bitmap_parser -/

structure BitmapParserOutputTarget where
  resultingOffset : F
  overallChildrenAmount : F
  childIndexInArray : F
  deriving DecidableEq

/-- The loop over the bits from number `bitNo` on: the amounts of children overall and
before the claimed one. -/
def bitmapLoop (claimedChildNodeNibble : F) : Nat → List Bool → F → F → Bool → Option (F × F)
  | _, [], overallChildAmount, childAmountBeforeClaimedChild, _ =>
      some (overallChildAmount, childAmountBeforeClaimedChild)
  | bitNo, bit :: bits, overallChildAmount, childAmountBeforeClaimedChild, beforeClaimedChild => do
      let childIsClaimed := decide ((bitNo : F) = claimedChildNodeNibble)
      guard (!(childIsClaimed && !bit))
      let beforeClaimedChild := beforeClaimedChild ^^ childIsClaimed
      bitmapLoop claimedChildNodeNibble (bitNo + 1) bits (overallChildAmount + (bit.toNat : F))
        (childAmountBeforeClaimedChild + ((beforeClaimedChild && bit).toNat : F)) beforeClaimedChild

/-- `bitmap_parser::define`. -/
def bitmapParser (firstNodeDataBlock : List UInt8) (readOffset claimedChildNodeNibble : F) :
    Option BitmapParserOutputTarget := do
  let firstByte ← ArrayTarget.randomRead firstNodeDataBlock readOffset
  let secondByte ← ArrayTarget.randomRead firstNodeDataBlock (readOffset + 1)
  let bits := byteBits firstByte ++ byteBits secondByte
  let (overallChildrenAmount, childIndexInArray) ← bitmapLoop claimedChildNodeNibble 0 bits 0 0 true
  return ⟨readOffset + 2, overallChildrenAmount, childIndexInArray⟩

/-! ## child_node_parser and child_node_array_parser -/

/-- `ChildNodeParser`: the resulting read offset.  The hash is compared as bytes. -/
def childNodeParser (nodeData : BranchNodeDataPaddedTarget) (readOffset : F)
    (assertChildHash : Bool) (claimedChildHash : List UInt8) : Option F := do
  let encodedLength ← nodeData.randomRead readOffset
  let encodedChildDataLength ← singleByteParser encodedLength
  let potentialChildHash ← nodeData.randomReadBytes blake2DigestSize (readOffset + 1)
  guard (assertChildHash = true → claimedChildHash = potentialChildHash)
  guard (assertChildHash = true → encodedChildDataLength = (blake2DigestSize : F))
  return readOffset + 1 + encodedChildDataLength

/-- Public inputs of the recursion of `ChildNodeArrayParser`. -/
structure ChildNodeArrayTarget where
  nodeData : BranchNodeDataPaddedTarget
  initialReadOffset : F
  readOffset : F
  overallChildrenAmount : F
  claimedChildIndexInArray : F
  claimedChildHash : List UInt8

/-- `Circuit::build` of the child node array parser. -/
def childLayer (condition : Bool) (inner outer : ChildNodeArrayTarget) : Prop :=
  ∃ resultingReadOffset,
    childNodeParser outer.nodeData
        (if condition then inner.readOffset else inner.initialReadOffset)
        (decide (inner.claimedChildIndexInArray =
          if condition then inner.overallChildrenAmount else 0))
        outer.claimedChildHash = some resultingReadOffset ∧
      outer = { inner with
        readOffset := resultingReadOffset
        overallChildrenAmount := (if condition then inner.overallChildrenAmount else 0) + 1 }

/-- `ChildNodeArrayParser`; its final read offset is the one of the last layer. -/
def ChildNodeArrayParser (pis : ChildNodeArrayTarget) : Prop := Layers childLayer pis

/-! ## BranchParser -/

structure BranchParserTarget where
  paddedNodeData : BranchNodeDataPaddedTarget
  nodeDataLength : F
  childNodeHash : List UInt8
  partialAddress : StorageAddressTarget
  resultingPartialAddress : StorageAddressTarget

/-- `BranchParser` with the claimed child nibble as a private target. -/
def BranchParser (claimedChildNodeNibble : F) (pis : BranchParserTarget) : Prop :=
  let firstNodeDataBlock := pis.paddedNodeData.bytes.take nodeDataBlockBytes
  rangeCheck claimedChildNodeNibble 4 ∧
    ∃ header nibbles bitmap,
      headerParser (firstNodeDataBlock.getD 0 0) (firstNodeDataBlock.getD 1 0)
        .branchWithoutValue = some header ∧
      nibbleParser firstNodeDataBlock header.resultingOffset header.nibbleCount pis.partialAddress =
        some nibbles ∧
      nibbles.partialAddress.append (.fromSingleNibbleTarget claimedChildNodeNibble) =
        some pis.resultingPartialAddress ∧
      bitmapParser firstNodeDataBlock nibbles.resultingOffset claimedChildNodeNibble = some bitmap ∧
      ChildNodeArrayParser ⟨pis.paddedNodeData, bitmap.resultingOffset, pis.nodeDataLength,
        bitmap.overallChildrenAmount, bitmap.childIndexInArray, pis.childNodeHash⟩

/-! ## what the bitmap parser accepts -/

theorem count_cons_natCast (bit : Bool) (bits : List Bool) :
    (((bit :: bits).count true : Nat) : F) = (bit.toNat : F) + ((bits.count true : Nat) : F) := by
  cases bit <;> simp [add_comm]

/-- After the claimed child only the children overall are counted. -/
theorem bitmapLoop_after {claimed : Nat} {bits : List Bool} {bitNo : Nat} (hafter : claimed < bitNo)
    (hlen : bitNo + bits.length ≤ 16) (overall before : F) :
    bitmapLoop (claimed : F) bitNo bits overall before false =
      some (overall + ((bits.count true : Nat) : F), before) := by
  induction bits generalizing bitNo overall with
  | nil => simp [bitmapLoop]
  | cons bit bits ih =>
      rw [List.length_cons] at hlen
      have hne : (bitNo : F) ≠ (claimed : F) := by
        rw [ne_eq, natCast_inj (by unfold modulus; omega) (by unfold modulus; omega)]
        omega
      simp only [bitmapLoop, decide_eq_false hne, Bool.false_and, Bool.not_false, guard, if_true,
        Option.pure_def, Option.bind_eq_bind, Option.bind_some, Bool.xor_false, Bool.toNat_false,
        Nat.cast_zero, add_zero]
      rw [ih (by omega) (by omega), count_cons_natCast, add_assoc]

/-- **What the bitmap loop computes**: the number of children and the number before the
claimed one, whose bit has to be set. -/
theorem bitmapLoop_eq {d : Nat} {bits : List Bool} (hd : d < bits.length) {bitNo : Nat}
    (hlen : bitNo + bits.length ≤ 16) (overall before : F) :
    bitmapLoop ((bitNo + d : Nat) : F) bitNo bits overall before true =
      if bits[d]? = some true then
        some (overall + ((bits.count true : Nat) : F),
          before + (((bits.take d).count true : Nat) : F))
      else none := by
  induction bits generalizing d bitNo overall before with
  | nil => cases hd
  | cons bit bits ih =>
      rw [List.length_cons] at hlen hd
      cases d with
      | zero =>
          have hnext : bitmapLoop (bitNo : F) (bitNo + 1) bits (overall + (bit.toNat : F)) before false =
              some (overall + (bit.toNat : F) + ((bits.count true : Nat) : F), before) :=
            bitmapLoop_after (Nat.lt_succ_self _) (by omega) _ _
          cases bit with
          | false => simp [bitmapLoop, guard]
          | true =>
              simp only [bitmapLoop, decide_true, Bool.not_true, Bool.and_false,
                Bool.not_false, guard, if_true, Option.pure_def, Option.bind_eq_bind,
                Option.bind_some, Bool.xor_true, Bool.false_and, Bool.toNat_false, Nat.cast_zero,
                add_zero]
              rw [hnext, List.getElem?_cons_zero, if_pos rfl, count_cons_natCast, add_assoc,
                List.take_zero, List.count_nil, Nat.cast_zero, add_zero]
      | succ d =>
          have hne : (bitNo : F) ≠ ((bitNo + (d + 1) : Nat) : F) := by
            rw [ne_eq, natCast_inj (by unfold modulus; omega) (by unfold modulus; omega)]
            omega
          have hshift : bitNo + (d + 1) = bitNo + 1 + d := by omega
          simp only [bitmapLoop, decide_eq_false hne, Bool.false_and, Bool.not_false, guard, if_true,
            Option.pure_def, Option.bind_eq_bind, Option.bind_some, Bool.xor_false, Bool.true_and]
          rw [hshift, ih (by omega) (by omega), List.getElem?_cons_succ, List.take_succ_cons,
            count_cons_natCast, count_cons_natCast, add_assoc, add_assoc]

/-- The bitmap circuit reads the bitmap at its offset. -/
theorem bitmapParser_eq {data : List UInt8} (hdata : nodeDataBlockBytes ≤ data.length)
    {offset : Nat} (hoffset : offset ≤ 64) {nibble : Nat} (hnibble : nibble < 16) :
    bitmapParser (data.take nodeDataBlockBytes) (offset : F) (nibble : F) =
      if (byteBits (data.getD offset 0) ++ byteBits (data.getD (offset + 1) 0))[nibble]? = some true
      then some ⟨((offset + 2 : Nat) : F),
        (((byteBits (data.getD offset 0) ++ byteBits (data.getD (offset + 1) 0)).count true : Nat) : F),
        ((((byteBits (data.getD offset 0) ++ byteBits (data.getD (offset + 1) 0)).take nibble).count
          true : Nat) : F)⟩
      else none := by
  have hblock : nodeDataBlockBytes = 128 := rfl
  have hfirst := randomRead_block hdata (i := offset) (by omega)
  have hsecond := randomRead_block hdata (i := offset + 1) (by omega)
  rw [Nat.cast_add, Nat.cast_one] at hsecond
  obtain ⟨bits, hbits⟩ : ∃ bits,
      bits = byteBits (data.getD offset 0) ++ byteBits (data.getD (offset + 1) 0) := ⟨_, rfl⟩
  have hlen : bits.length = 16 := by
    rw [hbits]
    simp [byteBits]
  have hloop : bitmapLoop ((0 + nibble : Nat) : F) 0 bits 0 0 true = _ :=
    bitmapLoop_eq (by omega) (by omega) 0 0
  simp only [zero_add] at hloop
  unfold bitmapParser
  simp only [hfirst, hsecond, Option.bind_eq_bind, Option.bind_some, ← hbits, hloop]
  split
  · rw [Option.bind_some, Nat.cast_add]
    rfl
  · rfl

/-! ## what the child node parsers accept -/

/-- The bytes that `childNodeParser` looks at are there: it reads a length and, whatever
the length is, the 32 bytes after it. -/
def ChildReadable (position : Nat) : Prop :=
  position + blake2DigestSize + maxBranchNodeDataBytes + 1 < 2 ^ 32

instance (position : Nat) : Decidable (ChildReadable position) := inferInstanceAs (Decidable (_ < _))

/-- The child at a position is the claimed one. -/
def IsClaimedChild (bytes : List UInt8) (position : Nat) (claimedChildHash : List UInt8) : Prop :=
  claimedChildHash = BranchNodeDataPaddedTarget.slice bytes (position + 1) blake2DigestSize ∧
    (bytes.getD position 0).toNat / 4 = blake2DigestSize

instance (bytes : List UInt8) (position : Nat) (claimedChildHash : List UInt8) :
    Decidable (IsClaimedChild bytes position claimedChildHash) := inferInstanceAs (Decidable (_ ∧ _))

theorem childNodeParser_eq (nodeData : BranchNodeDataPaddedTarget) {position : Nat}
    (hposition : position + 64 < 2 ^ 32) (assertChildHash : Bool) (claimedChildHash : List UInt8) :
    childNodeParser nodeData (position : F) assertChildHash claimedChildHash =
      if ChildReadable position ∧ (nodeData.bytes.getD position 0).toNat % 4 = 0 ∧
        (assertChildHash = true → IsClaimedChild nodeData.bytes position claimedChildHash)
      then some ((position + 1 + (nodeData.bytes.getD position 0).toNat / 4 : Nat) : F) else none := by
  have hsize : blake2DigestSize = 32 := rfl
  have hbyte := (nodeData.bytes.getD position 0).toNat_lt
  have hread := nodeData.randomReadBytes_natCast (i := position + 1) (n := blake2DigestSize)
    (by decide) (by omega)
  rw [Nat.cast_add, Nat.cast_one] at hread
  have hlength : (((nodeData.bytes.getD position 0).toNat / 4 : Nat) : F) = (blake2DigestSize : F) ↔
      (nodeData.bytes.getD position 0).toNat / 4 = blake2DigestSize :=
    natCast_inj (by unfold modulus; omega) (by decide)
  have hroom : position + 1 + blake2DigestSize + maxBranchNodeDataBytes < 2 ^ 32 ↔
      ChildReadable position := by
    unfold ChildReadable
    omega
  apply Option.ext
  intro result
  rw [childNodeParser, hread, nodeData.randomRead_natCast (by omega)]
  simp only [hroom, Option.bind_eq_bind, Option.bind_eq_some_iff, Option.guard_eq_some',
    Option.pure_def, Option.ite_none_right_eq_some, Option.some.injEq]
  constructor
  · rintro ⟨_, ⟨-, rfl⟩, length, hlen, _, ⟨hreadable, rfl⟩, -, hhash, -, hclaimed, rfl⟩
    rw [singleByteParser_natCast, Option.ite_none_right_eq_some, Option.some.injEq] at hlen
    obtain ⟨hmode, rfl⟩ := hlen
    refine ⟨⟨hreadable, hmode, fun hassert => ⟨hhash hassert, hlength.mp (hclaimed hassert)⟩⟩, ?_⟩
    push_cast
    rfl
  · rintro ⟨⟨hreadable, hmode, hclaimed⟩, rfl⟩
    have hsingle := singleByteParser_natCast (nodeData.bytes.getD position 0)
    rw [if_pos hmode] at hsingle
    have hfirst : position + maxBranchNodeDataBytes + 1 < 2 ^ 32 := by
      unfold ChildReadable at hreadable
      omega
    refine ⟨_, ⟨hfirst, rfl⟩, _, hsingle, _, ⟨hreadable, rfl⟩, (), fun hassert => (hclaimed hassert).1,
      (), fun hassert => hlength.mpr (hclaimed hassert).2, ?_⟩
    push_cast
    rfl

/-- The read offset after so many layers. -/
def childrenRead (nodeData : BranchNodeDataPaddedTarget) (claimedChildHash : List UInt8)
    (claimedChildIndexInArray initialReadOffset : F) : Nat → Option F
  | 0 => some initialReadOffset
  | n + 1 => do
      let readOffset ← childrenRead nodeData claimedChildHash claimedChildIndexInArray
        initialReadOffset n
      childNodeParser nodeData readOffset (decide (claimedChildIndexInArray = (n : F)))
        claimedChildHash

/-- The recursion runs the child parser on one child after the other. -/
theorem childNodeArrayParser_iff (pis : ChildNodeArrayTarget) :
    ChildNodeArrayParser pis ↔ ∃ n : Nat, 0 < n ∧ pis.overallChildrenAmount = (n : F) ∧
      childrenRead pis.nodeData pis.claimedChildHash pis.claimedChildIndexInArray
        pis.initialReadOffset n = some pis.readOffset := by
  constructor
  · intro h
    unfold ChildNodeArrayParser at h
    induction h with
    | @layer condition inner outer hlayer _ ih =>
        obtain ⟨resulting, hparser, rfl⟩ := hlayer
        cases condition with
        | false =>
            refine ⟨1, Nat.one_pos, by simp, ?_⟩
            simpa [childrenRead] using hparser
        | true =>
            obtain ⟨n, _, hn, hread⟩ := ih rfl
            refine ⟨n + 1, Nat.succ_pos n, by simp [hn], ?_⟩
            simp only [if_true] at hparser
            simp only [childrenRead, hread, Option.bind_eq_bind, Option.bind_some, ← hn, hparser]
  · rintro ⟨n, hn, hamount, hread⟩
    obtain ⟨data, initial, readOffset, amount, index, hash⟩ := pis
    simp only at hamount hread
    subst hamount
    unfold ChildNodeArrayParser
    induction n generalizing readOffset with
    | zero => cases hn
    | succ n ih =>
        simp only [childrenRead, Option.bind_eq_bind, Option.bind_eq_some_iff] at hread
        obtain ⟨previous, hprevious, hparser⟩ := hread
        cases n with
        | zero =>
            simp only [childrenRead, Option.some.injEq] at hprevious
            subst hprevious
            refine @Layers.layer _ _ false ⟨data, initial, initial, 0, index, hash⟩ _
              ⟨readOffset, ?_, ?_⟩ nofun
            · simpa using hparser
            · simp
        | succ n =>
            refine @Layers.layer _ _ true ⟨data, initial, previous, ((n + 1 : Nat) : F), index, hash⟩ _
              ⟨readOffset, ?_, ?_⟩ fun _ => ih (Nat.succ_pos n) previous hprevious
            · simpa using hparser
            · simp

/-- The next position is not far from the last one that could be read. -/
theorem childPosition_lt {bytes : List UInt8} {start n : Nat} (hstart : start ≤ 2 ^ 16)
    (h : ∀ k < n, ChildReadable (childPosition bytes start k)) :
    childPosition bytes start n + 64 < 2 ^ 32 := by
  cases n with
  | zero =>
      show start + 64 < 2 ^ 32
      omega
  | succ n =>
      have hlast := h n (Nat.lt_succ_self n)
      have hbyte := (bytes.getD (childPosition bytes start n) 0).toNat_lt
      have hmax : maxBranchNodeDataBytes = 640 := rfl
      unfold ChildReadable at hlast
      rw [childPosition_succ]
      omega

/-- **The walk over the children**: the layers visit the positions where the children
start, check the mode of every length and compare the claimed child. -/
theorem childrenRead_eq_some_iff {nodeData : BranchNodeDataPaddedTarget}
    {claimedChildHash : List UInt8} {claimedChildIndexInArray : F} {start : Nat}
    (hstart : start ≤ 2 ^ 16) {n : Nat} {readOffset : F} :
    childrenRead nodeData claimedChildHash claimedChildIndexInArray (start : F) n = some readOffset ↔
      (∀ k < n, ChildReadable (childPosition nodeData.bytes start k) ∧
        (nodeData.bytes.getD (childPosition nodeData.bytes start k) 0).toNat % 4 = 0 ∧
        (claimedChildIndexInArray = (k : F) →
          IsClaimedChild nodeData.bytes (childPosition nodeData.bytes start k) claimedChildHash)) ∧
      readOffset = (childPosition nodeData.bytes start n : F) := by
  induction n generalizing readOffset with
  | zero => simp [childrenRead, childPosition, eq_comm]
  | succ n ih =>
      simp only [childrenRead, Option.bind_eq_bind, Option.bind_eq_some_iff, ih]
      constructor
      · rintro ⟨_, ⟨hall, rfl⟩, hparser⟩
        have hlt := childPosition_lt hstart fun k hk => (hall k hk).1
        rw [childNodeParser_eq nodeData hlt, Option.ite_none_right_eq_some, Option.some.injEq,
          decide_eq_true_iff] at hparser
        obtain ⟨hlast, rfl⟩ := hparser
        refine ⟨fun k hk => ?_, rfl⟩
        by_cases hkn : k = n
        · rw [hkn]
          exact hlast
        · exact hall k (by omega)
      · rintro ⟨hall, rfl⟩
        have hprevious := fun k (hk : k < n) => hall k (Nat.lt_succ_of_lt hk)
        have hlt := childPosition_lt hstart fun k hk => (hprevious k hk).1
        refine ⟨_, ⟨hprevious, rfl⟩, ?_⟩
        rw [childNodeParser_eq nodeData hlt, if_pos, childPosition_succ]
        rw [decide_eq_true_iff]
        exact hall n (Nat.lt_succ_self n)

/-- There are not so many children that their number wraps around. -/
theorem eq_of_natCast_children {bytes : List UInt8} {start n count : Nat}
    (h : ∀ k < n, ChildReadable (childPosition bytes start k)) (hcount : count ≤ 16)
    (heq : (count : F) = (n : F)) : count = n := by
  have hn : n ≤ 2 ^ 32 := by
    by_contra hlarge
    have hreadable := h (2 ^ 32) (by omega)
    have hposition := childPosition_add_le bytes start 0 (2 ^ 32)
    rw [Nat.zero_add] at hposition
    unfold ChildReadable at hreadable
    omega
  exact (natCast_inj (by unfold modulus; omega) (by unfold modulus; omega)).mp heq

/-! ## what the branch parser accepts -/

/-- A walk over the children in the data a parser has of a node of `length` bytes: there
are as many children as the bitmap says, the last one ends where the node ends, and the
one at the claimed nibble is `child`. -/
structure BranchWalk (bytes : List UInt8) (bits : List Bool) (start nibble length : Nat)
    (child : List UInt8) : Prop where
  claimed : bits[nibble]? = some true
  mode : ∀ k < bits.count true, (bytes.getD (childPosition bytes start k) 0).toNat % 4 = 0
  final : childPosition bytes start (bits.count true) = length
  isClaimed : IsClaimedChild bytes (childPosition bytes start ((bits.take nibble).count true)) child

theorem count_take_lt {bits : List Bool} {i : Nat} (h : bits[i]? = some true) :
    (bits.take i).count true < bits.count true := by
  obtain ⟨hi, hget⟩ := List.getElem?_eq_some_iff.mp h
  have hsplit : bits = bits.take i ++ true :: bits.drop (i + 1) := by
    rw [← hget, ← List.drop_eq_getElem_cons hi, List.take_append_drop]
  conv_rhs => rw [hsplit]
  rw [List.count_append, List.count_cons_self]
  omega

/-- **What the branch circuit accepts**: a header, a partial key and a bitmap that the
codec decodes from the node, and a walk over the children in the padded data. -/
theorem branchParser_sound {data : List UInt8} {claimedChildNodeNibble : F}
    {pis : BranchParserTarget} {previous : List F}
    (hdata : pis.paddedNodeData.bytes = data.take maxBranchNodeDataBytes)
    (hprevious : previous.length ≤ maxStorageAddressLengthInNibbles)
    (hprev : pis.partialAddress = .ofNibbles previous)
    (h : BranchParser claimedChildNodeNibble pis) :
    ∃ (nibble length start : Nat) (key : List Nat) (bits : List Bool),
      nibble < 16 ∧ claimedChildNodeNibble = (nibble : F) ∧
      length < modulus ∧ pis.nodeDataLength = (length : F) ∧
      (previous ++ key.map Nat.cast ++ [(nibble : F)]).length ≤ maxStorageAddressLengthInNibbles ∧
      pis.resultingPartialAddress = .ofNibbles (previous ++ key.map Nat.cast ++ [(nibble : F)]) ∧
      BranchWalk pis.paddedNodeData.bytes bits start nibble length pis.childNodeHash ∧
      (length ≤ data.length →
        decodeBranchFront (data.take length) = some (key, bits, (data.take length).drop start)) := by
  have hblock : nodeDataBlockBytes = 128 := rfl
  have hmax : maxBranchNodeDataBytes = 640 := rfl
  have hdataLength : nodeDataBlockBytes ≤ data.length := by
    have hlen := pis.paddedNodeData.length_bytes
    rw [hdata, List.length_take] at hlen
    omega
  have hfirstBlock : pis.paddedNodeData.bytes.take nodeDataBlockBytes = data.take nodeDataBlockBytes := by
    rw [hdata, List.take_take, Nat.min_eq_left (by decide)]
  obtain ⟨hnibble, header, nibbles, bitmap, hheader, hnibbles, happend, hbitmap, hchildren⟩ := h
  rw [hfirstBlock] at hheader hnibbles hbitmap
  rw [hprev] at hnibbles
  obtain ⟨nibble, hnibbleLt, rfl⟩ : ∃ nibble : Nat, nibble < 16 ∧ claimedChildNodeNibble = (nibble : F) :=
    ⟨_, hnibble, (ZMod.natCast_zmod_val _).symm⟩
  obtain ⟨key, offset, hoffset, hoffsetLe, hkey, rfl, hdecode⟩ := headerNibbles_sound
    describes_branchWithoutValue (by decide) hdataLength hprevious hheader hnibbles
  rw [StorageAddressTarget.fromSingleNibbleTarget_eq] at happend
  obtain ⟨hfit, hresult⟩ := StorageAddressTarget.append_eq_some hkey (Nat.le_of_ble_eq_true rfl) happend
  rw [bitmapParser_eq hdataLength (by omega) hnibbleLt, Option.ite_none_right_eq_some,
    Option.some.injEq] at hbitmap
  obtain ⟨hclaimed, rfl⟩ := hbitmap
  obtain ⟨bits, hbits⟩ : ∃ bits,
      bits = byteBits (data.getD offset 0) ++ byteBits (data.getD (offset + 1) 0) := ⟨_, rfl⟩
  rw [← hbits] at hclaimed hchildren
  have hbitsLength : bits.length = 16 := by
    rw [hbits]
    simp [byteBits]
  have hcountLe : bits.count true ≤ 16 := hbitsLength ▸ List.count_le_length
  have hindex := count_take_lt hclaimed
  obtain ⟨n, hn, hamount, hread⟩ := (childNodeArrayParser_iff _).mp hchildren
  simp only at hamount hread
  obtain ⟨hall, hfinal⟩ := (childrenRead_eq_some_iff (by omega)).mp hread
  have hreadable := fun k hk => (hall k hk).1
  obtain rfl := eq_of_natCast_children hreadable hcountLe hamount
  have hlt := childPosition_lt (by omega) hreadable
  have hstart := childPosition_add_le pis.paddedNodeData.bytes (offset + 2) 0 (bits.count true)
  rw [Nat.zero_add] at hstart
  refine ⟨nibble, _, offset + 2, key, bits, hnibbleLt, rfl, by unfold modulus; omega, hfinal, ?_,
    hresult, ?_, ?_⟩
  · rw [List.length_append]
    exact hfit
  · exact {
      claimed := hclaimed
      mode := fun k hk => (hall k hk).2.1
      final := rfl
      isClaimed := (hall _ hindex).2.2 rfl }
  · intro hlength
    change offset + 2 + bits.count true ≤ _ at hstart
    obtain ⟨count, rest, hheaderDecode, hkeyDecode⟩ := hdecode _ (by omega) hlength
    have hmem : true ∈ bits := List.mem_of_getElem? hclaimed
    rw [hbits] at hmem
    have hbitmapDecode := decodeBitmap_at (by omega) hlength hmem
    rw [← hbits] at hbitmapDecode
    simp only [decodeBranchFront, hheaderDecode, Option.bind_eq_bind, Option.bind_some, guard,
      if_true, Option.pure_def, hkeyDecode, hbitmapDecode]

/-! ## the walk and the codec -/

/-- Where the child parser reads in a node: the lengths of all children, and the claimed
one. -/
def readPositions (node : List UInt8) (bits : List Bool) (start nibble : Nat) : List Nat :=
  (List.range (bits.count true)).map (childPosition node start) ++
    (List.range blake2DigestSize).map fun j =>
      childPosition node start ((bits.take nibble).count true) + 1 + j

/-- A reader that meets zeros past its data has read the bytes when they are zeros. -/
theorem slice_eq_iff {front node : List UInt8} (hagree : AgreesWithin front node) {i n : Nat}
    (hlen : i + n ≤ node.length) :
    BranchNodeDataPaddedTarget.slice front i n = (node.drop i).take n ↔
      ∀ j < n, front.length ≤ i + j → node.getD (i + j) 0 = 0 := by
  rw [← BranchNodeDataPaddedTarget.slice_eq_take hlen]
  unfold BranchNodeDataPaddedTarget.slice
  rw [List.map_inj_left]
  constructor
  · intro h j hj hpast
    rw [← h j (List.mem_range.mpr hj), List.getD_eq_default _ _ hpast]
  · intro h j hj
    rw [List.mem_range] at hj
    by_cases hin : i + j < front.length
    · exact hagree _ hin (by omega)
    · rw [h j hj (by omega), List.getD_eq_default _ _ (by omega)]

section

variable {front node child : List UInt8} {bits : List Bool} {start nibble : Nat} {key : List Nat}

theorem decodeBranch_eq_some_iff
    (hfront : decodeBranchFront node = some (key, bits, node.drop start)) {branch : NibbledBranch} :
    decodeBranch node = some branch ↔
      ∃ children, decodeChildren bits (node.drop start) = some (children, []) ∧
        branch = ⟨key, children⟩ := by
  simp only [decodeBranch, hfront, Option.bind_eq_bind, Option.bind_some, Option.bind_eq_some_iff,
    Option.guard_eq_some', Option.pure_def, Option.some.injEq, Prod.exists]
  constructor
  · rintro ⟨children, rest, hchildren, _, rfl, rfl⟩
    exact ⟨children, hchildren, rfl⟩
  · rintro ⟨children, hchildren, rfl⟩
    exact ⟨children, [], hchildren, (), rfl, rfl⟩

/-- The children of a node whose lengths the walk has read. -/
theorem BranchWalk.children {length : Nat} (h : BranchWalk front bits start nibble length child)
    (hlength : length = node.length)
    (hread : ∀ k < bits.count true, node.getD (childPosition front start k) 0 =
      front.getD (childPosition front start k) 0) :
    ∃ children, decodeChildren bits (node.drop start) = some (children, []) ∧
      children[nibble]? = some (some ((node.drop (childPosition front start
        ((bits.take nibble).count true) + 1)).take blake2DigestSize)) := by
  have hposition : ∀ k ≤ bits.count true, childPosition node start k = childPosition front start k :=
    fun k hk => childPosition_congr fun j hj => hread j (by omega)
  have hindex := count_take_lt h.claimed
  have hfinal := h.final
  have hmode : ∀ k, 0 ≤ k → k < 0 + bits.count true →
      (node.getD (childPosition node start k) 0).toNat % 4 = 0 := by
    intro k _ hk
    rw [Nat.zero_add] at hk
    rw [hposition k (Nat.le_of_lt hk), hread k hk]
    exact h.mode k hk
  have hend : childPosition node start (0 + bits.count true) ≤ node.length := by
    rw [Nat.zero_add, hposition _ (Nat.le_refl _)]
    omega
  obtain ⟨children, hchildren, hat⟩ := decodeChildren_of_positions bits hmode hend
  rw [Nat.zero_add, hposition _ (Nat.le_refl _), hfinal, hlength, List.drop_length] at hchildren
  have hclaimed := hat nibble h.claimed
  rw [Nat.zero_add, childAt, hposition _ (Nat.le_of_lt hindex), hread _ hindex,
    h.isClaimed.2] at hclaimed
  exact ⟨children, hchildren, hclaimed⟩

/-- **When the walk is right**: the node is the encoding of a branch with the claimed child
exactly if the bytes that were read past the padded data are zeros. -/
theorem BranchWalk.decodeBranch_iff
    (h : BranchWalk front bits start nibble node.length child) (hagree : AgreesWithin front node)
    (hfront : decodeBranchFront node = some (key, bits, node.drop start)) :
    (∃ branch, decodeBranch node = some branch ∧ branch.children[nibble]? = some (some child)) ↔
      ∀ position ∈ readPositions node bits start nibble, front.length ≤ position →
        node.getD position 0 = 0 := by
  have hindex := count_take_lt h.claimed
  have hlengths := lengths_agree_iff hagree (Nat.le_of_eq h.final)
  have hroom : childPosition front start ((bits.take nibble).count true) + 1 + blake2DigestSize ≤
      node.length := by
    have hnext := childPosition_add_le front start ((bits.take nibble).count true + 1)
      (bits.count true - ((bits.take nibble).count true + 1))
    rw [Nat.add_sub_cancel' hindex, childPosition_succ, h.isClaimed.2, h.final] at hnext
    omega
  have hslice := slice_eq_iff hagree hroom
  rw [← h.isClaimed.1] at hslice
  have hpositions : (∀ position ∈ readPositions node bits start nibble, front.length ≤ position →
      node.getD position 0 = 0) ↔
        (∀ k < bits.count true, front.length ≤ childPosition node start k →
          node.getD (childPosition node start k) 0 = 0) ∧
        ∀ j < blake2DigestSize,
          front.length ≤ childPosition node start ((bits.take nibble).count true) + 1 + j →
          node.getD (childPosition node start ((bits.take nibble).count true) + 1 + j) 0 = 0 := by
    simp only [readPositions, List.forall_mem_append, List.forall_mem_map, List.mem_range]
  rw [hpositions, ← hlengths]
  constructor
  · rintro ⟨branch, hbranch, hchild⟩
    obtain ⟨children, hchildren, rfl⟩ := (decodeBranch_eq_some_iff hfront).mp hbranch
    have hread : ∀ k < bits.count true, node.getD (childPosition front start k) 0 =
        front.getD (childPosition front start k) 0 := by
      intro k hk
      rw [← Nat.zero_add (bits.count true)] at hk
      have hfirst : decodeChildren bits (node.drop (childPosition front start 0)) =
          some (children, []) := hchildren
      exact positions_of_decodeChildren hagree bits (fun j _ hj => h.mode j (by omega))
        (by rw [Nat.zero_add, h.final]) hfirst k (Nat.zero_le k) hk
    have hposition : childPosition node start ((bits.take nibble).count true) =
        childPosition front start ((bits.take nibble).count true) :=
      childPosition_congr fun j hj => hread j (by omega)
    obtain ⟨_, hchildren', hclaimed⟩ := h.children rfl hread
    rw [hchildren, Option.some.injEq, Prod.mk.injEq] at hchildren'
    obtain ⟨rfl, -⟩ := hchildren'
    rw [hclaimed, Option.some.injEq, Option.some.injEq] at hchild
    refine ⟨hread, ?_⟩
    rw [hposition]
    exact hslice.mp hchild.symm
  · rintro ⟨hread, hzero⟩
    have hposition : childPosition node start ((bits.take nibble).count true) =
        childPosition front start ((bits.take nibble).count true) :=
      childPosition_congr fun j hj => hread j (by omega)
    rw [hposition] at hzero
    obtain ⟨children, hchildren, hclaimed⟩ := h.children rfl hread
    refine ⟨⟨key, children⟩, (decodeBranch_eq_some_iff hfront).mpr ⟨children, hchildren, rfl⟩, ?_⟩
    rw [hclaimed, ← hslice.mpr hzero]

end

end GearBridges.Prover
