import GearBridges.Lib.Rlp
import Mathlib.Data.List.Forall2

/-!
# EthereumCommon.RlpNodeCodec

The codec of the nodes of the Patricia trie (`ethereum-common/src/rlp_node_codec.rs`).  A node is
an RLP list: a key and a value or a child, or sixteen children and a value.  Decoding copies
nothing: it returns a plan with the ranges of the encoded node in which its parts lie.

The `rlp` crate and `trie_db` are third-party code: `RlpCrate` names what the codec calls of the
first, `RlpCrate.Correct` what it relies on.  `decode_encode` reads every node back.
-/

namespace GearBridges.RlpNodeCodec

open Rlp (Item encodeString encodeList stringHeader header maxLength)

/-! ## trie_db -/

abbrev Nibble := Fin 16

/-- A hash of Keccak. -/
abbrev Hash := { bytes : List UInt8 // bytes.length = 32 }

/-- A key: the first nibble when their number is odd (`padding` is 1), and the bytes of the
others. -/
structure Partial where
  padding : UInt8
  nibble : UInt8
  bytes : List UInt8

/-- Two nibbles a byte. -/
def packNibbles : List Nibble → List UInt8
  | a :: b :: rest => UInt8.ofNat (16 * a + b) :: packNibbles rest
  | _ => []

/-- `NibbleSlice::right` -/
def Partial.ofNibbles (key : List Nibble) : Partial :=
  if key.length % 2 = 1 then ⟨1, UInt8.ofNat (key.headD 0), packNibbles key.tail⟩
  else ⟨0, 0, packNibbles key⟩

/-- `NibbleSlice::right_iter` -/
def Partial.rightIter (self : Partial) : List UInt8 :=
  if self.padding > 0 then self.nibble :: self.bytes else self.bytes

/-- A child is stored under its hash, or in the node if it is shorter than a hash. -/
inductive ChildReference where
  | hash (hash : Hash)
  | inline (inlineData : Hash) (length : Nat)

structure Range where
  start : Nat
  stop : Nat
deriving DecidableEq

/-- `data[start..stop]`, which may panic. -/
def Range.slice (self : Range) (data : List UInt8) : Option (List UInt8) :=
  if self.start ≤ self.stop ∧ self.stop ≤ data.length then
    some ((data.drop self.start).take (self.stop - self.start))
  else none

/-- The nibbles of a range of bytes, behind the first `offset` ones. -/
structure NibbleSlicePlan where
  bytes : Range
  offset : Nat
deriving DecidableEq

inductive NodeHandlePlan where
  | hash (range : Range)
  | inline (range : Range)
deriving DecidableEq

inductive NodePlan where
  | empty
  | leaf (partialKey : NibbleSlicePlan) (value : Range)
  | extension (partialKey : NibbleSlicePlan) (child : NodeHandlePlan)
  | branch (value : Option Range) (children : List (Option NodeHandlePlan))
deriving DecidableEq

inductive NodeHandle where
  | hash (bytes : List UInt8)
  | inline (bytes : List UInt8)
deriving DecidableEq

inductive Node where
  | empty
  | leaf (key : List Nibble) (value : List UInt8)
  | extension (key : List Nibble) (child : NodeHandle)
  | branch (children : List (Option NodeHandle)) (value : Option (List UInt8))
deriving DecidableEq

def unpackByte (b : UInt8) : List Nibble := [Fin.ofNat 16 (b.toNat / 16), Fin.ofNat 16 b.toNat]

/-! ### plans -/

def NibbleSlicePlan.build (self : NibbleSlicePlan) (data : List UInt8) : Option (List Nibble) :=
  (self.bytes.slice data).map fun bytes => (bytes.flatMap unpackByte).drop self.offset

def NodeHandlePlan.build (data : List UInt8) : NodeHandlePlan → Option NodeHandle
  | .hash range => (range.slice data).map NodeHandle.hash
  | .inline range => (range.slice data).map NodeHandle.inline

/-- A child that may be absent. -/
def buildChild (data : List UInt8) : Option NodeHandlePlan → Option (Option NodeHandle)
  | none => some none
  | some plan => (plan.build data).map some

def buildValue (data : List UInt8) : Option Range → Option (Option (List UInt8))
  | none => some none
  | some range => (range.slice data).map some

/-- The node whose parts lie in the ranges; a range that is not in `data` panics. -/
def NodePlan.build (data : List UInt8) : NodePlan → Option Node
  | .empty => some .empty
  | .leaf partialKey value => do
      let key ← partialKey.build data
      let value ← value.slice data
      return .leaf key value
  | .extension partialKey child => do
      let key ← partialKey.build data
      let child ← child.build data
      return .extension key child
  | .branch value children => do
      let children ← children.mapM (buildChild data)
      let value ← buildValue data value
      return .branch children value

/-! ## the crate -/

inductive Prototype where
  | null
  | data (size : Nat)
  | list (count : Nat)
deriving DecidableEq

/-- What the codec calls of the `rlp` crate.  An `Rlp` is the bytes that it reads. -/
structure RlpCrate where
  DecoderError : Type
  custom : String → DecoderError
  RlpStream : Type
  newList : Nat → RlpStream
  appendIter : RlpStream → List UInt8 → RlpStream
  append : RlpStream → List UInt8 → RlpStream
  appendRaw : RlpStream → List UInt8 → (itemCount : Nat) → RlpStream
  appendEmptyData : RlpStream → RlpStream
  /-- `none` is a panic: the list is not finished, or does not fit into a vector. -/
  out : RlpStream → Option (List UInt8)
  prototype : List UInt8 → Except DecoderError Prototype
  atWithOffset : List UInt8 → Nat → Except DecoderError (List UInt8 × Nat)
  payloadInfo : List UInt8 → Except DecoderError Rlp.PayloadInfo
  isEmpty : List UInt8 → Bool
  isData : List UInt8 → Bool
  size : List UInt8 → Nat
  data : List UInt8 → Except DecoderError (List UInt8)

/-- What is appended to a stream. -/
inductive Appended where
  | iter (bytes : List UInt8)
  | value (bytes : List UInt8)
  | raw (bytes : List UInt8)
  | emptyData

def Appended.bytes : Appended → List UInt8
  | .iter bytes => encodeString bytes
  | .value bytes => encodeString bytes
  | .raw bytes => bytes
  | .emptyData => encodeString []

/-- The list of the items fits into a vector, which has at most `isize::MAX` bytes. -/
def Fits (items : List (List UInt8)) : Prop := (encodeList items.flatten).length < 2 ^ 63

instance (items : List (List UInt8)) : Decidable (Fits items) := inferInstanceAs (Decidable (_ < _))

namespace RlpCrate

def push (p : RlpCrate) (stream : p.RlpStream) : Appended → p.RlpStream
  | .iter bytes => p.appendIter stream bytes
  | .value bytes => p.append stream bytes
  | .raw bytes => p.appendRaw stream bytes 1
  | .emptyData => p.appendEmptyData stream

/-- The stream writes the list of the items appended, and the items of a list are found where
they are. -/
class Correct (p : RlpCrate) : Prop where
  out_eq : ∀ items : List Appended, Fits (items.map Appended.bytes) →
    p.out (items.foldl p.push (p.newList items.length)) =
      some (encodeList (items.map Appended.bytes).flatten)
  prototype_list : ∀ items, (∀ item ∈ items, Item item) → Fits items →
    p.prototype (encodeList items.flatten) = .ok (.list items.length)
  atWithOffset_list : ∀ items i (hi : i < items.length), (∀ item ∈ items, Item item) →
    Fits items → p.atWithOffset (encodeList items.flatten) i =
      .ok (items[i], (header 192 items.flatten.length).length + (items.take i).flatten.length)
  payloadInfo_string : ∀ s, s.length < 2 ^ 63 →
    p.payloadInfo (encodeString s) = .ok ⟨(stringHeader s).length, s.length⟩
  isEmpty_string : ∀ s, s.length < 2 ^ 63 → (p.isEmpty (encodeString s) = true ↔ s = [])
  isEmpty_list : ∀ payload, payload.length < 2 ^ 63 →
    (p.isEmpty (encodeList payload) = true ↔ payload = [])
  isData_string : ∀ s, s.length < 2 ^ 63 → p.isData (encodeString s) = true
  isData_list : ∀ payload, payload.length < 2 ^ 63 → p.isData (encodeList payload) = false
  size_string : ∀ s, s.length < 2 ^ 63 → p.size (encodeString s) = s.length
  data_string : ∀ s, s.length < 2 ^ 63 → p.data (encodeString s) = .ok s

end RlpCrate

/-! ## encoding -/

/-- Encode a partial value with an iterator as input. -/
def encodePartialInnerIter (firstByte : UInt8) (partialRemaining : List UInt8)
    (odd isLeaf : Bool) : List UInt8 :=
  let encodedType : UInt8 := if isLeaf then 0x20 else 0
  let first := if odd then 0x10 + encodedType + firstByte else encodedType
  first :: partialRemaining

def encodePartialIter (partialKey : Partial) (isLeaf : Bool) : List UInt8 :=
  encodePartialInnerIter partialKey.nibble partialKey.bytes (0 < partialKey.padding) isLeaf

def encodePartialFromIteratorIter (iter : List UInt8) (odd isLeaf : Bool) : List UInt8 :=
  if odd then encodePartialInnerIter (iter.headD 0) iter.tail odd isLeaf
  else encodePartialInnerIter 0 iter odd isLeaf

section encoding

variable (p : RlpCrate)

def leafNode (partialKey : Partial) (value : List UInt8) : Option (List UInt8) :=
  let stream := p.newList 2
  let stream := p.appendIter stream (encodePartialIter partialKey true)
  let stream := p.append stream value
  p.out stream

/-- A child is appended; the slice of `inline_data` may panic. -/
def appendChild (stream : p.RlpStream) : ChildReference → Option p.RlpStream
  | .hash hash => some (p.append stream hash.1)
  | .inline inlineData length =>
      (Range.slice ⟨0, length⟩ inlineData.1).map fun bytes => p.appendRaw stream bytes 1

def extensionNode (partialKey : List UInt8) (numberNibble : Nat) (childRef : ChildReference) :
    Option (List UInt8) := do
  let stream := p.newList 2
  let stream := p.appendIter stream
    (encodePartialFromIteratorIter partialKey (numberNibble % 2 > 0) false)
  let stream ← appendChild p stream childRef
  p.out stream

def branchNode (children : List (Option ChildReference)) (maybeValue : Option (List UInt8)) :
    Option (List UInt8) := do
  let stream ← children.foldlM (fun stream childRef =>
    match childRef with
    | some c => appendChild p stream c
    | none => some (p.appendEmptyData stream)) (p.newList 17)
  match maybeValue with
  | some value => p.out (p.append stream value)
  | none => p.out (p.appendEmptyData stream)

end encoding

/-! ## decoding -/

/-- How decoding fails. -/
inductive Failure (ε : Type) where
  | err (e : ε)
  | panic

/-- The operator `?`. -/
def lift {ε α : Type} : Except ε α → Except (Failure ε) α
  | .ok a => .ok a
  | .error e => .error (.err e)

@[simp] theorem lift_ok_bind {ε α β : Type} (a : α) (f : α → Except (Failure ε) β) :
    (lift (.ok a) >>= f) = f a := rfl

section decoding

variable (p : RlpCrate)

def decodeValueRange (rlp : List UInt8) (offset : Nat) :
    Except (Failure p.DecoderError) Range := do
  let payload ← lift (p.payloadInfo rlp)
  let offset := offset + payload.headerLen
  return ⟨offset, offset + payload.valueLen⟩

def decodeChildHandlePlan (childRlp : List UInt8) (offset : Nat) :
    Except (Failure p.DecoderError) NodeHandlePlan :=
  if p.isData childRlp && p.size childRlp == 32 then do
    let payload ← lift (p.payloadInfo childRlp)
    let offset := offset + payload.headerLen
    return .hash ⟨offset, offset + payload.valueLen⟩
  else return .inline ⟨offset, offset + childRlp.length⟩

/-- The key of `decode_plan`, and whether the node is a leaf.  Without a byte `data()?[0]`
panics. -/
def decodePartial (partialRlp : List UInt8) (partialOffset : Nat) :
    Except (Failure p.DecoderError) (NibbleSlicePlan × Bool) := do
  let partialPayload ← lift (p.payloadInfo partialRlp)
  let partialOffset := partialOffset + partialPayload.headerLen
  if p.isEmpty partialRlp then return (⟨⟨partialOffset, partialOffset⟩, 0⟩, false)
  else
    match ← lift (p.data partialRlp) with
    | [] => throw .panic
    | partialHeader :: _ =>
        let isLeaf := partialHeader &&& 32 == 32
        -- an odd key has only a nibble of header, an even one a full byte
        let (start, byteOffset) := if partialHeader &&& 16 == 16 then (0, 1) else (1, 0)
        return (⟨⟨partialOffset + start, partialOffset + partialPayload.valueLen⟩, byteOffset⟩,
          isLeaf)

/-- A child of a branch. -/
def decodeBranchChild (data : List UInt8) (i : Nat) :
    Except (Failure p.DecoderError) (Option NodeHandlePlan) := do
  let (childRlp, childOffset) ← lift (p.atWithOffset data i)
  if p.isEmpty childRlp then return none
  else some <$> decodeChildHandlePlan p childRlp childOffset

/-- The value of a branch. -/
def decodeBranchValue (data : List UInt8) : Except (Failure p.DecoderError) (Option Range) := do
  let (valueRlp, valueOffset) ← lift (p.atWithOffset data 16)
  if p.isEmpty valueRlp then return none
  else some <$> decodeValueRange p valueRlp valueOffset

def decodePlan (data : List UInt8) : Except (Failure p.DecoderError) NodePlan := do
  match ← lift (p.prototype data) with
  | .list 2 =>
      let (partialRlp, partialOffset) ← lift (p.atWithOffset data 0)
      let (partialKey, isLeaf) ← decodePartial p partialRlp partialOffset
      let (valueRlp, valueOffset) ← lift (p.atWithOffset data 1)
      if isLeaf then return .leaf partialKey (← decodeValueRange p valueRlp valueOffset)
      else return .extension partialKey (← decodeChildHandlePlan p valueRlp valueOffset)
  | .list 17 =>
      let children ← (List.range 16).mapM (decodeBranchChild p data)
      let value ← decodeBranchValue p data
      return .branch value children
  | .data 0 => return .empty
  | _ => throw (.err (p.custom "Rlp is not valid."))

end decoding

/-! ## what is read back -/

/-- A hash, or a complete list that is not empty and shorter than a hash. -/
def ChildReference.Valid : ChildReference → Prop
  | .hash _ => True
  | .inline inlineData length =>
      length < 32 ∧ ∃ payload, payload ≠ [] ∧ inlineData.1.take length = encodeList payload

/-- The child that a reference stands for. -/
def ChildReference.handle : ChildReference → NodeHandle
  | .hash h => .hash h.1
  | .inline inlineData length => .inline (inlineData.1.take length)

def ChildReference.appended : ChildReference → Appended
  | .hash h => .value h.1
  | .inline inlineData length => .raw (inlineData.1.take length)

def childAppended : Option ChildReference → Appended
  | some c => c.appended
  | none => .emptyData

def valueAppended : Option (List UInt8) → Appended
  | some value => .value value
  | none => .emptyData

/-- The items of the nodes. -/
def leafItems (key : List Nibble) (value : List UInt8) : List Appended :=
  [.iter (encodePartialIter (.ofNibbles key) true), .value value]

def extensionItems (key : List Nibble) (child : ChildReference) : List Appended :=
  [.iter (encodePartialFromIteratorIter (Partial.ofNibbles key).rightIter (key.length % 2 > 0)
    false), child.appended]

def branchItems (children : List (Option ChildReference)) (value : Option (List UInt8)) :
    List Appended := children.map childAppended ++ [valueAppended value]

/-- Decoding gives a plan whose ranges hold the parts of the node. -/
def Decodes (p : RlpCrate) (data : List UInt8) (node : Node) : Prop :=
  ∃ plan, decodePlan p data = .ok plan ∧ plan.build data = some node

/-! ## streams -/

section streams

variable {p : RlpCrate}

theorem appendChild_eq (stream : p.RlpStream) {c : ChildReference} (h : c.Valid) :
    appendChild p stream c = some (p.push stream c.appended) := by
  cases c with
  | hash hash => rfl
  | inline inlineData length =>
      have hle : length ≤ inlineData.1.length := by
        rw [inlineData.2]
        exact Nat.le_of_lt h.1
      rw [appendChild, Range.slice, if_pos ⟨Nat.zero_le _, hle⟩]
      rfl

theorem foldlM_children {children : List (Option ChildReference)}
    (h : ∀ c, some c ∈ children → c.Valid) (stream : p.RlpStream) :
    children.foldlM (fun stream childRef =>
        match childRef with
        | some c => appendChild p stream c
        | none => some (p.appendEmptyData stream)) stream =
      some ((children.map childAppended).foldl p.push stream) := by
  induction children generalizing stream with
  | nil => rfl
  | cons child children ih =>
      have ih := ih (fun c hc => h c (List.mem_cons_of_mem _ hc))
      cases child with
      | none => exact ih _
      | some c =>
          rw [List.foldlM_cons]
          simp only
          rw [appendChild_eq stream (h c List.mem_cons_self)]
          exact ih _

end streams

/-! ## keys -/

theorem unpackByte_pack (a b : Nibble) : unpackByte (UInt8.ofNat (16 * a + b)) = [a, b] := by
  have hbyte : (UInt8.ofNat (16 * a + b)).toNat = 16 * a + b :=
    UInt8.toNat_ofNat_of_lt' (show 16 * a.val + b.val < 256 by omega)
  rw [unpackByte, hbyte]
  congr 1
  · exact Fin.ext (by rw [Fin.val_ofNat]; omega)
  · congr 1
    exact Fin.ext (by rw [Fin.val_ofNat]; omega)

theorem flatMap_packNibbles {key : List Nibble} (h : key.length % 2 = 0) :
    (packNibbles key).flatMap unpackByte = key := by
  induction key using packNibbles.induct with
  | case1 a b rest ih =>
      have hrest : rest.length % 2 = 0 := by
        simp only [List.length_cons] at h
        omega
      rw [packNibbles, List.flatMap_cons, unpackByte_pack, ih hrest]
      rfl
  | case2 key hshort =>
      match key, hshort, h with
      | [], _, _ => rfl
      | [_], _, h => simp at h
      | a :: b :: rest, hshort, _ => exact absurd rfl (hshort a b rest)

theorem Partial.ofNibbles_even {key : List Nibble} (h : key.length % 2 = 0) :
    Partial.ofNibbles key = ⟨0, 0, packNibbles key⟩ := by
  rw [Partial.ofNibbles, if_neg (by omega)]

theorem Partial.ofNibbles_odd {n : Nibble} {rest : List Nibble} (h : rest.length % 2 = 0) :
    Partial.ofNibbles (n :: rest) = ⟨1, UInt8.ofNat n, packNibbles rest⟩ := by
  have hodd : (n :: rest).length % 2 = 1 := by
    rw [List.length_cons]
    omega
  rw [Partial.ofNibbles, if_pos hodd]
  rfl

/-- A key has pairs of nibbles, perhaps behind a nibble. -/
theorem even_or_odd (key : List Nibble) :
    key.length % 2 = 0 ∨ ∃ n rest, key = n :: rest ∧ rest.length % 2 = 0 := by
  cases key with
  | nil => exact .inl rfl
  | cons n rest =>
      rcases Nat.mod_two_eq_zero_or_one rest.length with h | h
      · exact .inr ⟨n, rest, rfl, h⟩
      · refine .inl ?_
        rw [List.length_cons]
        omega

/-- Both encoders of a key agree. -/
theorem encodePartialFromIteratorIter_rightIter (key : List Nibble) (isLeaf : Bool) :
    encodePartialFromIteratorIter (Partial.ofNibbles key).rightIter (key.length % 2 > 0) isLeaf =
      encodePartialIter (.ofNibbles key) isLeaf := by
  rcases even_or_odd key with h | ⟨n, rest, rfl, h⟩
  · rw [Partial.ofNibbles_even h, h]
    rfl
  · have hodd : (n :: rest).length % 2 = 1 := by
      rw [List.length_cons]
      omega
    rw [Partial.ofNibbles_odd h, hodd]
    rfl

/-! ## ranges -/

/-- The middle of three parts. -/
theorem slice_append (front middle back : List UInt8) :
    Range.slice ⟨front.length, front.length + middle.length⟩ (front ++ middle ++ back) =
      some middle := by
  have hle : front.length + middle.length ≤ (front ++ middle ++ back).length := by
    rw [List.length_append, List.length_append]
    exact Nat.le_add_right _ _
  rw [Range.slice, if_pos ⟨Nat.le_add_right _ _, hle⟩, List.append_assoc, List.drop_left,
    Nat.add_sub_cancel_left, List.take_left]

/-- A string that is an item lies behind its header. -/
theorem slice_encodeString (front s back : List UInt8) :
    Range.slice ⟨front.length + (stringHeader s).length,
        front.length + (stringHeader s).length + s.length⟩ (front ++ encodeString s ++ back) =
      some s := by
  have h := slice_append (front ++ stringHeader s) s back
  rwa [List.length_append, List.append_assoc front] at h

/-- The first byte of a string that is an item is not in its rest. -/
theorem slice_tail_encodeString (front : List UInt8) (b : UInt8) (s back : List UInt8) :
    Range.slice ⟨front.length + (stringHeader (b :: s)).length + 1,
        front.length + (stringHeader (b :: s)).length + (b :: s).length⟩
        (front ++ encodeString (b :: s) ++ back) = some s := by
  have h := slice_append (front ++ stringHeader (b :: s) ++ [b]) s back
  have hdata : front ++ stringHeader (b :: s) ++ [b] ++ s ++ back =
      front ++ encodeString (b :: s) ++ back := by
    simp [encodeString]
  rw [hdata] at h
  simpa [Nat.add_assoc, Nat.add_comm s.length] using h

section ranges

variable {p : RlpCrate} [RlpCrate.Correct p]

theorem decodeValueRange_encodeString {s : List UInt8} (hs : s.length < 2 ^ 63) (offset : Nat) :
    decodeValueRange p (encodeString s) offset =
      .ok ⟨offset + (stringHeader s).length, offset + (stringHeader s).length + s.length⟩ := by
  rw [decodeValueRange, RlpCrate.Correct.payloadInfo_string s hs]
  rfl

/-! ### children -/

theorem ChildReference.item {c : ChildReference} (h : c.Valid) : Item c.appended.bytes := by
  cases c with
  | hash hash => exact .string _ (by rw [hash.2]; decide)
  | inline inlineData length =>
      obtain ⟨hlength, payload, -, hpayload⟩ := h
      have hle := congrArg List.length hpayload
      rw [encodeList, List.length_append, List.length_take] at hle
      rw [ChildReference.appended, Appended.bytes, hpayload]
      refine .list _ ?_
      unfold maxLength
      omega

theorem isEmpty_child {c : ChildReference} (h : c.Valid) :
    p.isEmpty c.appended.bytes = false := by
  rw [Bool.eq_false_iff]
  intro hempty
  cases c with
  | hash hash =>
      have hlength := hash.2
      rw [(RlpCrate.Correct.isEmpty_string hash.1 (by rw [hlength]; decide)).mp hempty] at hlength
      contradiction
  | inline inlineData length =>
      obtain ⟨hlength, payload, hne, hpayload⟩ := h
      have hle := congrArg List.length hpayload
      rw [encodeList, List.length_append, List.length_take] at hle
      rw [ChildReference.appended, Appended.bytes, hpayload,
        RlpCrate.Correct.isEmpty_list _ (by omega)] at hempty
      exact hne hempty

/-- The plan of a child that is an item of `data`. -/
theorem decodeChildHandlePlan_spec {c : ChildReference} (h : c.Valid) (front back : List UInt8) :
    ∃ plan, decodeChildHandlePlan p c.appended.bytes front.length = .ok plan ∧
      plan.build (front ++ c.appended.bytes ++ back) = some c.handle := by
  cases c with
  | hash hash =>
      have hlength : hash.1.length < 2 ^ 63 := by rw [hash.2]; decide
      have hsize : p.size (encodeString hash.1) = 32 := by
        rw [RlpCrate.Correct.size_string _ hlength, hash.2]
      refine ⟨.hash ⟨front.length + (stringHeader hash.1).length,
        front.length + (stringHeader hash.1).length + hash.1.length⟩, ?_, ?_⟩
      · rw [ChildReference.appended, Appended.bytes, decodeChildHandlePlan,
          RlpCrate.Correct.isData_string _ hlength, hsize,
          RlpCrate.Correct.payloadInfo_string _ hlength]
        rfl
      · rw [ChildReference.appended, Appended.bytes, NodeHandlePlan.build, slice_encodeString]
        rfl
  | inline inlineData length =>
      obtain ⟨hlength, payload, -, hpayload⟩ := h
      have hle := congrArg List.length hpayload
      rw [encodeList, List.length_append, List.length_take] at hle
      have hdata : p.isData (inlineData.1.take length) = false := by
        rw [hpayload]
        exact RlpCrate.Correct.isData_list _ (by omega)
      refine ⟨.inline ⟨front.length, front.length + (inlineData.1.take length).length⟩, ?_, ?_⟩
      · rw [ChildReference.appended, Appended.bytes, decodeChildHandlePlan, hdata]
        rfl
      · rw [ChildReference.appended, Appended.bytes, NodeHandlePlan.build, slice_append]
        rfl

/-! ### keys -/

theorem leaf_flags (isLeaf : Bool) :
    ((if isLeaf then 0x20 else 0 : UInt8) &&& 32 == 32) = isLeaf ∧
      ((if isLeaf then 0x20 else 0 : UInt8) &&& 16 == 16) = false := by
  cases isLeaf <;> decide

theorem odd_flags (isLeaf : Bool) (n : Nibble) :
    ((0x10 + (if isLeaf then 0x20 else 0) + UInt8.ofNat n : UInt8) &&& 32 == 32) = isLeaf ∧
      ((0x10 + (if isLeaf then 0x20 else 0) + UInt8.ofNat n : UInt8) &&& 16 == 16) = true ∧
      unpackByte (0x10 + (if isLeaf then 0x20 else 0) + UInt8.ofNat n) =
        [if isLeaf then 3 else 1, n] := by
  revert n
  cases isLeaf <;> decide

theorem decodePartial_encodeString {b : UInt8} {bytes : List UInt8} {odd isLeaf : Bool}
    (hs : (b :: bytes).length < 2 ^ 63) (hleaf : (b &&& 32 == 32) = isLeaf)
    (hodd : (b &&& 16 == 16) = odd) (offset : Nat) :
    decodePartial p (encodeString (b :: bytes)) offset =
      .ok (⟨⟨offset + (stringHeader (b :: bytes)).length + (if odd then 0 else 1),
        offset + (stringHeader (b :: bytes)).length + (b :: bytes).length⟩,
        if odd then 1 else 0⟩, isLeaf) := by
  have hempty : p.isEmpty (encodeString (b :: bytes)) = false := by
    rw [Bool.eq_false_iff]
    intro h
    exact List.cons_ne_nil _ _ ((RlpCrate.Correct.isEmpty_string _ hs).mp h)
  rw [decodePartial, RlpCrate.Correct.payloadInfo_string _ hs, lift_ok_bind, hempty,
    RlpCrate.Correct.data_string _ hs]
  simp only [Bool.false_eq_true, if_false, lift_ok_bind, hleaf, hodd]
  cases odd <;> rfl

/-- The plan of a key that is an item of `data`. -/
theorem decodePartial_spec (key : List Nibble) (isLeaf : Bool) (front back : List UInt8)
    (hs : (encodePartialIter (.ofNibbles key) isLeaf).length < 2 ^ 63) :
    ∃ plan, decodePartial p (encodeString (encodePartialIter (.ofNibbles key) isLeaf))
        front.length = .ok (plan, isLeaf) ∧
      plan.build (front ++ encodeString (encodePartialIter (.ofNibbles key) isLeaf) ++ back) =
        some key := by
  rcases even_or_odd key with h | ⟨n, rest, rfl, h⟩
  · obtain ⟨hleaf, hodd⟩ := leaf_flags isLeaf
    have hencoded : encodePartialIter (.ofNibbles key) isLeaf =
        (if isLeaf then 0x20 else 0) :: packNibbles key := by
      rw [Partial.ofNibbles_even h]
      rfl
    rw [hencoded] at hs ⊢
    refine ⟨_, decodePartial_encodeString hs hleaf hodd _, ?_⟩
    simp only [NibbleSlicePlan.build, Bool.false_eq_true, if_false]
    rw [slice_tail_encodeString, Option.map_some, List.drop_zero, flatMap_packNibbles h]
  · obtain ⟨hleaf, hodd, hunpack⟩ := odd_flags isLeaf n
    have hencoded : encodePartialIter (.ofNibbles (n :: rest)) isLeaf =
        (0x10 + (if isLeaf then 0x20 else 0) + UInt8.ofNat n) :: packNibbles rest := by
      rw [Partial.ofNibbles_odd h]
      rfl
    rw [hencoded] at hs ⊢
    refine ⟨_, decodePartial_encodeString hs hleaf hodd _, ?_⟩
    simp only [NibbleSlicePlan.build, if_true, Nat.add_zero]
    rw [slice_encodeString, Option.map_some, List.flatMap_cons, hunpack, flatMap_packNibbles h]
    rfl

/-! ### items -/

theorem Fits.length_lt {items : List (List UInt8)} (h : Fits items) {item : List UInt8}
    (hmem : item ∈ items) : item.length < 2 ^ 63 := by
  have hle : item.length ≤ items.flatten.length :=
    (List.sublist_flatten_of_mem hmem).length_le
  unfold Fits at h
  rw [encodeList, List.length_append] at h
  omega

theorem length_le_length_encodeString (s : List UInt8) : s.length ≤ (encodeString s).length := by
  rw [encodeString, List.length_append]
  exact Nat.le_add_left _ _

/-- An item of a list, where it is found. -/
theorem atWithOffset_encodeList {items : List (List UInt8)} (hitems : ∀ item ∈ items, Item item)
    (hfits : Fits items) {i : Nat} (hi : i < items.length) :
    ∃ front back, encodeList items.flatten = front ++ items[i] ++ back ∧
      p.atWithOffset (encodeList items.flatten) i = .ok (items[i], front.length) := by
  refine ⟨header 192 items.flatten.length ++ (items.take i).flatten, (items.drop (i + 1)).flatten,
    ?_, ?_⟩
  · have hsplit : items = items.take i ++ items[i] :: items.drop (i + 1) := by
      rw [List.getElem_cons_drop, List.take_append_drop]
    have hflatten := congrArg List.flatten hsplit
    rw [List.flatten_append, List.flatten_cons] at hflatten
    rw [encodeList, List.append_assoc, List.append_assoc, ← hflatten]
  · rw [RlpCrate.Correct.atWithOffset_list items i hi hitems hfits, List.length_append]

end ranges

/-! ## nodes -/

section nodes

variable {p : RlpCrate} [RlpCrate.Correct p]

theorem childAppended_item {children : List (Option ChildReference)}
    (h : ∀ c, some c ∈ children → c.Valid) {child : Option ChildReference}
    (hmem : child ∈ children) : Item (childAppended child).bytes := by
  cases child with
  | none => exact .string [] (by decide)
  | some c => exact ChildReference.item (h c hmem)

/-- A list of two items is read as a key, and a value or a child. -/
theorem decodePlan_pair {key : List Nibble} {isLeaf : Bool} {encoded item data : List UInt8}
    (hencoded : encodePartialIter (.ofNibbles key) isLeaf = encoded) (hitem : Item item)
    (hfits : Fits [encodeString encoded, item])
    (hdata : encodeList [encodeString encoded, item].flatten = data) :
    ∃ plan front back, plan.build data = some key ∧ data = front ++ item ++ back ∧
      decodePlan p data =
        if isLeaf then NodePlan.leaf plan <$> decodeValueRange p item front.length
        else NodePlan.extension plan <$> decodeChildHandlePlan p item front.length := by
  have hs : encoded.length < 2 ^ 63 :=
    Nat.lt_of_le_of_lt (length_le_length_encodeString _) (hfits.length_lt List.mem_cons_self)
  have hitems : ∀ x ∈ [encodeString encoded, item], Item x := by
    have hkey : Item (encodeString encoded) := .string _ (by unfold maxLength; omega)
    simpa using ⟨hkey, hitem⟩
  have hproto : p.prototype data = .ok (.list 2) :=
    hdata ▸ RlpCrate.Correct.prototype_list _ hitems hfits
  obtain ⟨front, back, hsplit, hat⟩ := atWithOffset_encodeList (p := p) hitems hfits
    (show 0 < 2 by decide)
  obtain ⟨front', back', hsplit', hat'⟩ := atWithOffset_encodeList (p := p) hitems hfits
    (show 1 < 2 by decide)
  rw [hdata] at hsplit hat hsplit' hat'
  subst hencoded
  obtain ⟨plan, hplan, hbuild⟩ := decodePartial_spec (p := p) key isLeaf front back hs
  refine ⟨plan, front', back', hsplit ▸ hbuild, hsplit', ?_⟩
  simp only [decodePlan, hproto, hat, hat', lift_ok_bind, List.getElem_cons_zero,
    List.getElem_cons_succ, hplan]
  cases isLeaf <;> rfl

theorem decodes_leafNode (key : List Nibble) (value : List UInt8)
    (hfits : Fits ((leafItems key value).map Appended.bytes)) :
    ∃ data, leafNode p (.ofNibbles key) value = some data ∧ Decodes p data (.leaf key value) := by
  have hvalue : (encodeString value).length < 2 ^ 63 :=
    hfits.length_lt (List.mem_cons_of_mem _ List.mem_cons_self)
  have hs : value.length < 2 ^ 63 :=
    Nat.lt_of_le_of_lt (length_le_length_encodeString value) hvalue
  refine ⟨_, RlpCrate.Correct.out_eq (leafItems key value) hfits, ?_⟩
  generalize hdata : encodeList ((leafItems key value).map Appended.bytes).flatten = data
  obtain ⟨plan, front, back, hbuild, rfl, hplan⟩ := decodePlan_pair (p := p) rfl
    (.string value (by unfold maxLength; omega)) hfits hdata
  rw [if_pos rfl, decodeValueRange_encodeString hs] at hplan
  refine ⟨_, hplan, ?_⟩
  rw [NodePlan.build, hbuild, slice_encodeString]
  rfl

theorem decodes_extensionNode (key : List Nibble) {child : ChildReference} (hchild : child.Valid)
    (hfits : Fits ((extensionItems key child).map Appended.bytes)) :
    ∃ data, extensionNode p (Partial.ofNibbles key).rightIter key.length child = some data ∧
      Decodes p data (.extension key child.handle) := by
  have hkey := encodePartialFromIteratorIter_rightIter key false
  have hout : extensionNode p (Partial.ofNibbles key).rightIter key.length child =
      some (encodeList ((extensionItems key child).map Appended.bytes).flatten) := by
    rw [extensionNode]
    simp only [appendChild_eq _ hchild]
    exact RlpCrate.Correct.out_eq (extensionItems key child) hfits
  refine ⟨_, hout, ?_⟩
  generalize hdata : encodeList ((extensionItems key child).map Appended.bytes).flatten = data
  obtain ⟨plan, front, back, hbuild, rfl, hplan⟩ := decodePlan_pair (p := p) hkey.symm
    (ChildReference.item hchild) hfits hdata
  obtain ⟨childPlan, hchildPlan, hchildBuild⟩ :=
    decodeChildHandlePlan_spec (p := p) hchild front back
  rw [if_neg (by decide), hchildPlan] at hplan
  refine ⟨_, hplan, ?_⟩
  rw [NodePlan.build, hbuild, hchildBuild]
  rfl

/-! ### branches -/

/-- When every call of a loop gives something that is related to its input, so does the loop. -/
theorem mapM_forall₂ {α β ε : Type} {R : α → β → Prop} {f : α → Except ε β} {l : List α}
    (h : ∀ a ∈ l, ∃ b, f a = .ok b ∧ R a b) : ∃ bs, l.mapM f = .ok bs ∧ List.Forall₂ R l bs := by
  induction l with
  | nil => exact ⟨[], rfl, .nil⟩
  | cons a l ih =>
      obtain ⟨b, hb, hR⟩ := h a List.mem_cons_self
      obtain ⟨bs, hbs, hRs⟩ := ih fun a ha => h a (List.mem_cons_of_mem _ ha)
      refine ⟨b :: bs, ?_, .cons hR hRs⟩
      rw [List.mapM_cons, hb, hbs]
      rfl

/-- The children are built from their plans. -/
theorem mapM_buildChild {α : Type} {data : List UInt8} {g : α → Option NodeHandle} {l : List α}
    {plans : List (Option NodeHandlePlan)}
    (h : List.Forall₂ (fun a plan => buildChild data plan = some (g a)) l plans) :
    plans.mapM (buildChild data) = some (l.map g) := by
  induction h with
  | nil => rfl
  | cons hplan _ ih =>
      rw [List.mapM_cons, hplan, ih]
      rfl

section branch

variable {items : List (List UInt8)} {children : List (Option ChildReference)}
  {value : Option (List UInt8)}

/-- An item of a branch that is a child. -/
theorem decodeBranchChild_spec (hitems : ∀ item ∈ items, Item item) (hfits : Fits items)
    {child : Option ChildReference} (hchild : ∀ c, child = some c → c.Valid) {i : Nat}
    (hi : i < items.length) (hitem : items[i] = (childAppended child).bytes) :
    ∃ plan, decodeBranchChild p (encodeList items.flatten) i = .ok plan ∧
      buildChild (encodeList items.flatten) plan = some (child.map ChildReference.handle) := by
  obtain ⟨front, back, hsplit, hat⟩ := atWithOffset_encodeList (p := p) hitems hfits hi
  rw [hitem] at hsplit hat
  cases child with
  | none =>
      have hempty : p.isEmpty (encodeString []) = true :=
        (RlpCrate.Correct.isEmpty_string [] (by decide)).mpr rfl
      refine ⟨none, ?_, rfl⟩
      rw [decodeBranchChild, hat, lift_ok_bind]
      simp only [childAppended, Appended.bytes, hempty, if_true]
      rfl
  | some c =>
      have hempty := isEmpty_child (p := p) (hchild c rfl)
      obtain ⟨plan, hplan, hbuild⟩ := decodeChildHandlePlan_spec (p := p) (hchild c rfl) front back
      refine ⟨some plan, ?_, ?_⟩
      · rw [decodeBranchChild, hat, lift_ok_bind]
        simp only [childAppended, hempty, Bool.false_eq_true, if_false, hplan]
        rfl
      · rw [hsplit]
        simp only [childAppended, buildChild, hbuild]
        rfl

theorem decodeBranchValue_spec (hitems : ∀ item ∈ items, Item item) (hfits : Fits items)
    (hi : 16 < items.length) (hitem : items[16] = (valueAppended value).bytes)
    (hvalue : value ≠ some []) :
    ∃ range, decodeBranchValue p (encodeList items.flatten) = .ok range ∧
      buildValue (encodeList items.flatten) range = some value := by
  obtain ⟨front, back, hsplit, hat⟩ := atWithOffset_encodeList (p := p) hitems hfits hi
  rw [hitem] at hsplit hat
  cases value with
  | none =>
      have hempty : p.isEmpty (encodeString []) = true :=
        (RlpCrate.Correct.isEmpty_string [] (by decide)).mpr rfl
      refine ⟨none, ?_, rfl⟩
      rw [decodeBranchValue, hat, lift_ok_bind]
      simp only [valueAppended, Appended.bytes, hempty, if_true]
      rfl
  | some value =>
      have hs : value.length < 2 ^ 63 := by
        have hmem : items[16] ∈ items := List.getElem_mem hi
        rw [hitem] at hmem
        exact Nat.lt_of_le_of_lt (length_le_length_encodeString value) (hfits.length_lt hmem)
      have hempty : p.isEmpty (encodeString value) = false := by
        rw [Bool.eq_false_iff]
        intro h
        exact hvalue (congrArg some ((RlpCrate.Correct.isEmpty_string value hs).mp h))
      refine ⟨some ⟨front.length + (stringHeader value).length,
        front.length + (stringHeader value).length + value.length⟩, ?_, ?_⟩
      · rw [decodeBranchValue, hat, lift_ok_bind]
        simp only [valueAppended, Appended.bytes, hempty, Bool.false_eq_true, if_false,
          decodeValueRange_encodeString hs]
        rfl
      · rw [hsplit, buildValue]
        simp only [valueAppended, Appended.bytes, slice_encodeString]
        rfl

/-- Every item of a branch is one. -/
theorem branchItems_item (hchildren : ∀ c, some c ∈ children → c.Valid)
    (hfits : Fits ((branchItems children value).map Appended.bytes)) :
    ∀ item ∈ (branchItems children value).map Appended.bytes, Item item := by
  have hvalue : Item (valueAppended value).bytes := by
    cases value with
    | none => exact .string [] (by decide)
    | some value =>
        have hmem : encodeString value ∈
            (branchItems children (some value)).map Appended.bytes :=
          List.mem_map.mpr ⟨.value value, List.mem_append_right _ List.mem_cons_self, rfl⟩
        have hs := Nat.lt_of_le_of_lt (length_le_length_encodeString value) (hfits.length_lt hmem)
        exact .string value (by unfold maxLength; omega)
  intro item hmem
  rw [branchItems, List.map_append, List.mem_append, List.map_map] at hmem
  rcases hmem with hmem | hmem
  · obtain ⟨child, hchild, rfl⟩ := List.mem_map.mp hmem
    exact childAppended_item hchildren hchild
  · rw [List.map_singleton, List.mem_singleton] at hmem
    exact hmem ▸ hvalue

/-- The sixteen children are read where they are. -/
theorem decodeBranchChildren_spec (hlength : children.length = 16)
    (hchildren : ∀ c, some c ∈ children → c.Valid)
    (hdef : (branchItems children value).map Appended.bytes = items) (hfits : Fits items)
    (hitems : ∀ item ∈ items, Item item) :
    ∃ plans, (List.range 16).mapM (decodeBranchChild p (encodeList items.flatten)) = .ok plans ∧
      plans.mapM (buildChild (encodeList items.flatten)) =
        some (children.map (Option.map ChildReference.handle)) := by
  have hchild : ∀ i ∈ List.range 16, ∃ plan,
      decodeBranchChild p (encodeList items.flatten) i = .ok plan ∧
        buildChild (encodeList items.flatten) plan =
          some ((children.getD i none).map ChildReference.handle) := by
    intro i hi
    have hi : i < children.length := by rw [hlength]; exact List.mem_range.mp hi
    have hin : i < items.length := by
      rw [← hdef, List.length_map, branchItems, List.length_append, List.length_map]
      omega
    have hitem : items[i] = (childAppended children[i]).bytes := by
      simp [← hdef, branchItems, List.getElem_append_left, hi]
    rw [List.getD_eq_getElem?_getD, List.getElem?_eq_getElem hi, Option.getD_some]
    exact decodeBranchChild_spec hitems hfits
      (fun c hc => hchildren c (hc ▸ List.getElem_mem hi)) hin hitem
  obtain ⟨plans, hplans, hrelated⟩ := mapM_forall₂ hchild
  refine ⟨plans, hplans, ?_⟩
  rw [mapM_buildChild hrelated]
  congr 1
  apply List.ext_getElem
  · rw [List.length_map, List.length_map, List.length_range, hlength]
  · intro i hi hi'
    rw [List.length_map] at hi'
    simp [List.getElem?_eq_getElem hi']

theorem decodes_branchNode (hlength : children.length = 16)
    (hchildren : ∀ c, some c ∈ children → c.Valid) (hvalue : value ≠ some [])
    (hfits : Fits ((branchItems children value).map Appended.bytes)) :
    ∃ data, branchNode p children value = some data ∧
      Decodes p data (.branch (children.map (Option.map ChildReference.handle)) value) := by
  have hcount : (branchItems children value).length = 17 := by
    rw [branchItems, List.length_append, List.length_map, hlength]
    rfl
  have hout : branchNode p children value =
      some (encodeList ((branchItems children value).map Appended.bytes).flatten) := by
    have hout := RlpCrate.Correct.out_eq (p := p) (branchItems children value) hfits
    rw [hcount, branchItems, List.foldl_append] at hout
    rw [branchNode, foldlM_children hchildren]
    cases value <;> exact hout
  refine ⟨_, hout, ?_⟩
  have hitems := branchItems_item hchildren hfits
  generalize hdef : (branchItems children value).map Appended.bytes = items at hfits hitems
  have hlen : items.length = 17 := by rw [← hdef, List.length_map, hcount]
  have hproto : p.prototype (encodeList items.flatten) = .ok (.list 17) :=
    hlen ▸ RlpCrate.Correct.prototype_list items hitems hfits
  obtain ⟨plans, hplans, hplansBuild⟩ :=
    decodeBranchChildren_spec (p := p) hlength hchildren hdef hfits hitems
  have hin : 16 < items.length := by omega
  have hlast : items[16] = (valueAppended value).bytes := by
    simp [← hdef, branchItems, List.getElem_append_right, hlength]
  obtain ⟨range, hrange, hrangeBuild⟩ :=
    decodeBranchValue_spec (p := p) hitems hfits hin hlast hvalue
  refine ⟨.branch range plans, ?_, ?_⟩
  · simp only [decodePlan, hproto, lift_ok_bind, hplans, hrange]
    rfl
  · rw [NodePlan.build, hplansBuild]
    simp only [hrangeBuild]
    rfl

end branch

end nodes

/-- **Nodes are read back**: the ranges of the plan of an encoded leaf hold its key and its value,
those of an extension its key and its child, and those of a branch its children and its value. -/
theorem decode_encode (p : RlpCrate) [RlpCrate.Correct p] :
    (∀ key value, Fits ((leafItems key value).map Appended.bytes) →
      ∃ data, leafNode p (.ofNibbles key) value = some data ∧
        Decodes p data (.leaf key value)) ∧
    (∀ key (child : ChildReference), child.Valid →
      Fits ((extensionItems key child).map Appended.bytes) →
      ∃ data, extensionNode p (Partial.ofNibbles key).rightIter key.length child = some data ∧
        Decodes p data (.extension key child.handle)) ∧
    ∀ (children : List (Option ChildReference)) (value : Option (List UInt8)),
      children.length = 16 → (∀ c, some c ∈ children → c.Valid) → value ≠ some [] →
      Fits ((branchItems children value).map Appended.bytes) →
      ∃ data, branchNode p children value = some data ∧
        Decodes p data (.branch (children.map (Option.map ChildReference.handle)) value) :=
  ⟨decodes_leafNode, fun key _ => decodes_extensionNode key,
    fun _ _ => decodes_branchNode⟩

/-! ## a run -/

/-- The crate over the library's decoder. -/
def crate : RlpCrate where
  DecoderError := String
  custom := id
  RlpStream := Nat × List (List UInt8)
  newList n := (n, [])
  appendIter stream bytes := (stream.1, stream.2 ++ [encodeString bytes])
  append stream bytes := (stream.1, stream.2 ++ [encodeString bytes])
  appendRaw stream bytes _ := (stream.1, stream.2 ++ [bytes])
  appendEmptyData stream := (stream.1, stream.2 ++ [encodeString []])
  out stream :=
    if stream.2.length = stream.1 ∧ Fits stream.2 then some (encodeList stream.2.flatten) else none
  prototype data :=
    if Rlp.isData data then
      match Rlp.payloadInfo data with
      | some info => .ok (.data info.valueLen)
      | none => .error "RlpIsTooShort"
    else
      match Rlp.itemCount data with
      | some count => .ok (.list count)
      | none => .ok .null
  atWithOffset data i :=
    match Rlp.itemAt data i with
    | some found => .ok found
    | none => .error "RlpIsTooShort"
  payloadInfo data :=
    match Rlp.payloadInfo data with
    | some info => .ok info
    | none => .error "RlpIsTooShort"
  isEmpty := Rlp.isEmpty
  isData := Rlp.isData
  size data :=
    match Rlp.payloadInfo data with
    | some info => if Rlp.isData data then info.valueLen else 0
    | none => 0
  data rlp :=
    match Rlp.payloadInfo rlp with
    | some info =>
        if Rlp.isData rlp then .ok ((rlp.drop info.headerLen).take info.valueLen)
        else .error "RlpExpectedToBeData"
    | none => .error "RlpIsTooShort"

/-- A stream of the crate after one more item. -/
def pushItem (stream : Nat × List (List UInt8)) (item : Appended) : Nat × List (List UInt8) :=
  (stream.1, stream.2 ++ [item.bytes])

theorem push_crate : crate.push = pushItem := by
  funext stream item
  cases item <;> rfl

theorem foldl_pushItem (items : List Appended) (n : Nat) (before : List (List UInt8)) :
    items.foldl pushItem (n, before) = (n, before ++ items.map Appended.bytes) := by
  induction items generalizing before with
  | nil => simp
  | cons item items ih =>
      rw [List.foldl_cons, pushItem, ih, List.map_cons, List.append_assoc]
      rfl

theorem Fits.lt_maxLength {items : List (List UInt8)} (h : Fits items) :
    items.flatten.length < maxLength := by
  unfold Fits at h
  rw [encodeList, List.length_append] at h
  unfold maxLength
  omega

instance : RlpCrate.Correct crate where
  out_eq := fun items hfits => by
    rw [push_crate]
    have hstream := foldl_pushItem items items.length []
    refine (congrArg crate.out hstream).trans (if_pos ⟨?_, hfits⟩)
    simp
  prototype_list := fun items hitems hfits => by
    have hlist := Rlp.isData_encodeList hfits.lt_maxLength
    simp only [crate, hlist, Rlp.itemCount_encodeList hitems hfits.lt_maxLength]
    rfl
  atWithOffset_list := fun items i hi hitems hfits => by
    simp only [crate, Rlp.itemAt_encodeList hitems hfits.lt_maxLength hi]
  payloadInfo_string := fun s hs => by
    have hinfo := Rlp.payloadInfo_encodeString (s := s) (by unfold maxLength; omega) []
    rw [List.append_nil] at hinfo
    simp only [crate, hinfo]
  isEmpty_string := fun s hs => Rlp.isEmpty_encodeString (by unfold maxLength; omega)
  isEmpty_list := fun payload hs => Rlp.isEmpty_encodeList (by unfold maxLength; omega)
  isData_string := fun s hs => Rlp.isData_encodeString (by unfold maxLength; omega)
  isData_list := fun payload hs => Rlp.isData_encodeList (by unfold maxLength; omega)
  size_string := fun s hs => by
    have hinfo := Rlp.payloadInfo_encodeString (s := s) (by unfold maxLength; omega) []
    have hdata := Rlp.isData_encodeString (s := s) (by unfold maxLength; omega)
    rw [List.append_nil] at hinfo
    simp only [crate, hinfo, hdata, if_true]
  data_string := fun s hs => by
    have hinfo := Rlp.payloadInfo_encodeString (s := s) (by unfold maxLength; omega) []
    have hdata := Rlp.isData_encodeString (s := s) (by unfold maxLength; omega)
    rw [List.append_nil] at hinfo
    simp only [crate, hinfo, hdata, if_true]
    rw [encodeString, List.drop_left, List.take_length]

/-- A hash, and a list with an empty string in the place of a hash. -/
def sampleHash : ChildReference := .hash ⟨List.replicate 32 7, rfl⟩

def sampleInline : ChildReference := .inline ⟨0xc1 :: 0x80 :: List.replicate 30 0, rfl⟩ 2

theorem sampleInline_valid : sampleInline.Valid :=
  ⟨by decide, [0x80], List.cons_ne_nil _ _, by decide⟩

/-- A leaf, an extension and a branch are read back. -/
theorem decode_encode_sample :
    (∃ data, leafNode crate (.ofNibbles [1, 2, 3]) [7] = some data ∧
      Decodes crate data (.leaf [1, 2, 3] [7])) ∧
    (∃ data, extensionNode crate (Partial.ofNibbles [4, 5]).rightIter 2 sampleInline = some data ∧
      Decodes crate data (.extension [4, 5] (.inline [0xc1, 0x80]))) ∧
    ∃ data, branchNode crate (some sampleHash :: some sampleInline :: List.replicate 14 none)
        (some [8]) = some data ∧
      Decodes crate data (.branch (some (.hash (List.replicate 32 7)) ::
        some (.inline [0xc1, 0x80]) :: List.replicate 14 none) (some [8])) := by
  obtain ⟨hleaf, hextension, hbranch⟩ := decode_encode crate
  refine ⟨hleaf [1, 2, 3] [7] (by decide +kernel),
    hextension [4, 5] sampleInline sampleInline_valid (by decide +kernel),
    hbranch (some sampleHash :: some sampleInline :: List.replicate 14 none) (some [8]) rfl ?_
      (by decide) (by decide +kernel)⟩
  intro c hc
  have hc : c = sampleHash ∨ c = sampleInline := by simpa using hc
  rcases hc with rfl | rfl
  · trivial
  · exact sampleInline_valid

end GearBridges.RlpNodeCodec
