import GearBridges.Lib.BitBytes
import Mathlib.Data.List.TakeWhile

/-!
# EthereumCommon.Bits

The SSZ bitfields.  They are kept in a vector of bits over bytes, the least significant bit of a
byte first, whose last byte may have bits behind the last bit of the vector; the constructors
leave those zero.  `from_bytes` and `try_from` accept exactly the SSZ encodings
(`bitfields_decode`).
-/

namespace GearBridges.EthereumCommon

open BitBytes Digits

def bitsPerByte : Nat := 8

/-! ## the bit vector -/

/-- `BitVec<u8, Lsb0>`: its bits, and the bits of the last byte behind them. -/
structure Inner where
  bits : List Bool
  dead : List Bool
  length_dead : dead.length = padding bits.length

namespace Inner

/-- `BitVec::repeat(false, n)`. -/
def repeatFalse (n : Nat) : Inner :=
  ⟨List.replicate n false, List.replicate (padding n) false, by simp⟩

/-- `BitVec::from_slice`. -/
def fromSlice (bytes : List UInt8) : Inner := ⟨unpack bytes, [], by simp [padding]⟩

/-- `extend_from_bitslice`: what is left of the last byte is used first, new bytes are zero. -/
def extendFromBitslice (self : Inner) (other : List Bool) : Inner where
  bits := self.bits ++ other
  dead := if other.length ≤ self.dead.length then self.dead.drop other.length
    else List.replicate (padding (self.bits ++ other).length) false
  length_dead := by
    have h := self.length_dead
    split
    · rw [List.length_drop, List.length_append]
      simp only [padding] at *
      omega
    · rw [List.length_replicate]

/-- `set`, with the index in bounds. -/
def set (self : Inner) (index : Nat) (value : Bool) : Inner :=
  ⟨self.bits.set index value, self.dead, by rw [List.length_set, self.length_dead]⟩

/-- The bits behind the last one are zero. -/
def Clean (self : Inner) : Prop := ∀ bit ∈ self.dead, bit = false

theorem Clean.extendFromBitslice {self : Inner} (h : self.Clean) (other : List Bool) :
    (self.extendFromBitslice other).Clean := by
  intro bit hbit
  simp only [Inner.extendFromBitslice] at hbit
  split at hbit
  · exact h bit (List.mem_of_mem_drop hbit)
  · exact List.eq_of_mem_replicate hbit

/-- `trailing_zeros`: how many zeros there are at the end. -/
def trailingZeros (bits : List Bool) : Nat := (bits.reverse.takeWhile (! ·)).length

end Inner

/-! ## Vector and List -/

/-- `bits::Error`. -/
inductive BitsError where
  | invalidByte (byte : UInt8)
  | additionalInput (provided expected : Nat)
  | expectedFurtherInput (provided expected : Nat)
  | bounded (bound provided : Nat)

/-- `bits::Vector`. -/
structure Bitvector (N : Nat) where
  inner : Inner
  length_eq : inner.bits.length = N

/-- `bits::List`. -/
structure Bitlist (N : Nat) where
  inner : Inner
  length_le : inner.bits.length ≤ N
  clean : inner.Clean

def bytesForBitLen (bitLen : Nat) : Nat := max 1 ((bitLen + bitsPerByte - 1) / bitsPerByte)

/-- One more for the length bit. -/
def bitlistByteLength (bound : Nat) : Nat := (bound + bitsPerByte - 1 + 1) / bitsPerByte

/-- `store_le` into a slot of at most eight bits. -/
def storeLe (slot : List Bool) (byte : UInt8) : List Bool := (byteBits byte).take slot.length

/-- The loop of `from_bytes` over the slots and the bytes. -/
def storeBytes (bits : List Bool) (bytes : List UInt8) : List Bool :=
  (List.zipWith storeLe (chunks bitsPerByte bits) bytes).flatten

theorem storeBytes_eq {N : Nat} {bytes : List UInt8} (h : bytes.length = (N + 7) / 8) :
    storeBytes (List.replicate N false) bytes = (unpack bytes).take N := by
  induction bytes generalizing N with
  | nil =>
      have hzero : N = 0 := by simp at h; omega
      subst hzero
      rfl
  | cons byte bytes ih =>
      rw [List.length_cons] at h
      have hslot : ((List.replicate N false).take 8).length = min 8 N := by simp
      rw [storeBytes, bitsPerByte, chunks_of_pos (by decide) (by simp; omega),
        List.zipWith_cons_cons, List.flatten_cons, storeLe, hslot, List.drop_replicate, unpack_cons, List.take_append,
        length_byteBits]
      congr 1
      · by_cases hN : N ≤ 8
        · rw [Nat.min_eq_right hN]
        · rw [Nat.min_eq_left (by omega), List.take_of_length_le (by simp),
            List.take_of_length_le (by simp; omega)]
      · rw [← ih (N := N - 8) (by omega)]
        rfl

namespace Bitvector

/-- `as_bytes`. -/
def asBytes {N : Nat} (self : Bitvector N) : List UInt8 :=
  (chunks bitsPerByte self.inner.bits).map load

/-- `from_bytes`; `none` is the failed assertion that `N` is positive. -/
def fromBytes (N : Nat) (bytes : List UInt8) : Option (Except BitsError (Bitvector N)) :=
  if hmin : bytes.length < bytesForBitLen N then
    some (.error (.expectedFurtherInput bytes.length (bytesForBitLen N)))
  else if hmax : bytesForBitLen N < bytes.length then
    some (.error (.additionalInput bytes.length (bytesForBitLen N)))
  else if hN : N = 0 then none
  else
    have hlength : (storeBytes (List.replicate N false) bytes).length = N := by
      simp only [bytesForBitLen, bitsPerByte] at hmin hmax
      rw [storeBytes_eq (by omega), List.length_take, length_unpack]
      omega
    let result : Bitvector N := ⟨⟨storeBytes (List.replicate N false) bytes,
      List.replicate (padding N) false, by rw [List.length_replicate, hlength]⟩, hlength⟩
    let remainderCount := N % bitsPerByte
    if remainderCount ≠ 0 then
      match bytes.getLast? with
      | none => none
      | some lastByte =>
          if lastByte.toNat >>> remainderCount ≠ 0 then some (.error (.invalidByte lastByte))
          else some (.ok result)
    else some (.ok result)

end Bitvector

namespace Bitlist

/-- `set`, with the index in bounds. -/
def set {N : Nat} (self : Bitlist N) (index : Nat) (value : Bool) : Bitlist N :=
  ⟨self.inner.set index value, by rw [Inner.set, List.length_set]; exact self.length_le, self.clean⟩

/-- `TryFrom<&[u8]>`. -/
def tryFrom (N : Nat) (encoding : List UInt8) : Except BitsError (Bitlist N) :=
  match encoding.getLast? with
  | none => .error (.expectedFurtherInput 0 1)
  | some lastByte =>
      if bitlistByteLength N < encoding.length then
        .error (.additionalInput encoding.length (bitlistByteLength N))
      else if lastByte = 0 then .error (.invalidByte lastByte)
      else
        let result := Inner.fromSlice encoding.dropLast
        let last := byteBits lastByte
        let bitLength := bitsPerByte - Inner.trailingZeros last
        let additionalMembers := bitLength - 1
        let totalMembers := result.bits.length + additionalMembers
        if hbound : N < totalMembers then .error (.bounded N totalMembers)
        else .ok {
          inner := result.extendFromBitslice (last.take additionalMembers)
          length_le := by
            rw [Inner.extendFromBitslice, List.length_append, List.length_take]
            omega
          clean :=
            Inner.Clean.extendFromBitslice (by simp [Inner.Clean, result, Inner.fromSlice]) _ }

end Bitlist

/-! ## the encodings -/

/-- The SSZ encoding of a bitvector. -/
def serializeBitvector (bits : List Bool) : List UInt8 := encode bits

/-- The SSZ encoding of a bitlist: the bits and a one that marks their end. -/
def serializeBitlist (bits : List Bool) : List UInt8 := encode (bits ++ [true])

theorem getD_drop {α : Type} (l : List α) (n i : Nat) (a : α) :
    (l.drop n).getD i a = l.getD (n + i) a := by
  simp

/-- A byte shifted to zero has only zeros from there on. -/
theorem shiftRight_eq_zero_iff {byte : UInt8} {r : Nat} :
    byte.toNat >>> r = 0 ↔ (byteBits byte).drop r = List.replicate (8 - r) false := by
  have hbit : ∀ i, ((byteBits byte).drop r).getD i false = (byte.toNat >>> r).testBit i := by
    intro i
    rw [getD_drop, getD_byteBits, Nat.testBit_shiftRight]
  constructor
  · intro h
    apply List.ext_getElem
    · simp
    · intro i hi hi'
      rw [← List.getD_eq_getElem _ false hi, hbit, h, Nat.zero_testBit, List.getElem_replicate]
  · intro h
    apply Nat.eq_of_testBit_eq
    intro i
    rw [← hbit, h, Nat.zero_testBit]
    by_cases hi : i < 8 - r
    · rw [List.getD_eq_getElem _ _ (by simpa using hi), List.getElem_replicate]
    · rw [List.getD_eq_default _ _ (by simpa using hi)]

/-- The check of the last byte: there are only zeros behind the first `N` bits. -/
theorem drop_unpack_iff {N : Nat} {front : List UInt8} {last : UInt8}
    (hN : front.length * 8 < N) (hN' : N ≤ front.length * 8 + 8) :
    (unpack (front ++ [last])).drop N = List.replicate (padding N) false ↔
      N % 8 = 0 ∨ last.toNat >>> (N % 8) = 0 := by
  obtain ⟨r, rfl⟩ := Nat.exists_eq_add_of_lt hN
  have hdrop : (unpack (front ++ [last])).drop (front.length * 8 + r + 1) =
      (byteBits last).drop (r + 1) := by
    rw [unpack_append, unpack_cons, unpack_nil, List.append_nil, List.drop_append,
      List.drop_of_length_le (by simp; omega), length_unpack, List.nil_append]
    congr 1
    omega
  rw [hdrop]
  by_cases hr : r = 7
  · subst hr
    have hpadding : padding (front.length * 8 + 7 + 1) = 0 := by simp only [padding]; omega
    rw [hpadding]
    refine iff_of_true ?_ (.inl (by omega))
    simp
  · have hmod : (front.length * 8 + r + 1) % 8 = r + 1 := by omega
    have hpadding : padding (front.length * 8 + r + 1) = 8 - (r + 1) := by
      simp only [padding]
      omega
    rw [hmod, hpadding, shiftRight_eq_zero_iff]
    exact ⟨.inr, fun h => h.resolve_left (by omega)⟩

/-- Bits with zeros behind them are the bits of their encoding. -/
theorem eq_pack_take_iff {N : Nat} {bytes : List UInt8} (h : bytes.length = (N + 7) / 8) :
    bytes = pack ((unpack bytes).take N) ↔
      (unpack bytes).drop N = List.replicate (padding N) false := by
  have hlength : ((unpack bytes).take N).length = N := by
    rw [List.length_take, length_unpack]
    omega
  rw [eq_pack_iff, hlength]
  constructor
  · intro heq
    conv_lhs => rw [heq]
    exact List.drop_left' hlength
  · intro heq
    rw [← heq, List.take_append_drop]

/-! ## Vector -/

namespace Bitvector

variable {N : Nat} {bytes : List UInt8}

theorem bytesForBitLen_eq (hN : 1 ≤ N) : bytesForBitLen N = (N + 7) / 8 := by
  rw [bytesForBitLen, bitsPerByte]
  omega

/-- Bytes of the right length are accepted if there are only zeros behind the first `N` bits. -/
theorem fromBytes_of_length (hN : 1 ≤ N) (h : bytes.length = (N + 7) / 8) :
    (∃ v, fromBytes N bytes = some (.ok v) ∧ v.inner.bits = (unpack bytes).take N ∧
      (unpack bytes).drop N = List.replicate (padding N) false) ∨
    (∃ e, fromBytes N bytes = some (.error e)) ∧
      (unpack bytes).drop N ≠ List.replicate (padding N) false := by
  obtain ⟨front, last, rfl⟩ : ∃ front last, bytes = front ++ [last] :=
    ⟨_, _, (List.dropLast_append_getLast (List.ne_nil_of_length_pos (by omega))).symm⟩
  have hfront : front.length + 1 = (N + 7) / 8 := by simpa using h
  have hexpected := bytesForBitLen_eq hN
  unfold fromBytes
  rw [dif_neg (by omega), dif_neg (by omega), dif_neg (by omega), drop_unpack_iff (by omega)
    (by omega)]
  simp only [List.getLast?_concat]
  by_cases hrem : N % bitsPerByte = 0
  · rw [if_neg (not_not.mpr hrem)]
    exact .inl ⟨_, rfl, storeBytes_eq h, .inl hrem⟩
  · rw [if_pos hrem]
    by_cases hshift : last.toNat >>> (N % bitsPerByte) = 0
    · rw [if_neg (not_not.mpr hshift)]
      exact .inl ⟨_, rfl, storeBytes_eq h, .inr hshift⟩
    · rw [if_pos hshift]
      refine .inr ⟨⟨_, rfl⟩, ?_⟩
      rw [ne_eq, drop_unpack_iff (by omega) (by omega)]
      exact not_or.mpr ⟨hrem, hshift⟩

theorem length_of_fromBytes (hN : 1 ≤ N) {v : Bitvector N} (h : fromBytes N bytes = some (.ok v)) :
    bytes.length = (N + 7) / 8 := by
  have hexpected := bytesForBitLen_eq hN
  unfold fromBytes at h
  split at h
  · cases h
  · split at h
    · cases h
    · omega

/-- `from_bytes` accepts the encoding of some bits and gives these bits. -/
theorem fromBytes_iff (hN : 1 ≤ N) {bits : List Bool} :
    (∃ v, fromBytes N bytes = some (.ok v) ∧ v.inner.bits = bits) ↔
      bits.length = N ∧ bytes = serializeBitvector bits := by
  rw [serializeBitvector, encode_eq_pack]
  constructor
  · rintro ⟨v, hv, rfl⟩
    have hlength := length_of_fromBytes hN hv
    rcases fromBytes_of_length hN hlength with ⟨w, hw, hbits, hzero⟩ | ⟨⟨e, he⟩, -⟩
    · cases hv.symm.trans hw
      refine ⟨v.length_eq, ?_⟩
      rw [hbits]
      exact (eq_pack_take_iff hlength).mpr hzero
    · cases hv.symm.trans he
  · rintro ⟨hbits, rfl⟩
    have hlength : (pack bits).length = (N + 7) / 8 := by rw [length_pack, hbits]
    have htake : (unpack (pack bits)).take N = bits := by
      rw [unpack_pack, List.take_left' hbits]
    rcases fromBytes_of_length hN hlength with ⟨v, hv, hvbits, -⟩ | ⟨-, hne⟩
    · exact ⟨v, hv, hvbits.trans htake⟩
    · refine absurd ?_ hne
      rw [unpack_pack, List.drop_left' hbits, hbits]

theorem asBytes_eq (v : Bitvector N) : v.asBytes = serializeBitvector v.inner.bits := by
  rw [serializeBitvector, encode_eq_pack]
  rfl

end Bitvector

/-! ## List -/

/-- A list of bits that are not all zero ends with a one and its trailing zeros. -/
theorem eq_marker {bits : List Bool} (h : true ∈ bits) :
    bits = bits.take (bits.length - Inner.trailingZeros bits - 1) ++
      true :: List.replicate (Inner.trailingZeros bits) false := by
  have hzeros : bits.reverse.takeWhile (! ·) =
      List.replicate (Inner.trailingZeros bits) false := by
    rw [List.eq_replicate_iff]
    refine ⟨rfl, ?_⟩
    intro bit hbit
    simpa using List.mem_takeWhile_imp hbit
  obtain ⟨rest, hrest⟩ : ∃ rest, bits.reverse.dropWhile (! ·) = true :: rest := by
    cases hdrop : bits.reverse.dropWhile (! ·) with
    | nil =>
        rw [List.dropWhile_eq_nil_iff] at hdrop
        exact absurd (hdrop true (List.mem_reverse.mpr h)) (by decide)
    | cons bit rest =>
        have hhead := List.head_dropWhile_not (p := (! ·)) (l := bits.reverse) (by simp [hdrop])
        simp only [hdrop, List.head_cons] at hhead
        exact ⟨rest, by simpa using hhead⟩
  have hsplit := List.takeWhile_append_dropWhile (p := (! ·)) (l := bits.reverse)
  rw [hzeros, hrest] at hsplit
  have hbits : bits = rest.reverse ++ true :: List.replicate (Inner.trailingZeros bits) false := by
    rw [← List.reverse_inj, ← hsplit]
    simp
  have hlength := congrArg List.length hbits
  rw [List.length_append, List.length_cons, List.length_replicate] at hlength
  have htake : bits.take (bits.length - Inner.trailingZeros bits - 1) = rest.reverse := by
    rw [hlength]
    conv_lhs => rw [hbits]
    exact List.take_left' (by omega)
  rw [htake]
  exact hbits

/-- The trailing zeros of a list with a marker. -/
theorem trailingZeros_marker (bits : List Bool) (n : Nat) :
    Inner.trailingZeros (bits ++ true :: List.replicate n false) = n := by
  simp [Inner.trailingZeros]

theorem unpack_serializeBitlist (bits : List Bool) : unpack (serializeBitlist bits) =
    bits ++ true :: List.replicate (padding (bits.length + 1)) false := by
  rw [serializeBitlist, encode_eq_pack, unpack_pack, List.append_assoc, List.singleton_append,
    List.length_append, List.length_singleton]

/-- The marker tells where the bits end. -/
theorem serializeBitlist_injective : Function.Injective serializeBitlist := by
  intro bits bits' h
  have hunpack := congrArg unpack h
  rw [unpack_serializeBitlist, unpack_serializeBitlist] at hunpack
  have hzeros := congrArg Inner.trailingZeros hunpack
  rw [trailingZeros_marker, trailingZeros_marker] at hzeros
  rw [hzeros] at hunpack
  exact List.append_cancel_right hunpack

theorem le_trailingZeros (bits : List Bool) (n : Nat) :
    n ≤ Inner.trailingZeros (bits ++ List.replicate n false) := by
  rw [Inner.trailingZeros, List.reverse_append, List.reverse_replicate,
    List.takeWhile_append_of_pos (by simp), List.length_append, List.length_replicate]
  exact Nat.le_add_right _ _

/-- The last byte of an encoding holds the marker. -/
theorem serializeBitlist_ne_concat_zero (bits : List Bool) (front : List UInt8) :
    serializeBitlist bits ≠ front ++ [0] := by
  intro h
  have hzeros := le_trailingZeros (unpack front) 8
  have hunpack : unpack (front ++ [0]) = unpack front ++ List.replicate 8 false := by simp; rfl
  rw [← hunpack, ← h, unpack_serializeBitlist, trailingZeros_marker] at hzeros
  simp only [padding] at hzeros
  omega

theorem true_mem_byteBits {byte : UInt8} (h : byte ≠ 0) : true ∈ byteBits byte := by
  by_contra hmem
  have hzero : (byteBits byte).drop 0 = List.replicate 8 false := by
    rw [List.drop_zero, List.eq_replicate_iff]
    refine ⟨length_byteBits byte, ?_⟩
    intro bit hbit
    cases bit
    · rfl
    · exact absurd hbit hmem
  rw [← shiftRight_eq_zero_iff (r := 0), Nat.shiftRight_zero] at hzero
  exact h (UInt8.toNat_inj.mp hzero)

namespace Bitlist

variable {N : Nat} {front : List UInt8} {last : UInt8}

/-- The bits that `try_from` reads. -/
def decoded (front : List UInt8) (last : UInt8) : List Bool :=
  unpack front ++ (byteBits last).take (8 - Inner.trailingZeros (byteBits last) - 1)

/-- Bytes that do not end with a zero encode the bits that are read from them. -/
theorem serializeBitlist_decoded (h : last ≠ 0) :
    serializeBitlist (decoded front last) = front ++ [last] := by
  have hmarker := eq_marker (true_mem_byteBits h)
  have hlength := congrArg List.length hmarker
  rw [length_byteBits] at hmarker
  simp only [length_byteBits, List.length_append, List.length_take, List.length_cons,
    List.length_replicate] at hlength
  have hpadding : padding ((decoded front last).length + 1) =
      Inner.trailingZeros (byteBits last) := by
    simp only [padding, decoded, List.length_append, length_unpack, List.length_take,
      length_byteBits]
    omega
  rw [serializeBitlist, encode_eq_pack, eq_comm, eq_pack_iff, List.length_append,
    List.length_singleton, hpadding, unpack_append, unpack_cons, unpack_nil, List.append_nil]
  conv_lhs => rw [hmarker]
  rw [decoded, List.append_assoc, List.append_assoc, List.singleton_append]

/-- What `try_from` makes of bytes that do not end with a zero. -/
theorem tryFrom_of_ne_zero (N : Nat) (front : List UInt8) (h : last ≠ 0) :
    (∃ v, tryFrom N (front ++ [last]) = .ok v ∧ v.inner.bits = decoded front last) ∨
      (∃ e, tryFrom N (front ++ [last]) = .error e) ∧ N < (decoded front last).length := by
  have hdecoded : serializeBitlist (decoded front last) = front ++ [last] :=
    serializeBitlist_decoded h
  have hlength := congrArg List.length hdecoded
  rw [serializeBitlist, encode_eq_pack, length_pack] at hlength
  simp only [List.length_append, List.length_singleton] at hlength
  unfold tryFrom
  simp only [List.getLast?_concat, List.dropLast_concat]
  by_cases hbytes : bitlistByteLength N < (front ++ [last]).length
  · rw [if_pos hbytes]
    refine .inr ⟨⟨_, rfl⟩, ?_⟩
    rw [bitlistByteLength, bitsPerByte, List.length_append, List.length_singleton] at hbytes
    omega
  · rw [if_neg hbytes, if_neg h]
    have htotal : (Inner.fromSlice front).bits.length +
        (bitsPerByte - Inner.trailingZeros (byteBits last) - 1) = (decoded front last).length := by
      simp only [Inner.fromSlice, decoded, bitsPerByte, List.length_append, List.length_take,
        length_byteBits]
      omega
    split
    · next hbound => exact .inr ⟨⟨_, rfl⟩, by rw [← htotal]; exact hbound⟩
    · exact .inl ⟨_, rfl, rfl⟩

theorem tryFrom_concat_zero (N : Nat) (front : List UInt8) :
    ∃ e, tryFrom N (front ++ [0]) = .error e := by
  unfold tryFrom
  simp only [List.getLast?_concat]
  split
  · exact ⟨_, rfl⟩
  · exact ⟨_, if_pos trivial⟩

/-- `try_from` accepts the encodings of at most `N` bits and gives these bits. -/
theorem tryFrom_iff {encoding : List UInt8} {bits : List Bool} :
    (∃ v, tryFrom N encoding = .ok v ∧ v.inner.bits = bits) ↔
      bits.length ≤ N ∧ encoding = serializeBitlist bits := by
  constructor
  · rintro ⟨v, hv, rfl⟩
    cases encoding using List.reverseRecOn with
    | nil => cases hv
    | append_singleton front last =>
        by_cases hlast : last = 0
        · subst hlast
          obtain ⟨e, he⟩ := tryFrom_concat_zero N front
          cases hv.symm.trans he
        · rcases tryFrom_of_ne_zero N front hlast with ⟨w, hw, hbits⟩ | ⟨⟨e, he⟩, -⟩
          · cases hv.symm.trans hw
            refine ⟨v.length_le, ?_⟩
            rw [hbits, serializeBitlist_decoded hlast]
          · cases hv.symm.trans he
  · rintro ⟨hlength, rfl⟩
    obtain ⟨front, last, hlast⟩ : ∃ front last, serializeBitlist bits = front ++ [last] := by
      refine ⟨_, _, (List.dropLast_append_getLast (List.ne_nil_of_length_pos ?_)).symm⟩
      rw [serializeBitlist, encode_eq_pack, length_pack, List.length_append, List.length_singleton]
      omega
    have hne : last ≠ 0 := by
      rintro rfl
      exact serializeBitlist_ne_concat_zero bits front hlast
    have hbits : decoded front last = bits :=
      serializeBitlist_injective ((serializeBitlist_decoded hne).trans hlast.symm)
    rw [hlast]
    rcases tryFrom_of_ne_zero N front hne with ⟨v, hv, hdecoded⟩ | ⟨-, hbound⟩
    · exact ⟨v, hv, hdecoded.trans hbits⟩
    · rw [hbits] at hbound
      omega

end Bitlist

/-- **The bitfields decode exactly their encodings.**  `Vector::from_bytes` accepts the encodings
of `N` bits, from which `as_bytes` gives the bytes back; `List::try_from` accepts the encodings
of at most `N` bits; and both give the bits that were encoded. -/
theorem bitfields_decode :
    (∀ N, 1 ≤ N → ∀ bytes,
      ((∃ v : Bitvector N, Bitvector.fromBytes N bytes = some (.ok v)) ↔
        ∃ bits, bits.length = N ∧ bytes = serializeBitvector bits) ∧
      ∀ v : Bitvector N, Bitvector.fromBytes N bytes = some (.ok v) → v.asBytes = bytes) ∧
    (∀ N, 1 ≤ N → ∀ bits : List Bool, bits.length = N →
      ∃ v : Bitvector N, Bitvector.fromBytes N (serializeBitvector bits) = some (.ok v) ∧
        v.inner.bits = bits) ∧
    (∀ N bytes, (∃ v : Bitlist N, Bitlist.tryFrom N bytes = .ok v) ↔
      ∃ bits, bits.length ≤ N ∧ bytes = serializeBitlist bits) ∧
    ∀ N bytes bits, (∃ v : Bitlist N, Bitlist.tryFrom N bytes = .ok v ∧ v.inner.bits = bits) ↔
      bits.length ≤ N ∧ bytes = serializeBitlist bits := by
  refine ⟨?_, ?_, ?_, fun _ _ _ => Bitlist.tryFrom_iff⟩
  · intro N hN bytes
    constructor
    · constructor
      · rintro ⟨v, hv⟩
        exact ⟨v.inner.bits, (Bitvector.fromBytes_iff hN).mp ⟨v, hv, rfl⟩⟩
      · rintro ⟨bits, hbits⟩
        obtain ⟨v, hv, -⟩ := (Bitvector.fromBytes_iff hN).mpr hbits
        exact ⟨v, hv⟩
    · intro v hv
      rw [v.asBytes_eq]
      exact ((Bitvector.fromBytes_iff hN).mp ⟨v, hv, rfl⟩).2.symm
  · intro N hN bits hbits
    exact (Bitvector.fromBytes_iff hN).mpr ⟨hbits, rfl⟩
  · intro N bytes
    constructor
    · rintro ⟨v, hv⟩
      exact ⟨v.inner.bits, Bitlist.tryFrom_iff.mp ⟨v, hv, rfl⟩⟩
    · rintro ⟨bits, hbits⟩
      obtain ⟨v, hv, -⟩ := Bitlist.tryFrom_iff.mpr hbits
      exact ⟨v, hv⟩

/-- Ten bits in two bytes, and the empty list in the one byte of its marker. -/
theorem bitfields_decode_ten :
    (∃ v : Bitvector 10, Bitvector.fromBytes 10 [0b10000001, 0b11] = some (.ok v) ∧
      v.inner.bits = [true, false, false, false, false, false, false, true, true, true]) ∧
    ∃ v : Bitlist 8, Bitlist.tryFrom 8 [0b1] = .ok v ∧ v.inner.bits = [] := by
  obtain ⟨-, hvector, -, hlist⟩ := bitfields_decode
  have hten : serializeBitvector
      [true, false, false, false, false, false, false, true, true, true] =
        [0b10000001, 0b11] := by decide
  refine ⟨?_, (hlist 8 _ []).mpr ⟨by decide, by decide⟩⟩
  rw [← hten]
  exact hvector 10 (by decide) _ rfl

end GearBridges.EthereumCommon
