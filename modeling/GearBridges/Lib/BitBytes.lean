import GearBridges.Lib.Digits
import Mathlib.Data.Nat.Bitwise

/-!
# Lib.BitBytes

Bits in bytes, the least significant bit of a byte first: `unpack` lists the bits of bytes,
`pack` collects bits into bytes, of which the last one is filled up with zeros.  A list of bytes
is the packing of some bits exactly if its bits are these and zeros behind them (`eq_pack_iff`).
-/

namespace BitBytes

open Digits

/-! ## one byte -/

/-- The bits of a byte. -/
def byteBits (byte : UInt8) : List Bool := (List.range 8).map byte.toNat.testBit

/-- The number that some bits write, the least significant one first. -/
def ofBits : List Bool → Nat
  | [] => 0
  | bit :: bits => Nat.bit bit (ofBits bits)

/-- The byte that at most eight bits write. -/
def load (bits : List Bool) : UInt8 := UInt8.ofNat (ofBits bits)

@[simp] theorem length_byteBits (byte : UInt8) : (byteBits byte).length = 8 := by simp [byteBits]

theorem testBit_ofBits (bits : List Bool) (i : Nat) :
    (ofBits bits).testBit i = bits.getD i false := by
  induction bits generalizing i with
  | nil => simp [ofBits]
  | cons bit bits ih =>
      cases i with
      | zero => simp [ofBits]
      | succ i => simp [ofBits, Nat.testBit_bit_succ, ih]

theorem ofBits_lt (bits : List Bool) : ofBits bits < 2 ^ bits.length := by
  induction bits with
  | nil => simp [ofBits]
  | cons bit bits ih =>
      rw [ofBits, List.length_cons, Nat.pow_succ, Nat.bit_val]
      cases bit <;> simp <;> omega

theorem toNat_load {bits : List Bool} (h : bits.length ≤ 8) : (load bits).toNat = ofBits bits := by
  have hlt : ofBits bits < 2 ^ 8 :=
    Nat.lt_of_lt_of_le (ofBits_lt bits) (Nat.pow_le_pow_right (by decide) h)
  rw [load, UInt8.toNat_ofNat', Nat.mod_eq_of_lt hlt]

theorem getD_byteBits (byte : UInt8) (i : Nat) :
    (byteBits byte).getD i false = byte.toNat.testBit i := by
  by_cases h : i < 8
  · simp [byteBits, List.getElem?_range h]
  · have hlt : byte.toNat < 2 ^ i :=
      Nat.lt_of_lt_of_le byte.toNat_lt (Nat.pow_le_pow_right (by decide) (Nat.not_lt.mp h))
    rw [Nat.testBit_lt_two_pow hlt, List.getD_eq_default]
    rw [length_byteBits]
    exact Nat.not_lt.mp h

theorem load_byteBits (byte : UInt8) : load (byteBits byte) = byte := by
  have hval : ofBits (byteBits byte) = byte.toNat := by
    apply Nat.eq_of_testBit_eq
    intro i
    rw [testBit_ofBits, getD_byteBits]
  rw [load, hval, UInt8.ofNat_toNat]

theorem byteBits_load {bits : List Bool} (h : bits.length ≤ 8) :
    byteBits (load bits) = bits ++ List.replicate (8 - bits.length) false := by
  apply List.ext_getElem
  · simp
    omega
  · intro i hi hi'
    have hget := getD_byteBits (load bits) i
    rw [toNat_load h, testBit_ofBits] at hget
    rw [← List.getD_eq_getElem _ false hi, hget, List.getElem_append]
    split
    · next hlt => rw [List.getD_eq_getElem _ _ hlt]
    · next hge => rw [List.getElem_replicate, List.getD_eq_default _ _ (Nat.not_lt.mp hge)]

/-! ## bytes -/

/-- The bits of some bytes. -/
def unpack (bytes : List UInt8) : List Bool := bytes.flatMap byteBits

/-- The bytes of some bits, eight bits a byte. -/
def pack (bits : List Bool) : List UInt8 := (chunks 8 bits).map load

/-- How many zeros fill up the last byte. -/
def padding (n : Nat) : Nat := (8 - n % 8) % 8

@[simp] theorem unpack_nil : unpack [] = [] := rfl

@[simp] theorem unpack_cons (byte : UInt8) (bytes : List UInt8) :
    unpack (byte :: bytes) = byteBits byte ++ unpack bytes := List.flatMap_cons

@[simp] theorem unpack_append (bytes bytes' : List UInt8) :
    unpack (bytes ++ bytes') = unpack bytes ++ unpack bytes' := List.flatMap_append

@[simp] theorem length_unpack (bytes : List UInt8) : (unpack bytes).length = 8 * bytes.length := by
  induction bytes with
  | nil => rfl
  | cons byte bytes ih =>
      simp [ih]
      omega

@[simp] theorem length_pack (bits : List Bool) : (pack bits).length = (bits.length + 7) / 8 := by
  simp [pack]

theorem pack_of_pos {bits : List Bool} (h : 0 < bits.length) :
    pack bits = load (bits.take 8) :: pack (bits.drop 8) := by
  rw [pack, chunks_of_pos (by decide) h, List.map_cons, pack]

theorem unpack_pack (bits : List Bool) :
    unpack (pack bits) = bits ++ List.replicate (padding bits.length) false := by
  induction hn : bits.length using Nat.strong_induction_on generalizing bits with
  | _ n ih =>
      by_cases hpos : 0 < bits.length
      · rw [pack_of_pos hpos, unpack_cons, byteBits_load (by simp)]
        by_cases hle : 8 ≤ bits.length
        · rw [ih (bits.drop 8).length (by simp; omega) _ rfl, List.length_take, List.length_drop,
            Nat.min_eq_left hle, Nat.sub_self, List.replicate_zero, List.append_nil,
            ← List.append_assoc, List.take_append_drop]
          congr 2
          simp only [padding]
          omega
        · rw [List.drop_of_length_le (by omega), List.take_of_length_le (by omega)]
          have hpadding : padding n = 8 - bits.length := by simp only [padding]; omega
          rw [hpadding]
          simp [pack, chunks]
      · obtain rfl := List.length_eq_zero_iff.mp (Nat.eq_zero_of_not_pos hpos)
        subst hn
        rfl

theorem pack_unpack (bytes : List UInt8) : pack (unpack bytes) = bytes := by
  induction bytes with
  | nil => rfl
  | cons byte bytes ih =>
      rw [pack_of_pos (by simp), unpack_cons, List.take_left' (length_byteBits byte),
        List.drop_left' (length_byteBits byte), load_byteBits, ih]

/-- Bytes are the packing of some bits if these are their bits, with zeros behind them. -/
theorem eq_pack_iff {bytes : List UInt8} {bits : List Bool} :
    bytes = pack bits ↔ unpack bytes = bits ++ List.replicate (padding bits.length) false := by
  constructor
  · rintro rfl
    exact unpack_pack bits
  · intro h
    rw [← pack_unpack bytes, h, ← unpack_pack, pack_unpack]

/-! ## the packing byte by byte -/

/-- Byte `k` holds the bits from `8 * k` on; bits that are not there are zero. -/
def encode (bits : List Bool) : List UInt8 :=
  (List.range ((bits.length + 7) / 8)).map fun k =>
    load ((List.range 8).map fun j => bits.getD (8 * k + j) false)

theorem load_congr {bits bits' : List Bool} (h : ∀ i, bits.getD i false = bits'.getD i false) :
    load bits = load bits' := by
  have hval : ofBits bits = ofBits bits' := by
    apply Nat.eq_of_testBit_eq
    intro i
    rw [testBit_ofBits, testBit_ofBits, h]
  rw [load, load, hval]

theorem encode_eq_pack (bits : List Bool) : encode bits = pack bits := by
  rw [encode, pack, chunks, List.map_map]
  apply List.map_congr_left
  intro k _
  apply load_congr
  intro i
  by_cases hi : i < 8
  · simp [hi, Nat.mul_comm k 8]
  · rw [List.getD_eq_default _ _ (by simp; omega), List.getD_eq_default _ _ (by simp; omega)]

end BitBytes
