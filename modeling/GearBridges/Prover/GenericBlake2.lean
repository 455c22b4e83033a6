import GearBridges.Circuits.Blake2b
import GearBridges.Lib.Goldilocks

/-!
# Prover.GenericBlake2

The hashing circuits of the prover as relations on their public inputs, with the
private targets existentially quantified.  `GenericBlake2.of_hash_eq` and
`genericBlake2_of_blocks` say what a prover can have hashed to the digest of a message:
the blocks of the message and its length are fixed, everything after the last block is
not.
-/

namespace GearBridges.Prover

open Goldilocks Plonky2Blake2b256

def maxBlockCount : Nat := 8
def maxDataBytes : Nat := maxBlockCount * blockBytes

/-- Public inputs of `VariativeBlake2` and `GenericBlake2`.  A `ByteTarget` is range
checked where it is made, so its value is a byte. -/
structure GenericBlake2Target (C : Compression) where
  data : { bytes : List UInt8 // bytes.length = maxDataBytes }
  length : F
  hash : C.Digest

/-- The loop that asserts a zeroed padding, from an index and a `data_end` flag on;
`none` when an assertion fails. -/
def paddingLoop (length : F) : F → Bool → List UInt8 → Option (F × Bool)
  | currentIdx, dataEnd, [] => some (currentIdx, dataEnd)
  | currentIdx, dataEnd, byte :: bytes =>
      let dataEnd := decide (currentIdx = length) || dataEnd
      if dataEnd && byte != 0 then none else paddingLoop length (currentIdx + 1) dataEnd bytes

/-- `VariativeBlake2` for a block count.  The offset counter of the hash is a 64-bit
decomposition of the length. -/
structure VariativeBlake2 (C : Compression) (blockCount : Nat) (pis : GenericBlake2Target C) :
    Prop where
  padding : ∃ currentIdx dataEnd,
    paddingLoop pis.length 0 false (pis.data.val.take (blockCount * blockBytes)) =
      some (currentIdx, dataEnd) ∧ (currentIdx = pis.length ∨ dataEnd = true)
  lowerBound : rangeCheck (blockBytes - ((blockCount * blockBytes : Nat) - pis.length)) 32
  hash : ∃ t : Nat, t < 2 ^ 64 ∧ (t : F) = pis.length ∧ pis.hash =
    blake2CircuitFromMessageAndLength C (pis.data.val.take (blockCount * blockBytes)) t

/-- `GenericBlake2`: the inner proof verifies with one of the keys made for the block
counts up to `maxBlockCount`. -/
def GenericBlake2 (C : Compression) (pis : GenericBlake2Target C) : Prop :=
  ∃ blockCount, 0 < blockCount ∧ blockCount ≤ maxBlockCount ∧ VariativeBlake2 C blockCount pis

/-! ## the padding loop -/

/-- Before the length is reached the flag stays down and any byte passes. -/
theorem paddingLoop_data {length : Nat} (hlength : length < modulus) :
    ∀ (bytes : List UInt8) (i : Nat), i + bytes.length ≤ length →
      paddingLoop length (i : F) false bytes = some (((i + bytes.length : Nat) : F), false) := by
  intro bytes
  induction bytes with
  | nil =>
      intro i _
      rfl
  | cons byte bytes ih =>
      intro i hi
      rw [List.length_cons] at hi
      have hne : (i : F) ≠ (length : F) := by
        rw [ne_eq, natCast_inj (by omega) hlength]
        omega
      have hsucc : (i : F) + 1 = ((i + 1 : Nat) : F) := (Nat.cast_succ i).symm
      simp only [paddingLoop, decide_eq_false hne, Bool.or_false, Bool.false_and,
        Bool.false_eq_true, if_false]
      have hlen : i + 1 + bytes.length = i + (bytes.length + 1) := by omega
      rw [hsucc, ih (i + 1) (by omega), List.length_cons, hlen]

/-- Once the flag is up it stays up and zeros pass. -/
theorem paddingLoop_zeros (length : F) (n : Nat) (currentIdx : F) :
    ∃ idx, paddingLoop length currentIdx true (List.replicate n 0) = some (idx, true) := by
  induction n generalizing currentIdx with
  | zero => exact ⟨currentIdx, rfl⟩
  | succ n ih =>
      simp only [List.replicate_succ, paddingLoop, Bool.or_true, bne_self_eq_false, Bool.and_false,
        Bool.false_eq_true, if_false]
      exact ih (currentIdx + 1)

theorem paddingLoop_append (length : F) (xs ys : List UInt8) (currentIdx : F) (dataEnd : Bool) :
    paddingLoop length currentIdx dataEnd (xs ++ ys) =
      (paddingLoop length currentIdx dataEnd xs).bind fun (idx, dataEnd) =>
        paddingLoop length idx dataEnd ys := by
  induction xs generalizing currentIdx dataEnd with
  | nil => rfl
  | cons x xs ih =>
      simp only [List.cons_append, paddingLoop]
      split
      · rfl
      · exact ih _ _

/-- A message with zeros behind it passes. -/
theorem paddingLoop_append_zeros {message : List UInt8} (h : message.length < modulus) (n : Nat) :
    ∃ currentIdx dataEnd, paddingLoop message.length 0 false (message ++ List.replicate n 0) =
      some (currentIdx, dataEnd) ∧ (currentIdx = (message.length : F) ∨ dataEnd = true) := by
  have hdata := paddingLoop_data h message 0 (by omega)
  rw [Nat.cast_zero, Nat.zero_add] at hdata
  rw [paddingLoop_append, hdata, Option.bind_some]
  cases n with
  | zero => exact ⟨_, _, rfl, .inl rfl⟩
  | succ n =>
      obtain ⟨idx, hidx⟩ := paddingLoop_zeros (message.length : F) n (message.length + 1)
      refine ⟨idx, true, ?_, .inr rfl⟩
      simpa [List.replicate_succ, paddingLoop] using hidx

/-- A message padded with zeros to whole blocks passes. -/
theorem paddingLoop_padMessage {message : List UInt8} (h : message.length < modulus) :
    ∃ currentIdx dataEnd, paddingLoop message.length 0 false (padMessage message) =
      some (currentIdx, dataEnd) ∧ (currentIdx = (message.length : F) ∨ dataEnd = true) :=
  paddingLoop_append_zeros h _

/-! ## what was hashed -/

theorem blockCount_le {bytes : Nat} (h : bytes ≤ maxDataBytes) : blockCount bytes ≤ maxBlockCount := by
  unfold maxDataBytes maxBlockCount at *
  unfold blockCount blockBytes at *
  omega

/-- Zeros after a message. -/
def padData (message : List UInt8) : List UInt8 :=
  message ++ List.replicate (maxDataBytes - message.length) 0

theorem length_padData {message : List UInt8} (h : message.length ≤ maxDataBytes) :
    (padData message).length = maxDataBytes := by
  unfold padData
  rw [List.length_append, List.length_replicate]
  omega

theorem take_padData (message : List UInt8) : (padData message).take message.length = message := by
  unfold padData
  rw [List.take_left]

theorem padMessage_prefix_padData {message : List UInt8} (h : message.length ≤ maxDataBytes) :
    padMessage message <+: padData message := by
  have hle : blockCount message.length * blockBytes ≤ maxDataBytes :=
    Nat.mul_le_mul_right _ (blockCount_le h)
  have hcount := le_blockCount_mul message.length
  unfold padMessage padData
  refine ⟨List.replicate (maxDataBytes - blockCount message.length * blockBytes) 0, ?_⟩
  rw [List.append_assoc, ← List.replicate_add]
  congr 2
  omega

/-- The padded blocks of a message followed by anything hash to its digest. -/
theorem genericBlake2_of_blocks (C : Compression) {message : List UInt8}
    (hmax : message.length ≤ maxDataBytes)
    {data : { bytes : List UInt8 // bytes.length = maxDataBytes }}
    (hblocks : padMessage message <+: data.val) :
    GenericBlake2 C ⟨data, message.length, blake2Circuit C message⟩ := by
  have hmax' : message.length ≤ 1024 := hmax
  have htake : data.val.take (blockCount message.length * blockBytes) = padMessage message := by
    rw [← length_padMessage message]
    exact (List.prefix_iff_eq_take.mp hblocks).symm
  refine ⟨blockCount message.length, blockCount_pos _, blockCount_le hmax, ?_, ?_, ?_⟩
  · simp only [htake]
    exact paddingLoop_padMessage (by unfold modulus; omega)
  · have hbound : blockCount message.length * blockBytes ≤ blockBytes + message.length := by
      unfold blockCount blockBytes
      omega
    have hsmall : blockBytes + message.length < 2 ^ 32 := by
      unfold blockBytes
      omega
    have heq : (blockBytes : F) - ((blockCount message.length * blockBytes : Nat) - message.length) =
        ((blockBytes + message.length : Nat) : F) -
          ((blockCount message.length * blockBytes : Nat) : F) := by
      rw [Nat.cast_add, sub_sub_eq_add_sub]
    simp only [heq]
    exact (rangeCheck_sub hsmall (by omega)).mpr hbound
  · refine ⟨message.length, by omega, rfl, ?_⟩
    simp only [htake]
    rw [blake2CircuitFromMessageAndLength_padMessage]
    rfl

/-- **What hashes to the digest of a message**: nothing but its padded blocks, followed
by anything, with its length. -/
theorem GenericBlake2.of_hash_eq {C : Compression} {message : List UInt8}
    (hfree : SecondPreimageFree C message) {pis : GenericBlake2Target C}
    (h : GenericBlake2 C pis) (hhash : pis.hash = blake2Circuit C message) :
    pis.length = message.length ∧ padMessage message <+: pis.data.val := by
  obtain ⟨n, hn, hnmax, h⟩ := h
  obtain ⟨t, hword, ht, hcircuit⟩ := h.hash
  have hsize : (pis.data.val.take (n * blockBytes)).length = n * blockBytes := by
    have hle : n * blockBytes ≤ maxDataBytes := Nat.mul_le_mul_right _ hnmax
    rw [List.length_take, pis.data.property, Nat.min_eq_left hle]
  obtain ⟨hdata, hlength⟩ := hfree _ n t hn hsize hword (hcircuit.symm.trans hhash)
  subst hlength
  refine ⟨ht.symm, ?_⟩
  rw [← hdata]
  exact List.take_prefix _ _

/-! ## the length -/

/-- The loop counts the bytes, and raises its flag at one of them. -/
theorem paddingLoop_eq_some {length idx : F} {dataEnd : Bool} {bytes : List UInt8} {out : F × Bool}
    (h : paddingLoop length idx dataEnd bytes = some out) :
    out.1 = idx + (bytes.length : F) ∧
      (out.2 = true → dataEnd = true ∨ ∃ i < bytes.length, idx + (i : F) = length) := by
  induction bytes generalizing idx dataEnd with
  | nil =>
      simp only [paddingLoop, Option.some.injEq] at h
      subst h
      simp
  | cons byte bytes ih =>
      simp only [paddingLoop] at h
      split at h
      · cases h
      · obtain ⟨hidx, hend⟩ := ih h
        refine ⟨?_, fun hout => ?_⟩
        · rw [hidx, List.length_cons, Nat.cast_succ, add_assoc, add_comm 1]
        · cases hend hout with
          | inl hflag =>
              rw [Bool.or_eq_true, decide_eq_true_iff] at hflag
              cases hflag with
              | inl hat => exact .inr ⟨0, Nat.succ_pos _, by rw [Nat.cast_zero, add_zero, hat]⟩
              | inr hflag => exact .inl hflag
          | inr hat =>
              obtain ⟨i, hi, hat⟩ := hat
              refine .inr ⟨i + 1, Nat.succ_lt_succ hi, ?_⟩
              rw [← hat, Nat.cast_succ, add_assoc, add_comm 1]

/-- The length is one of the data. -/
theorem GenericBlake2.length_le {C : Compression} {pis : GenericBlake2Target C}
    (h : GenericBlake2 C pis) : pis.length.val ≤ maxDataBytes := by
  have hmax : maxDataBytes = 1024 := rfl
  obtain ⟨n, _, hnmax, h⟩ := h
  have hle : n * blockBytes ≤ maxDataBytes := Nat.mul_le_mul_right _ hnmax
  obtain ⟨currentIdx, dataEnd, hloop, hlast⟩ := h.padding
  obtain ⟨hidx, hend⟩ := paddingLoop_eq_some hloop
  rw [List.length_take, pis.data.property, Nat.min_eq_left hle] at hidx hend
  have hsmall : ∀ i : Nat, i ≤ n * blockBytes → (0 : F) + (i : F) = pis.length →
      pis.length.val ≤ maxDataBytes := by
    intro i hi heq
    rw [← heq, zero_add, val_natCast (by unfold modulus; omega)]
    omega
  cases hlast with
  | inl hlast => exact hsmall _ (Nat.le_refl _) (hidx.symm.trans hlast)
  | inr hlast =>
      cases hend hlast with
      | inl hflag => cases hflag
      | inr hat =>
          obtain ⟨i, hi, hat⟩ := hat
          exact hsmall i (Nat.le_of_lt hi) hat

end GearBridges.Prover
