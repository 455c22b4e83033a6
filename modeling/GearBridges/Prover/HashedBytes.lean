import Mathlib.Data.List.GetD
import GearBridges.Circuits.Blake2bCircuit
import GearBridges.Prover.GenericBlake2

/-!
# Prover.HashedBytes

What a proof of `GenericBlake2` says about its data.  The prover chooses the block count
and the decomposition of the length besides the public inputs; `genericBlake2_hashes_iff`
says for which choices the hash is the one of the first `length` bytes and the rest is
zero; for the compression of the circuit this is the hash of RFC 7693 (`hashes_blake2b_iff`).
Data behind the hashed blocks are not looked at (`trailing_accepted`), and a length
of whole blocks is accepted with one block too many (`genericBlake2_extraBlock`).
-/

namespace GearBridges.Prover

open Goldilocks Plonky2Blake2b256

variable {C : Compression}

/-- A proof of `GenericBlake2` with the block count and the offset counter of the last
block, which the prover chooses. -/
structure BlockAssignment (C : Compression) (blockCount t : Nat) (pis : GenericBlake2Target C) :
    Prop where
  pos : 0 < blockCount
  le : blockCount ≤ maxBlockCount
  variative : VariativeBlake2 C blockCount pis
  counter_lt : t < 2 ^ 64
  counter : (t : F) = pis.length
  hash : pis.hash = blake2CircuitFromMessageAndLength C (pis.data.val.take (blockCount * blockBytes)) t

theorem genericBlake2_iff (pis : GenericBlake2Target C) :
    GenericBlake2 C pis ↔ ∃ blockCount t, BlockAssignment C blockCount t pis := by
  constructor
  · rintro ⟨n, hpos, hle, h⟩
    obtain ⟨t, hlt, ht, hhash⟩ := h.hash
    exact ⟨n, t, hpos, hle, h, hlt, ht, hhash⟩
  · rintro ⟨n, t, h⟩
    exact ⟨n, h.pos, h.le, h.variative⟩

/-- What the public inputs are taken to say: the hash is the one of the first bytes, and
the padding of the data is zeroed. -/
structure GenericBlake2Target.Hashes (pis : GenericBlake2Target C) : Prop where
  length_le : pis.length.val ≤ maxDataBytes
  hash : pis.hash = blake2Circuit C (pis.data.val.take pis.length.val)
  padding : ∀ i, pis.length.val ≤ i → pis.data.val.getD i 0 = 0

/-- The choices of an honest prover, and data that end with the hashed blocks. -/
structure BlockAssignment.Honest (blockCount t : Nat) (pis : GenericBlake2Target C) : Prop where
  blockCount_eq : blockCount = Plonky2Blake2b256.blockCount pis.length.val
  counter_eq : t = pis.length.val
  zeros : ∀ i, blockCount * blockBytes ≤ i → pis.data.val.getD i 0 = 0

/-! ## the padding inside the blocks -/

/-- Once the flag is up only zeros pass. -/
theorem paddingLoop_true {length idx : F} {bytes : List UInt8} {out : F × Bool}
    (h : paddingLoop length idx true bytes = some out) (j : Nat) : bytes.getD j 0 = 0 := by
  induction bytes generalizing idx j with
  | nil => rfl
  | cons byte bytes ih =>
      simp only [paddingLoop, Bool.or_true, Bool.true_and] at h
      split at h
      · cases h
      · rename_i hbyte
        cases j with
        | zero => simpa using hbyte
        | succ j => exact ih h j

/-- From the length on only zeros pass. -/
theorem paddingLoop_false {length : Nat} (hlength : length < modulus) {bytes : List UInt8} {i : Nat}
    (hi : i ≤ length) {out : F × Bool}
    (h : paddingLoop (length : F) (i : F) false bytes = some out) (j : Nat) (hj : length ≤ i + j) :
    bytes.getD j 0 = 0 := by
  induction bytes generalizing i j with
  | nil => rfl
  | cons byte bytes ih =>
      have hcast : (i : F) = (length : F) ↔ i = length := natCast_inj (by omega) hlength
      have hsucc : (i : F) + 1 = ((i + 1 : Nat) : F) := (Nat.cast_succ i).symm
      by_cases heq : i = length
      · subst heq
        have hflag : paddingLoop (i : F) (i : F) true (byte :: bytes) = some out := by
          simpa only [paddingLoop, decide_true, Bool.true_or, Bool.or_true] using h
        exact paddingLoop_true hflag j
      · simp only [paddingLoop, hcast, heq, decide_false, Bool.or_false, Bool.false_and,
          Bool.false_eq_true, if_false, hsucc] at h
        cases j with
        | zero => omega
        | succ j => exact ih (by omega) h j (by omega)

/-- The data of a proof are zero from the length to the end of the blocks. -/
theorem BlockAssignment.padding {n t : Nat} {pis : GenericBlake2Target C}
    (h : BlockAssignment C n t pis) {i : Nat} (hi : pis.length.val ≤ i) (hblocks : i < n * blockBytes) :
    pis.data.val.getD i 0 = 0 := by
  obtain ⟨idx, dataEnd, hloop, -⟩ := h.variative.padding
  have hlength : pis.length = ((pis.length.val : Nat) : F) := (ZMod.natCast_zmod_val _).symm
  rw [hlength, ← Nat.cast_zero] at hloop
  have hzero := paddingLoop_false (ZMod.val_lt _) (Nat.zero_le _) hloop i (by omega)
  rwa [List.getD_eq_getElem?_getD, List.getElem?_take_of_lt hblocks, ← List.getD_eq_getElem?_getD]
    at hzero

/-! ## what a proof says -/

/-- **The hashed blocks are the padded message** for the choices of an honest prover. -/
theorem BlockAssignment.take_eq {n t : Nat} {pis : GenericBlake2Target C}
    (h : BlockAssignment C n t pis) (hcount : n = blockCount pis.length.val)
    (hmax : pis.length.val ≤ maxDataBytes) :
    pis.data.val.take (n * blockBytes) = padMessage (pis.data.val.take pis.length.val) := by
  have hle : n * blockBytes ≤ maxDataBytes := Nat.mul_le_mul_right _ h.le
  have hin := le_blockCount_mul pis.length.val
  rw [← hcount] at hin
  have hlength := pis.data.property
  have hmessage : (pis.data.val.take pis.length.val).length = pis.length.val := by
    rw [List.length_take]
    omega
  have hblocks : (pis.data.val.take (n * blockBytes)).length = n * blockBytes := by
    rw [List.length_take]
    omega
  have hpadded := length_padMessage (pis.data.val.take pis.length.val)
  rw [hmessage, ← hcount] at hpadded
  apply List.ext_getElem (hblocks.trans hpadded.symm)
  intro i hi _
  have hzero := @BlockAssignment.padding C n t pis h i
  rw [hblocks] at hi
  by_cases hmessageIn : i < pis.length.val
  · simp only [padMessage, List.getElem_take]
    rw [List.getElem_append_left (by omega), List.getElem_take]
  · have hi' := hzero (by omega) hi
    rw [List.getD_eq_getElem _ _ (by omega)] at hi'
    simp only [padMessage, List.getElem_take]
    rw [List.getElem_append_right (by omega), List.getElem_replicate, hi']

/-- With the choices of an honest prover the proof says what it is taken to say. -/
theorem BlockAssignment.hashes {n t : Nat} {pis : GenericBlake2Target C}
    (h : BlockAssignment C n t pis) (hhonest : BlockAssignment.Honest n t pis) : pis.Hashes := by
  have hmax := ((genericBlake2_iff pis).mpr ⟨n, t, h⟩).length_le
  have hlength := pis.data.property
  have hmessage : (pis.data.val.take pis.length.val).length = pis.length.val := by
    rw [List.length_take]
    omega
  refine ⟨hmax, ?_, fun i hi => ?_⟩
  · rw [h.hash, h.take_eq hhonest.blockCount_eq hmax,
      blake2CircuitFromMessageAndLength_padMessage, blake2Circuit, hmessage, hhonest.counter_eq]
  · by_cases hblocks : i < n * blockBytes
    · exact h.padding hi hblocks
    · exact hhonest.zeros i (by omega)

/-- A proof that says so was made with these choices, unless other blocks have the hash of
the message. -/
theorem BlockAssignment.honest {n t : Nat} {pis : GenericBlake2Target C}
    (h : BlockAssignment C n t pis)
    (hfree : SecondPreimageFree C (pis.data.val.take pis.length.val)) (hhashes : pis.Hashes) :
    BlockAssignment.Honest n t pis := by
  have hle : n * blockBytes ≤ maxDataBytes := Nat.mul_le_mul_right _ h.le
  have hlength := pis.data.property
  have hmax := hhashes.length_le
  have hmessage : (pis.data.val.take pis.length.val).length = pis.length.val := by
    rw [List.length_take]
    omega
  have hblocks : (pis.data.val.take (n * blockBytes)).length = n * blockBytes := by
    rw [List.length_take]
    omega
  obtain ⟨hdata, ht⟩ := hfree _ n t h.pos hblocks h.counter_lt (h.hash.symm.trans hhashes.hash)
  rw [hmessage] at ht
  have hcount := congrArg List.length hdata
  rw [hblocks, length_padMessage, hmessage] at hcount
  have hn : n = blockCount pis.length.val := Nat.eq_of_mul_eq_mul_right (by decide) hcount
  have hin := le_blockCount_mul pis.length.val
  rw [← hn] at hin
  exact ⟨hn, ht, fun i hi => hhashes.padding i (by omega)⟩

/-- **What a proof of `GenericBlake2` says about its data**: the length is one of the data;
for the block count of the length, the length as offset counter and no data behind the
blocks, the hash is the one of the first bytes and the rest is zero, and only then, as far
as no other blocks have this hash.  And every message has a proof. -/
theorem genericBlake2_hashes_iff {n t : Nat} {pis : GenericBlake2Target C}
    (h : BlockAssignment C n t pis) :
    pis.length.val ≤ maxDataBytes ∧
      (BlockAssignment.Honest n t pis → pis.Hashes) ∧
      (SecondPreimageFree C (pis.data.val.take pis.length.val) →
        pis.Hashes → BlockAssignment.Honest n t pis) ∧
      ∀ message : List UInt8, ∀ hmax : message.length ≤ maxDataBytes,
        GenericBlake2 C ⟨⟨padData message, length_padData hmax⟩, (message.length : F),
          blake2Circuit C message⟩ :=
  ⟨((genericBlake2_iff pis).mpr ⟨n, t, h⟩).length_le, h.hashes, h.honest,
    fun _ hmax => genericBlake2_of_blocks C hmax (padMessage_prefix_padData hmax)⟩

/-- For the compression of the circuit the hash is that of the RFC. -/
theorem hashes_blake2b_iff {pis : GenericBlake2Target blake2b} :
    pis.Hashes ↔ pis.length.val ≤ maxDataBytes ∧
      pis.hash = Blake2.hash Blake2.blake2b 32 (pis.data.val.take pis.length.val) ∧
      ∀ i, pis.length.val ≤ i → pis.data.val.getD i 0 = 0 := by
  have hmax : maxDataBytes = 1024 := rfl
  have hrfc : pis.length.val ≤ maxDataBytes → blake2Circuit blake2b
      (pis.data.val.take pis.length.val) =
        Blake2.hash Blake2.blake2b 32 (pis.data.val.take pis.length.val) := by
    intro hle
    have hlength : (pis.data.val.take pis.length.val).length ≤ pis.length.val :=
      List.length_take_le _ _
    exact blake2CircuitFromMessageAndLength_eq_digest (by omega) (by omega)
  constructor
  · intro h
    exact ⟨h.length_le, h.hash.trans (hrfc h.length_le), h.padding⟩
  · rintro ⟨hle, hhash, hpadding⟩
    exact ⟨hle, hhash.trans (hrfc hle).symm, hpadding⟩

/-! ## proofs with any block count -/

/-- The checks admit every block count that leaves at most one block of padding. -/
theorem blockAssignment_padData {message : List UInt8} {n : Nat} (hpos : 0 < n)
    (hn : n ≤ maxBlockCount) (hmax : message.length ≤ maxDataBytes)
    (hupper : message.length ≤ n * blockBytes) (hlower : n * blockBytes ≤ blockBytes + message.length) :
    BlockAssignment C n message.length
      ⟨⟨padData message, length_padData hmax⟩, (message.length : F),
        blake2CircuitFromMessageAndLength C
          (message ++ List.replicate (n * blockBytes - message.length) 0) message.length⟩ := by
  have hmax' : maxDataBytes = 1024 := rfl
  have hblock : blockBytes = 128 := rfl
  have hle : n * blockBytes ≤ maxDataBytes := Nat.mul_le_mul_right _ hn
  have htake : (padData message).take (n * blockBytes) =
      message ++ List.replicate (n * blockBytes - message.length) 0 := by
    unfold padData
    rw [List.take_append, List.take_of_length_le hupper, List.take_replicate, Nat.min_eq_left (by omega)]
  have hcounter : message.length < 2 ^ 64 := by omega
  have hhash := congrArg (blake2CircuitFromMessageAndLength C · message.length) htake.symm
  refine ⟨hpos, hn, ⟨?_, ?_, message.length, hcounter, rfl, hhash⟩, hcounter, rfl, hhash⟩
  · simp only [htake]
    exact paddingLoop_append_zeros (by unfold modulus; omega) _
  · simp only
    have hpadding : (blockBytes : F) - (((n * blockBytes : Nat) : F) - (message.length : F)) =
        ((blockBytes - (n * blockBytes - message.length) : Nat) : F) := by
      rw [← Nat.cast_sub hupper, ← Nat.cast_sub (by omega)]
    rw [hpadding, rangeCheck_natCast (by unfold modulus; omega)]
    omega

/-- Behind the message there are only zeros. -/
theorem getD_padData_of_le {message : List UInt8} {i : Nat} (h : message.length ≤ i) :
    (padData message).getD i 0 = 0 := by
  rw [padData, List.getD_append_right _ _ _ _ h, List.getD_eq_getElem?_getD]
  exact List.getElem?_getD_replicate_default_eq _ _ _

theorem twoBlocks_le : twoBlocks.length ≤ maxDataBytes := by
  rw [length_twoBlocks]
  decide

/-- The public inputs of its proof. -/
def twoBlocksTarget : GenericBlake2Target blake2b :=
  ⟨⟨padData twoBlocks, length_padData twoBlocks_le⟩, (twoBlocks.length : F),
    blake2CircuitFromMessageAndLength blake2b
      (twoBlocks ++ List.replicate (2 * blockBytes - twoBlocks.length) 0) twoBlocks.length⟩

/-- The proof of two blocks says that its hash is the one of the message, and this is the hash
of the RFC. -/
theorem genericBlake2_hashes_iff_twoBlocks :
    BlockAssignment blake2b 2 twoBlocks.length twoBlocksTarget ∧ twoBlocksTarget.Hashes ∧
      twoBlocksTarget.hash = Blake2.hash Blake2.blake2b 32 twoBlocks := by
  have h : BlockAssignment blake2b 2 twoBlocks.length twoBlocksTarget :=
    blockAssignment_padData (by decide) (by decide) twoBlocks_le (by rw [length_twoBlocks]; decide)
      (by rw [length_twoBlocks]; decide)
  have hval : twoBlocksTarget.length.val = twoBlocks.length :=
    val_natCast (by rw [length_twoBlocks]; decide)
  have hhashes : twoBlocksTarget.Hashes := by
    refine (genericBlake2_hashes_iff h).2.1 ⟨?_, hval.symm, fun i hi => ?_⟩
    · rw [hval, length_twoBlocks]
      decide
    · exact getD_padData_of_le (Nat.le_trans (by rw [length_twoBlocks]; decide) hi)
  refine ⟨h, hhashes, ?_⟩
  have hrfc := (hashes_blake2b_iff.mp hhashes).2.1
  rwa [hval, show twoBlocksTarget.data.val.take twoBlocks.length = twoBlocks from
    take_padData twoBlocks] at hrfc

/-- A length of whole blocks is accepted with one block more. -/
theorem genericBlake2_extraBlock {message : List UInt8} {k : Nat}
    (hk : k < maxBlockCount) (hmax : message.length ≤ maxDataBytes)
    (hlength : message.length = k * blockBytes) :
    BlockAssignment C (k + 1) message.length
      ⟨⟨padData message, length_padData hmax⟩, (message.length : F),
        blake2CircuitFromMessageAndLength C (message ++ List.replicate blockBytes 0)
          message.length⟩ := by
  have hpadding : (k + 1) * blockBytes - message.length = blockBytes := by
    rw [hlength, Nat.succ_mul]
    omega
  have h := @blockAssignment_padData C message (k + 1) (Nat.succ_pos k) hk hmax
    (by rw [hlength, Nat.succ_mul]; omega) (by rw [hlength, Nat.succ_mul]; omega)
  rwa [hpadding] at h

/-- A one at the end of the data. -/
def trailingData : { bytes : List UInt8 // bytes.length = maxDataBytes } :=
  ⟨List.replicate 1023 0 ++ [1], by decide +kernel⟩

/-- The empty message is accepted with data that are not zero behind the hashed block. -/
theorem trailing_accepted :
    GenericBlake2 blake2b ⟨trailingData, ((0 : Nat) : F), blake2Circuit blake2b []⟩ ∧
      ¬ (⟨trailingData, ((0 : Nat) : F), blake2Circuit blake2b []⟩ :
        GenericBlake2Target blake2b).Hashes := by
  constructor
  · have hblocks : padMessage [] <+: trailingData.val := ⟨List.replicate 895 0 ++ [1], by decide +kernel⟩
    exact genericBlake2_of_blocks blake2b (Nat.zero_le _) hblocks
  · intro h
    have hlast := h.padding 1023 (by decide +kernel)
    exact absurd hlast (by decide +kernel)

end GearBridges.Prover
