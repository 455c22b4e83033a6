import GearBridges.Ethereum.Relayer
import GearBridges.GnarkWrapper.Compression
import GearBridges.Prover.Limbs

/-!
# Relayer.ProverInterface

`FinalProof::from_proof_and_public_inputs` of the relayer, and the agreement of the four
programs that lay out the public inputs of a final proof: the circuit, the gnark wrapper,
the relayer and the `Relayer` contract.
-/

namespace GearBridges.ProverInterface

open Digits MessageQueue Prover GnarkWrapper Goldilocks

/-! ## the relayer -/

/-- `BigUint::to_bytes_be`: no leading zeros, but zero is one byte. -/
def toBytesBe (x : Nat) : List UInt8 :=
  if x = 0 then [0] else (Nat.digits 256 x).reverse.map UInt8.ofNat

def targetLen : Nat := 24

/-- `pad_pi`; `none` is the failed assertion. -/
def padPi (pi : Nat) : Option (List UInt8) :=
  let bytes := toBytesBe pi
  if bytes.length ≤ targetLen then some (List.replicate (targetLen - bytes.length) 0 ++ bytes)
  else none

/-- The value of a hexadecimal digit. -/
def hexValue (c : Char) : Option Nat :=
  if '0' ≤ c ∧ c ≤ '9' then some (c.toNat - '0'.toNat)
  else if 'a' ≤ c ∧ c ≤ 'f' then some (c.toNat - 'a'.toNat + 10)
  else if 'A' ≤ c ∧ c ≤ 'F' then some (c.toNat - 'A'.toNat + 10)
  else none

/-- `hex::decode`. -/
def hexDecode : List Char → Option (List UInt8)
  | [] => some []
  | [_] => none
  | high :: low :: rest => do
      let high ← hexValue high
      let low ← hexValue low
      let bytes ← hexDecode rest
      some (UInt8.ofNat (high * 16 + low) :: bytes)

structure FinalProof where
  proof : List UInt8
  blockNumber : UInt32
  merkleRoot : FixedBytes 32
deriving DecidableEq

/-- `FinalProof::from_proof_and_public_inputs`; `none` is a panic. -/
def fromProofAndPublicInputs (proof : List Char) (publicInputs : Nat × Nat) : Option FinalProof := do
  let pi₀ ← padPi publicInputs.1
  let pi₁ ← padPi publicInputs.2
  let rootBytes := pi₀ ++ pi₁.take 8
  let blockNumber := (pi₁.drop 8).take 4
  if proof.take 2 = ['0', 'x'] then
    let proof ← hexDecode (proof.drop 2)
    if h : rootBytes.length = 32 then
      some ⟨proof, UInt32.ofNat (ofBytesBE blockNumber), ⟨rootBytes, h⟩⟩
    else none
  else none

/-! ## the proof string of the wrapper -/

def hexDigits : List Char :=
  ['0', '1', '2', '3', '4', '5', '6', '7', '8', '9', 'a', 'b', 'c', 'd', 'e', 'f']

/-- `hex.EncodeToString`. -/
def hexEncode (bytes : List UInt8) : List Char :=
  bytes.flatMap fun byte =>
    [hexDigits.getD (byte.toNat / 16) '0', hexDigits.getD (byte.toNat % 16) '0']

theorem hexValue_hexDigits {n : Nat} (h : n < 16) : hexValue (hexDigits.getD n '0') = some n := by
  have hall : ∀ n : Fin 16, hexValue (hexDigits.getD n.val '0') = some n.val := by decide +kernel
  exact hall ⟨n, h⟩

theorem hexDecode_hexEncode (bytes : List UInt8) : hexDecode (hexEncode bytes) = some bytes := by
  induction bytes with
  | nil => rfl
  | cons byte bytes ih =>
      have hlt := byte.toNat_lt
      have hbyte : UInt8.ofNat (byte.toNat / 16 * 16 + byte.toNat % 16) = byte := by
        rw [Nat.div_add_mod', UInt8.ofNat_toNat]
      rw [hexEncode, List.flatMap_cons, ← hexEncode, List.cons_append, List.cons_append,
        List.nil_append, hexDecode, hexValue_hexDigits (by omega), hexValue_hexDigits (by omega), ih]
      simp only [Option.bind_eq_bind, Option.bind_some, hbyte]

/-! ## padding -/

theorem ofBytesBE_toBytesBe (x : Nat) : ofBytesBE (toBytesBe x) = x := by
  rw [toBytesBe]
  split
  · next h =>
      rw [h]
      rfl
  · have hlt : ∀ d ∈ (Nat.digits 256 x).reverse, d < 256 := by
      intro d hd
      exact Nat.digits_lt_base (by decide) (List.mem_reverse.mp hd)
    rw [ofBytesBE, map_toNat_ofNat hlt, ofBE, List.reverse_reverse, Nat.ofDigits_digits]

theorem length_toBytesBe_le {x : Nat} (h : x < 256 ^ targetLen) :
    (toBytesBe x).length ≤ targetLen := by
  rw [toBytesBe]
  split
  · decide
  · rw [List.length_map, List.length_reverse]
    exact (Nat.digits_length_le_iff (by decide) x).mpr h

/-- A padded input is its 24 bytes. -/
theorem padPi_eq {x : Nat} (h : x < 256 ^ targetLen) : padPi x = some (toBytesBE targetLen x) := by
  have hlen := length_toBytesBe_le h
  rw [padPi, if_pos hlen, Option.some.injEq]
  apply ofBytesBE_inj
  · rw [List.length_append, List.length_replicate, length_toBytesBE]
    omega
  · rw [ofBytesBE_toBytesBE h, ofBytesBE, List.map_append, List.map_replicate]
    change ofBE 256 (List.replicate _ 0 ++ _) = x
    rw [ofBE_zeros_append]
    exact ofBytesBE_toBytesBe x

/-- An input made of 24 bytes is read as these bytes. -/
theorem padPi_ofBytesBE {bytes : List UInt8} (h : bytes.length = targetLen) :
    padPi (ofBytesBE bytes) = some bytes := by
  have hlt := ofBytesBE_lt bytes
  rw [h] at hlt
  rw [padPi_eq hlt, Option.some.injEq]
  apply ofBytesBE_inj
  · rw [length_toBytesBE, h]
  · exact ofBytesBE_toBytesBE hlt

/-! ## the layout -/

theorem val_finalProofPublicInputs {groups : List (List UInt8)} (h : ∀ g ∈ groups, g.length = 4)
    (vote : GrandpaVote) :
    (finalProofPublicInputs groups.flatten vote.encode).map ZMod.val =
      groups.map ofBytesBE ++ [vote.blockNumber.toNat] := by
  have hblock := vote.blockNumber.toNat_lt
  rw [finalProofPublicInputs, packDigest_flatten h, fromBoolTargetsLe_blockNumber, List.map_append,
    List.map_singleton, List.map_map, val_natCast (by unfold modulus; omega)]
  congr 1
  apply List.map_congr_left
  intro g hg
  have hlt := ofBytesBE_lt g
  rw [h g hg] at hlt
  exact val_natCast (by unfold modulus; omega)

/-- The words of the contract, as the numbers written by 24 bytes each: the first 24 bytes
of the root; its last 8 bytes, the 4 bytes of the block number and 12 zero bytes. -/
theorem toNat_buildPublicInputs {root : FixedBytes 32} {upper lower : List UInt8}
    (hroot : root.val = upper ++ lower) (hlower : lower.length = 8) (block : UInt32) :
    (Relayer.buildPublicInputs (BitVec.ofNat 256 block.toNat) root).map BitVec.toNat =
      [ofBytesBE upper,
        ofBytesBE (lower ++ (toBytesBE 4 block.toNat ++ List.replicate 12 0))] := by
  have hblock := block.toNat_lt
  have hlt := ofBytesBE_lt lower
  have hzeros : ofBytesBE (List.replicate 12 0) = 0 := by decide
  rw [hlower] at hlt
  rw [Relayer.buildPublicInputs, List.map_cons, List.map_singleton, Relayer.toNat_upper,
    Relayer.toNat_lower, hroot, ofBytesBE_append, ofBytesBE_append, ofBytesBE_append, hlower,
    ofBytesBE_toBytesBE (by omega), hzeros, BitVec.toNat_ofNat, List.length_append,
    length_toBytesBE, List.length_replicate]
  simp only [List.cons.injEq, and_true]
  constructor <;> omega

/-- What the wrapper makes of the public inputs of the final proof. -/
theorem compressPublicInputs_finalProof (root : FixedBytes 32) (vote : GrandpaVote) :
    compressPublicInputs ((finalProofPublicInputs root.val vote.encode).map ZMod.val) =
      (Relayer.buildPublicInputs (BitVec.ofNat 256 vote.blockNumber.toNat) root).map
        BitVec.toNat := by
  have hblock := vote.blockNumber.toNat_lt
  obtain ⟨upper, hupper, hulen, huflat⟩ :=
    exists_groups (n := 6) (k := 4) (l := root.val.take 24) (by simp [root.property])
  obtain ⟨lower, hlower, hllen, hlflat⟩ :=
    exists_groups (n := 2) (k := 4) (l := root.val.drop 24) (by simp [root.property])
  have hroot : root.val = upper.flatten ++ lower.flatten := by
    rw [huflat, hlflat, List.take_append_drop]
  have hgroups : ∀ g ∈ upper ++ lower, g.length = 4 := by
    intro g hg
    rw [List.mem_append] at hg
    cases hg with
    | inl hg => exact hulen g hg
    | inr hg => exact hllen g hg
  have hlen8 : lower.flatten.length = 8 := by rw [hlflat]; simp [root.property]
  rw [toNat_buildPublicInputs hroot hlen8, hroot, ← List.flatten_append,
    val_finalProofPublicInputs hgroups, List.map_append,
    compressPublicInputs_nine (by rw [List.length_map, hupper]) (by rw [List.length_map, hlower])]
  have hzeros : ofBytesBE (List.replicate 12 0) = 0 := by decide
  -- both sides write the same number, by groups of four bytes and by bytes
  rw [show (2 : Nat) ^ 32 = 256 ^ 4 by decide, ← ofBytesBE_flatten hulen, ofBytesBE_append,
    ofBytesBE_append, hzeros, ofBytesBE_toBytesBE (by omega), ofBE_append, ← ofBytesBE_flatten hllen]
  simp [ofBE_cons]

/-- There are nine public inputs, of 32 bits each. -/
theorem finalProofPublicInputs_lt (root : FixedBytes 32) (vote : GrandpaVote) :
    ((finalProofPublicInputs root.val vote.encode).map ZMod.val).length = 9 ∧
      ∀ x ∈ (finalProofPublicInputs root.val vote.encode).map ZMod.val, x < 2 ^ 32 := by
  obtain ⟨groups, hcount, hlen, hflat⟩ :=
    exists_groups (n := 8) (k := 4) (l := root.val) (by rw [root.property])
  rw [← hflat, val_finalProofPublicInputs hlen]
  constructor
  · rw [List.length_append, List.length_map, hcount, List.length_singleton]
  · intro x hx
    rw [List.mem_append, List.mem_singleton, List.mem_map] at hx
    rcases hx with ⟨g, hg, rfl⟩ | rfl
    · have hlt := ofBytesBE_lt g
      rw [hlen g hg] at hlt
      omega
    · exact vote.blockNumber.toNat_lt

/-- The relayer reads back what the contract packs. -/
theorem fromProofAndPublicInputs_buildPublicInputs (root : FixedBytes 32) (block : UInt32)
    (proof : List UInt8) {word₀ word₁ : Relayer.Word}
    (hwords : Relayer.buildPublicInputs (BitVec.ofNat 256 block.toNat) root = [word₀, word₁]) :
    fromProofAndPublicInputs ('0' :: 'x' :: hexEncode proof) (word₀.toNat, word₁.toNat) =
      some ⟨proof, block, root⟩ := by
  have hblock := block.toNat_lt
  have hlower : (root.val.drop 24).length = 8 := by simp [root.property]
  have hsplit := toNat_buildPublicInputs (List.take_append_drop 24 root.val).symm hlower block
  rw [hwords, List.map_cons, List.map_singleton, List.cons.injEq, List.cons.injEq] at hsplit
  obtain ⟨h₀, h₁, -⟩ := hsplit
  have hpad₀ : padPi word₀.toNat = some (root.val.take 24) := by
    rw [h₀]
    exact padPi_ofBytesBE (by simp [root.property, targetLen])
  have hpad₁ : padPi word₁.toNat =
      some (root.val.drop 24 ++ (toBytesBE 4 block.toNat ++ List.replicate 12 0)) := by
    rw [h₁]
    exact padPi_ofBytesBE (by simp [root.property, targetLen])
  have htake : (root.val.drop 24 ++ (toBytesBE 4 block.toNat ++ List.replicate 12 0)).take 8 =
      root.val.drop 24 := List.take_left' hlower
  have hnumber : ((root.val.drop 24 ++ (toBytesBE 4 block.toNat ++ List.replicate 12 0)).drop 8).take 4
      = toBytesBE 4 block.toNat := by
    rw [List.drop_left' hlower, List.take_left' (length_toBytesBE 4 _)]
  unfold fromProofAndPublicInputs
  simp only [hpad₀, hpad₁, htake, hnumber, Option.bind_eq_bind, Option.bind_some,
    List.take_succ_cons, List.take_zero, List.drop_succ_cons, List.drop_zero, if_true,
    hexDecode_hexEncode, ofBytesBE_toBytesBE (show block.toNat < 256 ^ 4 by omega),
    UInt32.ofNat_toNat, List.take_append_drop]
  exact dif_pos root.property

/-- **The four layouts agree.**  For every root and every vote: the nine public inputs of
the final proof pass the wrapper's range check, the compression assigned to them satisfies
the wrapper's circuit and consists of the two words of `_buildPublicInputs`, reduced in the
scalar field already; and the relayer reads the block number and the root back from them. -/
theorem publicInputs_layout (root : FixedBytes 32) (vote : GrandpaVote) (proof : List UInt8) :
    ∃ limbs word₀ word₁,
      limbs = (finalProofPublicInputs root.val vote.encode).map ZMod.val ∧ limbs.length = 9 ∧
      Relayer.buildPublicInputs (BitVec.ofNat 256 vote.blockNumber.toNat) root = [word₀, word₁] ∧
      deserializeCircuit limbs = some ⟨[word₀.toNat, word₁.toNat], limbs⟩ ∧
      (⟨[word₀.toNat, word₁.toNat], limbs⟩ : Plonky2VerifierCircuit).define ∧
      word₀.toNat < scalarField ∧ word₁.toNat < scalarField ∧
      fromProofAndPublicInputs ('0' :: 'x' :: hexEncode proof) (word₀.toNat, word₁.toNat) =
        some ⟨proof, vote.blockNumber, root⟩ := by
  have hlimbs := finalProofPublicInputs_lt root vote
  have hcompress := compressPublicInputs_finalProof root vote
  obtain ⟨word₀, word₁, hwords⟩ : ∃ word₀ word₁, Relayer.buildPublicInputs
      (BitVec.ofNat 256 vote.blockNumber.toNat) root = [word₀, word₁] := ⟨_, _, rfl⟩
  rw [hwords, List.map_cons, List.map_singleton] at hcompress
  have hbound := toNat_buildPublicInputs (List.take_append_drop 24 root.val).symm
    (by simp [root.property]) vote.blockNumber
  rw [hwords, List.map_cons, List.map_singleton, List.cons.injEq, List.cons.injEq] at hbound
  refine ⟨_, word₀, word₁, rfl, hlimbs.1, hwords, ?_, ?_, ?_, ?_, ?_⟩
  · rw [deserializeCircuit_of_lt hlimbs.2, hcompress]
  · rw [← hcompress]
    exact define_compressPublicInputs _
  · have hlt := ofBytesBE_lt (root.val.take 24)
    rw [← hbound.1, List.length_take, root.property, Nat.min_eq_left (by decide)] at hlt
    unfold scalarField
    omega
  · have hlt := ofBytesBE_lt
      (root.val.drop 24 ++ (toBytesBE 4 vote.blockNumber.toNat ++ List.replicate 12 0))
    simp only [← hbound.2.1, List.length_append, List.length_drop, root.property, length_toBytesBE,
      List.length_replicate] at hlt
    unfold scalarField
    omega
  · exact fromProofAndPublicInputs_buildPublicInputs root vote.blockNumber proof hwords

end GearBridges.ProverInterface
