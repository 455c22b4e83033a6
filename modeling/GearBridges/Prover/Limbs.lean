import GearBridges.Lib.Digits
import GearBridges.Lib.Goldilocks
import GearBridges.Prover.ValidatorSigns

/-!
# Prover.Limbs

How the circuits turn bits into field elements: bytes become bits most significant bit
first, a digest or a message is packed by 32 bits, numbers of a GRANDPA vote are read
with their lowest byte first.  A packed value is the number its bits write, reduced
modulo the order of the field.

The host packs a digest as the circuits do, but parses what they packed with the lowest
byte of every limb first, so that most digests come back in another order
(`packing_agrees_iff`).
-/

namespace GearBridges.Prover

open Goldilocks Digits

/-! ## bits -/

/-- `byte_to_bits`: the most significant bit comes first. -/
def byteToBits (byte : UInt8) : List Bool :=
  (List.range 8).map fun i => (byte.toNat >>> (7 - i)) % 2 == 1

/-- `array_to_bits`. -/
def arrayToBits (data : List UInt8) : List Bool := (data.map byteToBits).flatten

/-- `CircuitBuilder::le_sum`. -/
def leSum (bits : List Bool) : F := bits.foldr (fun bit sum => (bit.toNat : F) + 2 * sum) 0

/-- The order in which `bits_to_target` sums its bits, lowest first. -/
def orderBits (bits : List Bool) (littleEndian : Bool) : List Bool :=
  let groups := chunks 8 bits
  if littleEndian then groups.reverse.flatten.reverse else groups.flatten.reverse

/-- `bits_to_target`. -/
def bitsToTarget (bits : List Bool) (littleEndian : Bool) : F :=
  let bits := orderBits bits littleEndian
  if bits.length = 64 then
    2 ^ 63 * ((bits.getLast?.getD false).toNat : F) + leSum bits.dropLast
  else leSum bits

def fromBoolTargetsLe (bits : List Bool) : F := bitsToTarget bits true

def fromBoolTargetsBe (bits : List Bool) : F := bitsToTarget bits false

def fromU64BitsLeLossy (bits : List Bool) : F := fromBoolTargetsLe bits

/-- `BitArrayTarget::compress_to_goldilocks`. -/
def compressToGoldilocks (packBy : Nat) (bits : List Bool) : List F :=
  (chunks packBy bits).map fromBoolTargetsBe

/-- `Blake2TargetGoldilocks::from_blake2_target` and
`MessageTargetGoldilocks::from_bit_array`: 32 bytes packed into eight elements. -/
def packDigest (bytes : List UInt8) : List F := compressToGoldilocks 32 (arrayToBits bytes)

/-! ## what the bits of bytes write -/

@[simp] theorem length_byteToBits (byte : UInt8) : (byteToBits byte).length = 8 := by
  simp [byteToBits]

theorem ofBE_byteToBits (byte : UInt8) :
    ofBE 2 ((byteToBits byte).map Bool.toNat) = byte.toNat := by
  have h : ∀ n : Fin 256, ofBE 2 ((byteToBits (UInt8.ofNat n.val)).map Bool.toNat) = n.val := by
    decide +kernel
  have hbyte := h ⟨byte.toNat, byte.toNat_lt⟩
  rwa [UInt8.ofNat_toNat] at hbyte

theorem length_of_mem_map_byteToBits {data : List UInt8} {g : List Bool}
    (h : g ∈ data.map byteToBits) : g.length = 8 := by
  obtain ⟨byte, _, rfl⟩ := List.mem_map.mp h
  exact length_byteToBits byte

/-- The bits of bytes are grouped into these bytes again. -/
theorem chunks_arrayToBits (data : List UInt8) :
    chunks 8 (arrayToBits data) = data.map byteToBits :=
  chunks_flatten (by decide) fun _ => length_of_mem_map_byteToBits

/-- The bits of bytes write the same number as the bytes. -/
theorem ofBE_arrayToBits (data : List UInt8) :
    ofBE 2 ((arrayToBits data).map Bool.toNat) = ofBytesBE data := by
  have hgroups : ∀ g ∈ (data.map byteToBits).map (List.map Bool.toNat), g.length = 8 := by
    intro g hg
    obtain ⟨bits, hbits, rfl⟩ := List.mem_map.mp hg
    rw [List.length_map]
    exact length_of_mem_map_byteToBits hbits
  rw [arrayToBits, List.map_flatten, ofBE_flatten 2 hgroups, List.map_map, List.map_map, ofBytesBE]
  refine congrArg (ofBE 256) (List.map_congr_left ?_)
  intro byte _
  exact ofBE_byteToBits byte

theorem length_arrayToBits (data : List UInt8) : (arrayToBits data).length = 8 * data.length := by
  induction data with
  | nil => rfl
  | cons byte data ih =>
      rw [arrayToBits, List.map_cons, List.flatten_cons, List.length_append, length_byteToBits]
      rw [arrayToBits] at ih
      rw [ih, List.length_cons]
      omega

theorem byteToBits_injective : Function.Injective byteToBits := by
  intro a b h
  apply UInt8.toNat_inj.mp
  rw [← ofBE_byteToBits a, h, ofBE_byteToBits]

theorem arrayToBits_injective : Function.Injective arrayToBits := by
  intro data other h
  have hchunks := congrArg (chunks 8) h
  rw [chunks_arrayToBits, chunks_arrayToBits] at hchunks
  exact List.map_injective_iff.mpr byteToBits_injective hchunks

theorem arrayToBits_append (data rest : List UInt8) :
    arrayToBits (data ++ rest) = arrayToBits data ++ arrayToBits rest := by
  rw [arrayToBits, List.map_append, List.flatten_append, arrayToBits, arrayToBits]

theorem arrayToBits_flatten (groups : List (List UInt8)) :
    arrayToBits groups.flatten = (groups.map arrayToBits).flatten := by
  induction groups with
  | nil => rfl
  | cons g groups ih =>
      rw [List.flatten_cons, arrayToBits_append, ih, List.map_cons, List.flatten_cons]

theorem arrayToBits_zeros (n : Nat) :
    arrayToBits (List.replicate n 0) = List.replicate (8 * n) false := by
  induction n with
  | zero => rfl
  | succ n ih =>
      rw [List.replicate_succ', arrayToBits_append, ih, Nat.mul_succ, ← List.replicate_append_replicate]
      rfl

/-- The bits of the first bytes. -/
theorem take_arrayToBits (data : List UInt8) (n : Nat) :
    (arrayToBits data).take (8 * n) = arrayToBits (data.take n) := by
  by_cases h : n ≤ data.length
  · have hlen : (arrayToBits (data.take n)).length = 8 * n := by
      rw [length_arrayToBits, List.length_take_of_le h]
    conv_lhs => rw [← List.take_append_drop n data, arrayToBits_append]
    rw [List.take_left' hlen]
  · rw [List.take_of_length_le (by omega : data.length ≤ n),
      List.take_of_length_le (by rw [length_arrayToBits]; omega)]

/-! ## what is packed -/

theorem leSum_eq (bits : List Bool) :
    leSum bits = ((ofBE 2 (bits.reverse.map Bool.toNat) : Nat) : F) := by
  induction bits with
  | nil => simp [leSum]
  | cons bit bits ih =>
      rw [leSum, List.foldr_cons, ← leSum, ih, List.reverse_cons, List.map_append, List.map_singleton,
        ofBE_append, ofBE_singleton, List.length_singleton]
      push_cast
      ring

theorem leSum_concat (bits : List Bool) (bit : Bool) :
    leSum (bits ++ [bit]) = 2 ^ bits.length * (bit.toNat : F) + leSum bits := by
  rw [leSum_eq, leSum_eq, List.reverse_append, List.reverse_singleton, List.map_append,
    List.map_singleton, ofBE_append, ofBE_singleton, List.length_map, List.length_reverse]
  push_cast
  ring

/-- Taking the highest of 64 bits apart does not change the sum. -/
theorem leSum_of_length_64 {bits : List Bool} (h : bits.length = 64) :
    2 ^ 63 * ((bits.getLast?.getD false).toNat : F) + leSum bits.dropLast = leSum bits := by
  have hne : bits ≠ [] := by
    intro hnil
    rw [hnil] at h
    cases h
  have hlen : bits.dropLast.length = 63 := by rw [List.length_dropLast, h]
  conv_rhs => rw [← List.dropLast_concat_getLast hne]
  rw [leSum_concat, hlen, List.getLast?_eq_getLast_of_ne_nil hne, Option.getD_some]

theorem bitsToTarget_eq (bits : List Bool) (littleEndian : Bool) :
    bitsToTarget bits littleEndian = leSum (orderBits bits littleEndian) := by
  rw [bitsToTarget]
  split
  · next h => exact leSum_of_length_64 h
  · rfl

theorem fromBoolTargetsBe_arrayToBits (data : List UInt8) :
    fromBoolTargetsBe (arrayToBits data) = ((ofBytesBE data : Nat) : F) := by
  rw [fromBoolTargetsBe, bitsToTarget_eq, orderBits, if_neg Bool.false_ne_true, chunks_arrayToBits, leSum_eq,
    List.reverse_reverse, ← arrayToBits, ofBE_arrayToBits]

theorem fromBoolTargetsLe_arrayToBits (data : List UInt8) :
    fromBoolTargetsLe (arrayToBits data) = ((ofBytesBE data.reverse : Nat) : F) := by
  rw [fromBoolTargetsLe, bitsToTarget_eq, orderBits, if_pos rfl, chunks_arrayToBits, leSum_eq,
    List.reverse_reverse, ← List.map_reverse, ← arrayToBits, ofBE_arrayToBits]

/-- Four bytes make an element. -/
theorem packDigest_flatten {groups : List (List UInt8)} (h : ∀ g ∈ groups, g.length = 4) :
    packDigest groups.flatten = groups.map fun g => ((ofBytesBE g : Nat) : F) := by
  have hbits : arrayToBits groups.flatten = (groups.map arrayToBits).flatten := by
    rw [arrayToBits, List.map_flatten, List.flatten_flatten, List.map_map]
    rfl
  have hlen : ∀ g ∈ groups.map arrayToBits, g.length = 32 := by
    intro g hg
    obtain ⟨bytes, hbytes, rfl⟩ := List.mem_map.mp hg
    rw [length_arrayToBits, h bytes hbytes]
  rw [packDigest, compressToGoldilocks, hbits, chunks_flatten (by decide) hlen, List.map_map]
  apply List.map_congr_left
  intro g _
  exact fromBoolTargetsBe_arrayToBits g

/-- Packing loses nothing of a digest. -/
theorem packDigest_inj {a b : List UInt8} (ha : a.length = 32) (hb : b.length = 32)
    (h : packDigest a = packDigest b) : a = b := by
  obtain ⟨as, hacount, halen, rfl⟩ := exists_groups (n := 8) (k := 4) ha
  obtain ⟨bs, hbcount, hblen, rfl⟩ := exists_groups (n := 8) (k := 4) hb
  rw [packDigest_flatten halen, packDigest_flatten hblen] at h
  have hsmall : ∀ g : List UInt8, g.length = 4 → ofBytesBE g < modulus := by
    intro g hg
    have hlt := ofBytesBE_lt g
    rw [hg] at hlt
    unfold modulus
    omega
  congr 1
  apply List.ext_getElem (hacount.trans hbcount.symm)
  intro i hi hi'
  have hpacked : ((ofBytesBE as[i] : Nat) : F) = ((ofBytesBE bs[i] : Nat) : F) := by
    have := congrArg (·[i]?) h
    simpa [hi, hi'] using this
  have halen := halen _ (List.getElem_mem hi)
  have hblen := hblen _ (List.getElem_mem hi')
  rw [natCast_inj (hsmall _ halen) (hsmall _ hblen)] at hpacked
  exact ofBytesBE_inj (halen.trans hblen.symm) hpacked

/-! ## digests outside of the circuits -/

/-- `GenesisConfig::authority_set_hash_goldilocks`. -/
def authoritySetHashGoldilocks (authoritySetHash : List UInt8) : List Nat :=
  (chunks 4 authoritySetHash).map ofBytesBE

/-- `u32::to_le_bytes`. -/
def u32ToLeBytes (x : Nat) : List UInt8 := (toBytesBE 4 (x % 2 ^ 32)).reverse

/-- `Blake2TargetGoldilocks::parse_public_inputs`; too few inputs make it panic. -/
def parseDigest (publicInputs : List F) : Option (List UInt8) :=
  let bytes := (publicInputs.take 8).flatMap fun f => u32ToLeBytes f.val
  if bytes.length = 32 then some bytes else none

/-- The three sides agree on a digest, and no other digest is packed like it. -/
structure PackingAgrees (digest : List UInt8) : Prop where
  limbs : (packDigest digest).map ZMod.val = authoritySetHashGoldilocks digest
  parsed : parseDigest (packDigest digest) = some digest
  injective : ∀ other : List UInt8, other.length = 32 → packDigest other = packDigest digest →
    other = digest

/-- The number of a limb is not reduced. -/
theorem val_limb {limb : List UInt8} (h : limb.length = 4) :
    ((ofBytesBE limb : Nat) : F).val = ofBytesBE limb := by
  have hlt := ofBytesBE_lt limb
  rw [h] at hlt
  exact val_natCast (by unfold modulus; omega)

theorem packDigest_eq {digest : List UInt8} (h : digest.length = 32) :
    packDigest digest = (chunks 4 digest).map fun limb => ((ofBytesBE limb : Nat) : F) := by
  obtain ⟨-, hlimbs, hflat⟩ := chunks_spec (n := 8) (k := 4) (by decide) h
  conv_lhs => rw [← hflat]
  exact packDigest_flatten hlimbs

/-- The circuit packs what the host does. -/
theorem packDigest_eq_authoritySetHashGoldilocks {digest : List UInt8} (h : digest.length = 32) :
    (packDigest digest).map ZMod.val = authoritySetHashGoldilocks digest := by
  obtain ⟨-, hlimbs, -⟩ := chunks_spec (n := 8) (k := 4) (by decide) h
  rw [packDigest_eq h, authoritySetHashGoldilocks, List.map_map]
  apply List.map_congr_left
  intro limb hmem
  exact val_limb (hlimbs limb hmem)

theorem u32ToLeBytes_limb {limb : List UInt8} (h : limb.length = 4) :
    u32ToLeBytes (ofBytesBE limb) = limb.reverse := by
  have hlt := ofBytesBE_lt limb
  have hbytes := toBytesBE_ofBytesBE limb
  rw [h] at hlt hbytes
  rw [u32ToLeBytes, Nat.mod_eq_of_lt (by omega), hbytes]

/-- The parser turns the bytes of every limb around. -/
theorem parseDigest_packDigest {digest : List UInt8} (h : digest.length = 32) :
    parseDigest (packDigest digest) = some ((chunks 4 digest).map List.reverse).flatten := by
  obtain ⟨hcount, hlimbs, hflat⟩ := chunks_spec (n := 8) (k := 4) (by decide) h
  have hbytes : ((packDigest digest).take 8).flatMap (fun f => u32ToLeBytes f.val) =
      ((chunks 4 digest).map List.reverse).flatten := by
    rw [packDigest_eq h, List.take_of_length_le (by rw [List.length_map, hcount]),
      List.flatMap_def, List.map_map]
    congr 1
    apply List.map_congr_left
    intro limb hmem
    rw [Function.comp_apply, val_limb (hlimbs limb hmem), u32ToLeBytes_limb (hlimbs limb hmem)]
  have hlen : ((chunks 4 digest).map List.reverse).flatten.length = 32 := by
    rw [List.length_flatten, List.map_map, ← h]
    conv_rhs => rw [← hflat, List.length_flatten]
    congr 1
    apply List.map_congr_left
    intro limb _
    exact List.length_reverse
  rw [parseDigest, hbytes, if_pos hlen]

/-- **The three sides agree** exactly on the digests whose groups of four bytes read the same both
ways. -/
theorem packing_agrees_iff {digest : List UInt8} (h : digest.length = 32) :
    PackingAgrees digest ↔ ∀ limb ∈ chunks 4 digest, limb.reverse = limb := by
  obtain ⟨-, hlimbs, hflat⟩ := chunks_spec (n := 8) (k := 4) (by decide) h
  have hparsed : parseDigest (packDigest digest) = some digest ↔
      ∀ limb ∈ chunks 4 digest, limb.reverse = limb := by
    rw [parseDigest_packDigest h, Option.some.injEq]
    constructor
    · intro heq
      have hchunks := congrArg (chunks 4) heq
      rw [chunks_flatten (by decide)] at hchunks
      · conv_rhs at hchunks => rw [← List.map_id (chunks 4 digest)]
        exact List.map_inj_left.mp hchunks
      · intro limb hmem
        obtain ⟨limb, hlimb, rfl⟩ := List.mem_map.mp hmem
        rw [List.length_reverse, hlimbs limb hlimb]
    · intro hsame
      have hmap : (chunks 4 digest).map List.reverse = chunks 4 digest := by
        conv_rhs => rw [← List.map_id (chunks 4 digest)]
        exact List.map_inj_left.mpr hsame
      rw [hmap, hflat]
  constructor
  · intro hagrees
    exact hparsed.mp hagrees.parsed
  · intro hsame
    exact ⟨packDigest_eq_authoritySetHashGoldilocks h, hparsed.mpr hsame,
      fun other hother heq => packDigest_inj hother h heq⟩

/-- Eight groups that differ from each other and read the same both ways. -/
def palindromes : List UInt8 :=
  [0, 1, 1, 0, 2, 3, 3, 2, 4, 5, 5, 4, 6, 7, 7, 6, 8, 9, 9, 8, 10, 11, 11, 10, 12, 13, 13, 12,
    14, 255, 255, 14]

/-- The sides agree on different groups, too. -/
theorem packing_agrees_iff_palindromes : PackingAgrees palindromes :=
  (@packing_agrees_iff palindromes (by decide)).mpr (by decide)

/-- The bytes 0 to 31 come back in another order. -/
theorem digest_turned_around : ¬ ∀ digest : List UInt8, digest.length = 32 →
    PackingAgrees digest := by
  intro hall
  have hlen : ((List.range 32).map UInt8.ofNat).length = 32 := by decide
  have hsame := (packing_agrees_iff hlen).mp (hall _ hlen)
  revert hsame
  decide

/-! ## GRANDPA votes -/

/-- The lowest byte comes first. -/
def leBytes (n x : Nat) : List UInt8 := (toBytesBE n x).reverse

theorem ofBytesBE_reverse_leBytes {n x : Nat} (h : x < 256 ^ n) :
    ofBytesBE (leBytes n x).reverse = x := by
  rw [leBytes, List.reverse_reverse, ofBytesBE_toBytesBE h]

/-- The vote that validators sign, in the layout of `GrandpaMessageTarget`. -/
structure GrandpaVote where
  discriminant : UInt8
  blockHash : { bytes : List UInt8 // bytes.length = 32 }
  blockNumber : UInt32
  roundNumber : UInt64
  authoritySetId : UInt64

def GrandpaVote.encode (vote : GrandpaVote) : GrandpaMessage :=
  ⟨[vote.discriminant] ++ (vote.blockHash.val ++ (leBytes 4 vote.blockNumber.toNat ++
    (leBytes 8 vote.roundNumber.toNat ++ leBytes 8 vote.authoritySetId.toNat))), by
    simp [leBytes, vote.blockHash.property, grandpaVoteLength]⟩

/-- Fields of `GrandpaMessageTarget`, as bytes. -/
def blockHashOf (message : GrandpaMessage) : List UInt8 := (message.val.drop 1).take 32

def blockNumberOf (message : GrandpaMessage) : List UInt8 := (message.val.drop 33).take 4

def authoritySetIdOf (message : GrandpaMessage) : List UInt8 := (message.val.drop 45).take 8

@[simp] theorem blockNumberOf_encode (vote : GrandpaVote) :
    blockNumberOf vote.encode = leBytes 4 vote.blockNumber.toNat := by
  have h := vote.blockHash.property
  simp [blockNumberOf, GrandpaVote.encode, h, leBytes]

@[simp] theorem authoritySetIdOf_encode (vote : GrandpaVote) :
    authoritySetIdOf vote.encode = leBytes 8 vote.authoritySetId.toNat := by
  have hfront : ([vote.discriminant] ++ (vote.blockHash.val ++ (leBytes 4 vote.blockNumber.toNat ++
      leBytes 8 vote.roundNumber.toNat))).length = 45 := by
    simp [leBytes, vote.blockHash.property]
  have hlen : (leBytes 8 vote.authoritySetId.toNat).length = 8 := by simp [leBytes]
  rw [authoritySetIdOf, GrandpaVote.encode]
  simp only [← List.append_assoc] at hfront ⊢
  rw [List.drop_left' hfront, List.take_of_length_le (Nat.le_of_eq hlen)]

@[simp] theorem blockHashOf_encode (vote : GrandpaVote) :
    blockHashOf vote.encode = vote.blockHash.val := by
  have h := vote.blockHash.property
  simp [blockHashOf, GrandpaVote.encode, h, leBytes]

/-- The block number of a vote fits its element. -/
theorem fromBoolTargetsLe_blockNumber (vote : GrandpaVote) :
    fromBoolTargetsLe (arrayToBits (blockNumberOf vote.encode)) = (vote.blockNumber.toNat : F) := by
  have h := vote.blockNumber.toNat_lt
  rw [blockNumberOf_encode, fromBoolTargetsLe_arrayToBits, ofBytesBE_reverse_leBytes (by omega)]

/-- The authority set id of a vote is reduced modulo the order of the field. -/
theorem fromU64BitsLeLossy_authoritySetId (vote : GrandpaVote) :
    fromU64BitsLeLossy (arrayToBits (authoritySetIdOf vote.encode)) =
      (vote.authoritySetId.toNat : F) := by
  have h := vote.authoritySetId.toNat_lt
  rw [fromU64BitsLeLossy, authoritySetIdOf_encode, fromBoolTargetsLe_arrayToBits,
    ofBytesBE_reverse_leBytes (by omega)]

/-- The public inputs that `FinalProof::prove` registers. -/
def finalProofPublicInputs (merkleTrieRoot : List UInt8) (message : GrandpaMessage) : List F :=
  packDigest merkleTrieRoot ++ [fromBoolTargetsLe (arrayToBits (blockNumberOf message))]

end GearBridges.Prover
