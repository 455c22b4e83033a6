import GearBridges.Prover.CyclicProofs
import GearBridges.Prover.Limbs

/-!
# Prover.ValidatorSetChain

What a proof of the latest validator set says: from the genesis set on, every set has
finalized a block that stores the hash of the next one (`SetChain`).  The circuits carry
authority set ids as field elements, so the 64-bit id of a vote is known modulo the order
of the field only (`fromU64BitsLeLossy`).

`BlockFinality` and `StorageInclusion` come in by what their public inputs state.
-/

namespace GearBridges.Prover

open Goldilocks Digits Plonky2Blake2b256 CyclicRecursion

/-! ## public inputs -/

/-- `Blake2Target`. -/
abbrev Digest32 := { bytes : List UInt8 // bytes.length = 32 }

/-- Nibbles of a storage item. -/
abbrev StorageAddress := List UInt8

structure BlockFinalityTarget where
  validatorSetHash : Digest32
  message : GrandpaMessage

structure StorageInclusionTarget where
  blockHash : Digest32
  storageItemHash : List UInt8

theorem length_blockHashOf (message : GrandpaMessage) : (blockHashOf message).length = 32 := by
  have h := message.property
  unfold grandpaVoteLength at h
  rw [blockHashOf, List.length_take, List.length_drop, h]
  omega

/-- Block hash that a vote finalizes. -/
def blockHash (message : GrandpaMessage) : Digest32 :=
  ⟨blockHashOf message, length_blockHashOf message⟩

/-- The 64-bit authority set id of a vote. -/
def authoritySetId (message : GrandpaMessage) : Nat := ofBytesBE (authoritySetIdOf message).reverse

/-- The 32-bit block number of a vote. -/
def blockNumber (message : GrandpaMessage) : Nat := ofBytesBE (blockNumberOf message).reverse

theorem fromU64BitsLeLossy_eq (message : GrandpaMessage) :
    fromU64BitsLeLossy (arrayToBits (authoritySetIdOf message)) = (authoritySetId message : F) :=
  fromBoolTargetsLe_arrayToBits _

/-- A block number fits its element. -/
theorem val_fromBoolTargetsLe_blockNumber (message : GrandpaMessage) :
    (fromBoolTargetsLe (arrayToBits (blockNumberOf message))).val = blockNumber message := by
  rw [fromBoolTargetsLe_arrayToBits, val_natCast, blockNumber]
  have hlt := ofBytesBE_lt (blockNumberOf message).reverse
  have hlen : (blockNumberOf message).reverse.length ≤ 4 := by
    rw [List.length_reverse]
    exact List.length_take_le _ _
  have hpow := Nat.pow_le_pow_right (n := 256) (by decide) hlen
  unfold modulus
  omega

/-! ## the circuits -/

/-- What the proofs of the component circuits state. -/
structure Components where
  /-- The vote is finalized by the validators with this hash. -/
  Finalized : Digest32 → GrandpaMessage → Prop
  /-- The storage of the block with this hash holds a value under an address. -/
  Stored : StorageAddress → Digest32 → List UInt8 → Prop

namespace Components

variable (c : Components)

/-- `BlockFinality`. -/
def blockFinality (pis : BlockFinalityTarget) : Prop := c.Finalized pis.validatorSetHash pis.message

/-- `StorageInclusion`, whose address is a constant of the circuit. -/
def storageInclusion (address : StorageAddress) (pis : StorageInclusionTarget) : Prop :=
  ∃ value, c.Stored address pis.blockHash value ∧ pis.storageItemHash = blake2Circuit blake2b value

/-- `NextValidatorSet::prove`. -/
def nextValidatorSet (address : StorageAddress) (pis : NextValidatorSetTarget (List F)) : Prop :=
  ∃ inclusion finality, ∃ storageData : Digest32,
    c.storageInclusion address inclusion ∧ c.blockFinality finality ∧
    inclusion.blockHash = blockHash finality.message ∧
    blake2Circuit blake2b storageData.val = inclusion.storageItemHash ∧
    pis = {
      currentValidatorSetHash := packDigest finality.validatorSetHash.val
      currentAuthoritySetId :=
        fromU64BitsLeLossy (arrayToBits (authoritySetIdOf finality.message))
      nextValidatorSet := packDigest storageData.val }

/-- `MessageSent::prove`. -/
def messageSent (address : StorageAddress) (pis : MessageSentTarget (List F) (List F)) : Prop :=
  ∃ inclusion finality, ∃ merkleTrieRoot : Digest32,
    c.storageInclusion address inclusion ∧ c.blockFinality finality ∧
    inclusion.blockHash = blockHash finality.message ∧
    blake2Circuit blake2b merkleTrieRoot.val = inclusion.storageItemHash ∧
    pis = {
      validatorSetHash := packDigest finality.validatorSetHash.val
      authoritySetId := fromU64BitsLeLossy (arrayToBits (authoritySetIdOf finality.message))
      blockNumber := fromBoolTargetsLe (arrayToBits (blockNumberOf finality.message))
      messageContents := packDigest merkleTrieRoot.val }

/-- Accepted proofs of `LatestValidatorSet`, every layer a proof of this circuit. -/
def latestValidatorSet (address : StorageAddress) : LatestValidatorSetTarget (List F) → Prop :=
  Layers (validatorSetLayer (c.nextValidatorSet address))

end Components

/-- `GenesisConfig` as it is configured. -/
structure Genesis where
  authoritySetId : UInt64
  authoritySetHash : Digest32

/-- The constants of `FinalProof::prove`. -/
def Genesis.config (genesis : Genesis) : GenesisConfig (List F) :=
  ⟨(genesis.authoritySetId.toNat : F),
    (authoritySetHashGoldilocks genesis.authoritySetHash.val).map fun limb : Nat => (limb : F)⟩

/-- `FinalProof::prove`, with its public inputs. -/
def Components.finalProof (c : Components) (setAddress messageAddress : StorageAddress)
    (genesis : Genesis) (messageContents : List F) (blockNumber : F) : Prop :=
  ∃ latest, c.latestValidatorSet setAddress latest ∧
    latest.exposes (c.messageSent messageAddress) genesis.config messageContents blockNumber

/-- The configured hash is packed like the digests of the circuits. -/
theorem Genesis.config_authoritySetHash (genesis : Genesis) :
    genesis.config.authoritySetHash = packDigest genesis.authoritySetHash.val := by
  rw [packDigest_eq genesis.authoritySetHash.property]
  exact List.map_map

/-! ## chains of validator sets -/

/-- Two values with one hash. -/
def Collide (a b : List UInt8) : Prop := a ≠ b ∧ blake2Circuit blake2b a = blake2Circuit blake2b b

namespace Components

variable (c : Components)

/-- The value is stored, or the stored one collides with it. -/
def StoredValue (address : StorageAddress) (block : Digest32) (value : Digest32) : Prop :=
  ∃ stored, c.Stored address block stored ∧ (stored = value.val ∨ Collide stored value.val)

/-- Changes of the validator set from the genesis set on: `carries i` is what the vote of
the `i`-th change says of its authority set id. -/
inductive SetChain (address : StorageAddress) (carries : Nat → GrandpaMessage → Prop)
    (genesis : Digest32) : Nat → Digest32 → Prop
  | genesis : SetChain address carries genesis 0 genesis
  | change {n : Nat} {current next : Digest32} {message : GrandpaMessage}
      (chain : SetChain address carries genesis n current) (finalized : c.Finalized current message)
      (carried : carries n message)
      (stored : c.StoredValue address (blockHash message) next) :
      SetChain address carries genesis (n + 1) next

end Components

/-- The vote carries an id, exactly. -/
def idExactly (id i : Nat) (message : GrandpaMessage) : Prop := authoritySetId message = id + i

/-- The vote carries an id up to the order of the field. -/
def idModulo (id i : Nat) (message : GrandpaMessage) : Prop :=
  authoritySetId message ≡ id + i [MOD modulus]

theorem idModulo_iff {id i : Nat} {message : GrandpaMessage} :
    idModulo id i message ↔ (authoritySetId message : F) = (id : F) + (i : F) := by
  rw [idModulo, ← ZMod.natCast_eq_natCast_iff, Nat.cast_add]

/-- Below the order of the field the ids are exact. -/
theorem idExactly_of_idModulo {id i : Nat} {message : GrandpaMessage}
    (h : idModulo id i message) (hmessage : authoritySetId message < modulus)
    (hid : id + i < modulus) : idExactly id i message :=
  Nat.ModEq.eq_of_lt_of_lt h hmessage hid

namespace Components

variable {c : Components} {address : StorageAddress}

/-- What `StorageInclusion` states of data with the hash it exposes. -/
theorem storedValue_of_inclusion {inclusion : StorageInclusionTarget} {block value : Digest32}
    (h : c.storageInclusion address inclusion) (hblock : inclusion.blockHash = block)
    (hhash : blake2Circuit blake2b value.val = inclusion.storageItemHash) :
    c.StoredValue address block value := by
  obtain ⟨stored, hstored, heq⟩ := h
  subst hblock
  refine ⟨stored, hstored, ?_⟩
  by_cases hsame : stored = value.val
  · exact .inl hsame
  · exact .inr ⟨hsame, heq.symm.trans hhash.symm⟩

/-- What `NextValidatorSet` states of the set before and after the change. -/
theorem change_of_nextValidatorSet {pis : NextValidatorSetTarget (List F)}
    (h : c.nextValidatorSet address pis) : ∃ current message next,
      c.Finalized current message ∧ c.StoredValue address (blockHash message) next ∧
      pis = ⟨packDigest current.val, (authoritySetId message : F), packDigest next.val⟩ := by
  obtain ⟨inclusion, finality, storageData, hinclusion, hfinality, hblock, hhash, rfl⟩ := h
  exact ⟨finality.validatorSetHash, finality.message, storageData, hfinality,
    storedValue_of_inclusion hinclusion hblock hhash, by rw [fromU64BitsLeLossy_eq]⟩

/-- **Every accepted proof is a chain**, by induction over its layers. -/
theorem setChain_of_latestValidatorSet {latest : LatestValidatorSetTarget (List F)}
    (h : c.latestValidatorSet address latest) : ∃ genesis current, ∃ n : Nat, 0 < n ∧
      packDigest genesis.val = latest.genesisHash ∧ packDigest current.val = latest.currentHash ∧
      latest.currentSetId = latest.genesisSetId + (n : F) ∧
      c.SetChain address (idModulo latest.genesisSetId.val) genesis n current := by
  induction h with
  | @layer condition inner outer hlayer _ ih =>
      obtain ⟨change, hchange, hgenesisId, hgenesisHash, hid, hhash, hnextId, hnextHash⟩ := hlayer
      obtain ⟨current, message, next, hfinalized, hstored, rfl⟩ := change_of_nextValidatorSet hchange
      cases condition with
      | false =>
          -- the first layer: the inner public inputs are free, the genesis ones are not
          refine ⟨current, next, 1, Nat.one_pos, hhash.symm, hnextHash.symm, ?_, ?_⟩
          · rw [hnextId, ← hid, Nat.cast_one]
            rfl
          · refine .change .genesis hfinalized (idModulo_iff.mpr ?_) hstored
            rw [Nat.cast_zero, add_zero, ZMod.natCast_zmod_val]
            exact hid.symm
      | true =>
          obtain ⟨genesis, last, n, hn, hgenesis, hlast, hlastId, hchain⟩ := ih rfl
          have hsame : last = current := by
            apply Subtype.ext
            exact packDigest_inj last.property current.property (hlast.trans hhash)
          subst hsame
          have hcarried : (authoritySetId message : F) = outer.genesisSetId + (n : F) := by
            rw [hgenesisId, ← hlastId]
            exact hid.symm
          rw [← hgenesisId] at hchain
          refine ⟨genesis, next, n + 1, Nat.succ_pos n, hgenesis.trans hgenesisHash.symm,
            hnextHash.symm, ?_, ?_⟩
          · rw [hnextId, hcarried, Nat.cast_succ, add_assoc]
          · refine .change hchain hfinalized (idModulo_iff.mpr ?_) hstored
            rw [ZMod.natCast_zmod_val]
            exact hcarried

/-- A chain with another reading of the carried ids. -/
theorem SetChain.mono {carries carries' : Nat → GrandpaMessage → Prop} {genesis current : Digest32}
    {n : Nat} (h : c.SetChain address carries genesis n current)
    (hcarries : ∀ i < n, ∀ set message, c.Finalized set message → carries i message →
      carries' i message) : c.SetChain address carries' genesis n current := by
  induction h with
  | genesis => exact .genesis
  | change _ finalized carried stored ih =>
      refine .change (ih fun i hi => hcarries i (Nat.lt_succ_of_lt hi)) finalized ?_ stored
      exact hcarries _ (Nat.lt_succ_self _) _ _ finalized carried

/-- Starting from ids that agree modulo the order of the field changes nothing. -/
theorem SetChain.congr_id {id id' : Nat} (hid : id ≡ id' [MOD modulus]) {genesis current : Digest32}
    {n : Nat} (h : c.SetChain address (idModulo id) genesis n current) :
    c.SetChain address (idModulo id') genesis n current :=
  h.mono fun i _ _ _ _ hcarried => hcarried.trans (hid.add_right i)

end Components

/-- **Chains of validator sets**: an accepted proof of the latest validator set is a chain
of changes from its genesis set to its current one, and a final proof shows the message
root in a block with its number, finalized by the last set of a chain from the configured
genesis.  The ids that the votes carry grow by one with every change, modulo the order of
the field; they do so exactly if neither they nor the ids reach it. -/
theorem validatorSet_chains (c : Components) (setAddress messageAddress : StorageAddress) :
    (∀ latest, c.latestValidatorSet setAddress latest → ∃ genesis current, ∃ n : Nat, 0 < n ∧
      packDigest genesis.val = latest.genesisHash ∧ packDigest current.val = latest.currentHash ∧
      latest.currentSetId = latest.genesisSetId + (n : F) ∧
      c.SetChain setAddress (idModulo latest.genesisSetId.val) genesis n current) ∧
    (∀ genesis contents block,
      c.finalProof setAddress messageAddress genesis contents block →
      ∃ current n message root, 0 < n ∧
        c.SetChain setAddress (idModulo genesis.authoritySetId.toNat) genesis.authoritySetHash n
          current ∧
        c.Finalized current message ∧ idModulo genesis.authoritySetId.toNat n message ∧
        c.StoredValue messageAddress (blockHash message) root ∧
        contents = packDigest root.val ∧ block.val = blockNumber message) ∧
    ∀ id genesis n current, (∀ set message, c.Finalized set message →
        authoritySetId message < modulus) → id + n ≤ modulus →
      c.SetChain setAddress (idModulo id) genesis n current →
      c.SetChain setAddress (idExactly id) genesis n current := by
  refine ⟨fun latest h => Components.setChain_of_latestValidatorSet h, ?_, ?_⟩
  · rintro genesis contents block ⟨latest, hlatest, pis, hmessage, hset, hid, hgenesisId,
      hgenesisHash, rfl, rfl⟩
    obtain ⟨first, current, n, hn, hfirst, hcurrent, hcurrentId, hchain⟩ :=
      Components.setChain_of_latestValidatorSet hlatest
    obtain ⟨inclusion, finality, root, hinclusion, hfinality, hblock, hhash, rfl⟩ := hmessage
    have hgenesis : genesis.authoritySetHash = first := by
      apply Subtype.ext
      refine packDigest_inj genesis.authoritySetHash.property first.property ?_
      rw [hfirst, ← hgenesisHash, genesis.config_authoritySetHash]
    have hlast : finality.validatorSetHash = current := by
      apply Subtype.ext
      exact packDigest_inj finality.validatorSetHash.property current.property
        (hset.trans hcurrent.symm)
    have hstart : (genesis.authoritySetId.toNat : F) = latest.genesisSetId := hgenesisId
    have hcongr : latest.genesisSetId.val ≡ genesis.authoritySetId.toNat [MOD modulus] := by
      rw [← hstart, ZMod.val_natCast]
      exact Nat.mod_modEq _ _
    subst hgenesis hlast
    refine ⟨_, n, finality.message, root, hn, hchain.congr_id hcongr, hfinality, ?_,
      Components.storedValue_of_inclusion hinclusion hblock hhash, rfl,
      val_fromBoolTargetsLe_blockNumber _⟩
    rw [idModulo_iff, hstart, ← hcurrentId, ← hid]
    exact (fromU64BitsLeLossy_eq finality.message).symm
  · intro id genesis n current hsmall hid hchain
    refine hchain.mono ?_
    intro i hi set message hfinalized hcarried
    exact idExactly_of_idModulo hcarried (hsmall set message hfinalized) (by omega)

/-! ## an id above the order of the field -/

theorem length_sampleDigest (byte : UInt8) : (List.replicate 32 byte).length = 32 :=
  List.length_replicate

def sampleDigest (byte : UInt8) : Digest32 := ⟨List.replicate 32 byte, length_sampleDigest byte⟩

/-- A vote with an authority set id. -/
def voteWithId (block : UInt8) (id : UInt64) : GrandpaVote := ⟨1, sampleDigest block, 1, 0, id⟩

/-- The set of hash `0` votes with the order of the field as its id, the next one with
id `1`. -/
def aliasComponents : Components where
  Finalized set message :=
    (set = sampleDigest 0 ∧ message = (voteWithId 10 18446744069414584321).encode) ∨
    (set = sampleDigest 1 ∧ message = (voteWithId 11 1).encode)
  Stored _ block value :=
    (block = sampleDigest 10 ∧ value = (sampleDigest 1).val) ∨
    (block = sampleDigest 11 ∧ value = (sampleDigest 2).val)

theorem authoritySetId_encode (vote : GrandpaVote) :
    authoritySetId vote.encode = vote.authoritySetId.toNat := by
  have h := vote.authoritySetId.toNat_lt
  rw [authoritySetId, authoritySetIdOf_encode, ofBytesBE_reverse_leBytes (by omega)]

theorem blockHash_encode (vote : GrandpaVote) : blockHash vote.encode = vote.blockHash :=
  Subtype.ext (blockHashOf_encode vote)

theorem nextValidatorSet_alias {set next : Digest32} {vote : GrandpaVote}
    (hfinalized : aliasComponents.Finalized set vote.encode)
    (hstored : aliasComponents.Stored [] vote.blockHash next.val) :
    aliasComponents.nextValidatorSet []
      ⟨packDigest set.val, (vote.authoritySetId.toNat : F), packDigest next.val⟩ := by
  refine ⟨⟨vote.blockHash, blake2Circuit blake2b next.val⟩, ⟨set, vote.encode⟩, next,
    ⟨next.val, hstored, rfl⟩, hfinalized, (blockHash_encode vote).symm, rfl, ?_⟩
  rw [fromU64BitsLeLossy_authoritySetId]

/-- Two changes, the first under an id that is `0` in the field. -/
def aliasLatest : LatestValidatorSetTarget (List F) :=
  ⟨0, packDigest (sampleDigest 0).val, 2, packDigest (sampleDigest 2).val⟩

theorem latestValidatorSet_alias : aliasComponents.latestValidatorSet [] aliasLatest := by
  have hfirst : validatorSetLayer (aliasComponents.nextValidatorSet []) false
      ⟨0, packDigest (sampleDigest 0).val, 0, []⟩
      ⟨0, packDigest (sampleDigest 0).val, 1, packDigest (sampleDigest 1).val⟩ :=
    ⟨_, nextValidatorSet_alias (.inl ⟨rfl, rfl⟩) (.inl ⟨rfl, rfl⟩), rfl, rfl,
      by decide +kernel, rfl, by decide +kernel, rfl⟩
  have hsecond : validatorSetLayer (aliasComponents.nextValidatorSet []) true
      ⟨0, packDigest (sampleDigest 0).val, 1, packDigest (sampleDigest 1).val⟩ aliasLatest :=
    ⟨_, nextValidatorSet_alias (.inr ⟨rfl, rfl⟩) (.inr ⟨rfl, rfl⟩), rfl, rfl,
      by decide +kernel, rfl, by decide +kernel, rfl⟩
  exact .layer hsecond fun _ => .layer hfirst fun h => by contradiction

/-- With exact ids the chain ends after the first change. -/
theorem setChain_alias {id n : Nat} {current : Digest32}
    (h : aliasComponents.SetChain [] (idExactly id) (sampleDigest 0) n current) :
    (n = 0 ∧ current = sampleDigest 0) ∨ (n = 1 ∧ id = modulus) := by
  induction h with
  | genesis => exact .inl ⟨rfl, rfl⟩
  | change _ finalized carried _ ih =>
      simp only [idExactly] at carried
      rcases finalized with ⟨-, rfl⟩ | ⟨hset, rfl⟩
      · rw [authoritySetId_encode] at carried
        have hid : modulus = id + _ := carried
        rcases ih with ⟨rfl, -⟩ | ⟨rfl, rfl⟩
        · exact .inr ⟨rfl, hid.symm⟩
        · omega
      · rw [authoritySetId_encode] at carried
        have hid : 1 = id + _ := carried
        rcases ih with ⟨-, hcurrent⟩ | ⟨rfl, rfl⟩
        · rw [hcurrent] at hset
          exact absurd (congrArg Subtype.val hset) (by decide)
        · unfold modulus at hid
          omega

/-- **Ids are not exact**: the votes of this accepted proof carry the ids `modulus` and
`1`, so no chain with ids that grow by exactly one has its public inputs. -/
theorem validatorSet_ids_inexact : aliasComponents.latestValidatorSet [] aliasLatest ∧
    ¬ ∃ (id n : Nat) (genesis current : Digest32), (id : F) = aliasLatest.genesisSetId ∧
      ((id + n : Nat) : F) = aliasLatest.currentSetId ∧
      packDigest genesis.val = aliasLatest.genesisHash ∧
      packDigest current.val = aliasLatest.currentHash ∧
      aliasComponents.SetChain [] (idExactly id) genesis n current := by
  refine ⟨latestValidatorSet_alias, ?_⟩
  rintro ⟨id, n, genesis, current, -, hid, hgenesis, hcurrent, hchain⟩
  simp only [aliasLatest] at hid hgenesis hcurrent
  have hgenesis : genesis = sampleDigest 0 :=
    Subtype.ext (packDigest_inj genesis.property (sampleDigest 0).property hgenesis)
  have hcurrent : current = sampleDigest 2 :=
    Subtype.ext (packDigest_inj current.property (sampleDigest 2).property hcurrent)
  subst hgenesis hcurrent
  rcases setChain_alias hchain with ⟨-, h⟩ | ⟨rfl, rfl⟩
  · exact absurd (congrArg Subtype.val h) (by decide)
  · exact absurd hid (by decide +kernel)

end GearBridges.Prover
