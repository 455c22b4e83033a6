import GearBridges.Prover.BlockFinality

/-!
# Prover.CyclicProofs

The three cyclic circuits of the prover and the circuits outside the cycle that verify
them: `SignComposition` in `ValidatorSignsChain`, the branch circuit in
`BranchNodeChain`, `LatestValidatorSet` in `FinalProof`.  Each consumer verifies the
cyclic proof with the right constant key and parses the verifier data it carries, but
none compares the two.  The circuits whose proofs a layer verifies with a constant key
come in as relations.
-/

namespace GearBridges.Prover

open Goldilocks Plonky2Blake2b256 CyclicRecursion

/-! ## BranchNodeChain -/

/-- `StorageAddressTarget`: nibbles and their number. -/
structure StorageAddressTarget where
  paddedAddress : List F
  length : F

def maxStorageAddressLengthInNibbles : Nat := 64

def StorageAddressTarget.empty : StorageAddressTarget :=
  ⟨List.replicate maxStorageAddressLengthInNibbles 0, 0⟩

structure HashedBranchParserTarget (Digest : Type) where
  nodeHash : Digest
  childNodeHash : Digest
  partialAddress : StorageAddressTarget
  resultingPartialAddress : StorageAddressTarget

structure BranchNodeChainParserTarget (Digest : Type) where
  rootHash : Digest
  leafHash : Digest
  partialAddress : StorageAddressTarget

/-- `Circuit::build` of the branch node chain. -/
def branchLayer {Digest : Type} (HashedBranchParser : HashedBranchParserTarget Digest → Prop)
    (condition : Bool) (inner outer : BranchNodeChainParserTarget Digest) : Prop :=
  ∃ parser, HashedBranchParser parser ∧
    parser.nodeHash = (if condition then inner.leafHash else inner.rootHash) ∧
    parser.partialAddress = (if condition then inner.partialAddress else .empty) ∧
    outer = ⟨inner.rootHash, parser.childNodeHash, parser.resultingPartialAddress⟩

/-! ## LatestValidatorSet and FinalProof -/

structure NextValidatorSetTarget (Digest : Type) where
  currentValidatorSetHash : Digest
  currentAuthoritySetId : F
  nextValidatorSet : Digest

structure LatestValidatorSetTarget (Digest : Type) where
  genesisSetId : F
  genesisHash : Digest
  currentSetId : F
  currentHash : Digest

/-- `LatestValidatorSet::build_circuit`. -/
def validatorSetLayer {Digest : Type} (NextValidatorSet : NextValidatorSetTarget Digest → Prop)
    (condition : Bool) (inner outer : LatestValidatorSetTarget Digest) : Prop :=
  ∃ change, NextValidatorSet change ∧
    outer.genesisSetId = inner.genesisSetId ∧ outer.genesisHash = inner.genesisHash ∧
    (if condition then inner.currentSetId else outer.genesisSetId) = change.currentAuthoritySetId ∧
    (if condition then inner.currentHash else outer.genesisHash) = change.currentValidatorSetHash ∧
    outer.currentSetId = change.currentAuthoritySetId + 1 ∧
    outer.currentHash = change.nextValidatorSet

structure MessageSentTarget (Digest Contents : Type) where
  validatorSetHash : Digest
  authoritySetId : F
  blockNumber : F
  messageContents : Contents

structure GenesisConfig (Digest : Type) where
  authoritySetId : F
  authoritySetHash : Digest

/-- What `FinalProof::prove` asserts of the validator set proof for its own public
inputs. -/
def LatestValidatorSetTarget.exposes {Digest Contents : Type}
    (MessageSent : MessageSentTarget Digest Contents → Prop) (genesis : GenesisConfig Digest)
    (messageContents : Contents) (blockNumber : F) (latest : LatestValidatorSetTarget Digest) :
    Prop :=
  ∃ message, MessageSent message ∧ message.validatorSetHash = latest.currentHash ∧
    message.authoritySetId = latest.currentSetId ∧
    genesis.authoritySetId = latest.genesisSetId ∧ genesis.authoritySetHash = latest.genesisHash ∧
    message.messageContents = messageContents ∧ message.blockNumber = blockNumber

/-! ## anchoring -/

section

variable {K Digest Contents : Type}

/-- **The cyclic proofs are not anchored**: for none of the three consumers, and for no
public inputs, are the accepted proofs anchored to the cyclic circuit unless there are
none.  A carried own key would anchor them. -/
theorem consumers_anchored_iff (C : Compression) (Valid : PublicKey → GrandpaMessage → Prop)
    (HashedBranchParser : HashedBranchParserTarget Digest → Prop)
    (NextValidatorSet : NextValidatorSetTarget Digest → Prop)
    (MessageSent : MessageSentTarget Digest Contents → Prop) (genesis : GenesisConfig Digest)
    (signKey branchKey setKey : K) (foreignSign : K → SignCompositionTarget C → K → Prop)
    (foreignBranch : K → BranchNodeChainParserTarget Digest → K → Prop)
    (foreignSet : K → LatestValidatorSetTarget Digest → K → Prop)
    (hsign : Forgeable signKey foreignSign) (hbranch : Forgeable branchKey foreignBranch)
    (hset : Forgeable setKey foreignSet) :
    ((∀ hash message,
        Anchored (signLayer C Valid) signKey foreignSign (·.exposes hash message) ↔
          Rejects (signLayer C Valid) signKey foreignSign (·.exposes hash message)) ∧
      (∀ composed, Accepted (signLayer C Valid) signKey foreignSign signKey composed signKey →
        SignComposition C Valid composed)) ∧
    ((∀ pis,
        Anchored (branchLayer HashedBranchParser) branchKey foreignBranch (· = pis) ↔
          Rejects (branchLayer HashedBranchParser) branchKey foreignBranch (· = pis)) ∧
      (∀ pis, Accepted (branchLayer HashedBranchParser) branchKey foreignBranch branchKey pis
        branchKey → Layers (branchLayer HashedBranchParser) pis)) ∧
    ((∀ contents block,
        Anchored (validatorSetLayer NextValidatorSet) setKey foreignSet
            (·.exposes MessageSent genesis contents block) ↔
          Rejects (validatorSetLayer NextValidatorSet) setKey foreignSet
            (·.exposes MessageSent genesis contents block)) ∧
      (∀ latest, Accepted (validatorSetLayer NextValidatorSet) setKey foreignSet setKey latest
        setKey → Layers (validatorSetLayer NextValidatorSet) latest)) := by
  refine ⟨⟨?_, ?_⟩, ⟨?_, ?_⟩, ⟨?_, ?_⟩⟩
  · intro hash message
    exact anchored_iff_rejects hsign _
  · intro composed h
    exact h.layers rfl rfl
  · intro pis
    exact anchored_iff_rejects hbranch _
  · intro pis h
    exact h.layers rfl rfl
  · intro contents block
    exact anchored_iff_rejects hset _
  · intro latest h
    exact h.layers rfl rfl

end

/-! ## a forged layer -/

/-- The circuit with key `false` accepts everything. -/
def acceptAll {X : Type} (key : Bool) (_ : X) (_ : Bool) : Prop := key = false

theorem forgeable_acceptAll (X : Type) : Forgeable true (@acceptAll X) :=
  ⟨false, by decide, fun _ _ => rfl⟩

def sampleHash : freeCompression.Digest := blake2Circuit freeCompression (keyBytes [sampleKey])

/-- One layer with one signature on top of a foreign proof that claims `count` of them. -/
def forgedComposition (count : F) : SignCompositionTarget freeCompression :=
  ⟨sampleHash, 1, sampleVote, 0, count + 1⟩

theorem accepted_forgedComposition (count : F) :
    Accepted (signLayer freeCompression fun key _ => key = sampleKey) true acceptAll true
      (forgedComposition count) false := by
  have husable : Usable [sampleKey] (fun key _ => key = sampleKey) sampleVote ⟨0, by decide⟩ :=
    ⟨sampleKey, rfl, rfl⟩
  have hsigns := signsAt_of_usable (C := freeCompression) (by decide) husable
  have hrange : rangeCheck ((0 : F) - -1 - 1) 32 := by decide
  have hbuild : (⟨sampleHash, 1, sampleVote, -1, count⟩ : SignCompositionTarget freeCompression).build
      true ⟨sampleHash, 1, 0, sampleVote⟩ (forgedComposition count) :=
    ⟨rfl, rfl, rfl, hrange, rfl⟩
  refine .layer ⟨_, ?_, hbuild⟩ fun _ => .foreign (by decide) rfl
  simpa [SignsAt, sampleHash] using hsigns

theorem exposes_forgedComposition : (forgedComposition 100).exposes sampleHash sampleVote :=
  ⟨by decide, rfl, rfl⟩

/-- A consumer that accepts a proof is not anchored. -/
theorem consumers_anchored_iff_sample :
    Forgeable true (@acceptAll (SignCompositionTarget freeCompression)) ∧
    ¬ Anchored (signLayer freeCompression fun key _ => key = sampleKey) true acceptAll
      (·.exposes sampleHash sampleVote) := by
  refine ⟨forgeable_acceptAll _, ?_⟩
  intro hanchored
  have h := consumers_anchored_iff freeCompression (fun key _ => key = sampleKey)
    (fun _ : HashedBranchParserTarget Unit => True) (fun _ => True)
    (fun _ : MessageSentTarget Unit Unit => True) ⟨0, ()⟩ true true true acceptAll acceptAll
    acceptAll (forgeable_acceptAll _) (forgeable_acceptAll _) (forgeable_acceptAll _)
  exact (h.1.1 sampleHash sampleVote).mp hanchored _ _ (accepted_forgedComposition 100)
    exposes_forgedComposition

/-- A proof of one signature is accepted as a proof of a hundred and one: the layer below
is a proof of another circuit, whose key the accepted proof carries. -/
theorem unanchored_composition : ∃ composed carried,
    Accepted (signLayer freeCompression fun key _ => key = sampleKey) true acceptAll true composed
      carried ∧ composed.exposes sampleHash sampleVote ∧ carried ≠ true ∧
    ¬ SignComposition freeCompression (fun key _ => key = sampleKey) composed := by
  refine ⟨forgedComposition 100, false, accepted_forgedComposition 100, exposes_forgedComposition,
    by decide, ?_⟩
  intro h
  obtain ⟨s, last, hs⟩ := h.composes
  have hle : s.card ≤ 6 := (Finset.card_le_univ s).trans (Nat.le_of_eq (Fintype.card_fin _))
  have hcount : ((101 : Nat) : F) = (s.card : F) := hs.count
  rw [natCast_inj (by decide) (by unfold modulus; omega)] at hcount
  omega

end GearBridges.Prover
