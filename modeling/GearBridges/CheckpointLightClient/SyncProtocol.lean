import GearBridges.CheckpointLightClient.Alignment

/-!
# CheckpointLightClient.SyncProtocol

`verify` against the rule of the sync protocol.  The rule takes the signing domain from the
fork in force one slot before the signature, the program from that of the signature itself.
So `verify` accepts what the rule accepts unless the signature is from the first slot of
Electra (`verify_valid_iff`).
-/

namespace GearBridges.CheckpointLightClient

open EthereumCommon

variable {P : Primitives} {network : Network}

/-! ## the rule -/

/-- `FastAggregateVerify` of the BLS signature scheme. -/
def fastAggregateVerify (pubKeys : List P.G1) (message : P.Hash) (signature : P.G2) : Bool :=
  !P.isZero (P.aggregateG1 pubKeys) && P.pairing (P.aggregateG1 pubKeys) message signature

/-- `is_valid_merkle_branch` for a branch of the depth. -/
def ValidBranch (leaf : P.Hash) (branch : List P.Hash) (depthIndex : Nat × Nat) (root : P.Hash) :
    Prop :=
  branch.length = depthIndex.1 ∧
    isValidMerkleBranch P.hash leaf branch depthIndex.1 depthIndex.2 root = true

/-- The committee fields of an update: all of them, with a committee that is proven, or none. -/
inductive ValidNextCommittee (network : Network) (storePeriod : Nat)
    (storedNext : SyncCommitteeKeys P) (u : Update P) : Prop
  | absent (aggregate : u.syncCommitteeNextAggregatePubkey = none)
      (pubKeys : u.syncCommitteeNextPubKeys = none) (branch : u.syncCommitteeNextBranch = none)
  | present {a : P.PubKey} {keys : SyncCommitteeKeys P} {b : List P.Hash}
      {committee : SyncCommittee P.PubKey} (aggregate : u.syncCommitteeNextAggregatePubkey = some a)
      (pubKeys : u.syncCommitteeNextPubKeys = some keys) (branch : u.syncCommitteeNextBranch = some b)
      (constructed : constructSyncCommittee a keys = some committee)
      (stored : calculatePeriod u.attestedHeader.slot = storePeriod → keys = storedNext)
      (proven : ValidBranch (P.committeeRoot committee) b
        (depthIndexNext network u.attestedHeader.slot) u.attestedHeader.stateRoot)

/-- `validate_light_client_update` for an update that finalizes a header, relative to a store
that knows both of its committees. -/
structure ValidLightClientUpdate (network : Network) (storedSlot currentSlot : Slot)
    (current next : SyncCommitteeKeys P) (u : Update P) (bits : List Bool) : Prop where
  participants : 1 ≤ bits.count true
  length : bits.length = syncCommitteeSize
  arrived : u.signatureSlot ≤ currentSlot
  signature_after : u.attestedHeader.slot < u.signatureSlot
  attested_after : u.finalizedHeader.slot ≤ u.attestedHeader.slot
  period : calculatePeriod u.signatureSlot = calculatePeriod storedSlot ∨
    calculatePeriod u.signatureSlot = calculatePeriod storedSlot + 1
  relevant : storedSlot < u.attestedHeader.slot
  finality : ValidBranch (P.headerRoot u.finalizedHeader) u.finalityBranch
    (depthIndexFinality network u.attestedHeader.slot) u.attestedHeader.stateRoot
  committee : ValidNextCommittee network (calculatePeriod storedSlot) next u
  signature : fastAggregateVerify
    (getParticipatingKeys
      (if calculatePeriod u.signatureSlot = calculatePeriod storedSlot then current else next) bits)
    (P.signingRoot (P.headerRoot u.attestedHeader)
      (network.forkVersion (max u.signatureSlot 1 - 1)) network.genesisValidatorsRoot)
    u.syncCommitteeSignature = true

/-- A signature is of one message, and the message of one fork. -/
structure DomainSeparated (P : Primitives) : Prop where
  pairing_unique : ∀ key message message' signature, P.isZero key = false →
    P.pairing key message signature = true → P.pairing key message' signature = true →
    message = message'
  signingRoot_injective : ∀ root version version' validatorsRoot,
    P.signingRoot root version validatorsRoot = P.signingRoot root version' validatorsRoot →
    version = version'

/-! ## the fork -/

/-- First slot of Electra. -/
def slotElectra (network : Network) : Slot := network.epochElectra * slotsPerEpoch

theorem epochElectra_le_iff (network : Network) (slot : Slot) :
    network.epochElectra ≤ calculateEpoch slot ↔ slotElectra network ≤ slot := by
  unfold calculateEpoch slotElectra
  exact Nat.le_div_iff_mul_le (by decide)

/-- Slots have one fork version if they are on one side of the fork. -/
theorem forkVersion_eq_iff (network : Network) (a b : Slot) :
    network.forkVersion a = network.forkVersion b ↔
      (slotElectra network ≤ a ↔ slotElectra network ≤ b) := by
  unfold Network.forkVersion
  simp only [epochElectra_le_iff]
  by_cases ha : slotElectra network ≤ a <;> by_cases hb : slotElectra network ≤ b <;>
    cases network <;> simp [ha, hb]

theorem forkVersion_pred_iff (network : Network) {slot : Slot} (hslot : 0 < slot) :
    network.forkVersion slot = network.forkVersion (max slot 1 - 1) ↔
      slot ≠ slotElectra network := by
  rw [forkVersion_eq_iff]
  have hpred : max slot 1 - 1 = slot - 1 := by rw [Nat.max_eq_left hslot]
  rw [hpred]
  generalize slotElectra network = fork
  have h : ∀ s f : Nat, 0 < s → ((f ≤ s ↔ f ≤ s - 1) ↔ s ≠ f) := by omega
  exact h slot fork hslot

/-! ## what `verify` does with a valid update -/

/-- Bits of the length of the committee pick as many keys as are set. -/
theorem length_pickedKeys {α : Type} (keys : List α) (bits : List Bool)
    (h : bits.length = keys.length) :
    ((bits.zip keys).filterMap fun (bit, pubKey) => if bit then some pubKey else none).length =
      bits.count true := by
  induction bits generalizing keys with
  | nil => simp
  | cons bit bits ih =>
      cases keys with
      | nil => contradiction
      | cons key keys =>
          rw [List.length_cons, List.length_cons, Nat.add_right_cancel_iff] at h
          cases bit <;> simp [ih keys h]

theorem length_getParticipatingKeys (committee : SyncCommitteeKeys P) {bits : List Bool}
    (h : bits.length = syncCommitteeSize) :
    (getParticipatingKeys committee bits).length = bits.count true :=
  length_pickedKeys committee.val bits (h.trans committee.property.symm)

namespace ValidLightClientUpdate

variable {stored currentSlot : Slot} {current next : SyncCommitteeKeys P} {u : Update P}
  {bits : List Bool} (h : ValidLightClientUpdate network stored currentSlot current next u bits)
include h

theorem signingCommittee_eq : signingCommittee stored current next u.signatureSlot =
    some (if calculatePeriod u.signatureSlot = calculatePeriod stored then current else next) := by
  unfold signingCommittee
  rcases h.period with hperiod | hperiod
  · simp [hperiod]
  · simp [hperiod]

theorem finalityUpdate_eq (hnewer : stored < u.finalizedHeader.slot) :
    finalityUpdate network stored u = .ok (some u.finalizedHeader) := by
  have hproof : isFinalityProofValid network u.attestedHeader u.finalizedHeader
      u.finalityBranch = true := h.finality.2
  rw [finalityUpdate, if_pos hnewer, if_pos hproof]

/-- A committee is returned exactly by the updates that rotate. -/
theorem committeeUpdate_eq : committeeUpdate network (calculatePeriod stored) u =
    .ok (if u.rotates (calculatePeriod stored) then u.syncCommitteeNextPubKeys else none) := by
  unfold committeeUpdate Update.rotates
  cases h.committee with
  | absent ha hk hb => simp [ha, hk, hb]
  | @present a keys b committee ha hk hb hconstructed hstored hproven =>
      have hproof : isNextCommitteeProofValid network u.attestedHeader committee b = true :=
        hproven.2
      rw [ha, hk, hb]
      by_cases hperiod : calculatePeriod u.attestedHeader.slot =
          calculatePeriod u.finalizedHeader.slot
      · by_cases hnext : calculatePeriod u.finalizedHeader.slot = calculatePeriod stored + 1
        · simp [hperiod, hnext, hconstructed, hproof]
        · simp [hperiod, hnext, hconstructed, hproof]
      · simp [hperiod]

/-- The program checks the signature under the fork of its own slot. -/
theorem verifySignature_iff (hP : DomainSeparated P) : verifySyncCommitteeSignature network
    (getParticipatingKeys
      (if calculatePeriod u.signatureSlot = calculatePeriod stored then current else next) bits)
    u.attestedHeader u.syncCommitteeSignature u.signatureSlot = true ↔
      u.signatureSlot ≠ slotElectra network := by
  have hsignature := h.signature
  simp only [fastAggregateVerify, Bool.and_eq_true, Bool.not_eq_true'] at hsignature
  obtain ⟨hzero, hpairing⟩ := hsignature
  have hpos : 0 < u.signatureSlot := Nat.zero_lt_of_lt h.signature_after
  rw [← forkVersion_pred_iff network hpos]
  simp only [verifySyncCommitteeSignature, hzero, Bool.false_eq_true, if_false]
  constructor
  · intro hverified
    exact hP.signingRoot_injective _ _ _ _ (hP.pairing_unique _ _ _ _ hzero hverified hpairing)
  · intro hversion
    rw [hversion]
    exact hpairing

end ValidLightClientUpdate

/-- **`verify` against the sync protocol**: a valid update that finalizes a newer header with
two thirds of the committee is accepted, with the next committee if it rotates, exactly when
its signature is not from the first slot of Electra.  The stored committees may be any. -/
theorem verify_valid_iff (hP : DomainSeparated P) {stored currentSlot : Slot}
    {current next : SyncCommitteeKeys P} {u : Update P} {bits : List Bool}
    (hvalid : ValidLightClientUpdate network stored currentSlot current next u bits)
    (hnewer : stored < u.finalizedHeader.slot)
    (hquorum : syncCommitteeSize * 2 ≤ bits.count true * 3) :
    verify network stored current next u bits = .ok (some u.finalizedHeader,
      if u.rotates (calculatePeriod stored) then u.syncCommitteeNextPubKeys else none) ↔
    u.signatureSlot ≠ slotElectra network := by
  have htimes : u.attestedHeader.slot < u.signatureSlot ∧
      u.finalizedHeader.slot ≤ u.attestedHeader.slot :=
    ⟨hvalid.signature_after, hvalid.attested_after⟩
  have hcount := length_getParticipatingKeys
    (if calculatePeriod u.signatureSlot = calculatePeriod stored then current else next)
    hvalid.length
  rw [← hvalid.verifySignature_iff hP]
  unfold verify
  rw [if_neg (not_not.mpr htimes), hvalid.signingCommittee_eq]
  simp only [hcount, if_neg (Nat.not_lt.mpr hquorum), hvalid.finalityUpdate_eq hnewer,
    hvalid.committeeUpdate_eq]
  constructor
  · intro hok
    by_contra hsig
    rw [Bool.not_eq_true] at hsig
    rw [hsig] at hok
    contradiction
  · intro hsig
    rw [hsig]
    rfl

/-! ## a chain across the fork -/

namespace Digest

/-- Blocks in the last three slots before Electra, and since then. -/
def forkSlot (n : Nat) : Nat := 65533 + n

/-- A beacon state laid out as in Deneb. -/
def denebState (n : Nat) (finalized : Digest) : Digest :=
  node zero (node (node zero (node (node (node zero finalized) zero)
    (node (ledgerCommitteeRoot (calculatePeriod (forkSlot n)))
      (ledgerCommitteeRoot (calculatePeriod (forkSlot n) + 1))))) zero)

/-- Electra puts one more level above it. -/
def forkState (n : Nat) (finalized : Digest) : Digest :=
  if n < 3 then denebState n finalized else node (denebState n finalized) zero

def forkParent : Nat → Digest
  | 0 => zero
  | n + 1 => header (forkSlot n) 0 (forkParent n) (forkState n (forkParent n)) zero

def forkBlock (n : Nat) : BlockHeader Digest where
  slot := forkSlot n
  proposerIndex := 0
  parentRoot := forkParent n
  stateRoot := forkState n (forkParent n)
  bodyRoot := zero

/-- The root of a block in the domain of a fork. -/
def inDomain (root : Digest) (version : BitVec 32) : Digest :=
  node root (header version.toNat 0 zero zero zero)

end Digest

open Digest in
/-- Primitives over free digests with signing domains.  A signature is the number of the
block signed and the version of the fork. -/
abbrev forkPrimitives : Primitives where
  Hash := Digest
  PubKey := Nat
  G1 := Nat
  G2 := Nat × BitVec 32
  hash := node
  headerRoot h := header h.slot h.proposerIndex h.parentRoot h.stateRoot h.bodyRoot
  committeeRoot c := committee c.pubkeys c.aggregatePubkey
  serializeCompressed := some
  signingRoot root version _ := inDomain root version
  aggregateG1 := List.sum
  isZero key := key == 0
  pairing _ message signature := message = inDomain (forkParent (signature.1 + 1)) signature.2

theorem domainSeparated_fork : DomainSeparated forkPrimitives := by
  constructor
  · intro key message message' signature _ h h'
    exact (of_decide_eq_true h).trans (of_decide_eq_true h').symm
  · intro root version version' _ h
    injection h with _ h
    injection h with h
    exact BitVec.eq_of_toNat_eq h

theorem electra_forkSlot (n : Nat) :
    Network.hoodi.epochElectra ≤ calculateEpoch (Digest.forkSlot n) ↔ ¬ n < 3 := by
  simp only [Network.epochElectra, calculateEpoch, slotsPerEpoch, Digest.forkSlot]
  omega

/-- A branch into the state of a block, of the length that its fork asks for. -/
theorem isValidMerkleBranch_forkBlock (n : Nat) {leaf : Digest} {branch : List Digest}
    {deneb electra : Nat × Nat}
    (hdeneb : isValidMerkleBranch Digest.node leaf branch deneb.1 deneb.2
      (Digest.denebState n (Digest.forkParent n)) = true)
    (helectra : isValidMerkleBranch Digest.node leaf branch electra.1 electra.2
      (.node (Digest.denebState n (Digest.forkParent n)) .zero) = true) :
    let depthIndex := if Network.hoodi.epochElectra ≤ calculateEpoch (Digest.forkSlot n) then electra
      else deneb
    isValidMerkleBranch Digest.node leaf branch depthIndex.1 depthIndex.2
      (Digest.forkBlock n).stateRoot = true := by
  by_cases hn : n < 3
  · have hstate : (Digest.forkBlock n).stateRoot = _ := if_pos hn
    rw [if_neg (mt (electra_forkSlot n).mp (not_not.mpr hn)), hstate]
    exact hdeneb
  · have hstate : (Digest.forkBlock n).stateRoot = _ := if_neg hn
    rw [if_pos ((electra_forkSlot n).mpr hn), hstate]
    exact helectra

/-- An honest chain across the fork. -/
def forkChain : HonestChain forkPrimitives .hoodi where
  block := Digest.forkBlock
  committee := ledgerCommittee
  finalizedRoot := Digest.forkParent
  hash_collisionFree := ledgerChain.hash_collisionFree
  headerRoot_injective := headerRoot_ledger_injective
  committeeRoot_injective := ledgerChain.committeeRoot_injective
  serializeCompressed_injective := ledgerChain.serializeCompressed_injective
  slot_strictMono := fun _ _ h => Nat.add_lt_add_left h _
  parentRoot_succ := fun _ => rfl
  current_proven := by
    intro n
    let period := calculatePeriod (Digest.forkSlot n)
    refine ⟨period, _, Digest.committeeBranch (Digest.ledgerCommitteeRoot (period + 1))
      (Digest.forkParent n), constructSyncCommittee_ledger period _, ?_⟩
    exact isValidMerkleBranch_forkBlock n (decide_eq_true rfl) (decide_eq_true rfl)
  next_proven := by
    intro n
    let period := calculatePeriod (Digest.forkSlot n)
    refine ⟨period + 1, _, Digest.committeeBranch (Digest.ledgerCommitteeRoot period)
      (Digest.forkParent n), constructSyncCommittee_ledger (period + 1) _, ?_⟩
    exact isValidMerkleBranch_forkBlock n (decide_eq_true rfl) (decide_eq_true rfl)
  finalizedRoot_proven := by
    intro n
    let period := calculatePeriod (Digest.forkSlot n)
    refine ⟨Digest.finalityBranch (Digest.ledgerCommitteeRoot period)
      (Digest.ledgerCommitteeRoot (period + 1)), ?_⟩
    exact isValidMerkleBranch_forkBlock n (decide_eq_true rfl) (decide_eq_true rfl)
  finalizedRoot_block := by
    intro n h hroot
    cases n with
    | zero => injection hroot
    | succ n => exact ⟨n, Nat.lt_succ_self n, headerRoot_ledger_injective hroot⟩
  signed_block := by
    intro period u ⟨positions, _, _, h⟩
    simp only [verifySyncCommitteeSignature] at h
    split at h
    · contradiction
    · have hmessage := of_decide_eq_true h
      injection hmessage with hroot _
      exact ⟨u.syncCommitteeSignature.1, headerRoot_ledger_injective hroot⟩

open Digest

/-- The update by which block `n`, before Electra, finalizes the block before it.  It is signed
in the next slot, in the domain of the slot of the block. -/
def forkUpdate (n : Nat) : Update forkPrimitives :=
  let period := calculatePeriod (forkSlot n)
  { signatureSlot := forkSlot n + 1
    attestedHeader := forkBlock n
    finalizedHeader := forkBlock (n - 1)
    syncCommitteeSignature := (n, Network.hoodi.forkVersion (forkSlot n))
    syncCommitteeNextAggregatePubkey := none
    syncCommitteeNextPubKeys := none
    syncCommitteeNextBranch := none
    finalityBranch := (finalityBranch (ledgerCommitteeRoot period)
      (ledgerCommitteeRoot (period + 1))).take 6 }

/-- State of a program whose finalized header is block 0. -/
def forkStart : State forkPrimitives where
  network := .hoodi
  finalizedHeader := forkBlock 0
  syncCommitteeCurrent := ledgerCommittee 7
  syncCommitteeNext := ledgerCommittee 8
  checkpoints := .singleton (forkPrimitives.checkpoint (forkBlock 0))
  replayBack := none

def forkBits : List Bool := List.replicate syncCommitteeSize true

theorem valid_forkUpdate {stored : Slot} {n : Nat} (hn : n = 1 ∨ n = 2)
    (hstored : calculatePeriod stored = 7) (hrelevant : stored < forkSlot n) :
    ValidLightClientUpdate (P := forkPrimitives) .hoodi stored (forkSlot n + 1) (ledgerCommittee 7)
      (ledgerCommittee 8) (forkUpdate n) forkBits where
  participants := by decide +kernel
  length := List.length_replicate
  arrived := Nat.le_refl _
  signature_after := Nat.lt_succ_self _
  attested_after := Nat.add_le_add_left (Nat.sub_le n 1) _
  period := by
    rw [hstored]
    rcases hn with rfl | rfl <;> decide +kernel
  relevant := hrelevant
  finality := by
    rcases hn with rfl | rfl <;> exact ⟨rfl, decide_eq_true rfl⟩
  committee := .absent rfl rfl rfl
  signature := by
    rw [hstored]
    rcases hn with rfl | rfl <;> decide +kernel

/-- An update signed in the last slot of Deneb. -/
theorem verify_valid_iff_sample : verify (P := forkPrimitives) .hoodi 65532 (ledgerCommittee 7)
    (ledgerCommittee 8) (forkUpdate 1) forkBits = .ok (some (forkBlock 0), none) :=
  (verify_valid_iff domainSeparated_fork
    (valid_forkUpdate (.inl rfl) (by decide) (by decide)) (by decide) (by decide +kernel)).mpr
    (by decide)

/-- The update signed in the first slot of Electra, and of a period, is valid and refused. -/
theorem refused_first_slot : (forkUpdate 2).signatureSlot = slotElectra .hoodi ∧
    Aligned forkChain forkStart ∧ forkStart.finalizedHeader = forkChain.block 0 ∧
    ValidLightClientUpdate (P := forkPrimitives) .hoodi forkStart.finalizedHeader.slot 65536
      forkStart.syncCommitteeCurrent forkStart.syncCommitteeNext (forkUpdate 2) forkBits ∧
    forkStart.finalizedHeader.slot < (forkUpdate 2).finalizedHeader.slot ∧
    syncCommitteeSize * 2 ≤ forkBits.count true * 3 ∧
    ∀ f c, verify (P := forkPrimitives) .hoodi forkStart.finalizedHeader.slot
      forkStart.syncCommitteeCurrent forkStart.syncCommitteeNext (forkUpdate 2) forkBits ≠
        .ok (f, c) := by
  refine ⟨by decide, ⟨rfl, rfl⟩, rfl, valid_forkUpdate (.inr rfl) (by decide) (by decide),
    by decide, by decide +kernel, ?_⟩
  intro f c h
  have hrefused : (verify (P := forkPrimitives) .hoodi forkStart.finalizedHeader.slot
      forkStart.syncCommitteeCurrent forkStart.syncCommitteeNext (forkUpdate 2)
      forkBits).toBool = false := by decide +kernel
  have haccepted := congrArg Except.toBool h
  exact Bool.false_ne_true (hrefused.symm.trans haccepted)

end GearBridges.CheckpointLightClient
