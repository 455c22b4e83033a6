import GearBridges.CheckpointLightClient.Types
import Mathlib.Data.List.FinRange

/-!
# CheckpointLightClient.SyncUpdate

Verification of a sync committee update.  `verify` reads nothing but its arguments,
so the waits for the BLS builtin inside it do not show here; they show in the
system, where the arguments are a snapshot of an earlier state.
-/

namespace GearBridges.CheckpointLightClient

open EthereumCommon

variable {P : Primitives}

/-! ## utils and crypto -/

/-- `construct_sync_committee`. -/
def constructSyncCommittee (aggregatePubkey : P.PubKey) (publicKeys : SyncCommitteeKeys P) :
    Option (SyncCommittee P.PubKey) :=
  (publicKeys.val.mapM P.serializeCompressed).map fun pubkeys => ⟨pubkeys, aggregatePubkey⟩

/-- `get_participating_keys`; the bit vector may have any length. -/
def getParticipatingKeys (committee : SyncCommitteeKeys P) (bitfield : List Bool) : List P.G1 :=
  (bitfield.zip committee.val).filterMap fun (bit, pubKey) => if bit then some pubKey else none

/-- `verify_sync_committee_signature`. -/
def verifySyncCommitteeSignature (network : Network) (pubKeys : List P.G1)
    (attestedHeader : Header P) (signature : P.G2) (signatureSlot : Slot) : Bool :=
  let signingRoot := P.signingRoot (P.headerRoot attestedHeader)
    (network.forkVersion signatureSlot) network.genesisValidatorsRoot
  let pubKeyAggregated := P.aggregateG1 pubKeys
  if P.isZero pubKeyAggregated then false else P.pairing pubKeyAggregated signingRoot signature

/-! ## proofs against a state root -/

/-- `is_current_committee_proof_valid`. -/
def isCurrentCommitteeProofValid (network : Network) (attestedHeader : Header P)
    (currentCommittee : SyncCommittee P.PubKey) (branch : List P.Hash) : Bool :=
  let (depth, index) := depthIndexCurrent network attestedHeader.slot
  isValidMerkleBranch P.hash (P.committeeRoot currentCommittee) branch depth index
    attestedHeader.stateRoot

/-- `is_next_committee_proof_valid`. -/
def isNextCommitteeProofValid (network : Network) (attestedHeader : Header P)
    (nextCommittee : SyncCommittee P.PubKey) (branch : List P.Hash) : Bool :=
  let (depth, index) := depthIndexNext network attestedHeader.slot
  isValidMerkleBranch P.hash (P.committeeRoot nextCommittee) branch depth index
    attestedHeader.stateRoot

/-- `is_finality_proof_valid`. -/
def isFinalityProofValid (network : Network) (attestedHeader finalityHeader : Header P)
    (branch : List P.Hash) : Bool :=
  let (depth, index) := depthIndexFinality network attestedHeader.slot
  isValidMerkleBranch P.hash (P.headerRoot finalityHeader) branch depth index
    attestedHeader.stateRoot

/-! ## verify -/

/-- `committee::Update`: `new` followed by `verify`. -/
def committeeUpdate (network : Network) (storePeriod : Nat) (u : Update P) :
    Except (Error P) (Option (SyncCommitteeKeys P)) :=
  let updatePeriodFinalized := calculatePeriod u.finalizedHeader.slot
  match decide (calculatePeriod u.attestedHeader.slot = updatePeriodFinalized),
      u.syncCommitteeNextAggregatePubkey, u.syncCommitteeNextPubKeys,
      u.syncCommitteeNextBranch with
  | true, some aggregatePubkey, some keys, some branch =>
      match constructSyncCommittee aggregatePubkey keys with
      | none => .error .invalidPublicKeys
      | some syncCommitteeNext =>
          if !isNextCommitteeProofValid network u.attestedHeader syncCommitteeNext branch then
            .error .invalidNextSyncCommitteeProof
          else if updatePeriodFinalized = storePeriod + 1 then .ok (some keys)
          else .ok none
  | _, _, _, _ => .ok none

/-- The committee that has to sign an update, by the period of the signature. -/
def signingCommittee (storedFinalizedSlot : Slot) (current next : SyncCommitteeKeys P)
    (signatureSlot : Slot) : Option (SyncCommitteeKeys P) :=
  let storePeriod := calculatePeriod storedFinalizedSlot
  let updateSigPeriod := calculatePeriod signatureSlot
  if updateSigPeriod = storePeriod + 1 then some next
  else if updateSigPeriod = storePeriod then some current
  else none

/-- The finality part of `verify`. -/
def finalityUpdate (network : Network) (storedFinalizedSlot : Slot) (u : Update P) :
    Except (Error P) (Option (Header P)) :=
  if storedFinalizedSlot < u.finalizedHeader.slot then
    if isFinalityProofValid network u.attestedHeader u.finalizedHeader u.finalityBranch then
      .ok (some u.finalizedHeader)
    else .error .invalidFinalityProof
  else .ok none

/-- `verify`. -/
def verify (network : Network) (storedFinalizedSlot : Slot)
    (storedSyncCommitteeCurrent storedSyncCommitteeNext : SyncCommitteeKeys P) (u : Update P)
    (syncCommitteeBits : List Bool) :
    Except (Error P) (Option (Header P) × Option (SyncCommitteeKeys P)) :=
  if ¬ (u.attestedHeader.slot < u.signatureSlot ∧
      u.finalizedHeader.slot ≤ u.attestedHeader.slot) then .error .invalidTimestamp
  else match signingCommittee storedFinalizedSlot storedSyncCommitteeCurrent
      storedSyncCommitteeNext u.signatureSlot with
    | none => .error .invalidPeriod
    | some syncCommittee =>
      let pubKeys := getParticipatingKeys syncCommittee syncCommitteeBits
      if pubKeys.length * 3 < syncCommitteeSize * 2 then .error .lowVoteCount
      else if !verifySyncCommitteeSignature network pubKeys u.attestedHeader
          u.syncCommitteeSignature u.signatureSlot then .error .invalidSignature
      else match finalityUpdate network storedFinalizedSlot u with
        | .error e => .error e
        | .ok finalizedHeaderUpdate =>
          match committeeUpdate network (calculatePeriod storedFinalizedSlot) u with
          | .error e => .error e
          | .ok committeeUpdate =>
              if finalizedHeaderUpdate.isNone && committeeUpdate.isNone then .error .notActual
              else .ok (finalizedHeaderUpdate, committeeUpdate)

/-! ## what a verified update proves -/

/-- At least two thirds of the positions of a committee signed the header. -/
def SignedBy (network : Network) (committee : SyncCommitteeKeys P) (u : Update P) : Prop :=
  ∃ positions : List (Fin committee.val.length), positions.Nodup ∧
    syncCommitteeSize * 2 ≤ positions.length * 3 ∧
    verifySyncCommitteeSignature network (positions.map committee.val.get) u.attestedHeader
      u.syncCommitteeSignature u.signatureSlot = true

/-- The keys are proven to be the next committee by the state root of a header. -/
def NextProven (network : Network) (attested : Header P) (keys : SyncCommitteeKeys P) : Prop :=
  ∃ aggregatePubkey committee branch, constructSyncCommittee aggregatePubkey keys = some committee ∧
    isNextCommitteeProofValid network attested committee branch = true

/-- A header is proven finalized by the state root of a header. -/
def FinalityProven (network : Network) (attested finalized : Header P) : Prop :=
  ∃ branch, isFinalityProofValid network attested finalized branch = true

/-- Bits pick distinct positions of a list. -/
theorem filterMap_zip_eq_map_get {α : Type} : ∀ (bits : List Bool) (l : List α),
    ((bits.zip l).filterMap fun (bit, a) => if bit then some a else none) =
      ((List.finRange l.length).filter fun i : Fin l.length => bits.getD i.val false).map l.get := by
  intro bits l
  induction l generalizing bits with
  | nil => simp
  | cons a l ih =>
      cases bits with
      | nil => simp
      | cons bit bits =>
          have hrange : List.finRange (a :: l).length =
              0 :: (List.finRange l.length).map Fin.succ := List.finRange_succ
          rw [hrange]
          cases bit <;> simp [ih, List.filter_map, Function.comp_def]

/-- Participating keys that make up two thirds of a committee and whose aggregate
signed the header are keys of so many positions. -/
theorem signedBy_of_participating {network : Network} {committee : SyncCommitteeKeys P}
    {u : Update P} {bits : List Bool}
    (hcount : ¬ (getParticipatingKeys committee bits).length * 3 < syncCommitteeSize * 2)
    (hsig : verifySyncCommitteeSignature network (getParticipatingKeys committee bits)
      u.attestedHeader u.syncCommitteeSignature u.signatureSlot = true) :
    SignedBy network committee u := by
  unfold getParticipatingKeys at hcount hsig
  rw [filterMap_zip_eq_map_get] at hcount hsig
  refine ⟨_, (List.nodup_finRange _).filter _, ?_, hsig⟩
  rw [List.length_map] at hcount
  exact Nat.not_lt.mp hcount

/-- The next committee returned by `committeeUpdate` is proven, and belongs to the
period after the stored one. -/
theorem committeeUpdate_some {network : Network} {storePeriod : Nat} {u : Update P}
    {keys : SyncCommitteeKeys P} (h : committeeUpdate network storePeriod u = .ok (some keys)) :
    NextProven network u.attestedHeader keys ∧
      calculatePeriod u.attestedHeader.slot = calculatePeriod u.finalizedHeader.slot ∧
      calculatePeriod u.finalizedHeader.slot = storePeriod + 1 := by
  unfold committeeUpdate at h
  simp only at h
  split at h
  · rename_i aggregatePubkey keys' branch hperiod _ _ _
    split at h
    · contradiction
    · rename_i committee hcommittee
      split at h
      · contradiction
      · rename_i hproof
        split at h
        · rename_i hnext
          cases h
          exact ⟨⟨aggregatePubkey, committee, branch, hcommittee, by simpa using hproof⟩,
            of_decide_eq_true hperiod, hnext⟩
        · simp at h
  · simp at h

/-- An update that brings the next committee of the period after the stored one. -/
def Update.rotates (u : Update P) (storePeriod : Nat) : Bool :=
  decide (calculatePeriod u.attestedHeader.slot = calculatePeriod u.finalizedHeader.slot) &&
    decide (calculatePeriod u.finalizedHeader.slot = storePeriod + 1) &&
    u.syncCommitteeNextAggregatePubkey.isSome && u.syncCommitteeNextPubKeys.isSome &&
    u.syncCommitteeNextBranch.isSome

/-- A committee is returned exactly by the updates that rotate. -/
theorem committeeUpdate_isSome {network : Network} {storePeriod : Nat} {u : Update P}
    {c : Option (SyncCommitteeKeys P)} (h : committeeUpdate network storePeriod u = .ok c) :
    c.isSome = u.rotates storePeriod := by
  unfold Update.rotates
  unfold committeeUpdate at h
  simp only at h
  split at h
  · rename_i hperiod ha hk hb
    split at h
    · contradiction
    · split at h
      · contradiction
      · split at h
        · rename_i hnext
          cases h
          simp [of_decide_eq_true hperiod, hnext, ha, hk, hb]
        · rename_i hnext
          cases h
          simp [hnext]
  · rename_i hne
    cases h
    cases ha : u.syncCommitteeNextAggregatePubkey with
    | none => simp
    | some a =>
        cases hk : u.syncCommitteeNextPubKeys with
        | none => simp
        | some k =>
            cases hb : u.syncCommitteeNextBranch with
            | none => simp
            | some b =>
                have := fun hperiod => hne a k b hperiod ha hk hb
                simp_all

theorem finalityUpdate_ok {network : Network} {slot : Slot} {u : Update P}
    {finalized : Option (Header P)} (h : finalityUpdate network slot u = .ok finalized) :
    (finalized = some u.finalizedHeader ∧ slot < u.finalizedHeader.slot ∧
      FinalityProven network u.attestedHeader u.finalizedHeader) ∨
    (finalized = none ∧ u.finalizedHeader.slot ≤ slot) := by
  unfold finalityUpdate at h
  split at h
  · rename_i hslot
    split at h
    · rename_i hproof
      cases h
      exact .inl ⟨rfl, hslot, _, hproof⟩
    · contradiction
  · rename_i hslot
    cases h
    exact .inr ⟨rfl, Nat.not_lt.mp hslot⟩

/-- **What `verify` accepts**: the update is signed by a quorum of the committee of
its signature period, the finalized header (if newer) is proven finalized and the
next committee (if due) is proven. -/
theorem verify_ok {network : Network} {slot : Slot} {current next : SyncCommitteeKeys P}
    {u : Update P} {bits : List Bool} {finalized : Option (Header P)}
    {committee : Option (SyncCommitteeKeys P)}
    (h : verify network slot current next u bits = .ok (finalized, committee)) :
    (u.attestedHeader.slot < u.signatureSlot ∧ u.finalizedHeader.slot ≤ u.attestedHeader.slot) ∧
    (∃ signers, signingCommittee slot current next u.signatureSlot = some signers ∧
      SignedBy network signers u) ∧
    finalityUpdate network slot u = .ok finalized ∧
    committeeUpdate network (calculatePeriod slot) u = .ok committee ∧
    (finalized.isSome ∨ committee.isSome) := by
  unfold verify at h
  split at h
  · contradiction
  rename_i htimes
  split at h
  · contradiction
  rename_i signers hsigners
  simp only at h
  split at h
  · contradiction
  rename_i hcount
  split at h
  · contradiction
  rename_i hsig
  split at h
  · contradiction
  rename_i hfinality
  split at h
  · contradiction
  rename_i hcommittee
  split at h
  · contradiction
  rename_i hactual
  cases h
  refine ⟨Decidable.not_not.mp htimes,
    ⟨signers, hsigners, signedBy_of_participating hcount (by simpa using hsig)⟩, hfinality,
    hcommittee, ?_⟩
  cases finalized <;> cases committee <;> simp_all

theorem signingCommittee_some {slot signatureSlot : Slot} {current next c : SyncCommitteeKeys P}
    (h : signingCommittee slot current next signatureSlot = some c) :
    (c = next ∧ calculatePeriod signatureSlot = calculatePeriod slot + 1) ∨
    (c = current ∧ calculatePeriod signatureSlot = calculatePeriod slot) := by
  unfold signingCommittee at h
  simp only at h
  split at h
  · rename_i hp
    cases h
    exact .inl ⟨rfl, hp⟩
  · split at h
    · rename_i hp
      cases h
      exact .inr ⟨rfl, hp⟩
    · contradiction

/-- A verified update always has a finalized header newer than the stored one: a next
committee is due only with a finalized header of the next period. -/
theorem verify_finalized {network : Network} {slot : Slot} {current next : SyncCommitteeKeys P}
    {u : Update P} {bits : List Bool} {finalized : Option (Header P)}
    {committee : Option (SyncCommitteeKeys P)}
    (h : verify network slot current next u bits = .ok (finalized, committee)) :
    finalized = some u.finalizedHeader ∧ slot < u.finalizedHeader.slot ∧
      FinalityProven network u.attestedHeader u.finalizedHeader := by
  obtain ⟨_, _, hfinality, hcommittee, hactual⟩ := verify_ok h
  cases finalityUpdate_ok hfinality with
  | inl hf => exact hf
  | inr hf =>
      obtain ⟨rfl, hslot⟩ := hf
      cases committee with
      | none => simp at hactual
      | some keys =>
          have hperiod := (committeeUpdate_some hcommittee).2.2
          have hle := calculatePeriod_mono hslot
          omega

end GearBridges.CheckpointLightClient
