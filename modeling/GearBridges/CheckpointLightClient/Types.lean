import GearBridges.EthereumCommon.Merkle

/-!
# CheckpointLightClient.Types

Data of the `checkpoint-light-client` program.  Hashing, point serialization and
the BLS builtin are third-party code and come in as `Primitives`.
-/

namespace GearBridges.CheckpointLightClient

open EthereumCommon

/-- A beacon block header. -/
structure BlockHeader (H : Type) where
  slot : Slot
  proposerIndex : Nat
  parentRoot : H
  stateRoot : H
  bodyRoot : H
deriving DecidableEq

/-- A sync committee as it is merkleized. -/
structure SyncCommittee (K : Type) where
  pubkeys : List K
  aggregatePubkey : K

/-- The third-party functions the program relies on. -/
structure Primitives where
  /-- `Hash256`. -/
  Hash : Type
  /-- `BLSPubKey`, a compressed point. -/
  PubKey : Type
  G1 : Type
  G2 : Type
  [decHash : DecidableEq Hash]
  /-- SHA-256 of two nodes. -/
  hash : Hash → Hash → Hash
  /-- `tree_hash_root` of a header. -/
  headerRoot : BlockHeader Hash → Hash
  /-- `tree_hash_root` of a sync committee. -/
  committeeRoot : SyncCommittee PubKey → Hash
  /-- `CanonicalSerialize::serialize_compressed`. -/
  serializeCompressed : G1 → Option PubKey
  /-- `signing_root::compute` with the domain of a fork version and a genesis
  validators root. -/
  signingRoot : Hash → BitVec 32 → BitVec 256 → Hash
  /-- Reply of the builtin to `AggregateG1`. -/
  aggregateG1 : List G1 → G1
  isZero : G1 → Bool
  /-- The pairing check done with the builtin: key, message, signature. -/
  pairing : G1 → Hash → G2 → Bool

instance (P : Primitives) : DecidableEq P.Hash := P.decHash

/-- Keys of a sync committee, one for each position. -/
abbrev SyncCommitteeKeys (P : Primitives) := { keys : List P.G1 // keys.length = syncCommitteeSize }

/-- A header with the hashes of `P`. -/
abbrev Header (P : Primitives) := BlockHeader P.Hash

/-- A checkpoint: slot and root of a header. -/
abbrev Checkpoint (P : Primitives) := Slot × P.Hash

/-- The checkpoint of a header. -/
def Primitives.checkpoint (P : Primitives) (h : Header P) : Checkpoint P := (h.slot, P.headerRoot h)

variable (P : Primitives)

/-- A sync committee update. -/
structure Update where
  signatureSlot : Slot
  attestedHeader : Header P
  finalizedHeader : Header P
  syncCommitteeSignature : P.G2
  syncCommitteeNextAggregatePubkey : Option P.PubKey
  syncCommitteeNextPubKeys : Option (SyncCommitteeKeys P)
  syncCommitteeNextBranch : Option (List P.Hash)
  finalityBranch : List P.Hash

/-- Errors of an update. -/
inductive Error where
  | invalidTimestamp
  | invalidPeriod
  | lowVoteCount
  | notActual
  | invalidSignature
  | invalidFinalityProof
  | invalidNextSyncCommitteeProof
  | invalidPublicKeys
  | invalidSyncAggregate
  | replayBackRequired (replayBack : Option (Slot × Slot)) (checkpoint : Checkpoint P)

/-- Errors of a replay-back. -/
inductive ReplayBackError where
  | alreadyStarted
  | notStarted
  | verify (e : Error P)
  | noFinalityUpdate

inductive ReplayBackStatus where
  | inProcess
  | finished
deriving DecidableEq

/-- Number of checkpoints the ring buffer of the program holds. -/
@[irreducible] def storedCheckpointsCount : Nat := 150000

theorem storedCheckpointsCount_pos : 0 < storedCheckpointsCount := by
  unfold storedCheckpointsCount
  omega

/-- Checkpoints, the one pushed last at the end.  The program is created with one and
never pops the last one of a list it keeps. -/
structure Checkpoints where
  entries : List (Checkpoint P)
  nonempty : entries ≠ []

/-- A replay-back under way; `checkpoints` starts with that of `finalizedHeader`. -/
structure ReplayBackState where
  finalizedHeader : Header P
  syncCommitteeNext : Option (SyncCommitteeKeys P)
  checkpoints : Checkpoints P
  lastHeader : Header P

/-- State of the program. -/
structure State where
  network : Network
  finalizedHeader : Header P
  syncCommitteeCurrent : SyncCommitteeKeys P
  syncCommitteeNext : SyncCommitteeKeys P
  checkpoints : Checkpoints P
  replayBack : Option (ReplayBackState P)

variable {P}

/-! ## checkpoints -/

/-- `CircularBuffer::push_back` at capacity `n`: a full buffer drops its oldest entry. -/
def pushBack {α : Type} (n : Nat) (l : List α) (a : α) : List α :=
  (l ++ [a]).drop (l.length + 1 - n)

theorem pushBack_ne_nil {α : Type} {n : Nat} (hn : 0 < n) (l : List α) (a : α) :
    pushBack n l a ≠ [] := by
  unfold pushBack
  rw [ne_eq, List.drop_eq_nil_iff, List.length_append, List.length_singleton]
  omega

theorem getLast_pushBack {α : Type} {n : Nat} {l : List α} {a : α} (h : pushBack n l a ≠ []) :
    (pushBack n l a).getLast h = a := by
  simp only [pushBack, List.getLast_drop, List.getLast_append_singleton]

theorem mem_pushBack {α : Type} {n : Nat} {l : List α} {a x : α} (h : x ∈ pushBack n l a) :
    x ∈ l ∨ x = a := by
  have := List.mem_of_mem_drop h
  simpa using this

namespace Checkpoints

def singleton (c : Checkpoint P) : Checkpoints P := ⟨[c], by simp⟩

def last (cs : Checkpoints P) : Checkpoint P := cs.entries.getLast cs.nonempty

def first (cs : Checkpoints P) : Checkpoint P := cs.entries.head cs.nonempty

/-- `Vec::push`. -/
def concat (cs : Checkpoints P) (c : Checkpoint P) : Checkpoints P := ⟨cs.entries ++ [c], by simp⟩

/-- `Checkpoints::push`. -/
def push (cs : Checkpoints P) (c : Checkpoint P) : Checkpoints P where
  entries := pushBack storedCheckpointsCount cs.entries c
  nonempty := pushBack_ne_nil storedCheckpointsCount_pos cs.entries c

/-- Pop every entry of `cs` and push it to `onto`: the first entry of `cs` is pushed
last. -/
def pushAll (onto cs : Checkpoints P) : Checkpoints P :=
  cs.entries.foldr (fun c onto => onto.push c) onto

@[simp] theorem last_singleton (c : Checkpoint P) : (singleton c).last = c := rfl

@[simp] theorem last_push (cs : Checkpoints P) (c : Checkpoint P) : (cs.push c).last = c :=
  getLast_pushBack _

@[simp] theorem first_concat (cs : Checkpoints P) (c : Checkpoint P) :
    (cs.concat c).first = cs.first := by
  simp only [first, concat]
  exact List.head_append_of_ne_nil cs.nonempty

@[simp] theorem last_pushAll (onto cs : Checkpoints P) : (onto.pushAll cs).last = cs.first := by
  obtain ⟨entries, nonempty⟩ := cs
  cases entries with
  | nil => contradiction
  | cons c entries => simp [pushAll, first]

theorem mem_push {cs : Checkpoints P} {c x : Checkpoint P} (h : x ∈ (cs.push c).entries) :
    x ∈ cs.entries ∨ x = c :=
  mem_pushBack h

theorem mem_foldr_push {onto : Checkpoints P} {entries : List (Checkpoint P)} {x : Checkpoint P}
    (h : x ∈ (entries.foldr (fun c onto => onto.push c) onto).entries) :
    x ∈ onto.entries ∨ x ∈ entries := by
  induction entries with
  | nil => exact .inl h
  | cons c entries ih =>
      rw [List.foldr_cons] at h
      cases mem_push h with
      | inl h => have := ih h; simp only [List.mem_cons]; tauto
      | inr h => simp [h]

theorem mem_pushAll {onto cs : Checkpoints P} {x : Checkpoint P}
    (h : x ∈ (onto.pushAll cs).entries) : x ∈ onto.entries ∨ x ∈ cs.entries :=
  mem_foldr_push h

end Checkpoints

end GearBridges.CheckpointLightClient
