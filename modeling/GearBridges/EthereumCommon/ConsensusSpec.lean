import GearBridges.Lib.Ssz

/-!
# EthereumCommon.ConsensusSpec

The beacon blocks of Deneb and Electra as types of SSZ, with the limits of the mainnet preset.
-/

namespace GearBridges.EthereumCommon.ConsensusSpec

open Ssz

def uint64 : Ty := .uint 8

def uint256 : Ty := .uint 32

def byteVector (length : Nat) : Ty := .vector (.uint 1) length

def byteList (limit : Nat) : Ty := .list (.uint 1) limit

/-- `Root`, `Hash32` and `Bytes32`. -/
def root : Ty := byteVector 32

def executionAddress : Ty := byteVector 20

def blsPubkey : Ty := byteVector 48

def blsSignature : Ty := byteVector 96

def container (types : List Ty) : Ty := .container (.ofList types)

/-! ## operations -/

/-- `epoch`, `root`. -/
def checkpoint : Ty := container [uint64, root]

/-- `slot`, `index`, `beacon_block_root`, `source`, `target`. -/
def attestationData : Ty := container [uint64, uint64, root, checkpoint, checkpoint]

/-- `slot`, `proposer_index`, `parent_root`, `state_root`, `body_root`. -/
def beaconBlockHeader : Ty := container [uint64, uint64, root, root, root]

/-- `message`, `signature`. -/
def signed (message : Ty) : Ty := container [message, blsSignature]

/-- `deposit_root`, `deposit_count`, `block_hash`. -/
def eth1Data : Ty := container [root, uint64, root]

/-- `signed_header_1`, `signed_header_2`. -/
def proposerSlashing : Ty := container [signed beaconBlockHeader, signed beaconBlockHeader]

/-- `attesting_indices`, `data`, `signature`. -/
def indexedAttestation (maxIndices : Nat) : Ty :=
  container [.list uint64 maxIndices, attestationData, blsSignature]

/-- `attestation_1`, `attestation_2`. -/
def attesterSlashing (maxIndices : Nat) : Ty :=
  container [indexedAttestation maxIndices, indexedAttestation maxIndices]

/-- `pubkey`, `withdrawal_credentials`, `amount`, `signature`. -/
def depositData : Ty := container [blsPubkey, root, uint64, blsSignature]

/-- `proof`, `data`. -/
def deposit : Ty := container [.vector root 33, depositData]

/-- `epoch`, `validator_index`. -/
def voluntaryExit : Ty := container [uint64, uint64]

/-- `validator_index`, `from_bls_pubkey`, `to_execution_address`. -/
def blsToExecutionChange : Ty := container [uint64, blsPubkey, executionAddress]

/-- `sync_committee_bits`, `sync_committee_signature`. -/
def syncAggregate : Ty := container [.bitvector 512, blsSignature]

/-- `index`, `validator_index`, `address`, `amount`. -/
def withdrawal : Ty := container [uint64, uint64, executionAddress, uint64]

/-- `parent_hash`, `fee_recipient`, `state_root`, `receipts_root`, `logs_bloom`, `prev_randao`,
`block_number`, `gas_limit`, `gas_used`, `timestamp`, `extra_data`, `base_fee_per_gas`,
`block_hash`, `transactions`, `withdrawals`, `blob_gas_used`, `excess_blob_gas`. -/
def executionPayload : Ty := container [root, executionAddress, root, root, byteVector 256, root,
  uint64, uint64, uint64, uint64, byteList 32, uint256, root,
  .list (byteList (2 ^ 30)) (2 ^ 20), .list withdrawal 16, uint64, uint64]

/-! ## blocks -/

/-- `slot`, `proposer_index`, `parent_root`, `state_root`, `body`. -/
def beaconBlock (body : Ty) : Ty := container [uint64, uint64, root, root, body]

namespace Deneb

/-- `aggregation_bits`, `data`, `signature`. -/
def attestation : Ty := container [.bitlist 2048, attestationData, blsSignature]

/-- `randao_reveal`, `eth1_data`, `graffiti`, `proposer_slashings`, `attester_slashings`,
`attestations`, `deposits`, `voluntary_exits`, `sync_aggregate`, `execution_payload`,
`bls_to_execution_changes`, `blob_kzg_commitments`. -/
def beaconBlockBody : Ty := container [blsSignature, eth1Data, root, .list proposerSlashing 16,
  .list (attesterSlashing 2048) 2, .list attestation 128, .list deposit 16,
  .list (signed voluntaryExit) 16, syncAggregate, executionPayload,
  .list (signed blsToExecutionChange) 16, .list (byteVector 48) 4096]

end Deneb

namespace Electra

/-- `aggregation_bits`, `data`, `signature`, `committee_bits`. -/
def attestation : Ty :=
  container [.bitlist (2048 * 64), attestationData, blsSignature, .bitvector 64]

/-- `pubkey`, `withdrawal_credentials`, `amount`, `signature`, `index`. -/
def depositRequest : Ty := container [blsPubkey, root, uint64, blsSignature, uint64]

/-- `source_address`, `validator_pubkey`, `amount`. -/
def withdrawalRequest : Ty := container [executionAddress, blsPubkey, uint64]

/-- `source_address`, `source_pubkey`, `target_pubkey`. -/
def consolidationRequest : Ty := container [executionAddress, blsPubkey, blsPubkey]

/-- `deposits`, `withdrawals`, `consolidations`. -/
def executionRequests : Ty := container [.list depositRequest 8192, .list withdrawalRequest 16,
  .list consolidationRequest 2]

/-- The fields of Deneb, with other limits for the slashings and the attestations, and
`execution_requests`. -/
def beaconBlockBody : Ty := container [blsSignature, eth1Data, root, .list proposerSlashing 16,
  .list (attesterSlashing (2048 * 64)) 1, .list attestation 8, .list deposit 16,
  .list (signed voluntaryExit) 16, syncAggregate, executionPayload,
  .list (signed blsToExecutionChange) 16, .list (byteVector 48) 4096, executionRequests]

end Electra

end GearBridges.EthereumCommon.ConsensusSpec
