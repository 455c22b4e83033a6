import GearBridges.EthereumCommon.ConsensusSpec
import GearBridges.EthereumCommon.TreeHash

/-!
# EthereumCommon.BeaconBlock

The beacon blocks of Deneb and Electra as the structs of the source, each with its derived
`TreeHash`, the SSZ type that the consensus specification has for it, and the value that it is
there.  That the value is one of the type says that the fields and their limits are those of the
specification; that the roots agree is what every struct inherits from its fields
(`Merkleizes`).
-/

namespace GearBridges.EthereumCommon.Beacon

open ConsensusSpec Ssz SszType

variable (c : TreeHashCrate) (hash : Chunk → Chunk → Chunk)

abbrev Bytes32 := BytesFixed 32

abbrev Address := BytesFixed 20

abbrev LogsBloom := BytesFixed 256

abbrev Transaction := ByteList 1073741824

abbrev SignatureBytes := BytesFixed 96

abbrev BLSPubKey := BytesFixed 48

/-! ## operations -/

structure Withdrawal where
  index : UInt64
  validatorIndex : UInt64
  address : Address
  amount : UInt64

instance : DeriveTreeHash c Withdrawal where
  fields self := [.of self.index, .of self.validatorIndex, .of self.address, .of self.amount]

instance : SszType Withdrawal where
  ty := withdrawal
  val self := (val self.index, val self.validatorIndex, val self.address, val self.amount, ())

instance [Prescribed hash c] : Merkleizes c hash Withdrawal :=
  merkleizes_derive hash fun _ => by repeat' constructor

structure Eth1Data where
  depositRoot : Bytes32
  depositCount : UInt64
  blockHash : Bytes32

instance : DeriveTreeHash c Eth1Data where
  fields self := [.of self.depositRoot, .of self.depositCount, .of self.blockHash]

instance : SszType Eth1Data where
  ty := eth1Data
  val self := (val self.depositRoot, val self.depositCount, val self.blockHash, ())

instance [Prescribed hash c] : Merkleizes c hash Eth1Data :=
  merkleizes_derive hash fun _ => by repeat' constructor

structure BlockHeader where
  slot : UInt64
  proposerIndex : UInt64
  parentRoot : H256
  stateRoot : H256
  bodyRoot : H256

instance : DeriveTreeHash c BlockHeader where
  fields self := [.of self.slot, .of self.proposerIndex, .of self.parentRoot, .of self.stateRoot,
    .of self.bodyRoot]

instance : SszType BlockHeader where
  ty := beaconBlockHeader
  val self := (val self.slot, val self.proposerIndex, val self.parentRoot, val self.stateRoot,
    val self.bodyRoot, ())

instance [Prescribed hash c] : Merkleizes c hash BlockHeader :=
  merkleizes_derive hash fun _ => by repeat' constructor

structure SignedBeaconBlockHeader where
  message : BlockHeader
  signature : SignatureBytes

instance : DeriveTreeHash c SignedBeaconBlockHeader where
  fields self := [.of self.message, .of self.signature]

instance : SszType SignedBeaconBlockHeader where
  ty := signed beaconBlockHeader
  val self := (val self.message, val self.signature, ())

instance [Prescribed hash c] : Merkleizes c hash SignedBeaconBlockHeader :=
  merkleizes_derive hash fun _ => by repeat' constructor

structure ProposerSlashing where
  signedHeader1 : SignedBeaconBlockHeader
  signedHeader2 : SignedBeaconBlockHeader

instance : DeriveTreeHash c ProposerSlashing where
  fields self := [.of self.signedHeader1, .of self.signedHeader2]

instance : SszType ProposerSlashing where
  ty := proposerSlashing
  val self := (val self.signedHeader1, val self.signedHeader2, ())

instance [Prescribed hash c] : Merkleizes c hash ProposerSlashing :=
  merkleizes_derive hash fun _ => by repeat' constructor

structure Checkpoint where
  epoch : UInt64
  root : Bytes32

instance : DeriveTreeHash c Checkpoint where
  fields self := [.of self.epoch, .of self.root]

instance : SszType Checkpoint where
  ty := checkpoint
  val self := (val self.epoch, val self.root, ())

instance [Prescribed hash c] : Merkleizes c hash Checkpoint :=
  merkleizes_derive hash fun _ => by repeat' constructor

structure AttestationData where
  slot : UInt64
  index : UInt64
  beaconBlockRoot : Bytes32
  source : Checkpoint
  target : Checkpoint

instance : DeriveTreeHash c AttestationData where
  fields self := [.of self.slot, .of self.index, .of self.beaconBlockRoot, .of self.source,
    .of self.target]

instance : SszType AttestationData where
  ty := attestationData
  val self := (val self.slot, val self.index, val self.beaconBlockRoot, val self.source,
    val self.target, ())

instance [Prescribed hash c] : Merkleizes c hash AttestationData :=
  merkleizes_derive hash fun _ => by repeat' constructor

structure IndexedAttestation where
  attestingIndices : BaseList UInt64 2048
  data : AttestationData
  signature : SignatureBytes

instance : DeriveTreeHash c IndexedAttestation where
  fields self := [.of self.attestingIndices, .of self.data, .of self.signature]

instance : SszType IndexedAttestation where
  ty := indexedAttestation 2048
  val self := (val self.attestingIndices, val self.data, val self.signature, ())

instance [Prescribed hash c] : Merkleizes c hash IndexedAttestation :=
  merkleizes_derive hash fun _ => by repeat' constructor

structure AttesterSlashing where
  attestation1 : IndexedAttestation
  attestation2 : IndexedAttestation

instance : DeriveTreeHash c AttesterSlashing where
  fields self := [.of self.attestation1, .of self.attestation2]

instance : SszType AttesterSlashing where
  ty := attesterSlashing 2048
  val self := (val self.attestation1, val self.attestation2, ())

instance [Prescribed hash c] : Merkleizes c hash AttesterSlashing :=
  merkleizes_derive hash fun _ => by repeat' constructor

structure Attestation where
  aggregationBits : Bitlist 2048
  data : AttestationData
  signature : SignatureBytes

instance : DeriveTreeHash c Attestation where
  fields self := [.of self.aggregationBits, .of self.data, .of self.signature]

instance : SszType Attestation where
  ty := Deneb.attestation
  val self := (val self.aggregationBits, val self.data, val self.signature, ())

instance [Prescribed hash c] : Merkleizes c hash Attestation :=
  merkleizes_derive hash fun _ => by repeat' constructor

structure DepositData where
  pubkey : BLSPubKey
  withdrawalCredentials : Bytes32
  amount : UInt64
  signature : SignatureBytes

instance : DeriveTreeHash c DepositData where
  fields self := [.of self.pubkey, .of self.withdrawalCredentials, .of self.amount,
    .of self.signature]

instance : SszType DepositData where
  ty := depositData
  val self := (val self.pubkey, val self.withdrawalCredentials, val self.amount,
    val self.signature, ())

instance [Prescribed hash c] : Merkleizes c hash DepositData :=
  merkleizes_derive hash fun _ => by repeat' constructor

structure Deposit where
  proof : FixedArray Bytes32 33
  data : DepositData

instance : DeriveTreeHash c Deposit where
  fields self := [.of self.proof, .of self.data]

instance : SszType Deposit where
  ty := deposit
  val self := (val self.proof, val self.data, ())

instance [Prescribed hash c] : Merkleizes c hash Deposit :=
  merkleizes_derive hash fun _ => by repeat' constructor

structure VoluntaryExit where
  epoch : UInt64
  validatorIndex : UInt64

instance : DeriveTreeHash c VoluntaryExit where
  fields self := [.of self.epoch, .of self.validatorIndex]

instance : SszType VoluntaryExit where
  ty := voluntaryExit
  val self := (val self.epoch, val self.validatorIndex, ())

instance [Prescribed hash c] : Merkleizes c hash VoluntaryExit :=
  merkleizes_derive hash fun _ => by repeat' constructor

structure SignedVoluntaryExit where
  message : VoluntaryExit
  signature : SignatureBytes

instance : DeriveTreeHash c SignedVoluntaryExit where
  fields self := [.of self.message, .of self.signature]

instance : SszType SignedVoluntaryExit where
  ty := signed voluntaryExit
  val self := (val self.message, val self.signature, ())

instance [Prescribed hash c] : Merkleizes c hash SignedVoluntaryExit :=
  merkleizes_derive hash fun _ => by repeat' constructor

structure BlsToExecutionChange where
  validatorIndex : UInt64
  fromBlsPubkey : BLSPubKey
  toExecutionAddress : Address

instance : DeriveTreeHash c BlsToExecutionChange where
  fields self := [.of self.validatorIndex, .of self.fromBlsPubkey, .of self.toExecutionAddress]

instance : SszType BlsToExecutionChange where
  ty := blsToExecutionChange
  val self := (val self.validatorIndex, val self.fromBlsPubkey, val self.toExecutionAddress, ())

instance [Prescribed hash c] : Merkleizes c hash BlsToExecutionChange :=
  merkleizes_derive hash fun _ => by repeat' constructor

structure SignedBlsToExecutionChange where
  message : BlsToExecutionChange
  signature : SignatureBytes

instance : DeriveTreeHash c SignedBlsToExecutionChange where
  fields self := [.of self.message, .of self.signature]

instance : SszType SignedBlsToExecutionChange where
  ty := signed blsToExecutionChange
  val self := (val self.message, val self.signature, ())

instance [Prescribed hash c] : Merkleizes c hash SignedBlsToExecutionChange :=
  merkleizes_derive hash fun _ => by repeat' constructor

structure SyncAggregate where
  syncCommitteeBits : Bitvector 512
  syncCommitteeSignature : SignatureBytes

instance : DeriveTreeHash c SyncAggregate where
  fields self := [.of self.syncCommitteeBits, .of self.syncCommitteeSignature]

instance : SszType SyncAggregate where
  ty := syncAggregate
  val self := (val self.syncCommitteeBits, val self.syncCommitteeSignature, ())

instance [Prescribed hash c] : Merkleizes c hash SyncAggregate :=
  merkleizes_derive hash fun _ => by repeat' constructor

/-! ## blocks -/

structure ExecutionPayload where
  parentHash : Bytes32
  feeRecipient : Address
  stateRoot : Bytes32
  receiptsRoot : Bytes32
  logsBloom : LogsBloom
  prevRandao : Bytes32
  blockNumber : UInt64
  gasLimit : UInt64
  gasUsed : UInt64
  timestamp : UInt64
  extraData : ByteList 32
  baseFeePerGas : U256
  blockHash : Bytes32
  transactions : BaseList Transaction 1048576
  withdrawals : BaseList Withdrawal 16
  blobGasUsed : UInt64
  excessBlobGas : UInt64

instance : DeriveTreeHash c ExecutionPayload where
  fields self := [.of self.parentHash, .of self.feeRecipient, .of self.stateRoot,
    .of self.receiptsRoot, .of self.logsBloom, .of self.prevRandao, .of self.blockNumber,
    .of self.gasLimit, .of self.gasUsed, .of self.timestamp, .of self.extraData,
    .of self.baseFeePerGas, .of self.blockHash, .of self.transactions, .of self.withdrawals,
    .of self.blobGasUsed, .of self.excessBlobGas]

instance : SszType ExecutionPayload where
  ty := executionPayload
  val self := (val self.parentHash, val self.feeRecipient, val self.stateRoot,
    val self.receiptsRoot, val self.logsBloom, val self.prevRandao, val self.blockNumber,
    val self.gasLimit, val self.gasUsed, val self.timestamp, val self.extraData,
    val self.baseFeePerGas, val self.blockHash, val self.transactions, val self.withdrawals,
    val self.blobGasUsed, val self.excessBlobGas, ())

instance [Prescribed hash c] : Merkleizes c hash ExecutionPayload :=
  merkleizes_derive hash fun _ => by repeat' constructor

structure BlockBody where
  randaoReveal : SignatureBytes
  eth1Data : Eth1Data
  graffiti : Bytes32
  proposerSlashings : BaseList ProposerSlashing 16
  attesterSlashings : BaseList AttesterSlashing 2
  attestations : BaseList Attestation 128
  deposits : BaseList Deposit 16
  voluntaryExits : BaseList SignedVoluntaryExit 16
  syncAggregate : SyncAggregate
  executionPayload : ExecutionPayload
  blsToExecutionChanges : BaseList SignedBlsToExecutionChange 16
  blobKzgCommitments : BaseList (BytesFixed 48) 4096

instance : DeriveTreeHash c BlockBody where
  fields self := [.of self.randaoReveal, .of self.eth1Data, .of self.graffiti,
    .of self.proposerSlashings, .of self.attesterSlashings, .of self.attestations,
    .of self.deposits, .of self.voluntaryExits, .of self.syncAggregate, .of self.executionPayload,
    .of self.blsToExecutionChanges, .of self.blobKzgCommitments]

instance : SszType BlockBody where
  ty := Deneb.beaconBlockBody
  val self := (val self.randaoReveal, val self.eth1Data, val self.graffiti,
    val self.proposerSlashings, val self.attesterSlashings, val self.attestations,
    val self.deposits, val self.voluntaryExits, val self.syncAggregate, val self.executionPayload,
    val self.blsToExecutionChanges, val self.blobKzgCommitments, ())

instance [Prescribed hash c] : Merkleizes c hash BlockBody :=
  merkleizes_derive hash fun _ => by repeat' constructor

structure BlockGeneric (Body : Type) where
  slot : UInt64
  proposerIndex : UInt64
  parentRoot : H256
  stateRoot : H256
  body : Body

instance {Body : Type} [TreeHash c Body] : DeriveTreeHash c (BlockGeneric Body) where
  fields self := [.of self.slot, .of self.proposerIndex, .of self.parentRoot, .of self.stateRoot,
    .of self.body]

instance {Body : Type} [SszType Body] : SszType (BlockGeneric Body) where
  ty := beaconBlock (ty Body)
  val self := (val self.slot, val self.proposerIndex, val self.parentRoot, val self.stateRoot,
    val self.body, ())

instance {Body : Type} [TreeHash c Body] [SszType Body] [Merkleizes c hash Body]
    [Prescribed hash c] : Merkleizes c hash (BlockGeneric Body) :=
  merkleizes_derive hash fun _ => by repeat' constructor

abbrev Block := BlockGeneric BlockBody

namespace Electra

def maxDepositRequestsPerPayload : Nat := 8192

def maxWithdrawalRequestsPerPayload : Nat := 16

def maxConsolidationRequestsPerPayload : Nat := 2

def maxAttesterSlashings : Nat := 1

def maxAttestations : Nat := 8

def maxValidatorsPerCommittee : Nat := 2048

def maxCommitteesPerSlot : Nat := 64

structure DepositRequest where
  pubkey : BLSPubKey
  withdrawalCredentials : Bytes32
  amount : UInt64
  signature : SignatureBytes
  index : UInt64

instance : DeriveTreeHash c DepositRequest where
  fields self := [.of self.pubkey, .of self.withdrawalCredentials, .of self.amount,
    .of self.signature, .of self.index]

instance : SszType DepositRequest where
  ty := Electra.depositRequest
  val self := (val self.pubkey, val self.withdrawalCredentials, val self.amount,
    val self.signature, val self.index, ())

instance [Prescribed hash c] : Merkleizes c hash DepositRequest :=
  merkleizes_derive hash fun _ => by repeat' constructor

structure WithdrawalRequest where
  sourceAddress : Address
  validatorPubkey : BLSPubKey
  amount : UInt64

instance : DeriveTreeHash c WithdrawalRequest where
  fields self := [.of self.sourceAddress, .of self.validatorPubkey, .of self.amount]

instance : SszType WithdrawalRequest where
  ty := Electra.withdrawalRequest
  val self := (val self.sourceAddress, val self.validatorPubkey, val self.amount, ())

instance [Prescribed hash c] : Merkleizes c hash WithdrawalRequest :=
  merkleizes_derive hash fun _ => by repeat' constructor

structure ConsolidationRequest where
  sourceAddress : Address
  sourcePubkey : BLSPubKey
  targetPubkey : BLSPubKey

instance : DeriveTreeHash c ConsolidationRequest where
  fields self := [.of self.sourceAddress, .of self.sourcePubkey, .of self.targetPubkey]

instance : SszType ConsolidationRequest where
  ty := Electra.consolidationRequest
  val self := (val self.sourceAddress, val self.sourcePubkey, val self.targetPubkey, ())

instance [Prescribed hash c] : Merkleizes c hash ConsolidationRequest :=
  merkleizes_derive hash fun _ => by repeat' constructor

structure ExecutionRequests where
  deposits : BaseList DepositRequest maxDepositRequestsPerPayload
  withdrawals : BaseList WithdrawalRequest maxWithdrawalRequestsPerPayload
  consolidations : BaseList ConsolidationRequest maxConsolidationRequestsPerPayload

instance : DeriveTreeHash c ExecutionRequests where
  fields self := [.of self.deposits, .of self.withdrawals, .of self.consolidations]

instance : SszType ExecutionRequests where
  ty := Electra.executionRequests
  val self := (val self.deposits, val self.withdrawals, val self.consolidations, ())

instance [Prescribed hash c] : Merkleizes c hash ExecutionRequests :=
  merkleizes_derive hash fun _ => by repeat' constructor

structure IndexedAttestation where
  attestingIndices : BaseList UInt64 (maxValidatorsPerCommittee * maxCommitteesPerSlot)
  data : AttestationData
  signature : SignatureBytes

instance : DeriveTreeHash c IndexedAttestation where
  fields self := [.of self.attestingIndices, .of self.data, .of self.signature]

instance : SszType IndexedAttestation where
  ty := indexedAttestation (2048 * 64)
  val self := (val self.attestingIndices, val self.data, val self.signature, ())

instance [Prescribed hash c] : Merkleizes c hash IndexedAttestation :=
  merkleizes_derive hash fun _ => by repeat' constructor

structure Attestation where
  aggregationBits : Bitlist (maxValidatorsPerCommittee * maxCommitteesPerSlot)
  data : AttestationData
  signature : SignatureBytes
  committeeBits : Bitvector maxCommitteesPerSlot

instance : DeriveTreeHash c Attestation where
  fields self := [.of self.aggregationBits, .of self.data, .of self.signature,
    .of self.committeeBits]

instance : SszType Attestation where
  ty := Electra.attestation
  val self := (val self.aggregationBits, val self.data, val self.signature,
    val self.committeeBits, ())

instance [Prescribed hash c] : Merkleizes c hash Attestation :=
  merkleizes_derive hash fun _ => by repeat' constructor

structure AttesterSlashing where
  attestation1 : IndexedAttestation
  attestation2 : IndexedAttestation

instance : DeriveTreeHash c AttesterSlashing where
  fields self := [.of self.attestation1, .of self.attestation2]

instance : SszType AttesterSlashing where
  ty := attesterSlashing (2048 * 64)
  val self := (val self.attestation1, val self.attestation2, ())

instance [Prescribed hash c] : Merkleizes c hash AttesterSlashing :=
  merkleizes_derive hash fun _ => by repeat' constructor

structure BlockBody where
  randaoReveal : SignatureBytes
  eth1Data : Eth1Data
  graffiti : Bytes32
  proposerSlashings : BaseList ProposerSlashing 16
  attesterSlashings : BaseList AttesterSlashing maxAttesterSlashings
  attestations : BaseList Attestation maxAttestations
  deposits : BaseList Deposit 16
  voluntaryExits : BaseList SignedVoluntaryExit 16
  syncAggregate : SyncAggregate
  executionPayload : ExecutionPayload
  blsToExecutionChanges : BaseList SignedBlsToExecutionChange 16
  blobKzgCommitments : BaseList (BytesFixed 48) 4096
  executionRequests : ExecutionRequests

instance : DeriveTreeHash c BlockBody where
  fields self := [.of self.randaoReveal, .of self.eth1Data, .of self.graffiti,
    .of self.proposerSlashings, .of self.attesterSlashings, .of self.attestations,
    .of self.deposits, .of self.voluntaryExits, .of self.syncAggregate, .of self.executionPayload,
    .of self.blsToExecutionChanges, .of self.blobKzgCommitments, .of self.executionRequests]

instance : SszType BlockBody where
  ty := Electra.beaconBlockBody
  val self := (val self.randaoReveal, val self.eth1Data, val self.graffiti,
    val self.proposerSlashings, val self.attesterSlashings, val self.attestations,
    val self.deposits, val self.voluntaryExits, val self.syncAggregate, val self.executionPayload,
    val self.blsToExecutionChanges, val self.blobKzgCommitments, val self.executionRequests, ())

instance [Prescribed hash c] : Merkleizes c hash BlockBody :=
  merkleizes_derive hash fun _ => by repeat' constructor

abbrev Block := BlockGeneric BlockBody

end Electra

end GearBridges.EthereumCommon.Beacon
