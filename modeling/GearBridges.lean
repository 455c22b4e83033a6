import GearBridges.Bridge.EthereumToGear
import GearBridges.Bridge.GearToEthereum
import GearBridges.CheckpointLightClient.Alignment
import GearBridges.CheckpointLightClient.Batching
import GearBridges.CheckpointLightClient.CheckpointFor
import GearBridges.CheckpointLightClient.Covering
import GearBridges.CheckpointLightClient.Finishing
import GearBridges.CheckpointLightClient.HonestChain
import GearBridges.CheckpointLightClient.Monotone
import GearBridges.CheckpointLightClient.ReplayBack
import GearBridges.CheckpointLightClient.SyncProtocol
import GearBridges.CheckpointLightClient.SyncUpdate
import GearBridges.CheckpointLightClient.System
import GearBridges.CheckpointLightClient.Types
import GearBridges.CheckpointLightClient.Vouching
import GearBridges.Circuits.ArithmeticU32
import GearBridges.Circuits.BigUint
import GearBridges.Circuits.Blake2b
import GearBridges.Circuits.Blake2bCircuit
import GearBridges.Circuits.ComparisonGate
import GearBridges.Circuits.CurveGadgets
import GearBridges.Circuits.Ed25519
import GearBridges.Circuits.NonNative
import GearBridges.Circuits.NonNativeGenerators
import GearBridges.Circuits.NonNativeResidues
import GearBridges.Circuits.ProjectivePoint
import GearBridges.Circuits.ScalarMul
import GearBridges.Circuits.ScalarMulMt
import GearBridges.Circuits.SplitBase
import GearBridges.Circuits.U32Gadgets
import GearBridges.Circuits.U32Gates
import GearBridges.Circuits.Words
import GearBridges.EthEvents.CheckProofs
import GearBridges.Ethereum.Accounting
import GearBridges.Ethereum.Delivery
import GearBridges.Ethereum.ERC20Manager
import GearBridges.Ethereum.MessageQueue
import GearBridges.Ethereum.ProcessMessage
import GearBridges.Ethereum.Provenance
import GearBridges.Ethereum.Relayer
import GearBridges.EthereumCommon.BeaconBlock
import GearBridges.EthereumCommon.Bits
import GearBridges.EthereumCommon.ConsensusSpec
import GearBridges.EthereumCommon.LightBlock
import GearBridges.EthereumCommon.Merkle
import GearBridges.EthereumCommon.MerkleBranch
import GearBridges.EthereumCommon.Network
import GearBridges.EthereumCommon.Receipts
import GearBridges.EthereumCommon.RlpNodeCodec
import GearBridges.EthereumCommon.TreeHash
import GearBridges.GearRpcClient.AuthoritySetSearch
import GearBridges.GearRpcClient.EraFirstBlock
import GearBridges.GnarkWrapper.Compression
import GearBridges.HistoricalProxy.Endpoints
import GearBridges.HistoricalProxy.Redirect
import GearBridges.Indexer.NonceKeys
import GearBridges.Indexer.TempState
import GearBridges.Lib.BinaryMerkle
import GearBridges.Lib.BinarySearch
import GearBridges.Lib.BitBytes
import GearBridges.Lib.Blake2
import GearBridges.Lib.BoundedHistory
import GearBridges.Lib.CompleteTree
import GearBridges.Lib.Curve25519
import GearBridges.Lib.CyclicRecursion
import GearBridges.Lib.Decimal
import GearBridges.Lib.DigitOrder
import GearBridges.Lib.Digits
import GearBridges.Lib.Edwards
import GearBridges.Lib.FiniteMap
import GearBridges.Lib.Gadgets
import GearBridges.Lib.Goldilocks
import GearBridges.Lib.Greatest
import GearBridges.Lib.Keccak
import GearBridges.Lib.Loop
import GearBridges.Lib.Outcomes
import GearBridges.Lib.Pipeline
import GearBridges.Lib.PowMod
import GearBridges.Lib.Reentrancy
import GearBridges.Lib.Rlp
import GearBridges.Lib.Sha256
import GearBridges.Lib.SmallLimbs
import GearBridges.Lib.Ssz
import GearBridges.Lib.SubstrateTrie
import GearBridges.Lib.Transition
import GearBridges.Lib.Yao
import GearBridges.ProofStorage.Program
import GearBridges.Prover.BlockFinality
import GearBridges.Prover.BlockHeaderParser
import GearBridges.Prover.BranchCodec
import GearBridges.Prover.BranchNodeData
import GearBridges.Prover.BranchParser
import GearBridges.Prover.CyclicProofs
import GearBridges.Prover.GenericBlake2
import GearBridges.Prover.HashedBytes
import GearBridges.Prover.LeafParser
import GearBridges.Prover.Limbs
import GearBridges.Prover.NodeFront
import GearBridges.Prover.NodeParser
import GearBridges.Prover.PreCommits
import GearBridges.Prover.StorageAddress
import GearBridges.Prover.StorageTrieProof
import GearBridges.Prover.Targets
import GearBridges.Prover.ValidatorSetChain
import GearBridges.Prover.ValidatorSigns
import GearBridges.Relayer.Accumulator
import GearBridges.Relayer.BlockListener
import GearBridges.Relayer.ComposePayload
import GearBridges.Relayer.Eras
import GearBridges.Relayer.FileSystemProofStorage
import GearBridges.Relayer.GearMessageSender
import GearBridges.Relayer.GearProofStorage
import GearBridges.Relayer.KillSwitch
import GearBridges.Relayer.MerkleRoots
import GearBridges.Relayer.PaidMessagesFilter
import GearBridges.Relayer.ProofStorageSender
import GearBridges.Relayer.ProverInterface
import GearBridges.Relayer.ReplayBack
import GearBridges.Relayer.ResendTimeout
import GearBridges.Relayer.RetryBudget
import GearBridges.Relayer.SlotsBatch
import GearBridges.Relayer.Stages
import GearBridges.VftManager.Backing
import GearBridges.VftManager.BridgeOrRefund
import GearBridges.VftManager.Deposits
import GearBridges.VftManager.Interleaving
import GearBridges.VftManager.Invariants
import GearBridges.VftManager.MsgTracker
import GearBridges.VftManager.Receipts
import GearBridges.VftManager.Refunds
import GearBridges.VftManager.RequestBridging
import GearBridges.VftManager.Runtime
import GearBridges.VftManager.SubmitReceipt
import GearBridges.VftManager.System
import GearBridges.VftManager.TokenMapping
import GearBridges.VftManager.TxHistory
import GearBridges.VftManager.Types
import GearBridges.VftManager.Upgrade
