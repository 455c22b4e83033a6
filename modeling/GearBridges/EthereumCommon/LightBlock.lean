import GearBridges.EthereumCommon.BeaconBlock
import GearBridges.Lib.Sha256

/-!
# EthereumCommon.LightBlock

The light blocks, in which most fields of a block are replaced by their roots, and how a block is
turned into one.  A light block has at every position the value of the block, its root, or its
light version (`AllHold`); so it has the root of the block, which is that of SSZ
(`light_block_hashes_like_full`).
-/

namespace GearBridges.EthereumCommon.Beacon

open ConsensusSpec DeriveTreeHash Ssz SszType TreeHash

variable (c : TreeHashCrate)

/-- The trait `From`, from the side of the value; `none` is a panic. -/
class Into (c : TreeHashCrate) (A B : Type) where
  into : A → Option B

namespace Light

structure ExecutionPayload where
  parentHash : Bytes32
  feeRecipient : Address
  stateRoot : Bytes32
  receiptsRoot : Bytes32
  logsBloom : H256
  prevRandao : Bytes32
  blockNumber : UInt64
  gasLimit : UInt64
  gasUsed : UInt64
  timestamp : UInt64
  extraData : ByteList 32
  baseFeePerGas : U256
  blockHash : Bytes32
  transactions : H256
  withdrawals : H256
  blobGasUsed : UInt64
  excessBlobGas : UInt64

instance : DeriveTreeHash c ExecutionPayload where
  fields self := [.of self.parentHash, .of self.feeRecipient, .of self.stateRoot,
    .of self.receiptsRoot, .of self.logsBloom, .of self.prevRandao, .of self.blockNumber,
    .of self.gasLimit, .of self.gasUsed, .of self.timestamp, .of self.extraData,
    .of self.baseFeePerGas, .of self.blockHash, .of self.transactions, .of self.withdrawals,
    .of self.blobGasUsed, .of self.excessBlobGas]

/-- `From<Beacon.ExecutionPayload>`. -/
def ExecutionPayload.fromFull (value : Beacon.ExecutionPayload) : Option ExecutionPayload := do
  let logsBloom ← treeHashRoot c value.logsBloom
  let transactions ← treeHashRoot c value.transactions
  let withdrawals ← treeHashRoot c value.withdrawals
  return {
    parentHash := value.parentHash
    feeRecipient := value.feeRecipient
    stateRoot := value.stateRoot
    receiptsRoot := value.receiptsRoot
    logsBloom
    prevRandao := value.prevRandao
    blockNumber := value.blockNumber
    gasLimit := value.gasLimit
    gasUsed := value.gasUsed
    timestamp := value.timestamp
    extraData := value.extraData
    baseFeePerGas := value.baseFeePerGas
    blockHash := value.blockHash
    transactions
    withdrawals
    blobGasUsed := value.blobGasUsed
    excessBlobGas := value.excessBlobGas }

instance : Into c Beacon.ExecutionPayload ExecutionPayload := ⟨ExecutionPayload.fromFull c⟩

structure BlockBody where
  randaoReveal : H256
  eth1Data : H256
  graffiti : Bytes32
  proposerSlashings : H256
  attesterSlashings : H256
  attestations : H256
  deposits : H256
  voluntaryExits : H256
  syncAggregate : H256
  executionPayload : ExecutionPayload
  blsToExecutionChanges : H256
  blobKzgCommitments : H256

instance : DeriveTreeHash c BlockBody where
  fields self := [.of self.randaoReveal, .of self.eth1Data, .of self.graffiti,
    .of self.proposerSlashings, .of self.attesterSlashings, .of self.attestations,
    .of self.deposits, .of self.voluntaryExits, .of self.syncAggregate, .of self.executionPayload,
    .of self.blsToExecutionChanges, .of self.blobKzgCommitments]

/-- `From<Beacon.BlockBody>`. -/
def BlockBody.fromFull (value : Beacon.BlockBody) : Option BlockBody := do
  let randaoReveal ← treeHashRoot c value.randaoReveal
  let eth1Data ← treeHashRoot c value.eth1Data
  let proposerSlashings ← treeHashRoot c value.proposerSlashings
  let attesterSlashings ← treeHashRoot c value.attesterSlashings
  let attestations ← treeHashRoot c value.attestations
  let deposits ← treeHashRoot c value.deposits
  let voluntaryExits ← treeHashRoot c value.voluntaryExits
  let syncAggregate ← treeHashRoot c value.syncAggregate
  let executionPayload ← Into.into c value.executionPayload
  let blsToExecutionChanges ← treeHashRoot c value.blsToExecutionChanges
  let blobKzgCommitments ← treeHashRoot c value.blobKzgCommitments
  return {
    randaoReveal
    eth1Data
    graffiti := value.graffiti
    proposerSlashings
    attesterSlashings
    attestations
    deposits
    voluntaryExits
    syncAggregate
    executionPayload
    blsToExecutionChanges
    blobKzgCommitments }

instance : Into c Beacon.BlockBody BlockBody := ⟨BlockBody.fromFull c⟩

structure BlockGeneric (Body : Type) where
  slot : UInt64
  proposerIndex : UInt64
  parentRoot : H256
  stateRoot : H256
  body : Body

instance {Body : Type} [TreeHash c Body] : DeriveTreeHash c (BlockGeneric Body) where
  fields self := [.of self.slot, .of self.proposerIndex, .of self.parentRoot, .of self.stateRoot,
    .of self.body]

/-- `From` of a block with another body. -/
def BlockGeneric.fromFull {Body BodyLight : Type} [Into c Body BodyLight]
    (value : Beacon.BlockGeneric Body) : Option (BlockGeneric BodyLight) := do
  let body ← Into.into c value.body
  return {
    slot := value.slot
    proposerIndex := value.proposerIndex
    parentRoot := value.parentRoot
    stateRoot := value.stateRoot
    body }

instance {Body BodyLight : Type} [Into c Body BodyLight] :
    Into c (Beacon.BlockGeneric Body) (BlockGeneric BodyLight) := ⟨BlockGeneric.fromFull c⟩

abbrev Block := BlockGeneric BlockBody

namespace Electra

structure BlockBody where
  randaoReveal : H256
  eth1Data : H256
  graffiti : Bytes32
  proposerSlashings : H256
  attesterSlashings : H256
  attestations : H256
  deposits : H256
  voluntaryExits : H256
  syncAggregate : H256
  executionPayload : ExecutionPayload
  blsToExecutionChanges : H256
  blobKzgCommitments : H256
  executionRequests : H256

instance : DeriveTreeHash c BlockBody where
  fields self := [.of self.randaoReveal, .of self.eth1Data, .of self.graffiti,
    .of self.proposerSlashings, .of self.attesterSlashings, .of self.attestations,
    .of self.deposits, .of self.voluntaryExits, .of self.syncAggregate, .of self.executionPayload,
    .of self.blsToExecutionChanges, .of self.blobKzgCommitments, .of self.executionRequests]

/-- `From<Beacon.Electra.BlockBody>`. -/
def BlockBody.fromFull (value : Beacon.Electra.BlockBody) : Option BlockBody := do
  let randaoReveal ← treeHashRoot c value.randaoReveal
  let eth1Data ← treeHashRoot c value.eth1Data
  let proposerSlashings ← treeHashRoot c value.proposerSlashings
  let attesterSlashings ← treeHashRoot c value.attesterSlashings
  let attestations ← treeHashRoot c value.attestations
  let deposits ← treeHashRoot c value.deposits
  let voluntaryExits ← treeHashRoot c value.voluntaryExits
  let syncAggregate ← treeHashRoot c value.syncAggregate
  let executionPayload ← Into.into c value.executionPayload
  let blsToExecutionChanges ← treeHashRoot c value.blsToExecutionChanges
  let blobKzgCommitments ← treeHashRoot c value.blobKzgCommitments
  let executionRequests ← treeHashRoot c value.executionRequests
  return {
    randaoReveal
    eth1Data
    graffiti := value.graffiti
    proposerSlashings
    attesterSlashings
    attestations
    deposits
    voluntaryExits
    syncAggregate
    executionPayload
    blsToExecutionChanges
    blobKzgCommitments
    executionRequests }

instance : Into c Beacon.Electra.BlockBody BlockBody := ⟨BlockBody.fromFull c⟩

abbrev Block := BlockGeneric BlockBody

end Electra

end Light

/-! ## position for position -/

variable {c}

/-- At every position of a light struct stands the value of the full one, its root, or a light
struct in turn. -/
inductive AllHold : List (AnyField c) → List (AnyField c) → Prop
  | nil : AllHold [] []
  | value (field : AnyField c) {lights fulls : List (AnyField c)} :
      AllHold lights fulls → AllHold (field :: lights) (field :: fulls)
  | root {T : Type} [TreeHash c T] {value : T} {root : H256} {lights fulls : List (AnyField c)} :
      treeHashRoot c value = some root → AllHold lights fulls →
        AllHold (.of root :: lights) (.of value :: fulls)
  | struct {A B : Type} [DeriveTreeHash c A] [DeriveTreeHash c B] {light : A} {full : B}
      {lights fulls : List (AnyField c)} :
      AllHold (fields light) (fields full) → AllHold lights fulls →
        AllHold (.of light :: lights) (.of full :: fulls)

/-- What stands at the positions has the same roots. -/
theorem AllHold.roots_eq (hash : Chunk → Chunk → Chunk)
    [prescribed : Prescribed hash c] {lights fulls : List (AnyField c)}
    (h : AllHold lights fulls) : lights.mapM AnyField.root = fulls.mapM AnyField.root := by
  induction h with
  | nil => rfl
  | value field _ ih => rw [List.mapM_cons, List.mapM_cons, ih]
  | @root T _ value root lights fulls hroot _ ih =>
      have hlight : AnyField.root (.of root : AnyField c) = some root :=
        congrArg some (prescribed.h256Root root)
      have hfull : AnyField.root (.of value : AnyField c) = some root := hroot
      rw [List.mapM_cons, List.mapM_cons, hlight, hfull, ih]
  | @struct A B _ _ light full lights fulls _ _ ihStruct ih =>
      have hstruct : AnyField.root (.of light : AnyField c) =
          AnyField.root (.of full : AnyField c) := by
        show treeHashRoot c light = treeHashRoot c full
        exact congrArg (Option.map c.containerRoot) ihStruct
      rw [List.mapM_cons, List.mapM_cons, hstruct, ih]

/-- Under the prescriptions no root panics. -/
theorem exists_root (hash : Chunk → Chunk → Chunk) [Prescribed hash c] {T : Type} [TreeHash c T]
    [SszType T] [merkleizes : Merkleizes c hash T] (value : T) :
    ∃ root, treeHashRoot c value = some root :=
  ⟨_, merkleizes.root_eq value⟩

/-! ## the conversions -/

theorem executionPayload_into (hash : Chunk → Chunk → Chunk) [Prescribed hash c]
    (value : ExecutionPayload) :
    ∃ light : Light.ExecutionPayload, Into.into c value = some light ∧
      AllHold (c := c) (fields light) (fields value) := by
  obtain ⟨logsBloom, h1⟩ := exists_root hash (c := c) value.logsBloom
  obtain ⟨transactions, h2⟩ := exists_root hash (c := c) value.transactions
  obtain ⟨withdrawals, h3⟩ := exists_root hash (c := c) value.withdrawals
  refine ⟨⟨value.parentHash, value.feeRecipient, value.stateRoot, value.receiptsRoot, logsBloom,
    value.prevRandao, value.blockNumber, value.gasLimit, value.gasUsed, value.timestamp,
    value.extraData, value.baseFeePerGas, value.blockHash, transactions, withdrawals,
    value.blobGasUsed, value.excessBlobGas⟩, ?_, ?_⟩
  · show Light.ExecutionPayload.fromFull c value = some _
    rw [Light.ExecutionPayload.fromFull, h1, h2, h3]
    rfl
  · repeat' first | exact .nil | refine .root ‹_› ?_ | refine .value _ ?_

theorem blockBody_into (hash : Chunk → Chunk → Chunk) [Prescribed hash c] (value : BlockBody) :
    ∃ light : Light.BlockBody, Into.into c value = some light ∧
      AllHold (c := c) (fields light) (fields value) := by
  obtain ⟨randaoReveal, h1⟩ := exists_root hash (c := c) value.randaoReveal
  obtain ⟨eth1Data, h2⟩ := exists_root hash (c := c) value.eth1Data
  obtain ⟨proposerSlashings, h3⟩ := exists_root hash (c := c) value.proposerSlashings
  obtain ⟨attesterSlashings, h4⟩ := exists_root hash (c := c) value.attesterSlashings
  obtain ⟨attestations, h5⟩ := exists_root hash (c := c) value.attestations
  obtain ⟨deposits, h6⟩ := exists_root hash (c := c) value.deposits
  obtain ⟨voluntaryExits, h7⟩ := exists_root hash (c := c) value.voluntaryExits
  obtain ⟨syncAggregate, h8⟩ := exists_root hash (c := c) value.syncAggregate
  obtain ⟨executionPayload, h9, hpayload⟩ :=
    executionPayload_into hash (c := c) value.executionPayload
  obtain ⟨blsToExecutionChanges, h10⟩ := exists_root hash (c := c) value.blsToExecutionChanges
  obtain ⟨blobKzgCommitments, h11⟩ := exists_root hash (c := c) value.blobKzgCommitments
  refine ⟨⟨randaoReveal, eth1Data, value.graffiti, proposerSlashings, attesterSlashings,
    attestations, deposits, voluntaryExits, syncAggregate, executionPayload, blsToExecutionChanges,
    blobKzgCommitments⟩, ?_, ?_⟩
  · show Light.BlockBody.fromFull c value = some _
    rw [Light.BlockBody.fromFull, h1, h2, h3, h4, h5, h6, h7, h8, h9, h10, h11]
    rfl
  · repeat' first
    | exact .nil | refine .root ‹_› ?_ | refine .value _ ?_ | refine .struct hpayload ?_

theorem electraBlockBody_into (hash : Chunk → Chunk → Chunk) [Prescribed hash c]
    (value : Electra.BlockBody) :
    ∃ light : Light.Electra.BlockBody, Into.into c value = some light ∧
      AllHold (c := c) (fields light) (fields value) := by
  obtain ⟨randaoReveal, h1⟩ := exists_root hash (c := c) value.randaoReveal
  obtain ⟨eth1Data, h2⟩ := exists_root hash (c := c) value.eth1Data
  obtain ⟨proposerSlashings, h3⟩ := exists_root hash (c := c) value.proposerSlashings
  obtain ⟨attesterSlashings, h4⟩ := exists_root hash (c := c) value.attesterSlashings
  obtain ⟨attestations, h5⟩ := exists_root hash (c := c) value.attestations
  obtain ⟨deposits, h6⟩ := exists_root hash (c := c) value.deposits
  obtain ⟨voluntaryExits, h7⟩ := exists_root hash (c := c) value.voluntaryExits
  obtain ⟨syncAggregate, h8⟩ := exists_root hash (c := c) value.syncAggregate
  obtain ⟨executionPayload, h9, hpayload⟩ :=
    executionPayload_into hash (c := c) value.executionPayload
  obtain ⟨blsToExecutionChanges, h10⟩ := exists_root hash (c := c) value.blsToExecutionChanges
  obtain ⟨blobKzgCommitments, h11⟩ := exists_root hash (c := c) value.blobKzgCommitments
  obtain ⟨executionRequests, h12⟩ := exists_root hash (c := c) value.executionRequests
  refine ⟨⟨randaoReveal, eth1Data, value.graffiti, proposerSlashings, attesterSlashings,
    attestations, deposits, voluntaryExits, syncAggregate, executionPayload, blsToExecutionChanges,
    blobKzgCommitments, executionRequests⟩, ?_, ?_⟩
  · show Light.Electra.BlockBody.fromFull c value = some _
    rw [Light.Electra.BlockBody.fromFull, h1, h2, h3, h4, h5, h6, h7, h8, h9, h10, h11, h12]
    rfl
  · repeat' first
    | exact .nil | refine .root ‹_› ?_ | refine .value _ ?_ | refine .struct hpayload ?_

/-- A block is turned into a light one, if its body is. -/
theorem block_into {Body BodyLight : Type} [DeriveTreeHash c Body] [DeriveTreeHash c BodyLight]
    [Into c Body BodyLight]
    (hbody : ∀ value : Body, ∃ light : BodyLight, Into.into c value = some light ∧
      AllHold (c := c) (fields light) (fields value)) (block : BlockGeneric Body) :
    ∃ light : Light.BlockGeneric BodyLight, Into.into c block = some light ∧
      AllHold (c := c) (fields light) (fields block) := by
  obtain ⟨body, h, hholds⟩ := hbody block.body
  refine ⟨⟨block.slot, block.proposerIndex, block.parentRoot, block.stateRoot, body⟩, ?_, ?_⟩
  · show Light.BlockGeneric.fromFull c block = some _
    rw [Light.BlockGeneric.fromFull, h]
    rfl
  · exact .value _ <| .value _ <| .value _ <| .value _ <| .struct hholds .nil

/-- Where everything stands at its position, the derived roots agree. -/
theorem treeHashRoot_of_allHold (hash : Chunk → Chunk → Chunk) [Prescribed hash c] {A B : Type}
    [DeriveTreeHash c A] [DeriveTreeHash c B] {light : A} {full : B}
    (h : AllHold (c := c) (fields light) (fields full)) :
    treeHashRoot c light = treeHashRoot c full :=
  congrArg (Option.map c.containerRoot) (h.roots_eq hash)

/-- **Light blocks hash like full blocks**: every block of either fork is turned into a light one
that holds at every position the value of the block, its root or its light version, the two have
one root, and it is the `hash_tree_root` of the block.  So have the base types, of every size. -/
theorem light_block_hashes_like_full (c : TreeHashCrate) (hash : Chunk → Chunk → Chunk)
    [Prescribed hash c] :
    (∀ block : Block, ∃ light : Light.Block, Into.into c block = some light ∧
      AllHold (c := c) (fields light) (fields block) ∧
      treeHashRoot c light = treeHashRoot c block ∧
      treeHashRoot c block =
        some (hashTreeRoot hash (beaconBlock Deneb.beaconBlockBody) (val block))) ∧
    (∀ block : Electra.Block, ∃ light : Light.Electra.Block, Into.into c block = some light ∧
      AllHold (c := c) (fields light) (fields block) ∧
      treeHashRoot c light = treeHashRoot c block ∧
      treeHashRoot c block =
        some (hashTreeRoot hash (beaconBlock Electra.beaconBlockBody) (val block))) ∧
    ∀ N,
      (∀ (T : Type) [TreeHash c T] [SszType T] [Merkleizes c hash T],
        (∀ self : BaseList T N,
          treeHashRoot c self = some (hashTreeRoot hash (.list (ty T) N) (val self))) ∧
        ∀ self : FixedArray T N,
          treeHashRoot c self = some (hashTreeRoot hash (.vector (ty T) N) (val self))) ∧
      (∀ self : ByteList N,
        treeHashRoot c self = some (hashTreeRoot hash (byteList N) (val self))) ∧
      (∀ self : BytesFixed N,
        treeHashRoot c self = some (hashTreeRoot hash (byteVector N) (val self))) ∧
      (∀ self : Bitvector N,
        treeHashRoot c self = some (hashTreeRoot hash (.bitvector N) (val self))) ∧
      ∀ self : Bitlist N, self.inner.asRawSlice = BitBytes.encode self.inner.bits ∧
        treeHashRoot c self = some (hashTreeRoot hash (.bitlist N) (val self)) := by
  refine ⟨?_, ?_, fun N => ⟨?_, ?_, ?_, ?_, ?_⟩⟩
  · intro block
    obtain ⟨light, hinto, hholds⟩ := block_into (c := c) (blockBody_into hash) block
    exact ⟨light, hinto, hholds, treeHashRoot_of_allHold hash hholds, Merkleizes.root_eq block⟩
  · intro block
    obtain ⟨light, hinto, hholds⟩ := block_into (c := c) (electraBlockBody_into hash) block
    exact ⟨light, hinto, hholds, treeHashRoot_of_allHold hash hholds, Merkleizes.root_eq block⟩
  · intro T _ _ _
    exact ⟨fun self => Merkleizes.root_eq self, fun self => Merkleizes.root_eq self⟩
  · exact fun self => Merkleizes.root_eq self
  · exact fun self => Merkleizes.root_eq self
  · exact fun self => Merkleizes.root_eq self
  · exact fun self => ⟨self.inner.asRawSlice_eq_iff.mpr self.clean, Merkleizes.root_eq self⟩

/-! ## a block -/

/-- The hash of two chunks. -/
def sha256 (a b : Chunk) : Chunk := ⟨Sha256.digest (a.1 ++ b.1), Sha256.length_digest _⟩

/-- The crate `tree_hash`.  The hasher has room for a power of two of leaves. -/
def sha256Crate : TreeHashCrate where
  merkleHasher leaves writes :=
    if writes.flatten.length ≤ 32 * 2 ^ Nat.clog 2 leaves then
      some (merkleize sha256 (toChunks writes.flatten) leaves)
    else none
  mixInLength := mixInLength sha256
  containerRoot roots := merkleize sha256 roots roots.length
  uintPackedEncoding := toBytesLE
  uintPackingFactor size := 32 / size
  uintRoot size value := .ofBytes (toBytesLE size value)
  h256Root := id

instance : Prescribed sha256 sha256Crate where
  merkleHasher leaves writes h := by
    have hroom := Nat.mul_le_mul_left 32 (Nat.le_pow_clog Nat.one_lt_two leaves)
    exact if_pos (Nat.le_trans h hroom)
  mixInLength _ _ := rfl
  containerRoot _ := rfl
  uintPackedEncoding _ _ := rfl
  uintPackingFactor _ := rfl
  uintRoot _ _ := rfl
  h256Root _ := rfl

def hexRoot (n : Nat) : H256 := .ofBytes (Digits.toBytesBE 32 n)

/-- The header of the block in slot 5151035 of Sepolia. -/
example : treeHashRoot sha256Crate
    (BlockHeader.mk 5151035 1959
      (hexRoot 0x64331200f34a330e14d5673ffa353f1348826d75830697f6b0750ba42bcabc5e)
      (hexRoot 0xa605d19e8b3e188fb6df208784d22ce820bbf2f91a32ac92e7d4f99d91ab04bb)
      (hexRoot 0x1d63bb6d5e875871045cfb7b4776b18bc4bd3c8372950ee92e3e5458c3a187f2)) =
    some (hexRoot 0x4017f0180aa9acb2601ab3ce066081a41661b7f85683901f1cadaec7b6198059) := by
  decide +kernel

def zeroBytes (N : Nat) : BytesFixed N := ⟨⟨List.replicate N 0, List.length_replicate⟩⟩

def noItems (T : Type) (N : Nat) : BaseList T N := ⟨[], Nat.zero_le N⟩

def samplePayload : ExecutionPayload where
  parentHash := zeroBytes 32
  feeRecipient := zeroBytes 20
  stateRoot := zeroBytes 32
  receiptsRoot := zeroBytes 32
  logsBloom := zeroBytes 256
  prevRandao := zeroBytes 32
  blockNumber := 7
  gasLimit := 30000000
  gasUsed := 21000
  timestamp := 12
  extraData := ⟨⟨[1, 2, 3], by decide⟩⟩
  baseFeePerGas := 1000
  blockHash := zeroBytes 32
  transactions := ⟨[⟨⟨[2, 255], by decide⟩⟩], by decide⟩
  withdrawals := noItems _ _
  blobGasUsed := 0
  excessBlobGas := 0

/-- An attestation with three bits. -/
def sampleAttestation : Attestation where
  aggregationBits := ⟨⟨[true, false, true], List.replicate 5 false, rfl⟩, by decide,
    fun _ => List.eq_of_mem_replicate⟩
  data := ⟨6, 0, zeroBytes 32, ⟨0, zeroBytes 32⟩, ⟨1, zeroBytes 32⟩⟩
  signature := zeroBytes 96

def sampleBlock : Block where
  slot := 7
  proposerIndex := 3
  parentRoot := zeroChunk
  stateRoot := zeroChunk
  body := {
    randaoReveal := zeroBytes 96
    eth1Data := ⟨zeroBytes 32, 0, zeroBytes 32⟩
    graffiti := zeroBytes 32
    proposerSlashings := noItems _ _
    attesterSlashings := noItems _ _
    attestations := ⟨[sampleAttestation], by decide⟩
    deposits := noItems _ _
    voluntaryExits := noItems _ _
    syncAggregate := ⟨⟨.repeatFalse 512, List.length_replicate⟩, zeroBytes 96⟩
    executionPayload := samplePayload
    blsToExecutionChanges := noItems _ _
    blobKzgCommitments := noItems _ _ }

/-- A block with an attestation and a transaction, and SHA-256. -/
theorem light_block_hashes_like_full_sample :
    ∃ light : Light.Block, Into.into sha256Crate sampleBlock = some light ∧
      treeHashRoot sha256Crate light = treeHashRoot sha256Crate sampleBlock ∧
      treeHashRoot sha256Crate sampleBlock =
        some (hashTreeRoot sha256 (beaconBlock Deneb.beaconBlockBody) (val sampleBlock)) := by
  obtain ⟨hdeneb, -⟩ := light_block_hashes_like_full sha256Crate sha256
  obtain ⟨light, hinto, -, hroot⟩ := hdeneb sampleBlock
  exact ⟨light, hinto, hroot⟩

end GearBridges.EthereumCommon.Beacon
