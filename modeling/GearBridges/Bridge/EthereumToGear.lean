import GearBridges.CheckpointLightClient.CheckpointFor
import GearBridges.CheckpointLightClient.Vouching
import GearBridges.HistoricalProxy.Redirect
import GearBridges.Lib.Rlp
import GearBridges.VftManager.Deposits
import GearBridges.VftManager.Receipts

/-!
# Bridge.EthereumToGear

The way of tokens from Ethereum to Gear, over the four programs it takes: the light client
keeps checkpoints, the `eth-events-*` programs check proofs against them, the historical
proxy forwards what they have checked, and the VFT manager credits what the proxy forwards.
The programs run side by side and read each other's replies only, so an endpoint answers by
the light client of some earlier moment and the VFT manager executes a submission any time
after it was sent.

Anybody may send anything to any of them but one thing: the proxy puts the route that its
caller chose in front of what an endpoint has checked, so a route with parameters of its own
would be a submission of the caller's.  The redirects here that have the VFT manager as their
client carry the route of `SubmitReceipt` and no more (`Routed`).  The admin of the proxy is
trusted to add `eth-events-*` programs only (`Answers`), and the one of the VFT manager to
leave the address of the proxy as it is (`Allowed`).
-/

namespace GearBridges.Bridge

open EthereumCommon EthEvents Transition
open CheckpointLightClient (Primitives Header SyncCommitteeKeys VouchedHeader Vouched VouchInv Linked Popped)
open VftManager (ActorId MessageId)

/-! ## the programs -/

/-- What the programs are built with.  The blocks an endpoint reads are those of a fork. -/
structure Deployment where
  primitives : Primitives
  codec : ReceiptCodec
  trie : TrieDb
  Other : ActorId → Type
  bodyRoot : (endpoint : ActorId) → BlockBody trie.Root (Other endpoint) → primitives.Hash
  search : BinarySearch.Search
  decodeLogData : EthereumCommon.Log → Option VftManager.BridgingRequested
  vftManager : VftManager.Program
  /-- `SubmitReceipt::ROUTE` of the generated client. -/
  submitReceiptRoute : Bytes
  proxy : ActorId

/-- What an endpoint is built with. -/
abbrev Deployment.setting (d : Deployment) (endpoint : ActorId) : Setting :=
  ⟨d.primitives, d.codec, d.trie, d.Other endpoint, d.bodyRoot endpoint⟩

/-- The programs, and what the light client and the VFT manager were before, newest first. -/
structure Programs (d : Deployment) where
  client : CheckpointLightClient.World d.primitives
  seen : List (CheckpointLightClient.World d.primitives)
  proxy : HistoricalProxy.World
  manager : VftManager.World
  managed : List VftManager.World

inductive Step (d : Deployment)
  | client (a : CheckpointLightClient.Action d.primitives)
  | proxy (a : HistoricalProxy.Action)
  | manager (a : VftManager.Action)

variable {d : Deployment}

def step (w : Programs d) : Step d → Option (Programs d)
  | .client a => (CheckpointLightClient.step w.client a).map fun client =>
      { w with client, seen := w.client :: w.seen }
  | .proxy a => (HistoricalProxy.step w.proxy a).map fun proxy => { w with proxy }
  | .manager a => (VftManager.step d.vftManager w.manager a).map fun manager =>
      { w with manager, managed := w.manager :: w.managed }

/-- All that the light client has been. -/
def Programs.clients (w : Programs d) : List (CheckpointLightClient.World d.primitives) :=
  w.client :: w.seen

/-- The reply of the light client to a request of a checkpoint. -/
def replyOf (client : CheckpointLightClient.World d.primitives) (split : Nat) (endpoint : ActorId)
    (slot : Slot) : CheckpointReply (d.setting endpoint) :=
  match client.state.checkpoints.checkpoint d.search split slot with
  | .ok checkpoint => .found checkpoint
  | .error _ => .missing

/-- The endpoint has checked the proofs of some message against the light client of some
moment. -/
def Answers (w : Programs d) (endpoint : ActorId) (checked : CheckedProofs) : Prop :=
  ∃ (message : EthToVaraEvent (d.setting endpoint)) (popped : List (Header d.primitives))
    (client : CheckpointLightClient.World d.primitives) (split : Nat),
    client ∈ w.clients ∧ Popped message.proofBlock.headers popped ∧
      checkProofs message (replyOf client split endpoint) popped = .ok checked

/-- The VFT manager gets nothing under another route than the one of `SubmitReceipt`. -/
def Routed (d : Deployment) (client : ActorId) (clientRoute : Bytes) : Prop :=
  client = d.vftManager.programId → clientRoute = d.submitReceiptRoute

/-- The programs right after they were created. -/
structure Created (d : Deployment) (s : CheckpointLightClient.State d.primitives) (w : Programs d) :
    Prop where
  client : CheckpointLightClient.StartsAt s w.client
  seen : w.seen = []
  proxy : ∃ admin, HistoricalProxy.Created admin w.proxy
  manager : VftManager.Seeded w.manager
  address : w.manager.state.historicalProxyAddress = d.proxy

/-! ## what the endpoints check -/

theorem mem_of_checkpoint {P : Primitives} {cs : CheckpointLightClient.Checkpoints P}
    {search : BinarySearch.Search} {split : Nat} {slot : Slot}
    {c : CheckpointLightClient.Checkpoint P} (h : cs.checkpoint search split slot = .ok c) :
    c ∈ cs.entries := by
  have hslice : ∀ slice, CheckpointLightClient.searchSlice search slice slot = .ok c → c ∈ slice := by
    intro slice hsearch
    unfold CheckpointLightClient.searchSlice at hsearch
    split at hsearch
    · split at hsearch
      · next hget =>
        cases hsearch
        exact List.mem_of_getElem? hget
      · contradiction
    · split at hsearch
      · next hget =>
        cases hsearch
        exact List.mem_of_getElem? hget
      · contradiction
  unfold CheckpointLightClient.Checkpoints.checkpoint CheckpointLightClient.searchSlices at h
  split at h
  · next hsearch =>
    cases h
    exact List.mem_of_mem_take (hslice _ hsearch)
  · exact List.mem_of_mem_drop (hslice _ h)

theorem linked_trans {P : Primitives} {a b c : Header P} (hab : Linked a b) (hbc : Linked b c) :
    Linked a c := by
  induction hbc with
  | refl => exact hab
  | parent _ hroot ih => exact .parent ih hroot

section

variable (network : Network) (initial : SyncCommitteeKeys d.primitives)

/-- The receipt of a successful transaction, stored in the receipts trie of a block that is
vouched for. -/
def Attested (clients : List (CheckpointLightClient.World d.primitives)) (slot : Slot)
    (transactionIndex : UInt64) (receipt : ReceiptEnvelope Log) : Prop :=
  receipt.isSuccess = true ∧ ∃ (endpoint : ActorId) (block : LightBlock (d.setting endpoint)),
    block.slot = slot ∧ VouchedHeader network initial clients block.header ∧
      EthEvents.Stored block transactionIndex receipt

/-- Every checkpoint the light client has had is vouched for. -/
def AllVouched (clients : List (CheckpointLightClient.World d.primitives)) : Prop :=
  ∀ client ∈ clients, Vouched network initial clients client.state

variable {network initial} {clients : List (CheckpointLightClient.World d.primitives)}

theorem Attested.mono {slot : Slot} {transactionIndex : UInt64} {receipt : ReceiptEnvelope Log}
    (h : Attested network initial clients slot transactionIndex receipt)
    (client : CheckpointLightClient.World d.primitives) :
    Attested network initial (client :: clients) slot transactionIndex receipt := by
  obtain ⟨hsuccess, endpoint, block, hslot, hvouched, hstored⟩ := h
  exact ⟨hsuccess, endpoint, block, hslot, hvouched.mono client, hstored⟩

/-- What an endpoint has checked is attested. -/
theorem Answers.attested {w : Programs d} (hroot : Function.Injective d.primitives.headerRoot)
    (htrie : d.trie.Sound) (hvouched : AllVouched network initial w.clients) {endpoint : ActorId}
    {checked : CheckedProofs} (h : Answers w endpoint checked) :
    ∃ receipt, d.codec.decode checked.receiptRlp = some receipt ∧
      Attested network initial w.clients checked.slot checked.transactionIndex receipt := by
  obtain ⟨message, popped, client, split, hclient, -, hchecked⟩ := h
  obtain ⟨rfl, receipt, checkpoint, hdecode, hsuccess, hreply, hchain, -, hget⟩ :=
    check_ok_iff.mp hchecked
  refine ⟨receipt, hdecode, hsuccess, endpoint, message.proofBlock.block, rfl, ?_, ?_⟩
  · unfold replyOf at hreply
    split at hreply
    · next c hcheckpoint =>
      cases hreply
      obtain ⟨tip, rfl, attested, finalized, hattested, hfinality, hlinked⟩ :=
        (hvouched client hclient).checkpoints checkpoint (mem_of_checkpoint hcheckpoint)
      exact ⟨attested, finalized, hattested, hfinality, linked_trans hlinked (hchain.linked hroot)⟩
    · contradiction
  · intro t ht
    refine htrie message.proof t _ _ ?_
    rw [ht]
    exact hget

end

/-! ## runs -/

/-- The message pays the first deposit of an attested receipt, as the VFT manager saw it when
the receipt was submitted. -/
def Credited (network : Network) (initial : SyncCommitteeKeys d.primitives) (w : Programs d)
    (key : VftManager.TxKey) (m : VftManager.Message) : Prop :=
  ∃ slot transactionIndex receipt manager event supply,
    key = toLex (slot, UInt64.toNat transactionIndex) ∧
    Attested network initial w.clients slot transactionIndex receipt ∧
    manager ∈ w.managed ∧
    (VftManager.deposits manager.state (receipt.logs.map fun log =>
      ⟨log.address, d.decodeLogData log⟩)).head? = some (m.destination, event) ∧
    manager.state.tokenMap.getSupplyType m.destination = .ok supply ∧
    m.call = VftManager.receiptCall d.vftManager event supply

/-- What is forwarded and what is credited goes back to attested receipts. -/
structure Backed (network : Network) (initial : SyncCommitteeKeys d.primitives) (w : Programs d) :
    Prop where
  client : VouchInv network initial w.client w.seen
  vouched : AllVouched network initial w.clients
  routed : ∀ call ∈ w.proxy.waiting, Routed d call.client call.clientRoute
  forwarded : ∀ {client route slot transactionIndex receiptRlp},
    .submitReceipt client route slot transactionIndex receiptRlp ∈ w.proxy.sent →
    Routed d client route ∧ ∃ receipt, d.codec.decode receiptRlp = some receipt ∧
      Attested network initial w.clients slot transactionIndex receipt
  address : w.manager.state.historicalProxyAddress = d.proxy
  credited : ∀ {id m key}, w.manager.messages id = some m → m.origin = .receipt key →
    Credited network initial w key m

section

variable {network : Network} {initial : SyncCommitteeKeys d.primitives} {w : Programs d}

end

/-- The first topic of `BridgingRequested`. -/
def bridgingRequestedTopic : BitVec 256 :=
  0xf80de57fd7626baaff7d867494866703686569822c2326ae60b2515ede953c3a

/-- Account `5` sends 10 of token `200` to account `77`, through the `ERC20Manager` at `7`. -/
def sampleLog : EthereumCommon.Log where
  address := 7
  topics := [bridgingRequestedTopic, 5, 77, 200]
  data := Digits.toBytesBE 32 10

def sampleDeposit : ReceiptEnvelope EthereumCommon.Log :=
  ⟨.eip1559, .eip658 true, 21000, [sampleLog], 0⟩

/-- The log in RLP: address, topics and data. -/
def sampleLogRlp : Bytes :=
  Rlp.encodeList (Rlp.encodeString (Digits.toBytesBE 20 7) ++
    Rlp.encodeList ([bridgingRequestedTopic, 5, 77, 200].flatMap fun topic : BitVec 256 =>
      Rlp.encodeString (Digits.toBytesBE 32 topic.toNat)) ++
    Rlp.encodeString (Digits.toBytesBE 32 10))

def sampleDeposit2718 : Bytes :=
  0x02 :: Rlp.encodeList (Rlp.encodeString [1] ++ Rlp.encodeString [0x52, 0x08] ++
    Rlp.encodeString (List.replicate 256 0) ++ Rlp.encodeList sampleLogRlp)

def sampleDepositRlp : Bytes := Rlp.encodeString sampleDeposit2718

/-- `BridgingRequested::decode_log_data`. -/
def decodeBridgingRequested (log : EthereumCommon.Log) : Option VftManager.BridgingRequested :=
  if log.topics.length = 4 ∧ log.topics.head? = some bridgingRequestedTopic ∧ log.data.length = 32 then
    some ⟨(log.topics.getD 3 0).setWidth 160, log.topics.getD 2 0,
      BitVec.ofNat 256 (Digits.ofBytesBE log.data)⟩
  else none

/-- The codecs on this receipt. -/
abbrev sampleDepositCodec : ReceiptCodec where
  decode rlp := if rlp = sampleDepositRlp then some sampleDeposit else none
  encode _ := sampleDepositRlp
  encode2718 _ := sampleDeposit2718
  encodeIndex := rlpIndex

/-- "VftManager" and "SubmitReceipt" in SCALE. -/
def submitReceiptRoute : Bytes :=
  [0x28, 0x56, 0x66, 0x74, 0x4d, 0x61, 0x6e, 0x61, 0x67, 0x65, 0x72,
    0x34, 0x53, 0x75, 0x62, 0x6d, 0x69, 0x74, 0x52, 0x65, 0x63, 0x65, 0x69, 0x70, 0x74]

/-- Light bodies have the root of the body of the first block of the chain. -/
abbrev sampleDeployment : Deployment where
  primitives := CheckpointLightClient.ledgerPrimitives
  codec := sampleDepositCodec
  trie := freeTrie
  Other := fun _ => Nat
  bodyRoot := fun _ _ => .zero
  search := BinarySearch.stdSearch
  decodeLogData := decodeBridgingRequested
  vftManager := .deployed 3
  submitReceiptRoute := submitReceiptRoute
  proxy := 9

/-- The first block of the chain, with the deposit as its only receipt. -/
def sampleBlock (endpoint : ActorId) : LightBlock (sampleDeployment.setting endpoint) :=
  let header := CheckpointLightClient.Digest.ledgerBlock 0
  ⟨header.slot, header.proposerIndex, header.parentRoot, header.stateRoot,
    ⟨[(rlpIndex 0, sampleDeposit2718)], 7, 5⟩⟩

end GearBridges.Bridge
