import GearBridges.Lib.Pipeline
import GearBridges.Relayer.Accumulator
import GearBridges.Relayer.KillSwitch

/-!
# Relayer.Stages

The stages of the message relayer that take items from a channel and make calls for each:
the extractors of merkle roots, deposits and queued messages, and the sender of messages to
Ethereum.  Each is a `Pipeline.Worker`: an item that was taken is not put back when a call
fails, and the retry loop goes on with the next one.

`stages_drop_nothing_iff` says exactly which runs drop nothing: those in which every block that
holds something was taken once while its calls were answered.  The slot of a block with
deposits is searched thirty times.
-/

namespace GearBridges.MessageRelayer

open Pipeline Pipeline.Calls
open KillSwitch (MerkleRootEntry)

/-- An error of a call: whether it is a recoverable transport error, and whether the
reconnections after it succeed. -/
structure RpcError where
  recoverable : Bool
  reconnected : Bool
deriving DecidableEq

def maxRetries : Nat := 5

/-- A merkle inclusion proof, as it is passed on. -/
structure InclusionProof where
  proof : List (BitVec 256)
  numLeaves : UInt64
  leafIndex : UInt64
deriving DecidableEq

structure TxHashWithSlot where
  slotNumber : Nat
  txHash : BitVec 256
deriving DecidableEq

/-- What the nodes answer when they do. -/
structure Nodes where
  merkleRootsAt : Nat → List MerkleRootEntry
  depositTxsAt : Nat → List (BitVec 256)
  slotOf : Nat → Nat
  gearBlockHash : Nat → BitVec 256
  signedByAuthoritySetId : BitVec 256 → Nat
  messageQueuedEvents : BitVec 256 → List Message
  inclusionProof : BitVec 256 → Message → InclusionProof

variable (nodes : Nodes)

/-! ## MerkleRootExtractor -/

/-- What is sent for a merkle root event. -/
def relayedMerkleRoot (entry : MerkleRootEntry) : RelayedMerkleRoot :=
  let block := entry.blockNumber.toUInt32.toNat
  let blockHash := nodes.gearBlockHash block
  { block
    blockHash
    authoritySetId := nodes.signedByAuthoritySetId blockHash
    merkleRoot := entry.merkleRoot }

/-- The body of the loop of `MerkleRootExtractor::run_inner`. -/
def extractMerkleRoots (block : Nat) : Calls RpcError RelayedMerkleRoot Unit := do
  let merkleRoots ← call (nodes.merkleRootsAt block)
  forEach (fun entry => do
    let blockHash ← call (nodes.gearBlockHash entry.blockNumber.toUInt32.toNat)
    let authoritySetId ← call (nodes.signedByAuthoritySetId blockHash)
    emit
      { block := entry.blockNumber.toUInt32.toNat
        blockHash
        authoritySetId
        merkleRoot := entry.merkleRoot }) merkleRoots

/-- Besides the limit on the attempts, an error that is not recoverable ends the task. -/
def merkleRootExtractor : Worker Nat RpcError RelayedMerkleRoot :=
  { before := pure ()
    process := extractMerkleRoots nodes
    stops := fun attempts e => decide (maxRetries ≤ attempts) || !e.reconnected || !e.recoverable }

/-! ## DepositEventExtractor -/

/-- `find_slot_by_block_number`: the block and its parent beacon block, then up to thirty
searches.  A block without header or parent root is an error like a failed call. -/
def findSlotByBlockNumber (block : Nat) : Calls RpcError TxHashWithSlot Nat := do
  call ()
  call ()
  retry ⟨false, true⟩ (call (nodes.slotOf block)) 30

/-- `DepositEventExtractor::process_block_events`. -/
def extractDeposits (block : Nat) : Calls RpcError TxHashWithSlot Unit := do
  let events ← call (nodes.depositTxsAt block)
  if events.isEmpty then pure ()
  else do
    let slotNumber ← findSlotByBlockNumber nodes block
    forEach (fun txHash => emit { slotNumber, txHash }) events

def depositEventExtractor : Worker Nat RpcError TxHashWithSlot :=
  { before := pure ()
    process := extractDeposits nodes
    stops := fun attempts e =>
      decide (maxRetries ≤ attempts) || (e.recoverable && !e.reconnected) }

/-! ## MessageQueuedEventExtractor -/

/-- The body of the loop of `MessageQueuedEventExtractor::run_inner`. -/
def extractMessages (block : Nat) : Calls RpcError MessageInBlock Unit := do
  let blockHash ← call (nodes.gearBlockHash block)
  let authoritySetId ← call (nodes.signedByAuthoritySetId blockHash)
  let messages ← call (nodes.messageQueuedEvents blockHash)
  forEach (fun message => emit { message, block, blockHash, authoritySetId }) messages

/-- This stage does not count its attempts. -/
def messageQueuedEventExtractor : Worker Nat RpcError MessageInBlock :=
  { before := pure ()
    process := extractMessages nodes
    stops := fun _ e => !e.reconnected }

/-! ## the Ethereum MessageSender -/

/-- What the loop of the sender selects: a message with its root, or the status of a
transaction. -/
inductive SenderItem where
  | message (message : MessageInBlock) (merkleRoot : RelayedMerkleRoot)
  | txStatus (txHash : BitVec 256)
deriving DecidableEq

/-- The arguments of `provide_content_message`. -/
structure ContentMessage where
  block : Nat
  totalLeaves : UInt32
  leafIndex : UInt32
  message : Message
  proof : List (BitVec 256)
deriving DecidableEq

/-- The submission of a message with its root. -/
def contentMessage (message : MessageInBlock) (merkleRoot : RelayedMerkleRoot) : ContentMessage :=
  let proof := nodes.inclusionProof merkleRoot.blockHash message.message
  { block := merkleRoot.block
    totalLeaves := proof.numLeaves.toUInt32
    leafIndex := proof.leafIndex.toUInt32
    message := message.message
    proof := proof.proof }

/-- The two arms of the loop that go on: `submit_message`, whose transaction counts as
submitted when the call returns its hash, and `check_tx_status`, which only logs. -/
def sendMessage : SenderItem → Calls RpcError ContentMessage Unit
  | .message message merkleRoot => do
      let proof ← call (nodes.inclusionProof merkleRoot.blockHash message.message)
      call ()
      emit
        { block := merkleRoot.block
          totalLeaves := proof.numLeaves.toUInt32
          leafIndex := proof.leafIndex.toUInt32
          message := message.message
          proof := proof.proof }
  | .txStatus _ => pure ()

/-- The balance is read before an item is taken. -/
def messageSender : Worker SenderItem RpcError ContentMessage :=
  { before := call ()
    process := sendMessage nodes
    stops := fun attempts e =>
      decide (maxRetries ≤ attempts) || !e.reconnected }

/-! ## what each stage should emit, and under which faults it does -/

def merkleRootOutputs (block : Nat) : List RelayedMerkleRoot :=
  (nodes.merkleRootsAt block).map (relayedMerkleRoot nodes)

/-- The events, and for each of them the block hash and the authority set. -/
def merkleRootsAnswered (block : Nat) (faults : List (Option RpcError)) : Prop :=
  Answered (2 * (nodes.merkleRootsAt block).length + 1) faults

def depositOutputs (block : Nat) : List TxHashWithSlot :=
  (nodes.depositTxsAt block).map fun txHash => { slotNumber := nodes.slotOf block, txHash }

/-- The events, the block and its parent beacon block, and one of the thirty searches. -/
def depositsAnswered (faults : List (Option RpcError)) : Prop :=
  Answered 3 faults ∧ SomeAnswered 30 (faults.drop 3)

def messageOutputs (block : Nat) : List MessageInBlock :=
  let blockHash := nodes.gearBlockHash block
  (nodes.messageQueuedEvents blockHash).map fun message =>
    { message, block, blockHash, authoritySetId := nodes.signedByAuthoritySetId blockHash }

def senderOutputs : SenderItem → List ContentMessage
  | .message message merkleRoot => [contentMessage nodes message merkleRoot]
  | .txStatus _ => []

theorem extractMerkleRoots_spec (block : Nat) :
    Spec (extractMerkleRoots nodes block) (2 * (nodes.merkleRootsAt block).length + 1) ()
      (merkleRootOutputs nodes block) := by
  rw [merkleRootOutputs, List.map_eq_flatMap]
  apply Spec.call_bind
  apply Spec.forEach
  · intro entry
    apply Spec.call_bind
    apply Spec.call_bind
    exact Spec.emit _
  · exact fun _ => List.cons_ne_nil _ _

theorem extractMessages_spec (block : Nat) :
    Spec (extractMessages nodes block) 3 () (messageOutputs nodes block) := by
  rw [messageOutputs, List.map_eq_flatMap]
  apply Spec.call_bind
  apply Spec.call_bind
  apply Spec.call_bind
  exact Spec.forEach_emit _ _

theorem sendMessage_emitted_iff (item : SenderItem) (faults : List (Option RpcError)) :
    (sendMessage nodes item).emitted faults = senderOutputs nodes item ↔
      senderOutputs nodes item = [] ∨ Answered 2 faults := by
  cases item with
  | txStatus txHash => simp [sendMessage, senderOutputs, emitted]
  | message message merkleRoot =>
      apply Spec.emitted_iff (a := ())
      apply Spec.call_bind
      apply Spec.call_bind
      exact Spec.emit _

/-- The search for the slot, and what comes after it: two calls, and one of thirty. -/
theorem emitted_findSlot_bind (block : Nat) (f : Nat → Calls RpcError TxHashWithSlot Unit)
    (faults : List (Option RpcError)) :
    ((Answered 2 faults ∧ SomeAnswered 30 (faults.drop 2)) ∧
        ∃ rest, (findSlotByBlockNumber nodes block >>= f).emitted faults =
          (f (nodes.slotOf block)).emitted rest) ∨
      (¬ (Answered 2 faults ∧ SomeAnswered 30 (faults.drop 2)) ∧
        (findSlotByBlockNumber nodes block >>= f).emitted faults = []) := by
  have hassoc : findSlotByBlockNumber nodes block >>= f =
      (call () >>= fun _ => call () >>= fun _ =>
        retry ⟨false, true⟩ (call (nodes.slotOf block)) 30 >>= f) := by
    rw [findSlotByBlockNumber, bind_bind]
    simp only [bind_bind]
  have htwo : Answered 2 faults ↔ Answered 1 faults ∧ Answered 1 (faults.drop 1) := answered_succ
  rw [hassoc, htwo]
  rcases emitted_call_bind () _ faults with ⟨h1, he1⟩ | ⟨h1, he1⟩
  · rcases emitted_call_bind () _ (faults.drop 1) with ⟨h2, he2⟩ | ⟨h2, he2⟩
    · rcases emitted_retry_bind ⟨false, true⟩ (nodes.slotOf block) 30 f ((faults.drop 1).drop 1)
        with ⟨h3, rest, he3⟩ | ⟨h3, he3⟩
      · refine .inl ⟨⟨⟨h1, h2⟩, by simpa using h3⟩, rest, ?_⟩
        rw [he1, he2, he3]
      · refine .inr ⟨fun h => h3 (by simpa using h.2), ?_⟩
        rw [he1, he2, he3]
    · refine .inr ⟨fun h => h2 h.1.2, ?_⟩
      rw [he1, he2]
  · exact .inr ⟨fun h => h1 h.1.1, he1⟩

/-- Deposits come after all the calls: the events, the block, its parent and one of the
thirty searches. -/
theorem extractDeposits_emitted_iff (block : Nat) (faults : List (Option RpcError)) :
    (extractDeposits nodes block).emitted faults = depositOutputs nodes block ↔
      depositOutputs nodes block = [] ∨ depositsAnswered faults := by
  have hone : Answered 3 faults ↔ Answered 1 faults ∧ Answered 2 (faults.drop 1) := answered_succ
  have hdrop : faults.drop 3 = (faults.drop 1).drop 2 := by rw [List.drop_drop]
  rw [depositsAnswered, hone, hdrop]
  rcases emitted_call_bind (nodes.depositTxsAt block) _ faults with ⟨h1, he1⟩ | ⟨h1, he1⟩
  · rw [extractDeposits, he1]
    by_cases hnil : nodes.depositTxsAt block = []
    · simp [depositOutputs, hnil, emitted]
    · have hne : depositOutputs nodes block ≠ [] := by simpa [depositOutputs] using hnil
      rw [if_neg (by simpa using hnil)]
      rcases emitted_findSlot_bind nodes block _ (faults.drop 1) with ⟨h2, rest, he2⟩ | ⟨h2, he2⟩
      · refine ⟨fun _ => .inr ⟨⟨h1, h2.1⟩, h2.2⟩, fun _ => ?_⟩
        rw [he2, depositOutputs, List.map_eq_flatMap]
        exact ((Spec.forEach_emit _ _).emitted_iff rest).mpr (.inr (answered_zero rest))
      · rw [he2]
        refine ⟨fun h => absurd h.symm hne, fun h => ?_⟩
        obtain ⟨⟨-, h3⟩, h4⟩ := h.resolve_left hne
        exact absurd ⟨h3, h4⟩ h2
  · rw [extractDeposits, he1]
    refine ⟨fun h => .inl h.symm, fun h => ?_⟩
    rcases h with h | h
    · exact h.symm
    · exact absurd h.1.1 h1

/-! ## whole runs -/

/-- Every item of a run that has something to emit was taken once while the calls made for it
were answered. -/
def AnsweredOnce {ι ο : Type} (outputs : ι → List ο)
    (answered : ι → List (Option RpcError) → Prop) (s : State ι RpcError ο) : Prop :=
  ∀ item ∈ s.received, outputs item = [] ∨
    ∃ faults os, (item, faults, os) ∈ s.rounds ∧ answered item faults

/-- A run drops nothing exactly when its items were answered once, and then every output of
every item taken is among those emitted. -/
def DropsNothingIff {ι ο : Type} (outputs : ι → List ο)
    (answered : ι → List (Option RpcError) → Prop) (s : State ι RpcError ο) : Prop :=
  (Worker.Complete outputs s ↔ AnsweredOnce outputs answered s) ∧
    (AnsweredOnce outputs answered s → ∀ item ∈ s.received, ∀ o ∈ outputs item, o ∈ s.emitted)

/-- A stage whose rounds emit all outputs exactly under the faults that `answered` describes. -/
theorem dropsNothingIff_run {ι ο : Type} {worker : Worker ι RpcError ο} {outputs : ι → List ο}
    {answered : ι → List (Option RpcError) → Prop}
    (hspec : ∀ item faults, (worker.process item).emitted faults = outputs item ↔
      outputs item = [] ∨ answered item faults)
    (queue : List ι) (pattern : List (List (Option RpcError))) :
    DropsNothingIff outputs answered (worker.run queue pattern) := by
  have hiff := Worker.complete_run_iff hspec queue pattern
  exact ⟨hiff, fun h _ hitem _ ho => Worker.mem_emitted_of_complete (hiff.mpr h) hitem ho⟩

/-- **What the stages drop**: for every input and every pattern of faults, all roots, deposits,
messages and submissions of what a stage has taken are emitted exactly when every item that
has any was taken once while the calls made for it were answered. -/
theorem stages_drop_nothing_iff (nodes : Nodes) :
    (∀ blocks pattern, DropsNothingIff (merkleRootOutputs nodes) (merkleRootsAnswered nodes)
      ((merkleRootExtractor nodes).run blocks pattern)) ∧
    (∀ blocks pattern, DropsNothingIff (depositOutputs nodes) (fun _ => depositsAnswered)
      ((depositEventExtractor nodes).run blocks pattern)) ∧
    (∀ blocks pattern, DropsNothingIff (messageOutputs nodes) (fun _ => Answered 3)
      ((messageQueuedEventExtractor nodes).run blocks pattern)) ∧
    (∀ items pattern, DropsNothingIff (senderOutputs nodes) (fun _ => Answered 2)
      ((messageSender nodes).run items pattern)) := by
  refine ⟨?_, ?_, ?_, ?_⟩
  · exact dropsNothingIff_run fun block faults =>
      (extractMerkleRoots_spec nodes block).emitted_iff faults
  · exact dropsNothingIff_run (extractDeposits_emitted_iff nodes)
  · exact dropsNothingIff_run fun block faults =>
      (extractMessages_spec nodes block).emitted_iff faults
  · exact dropsNothingIff_run (sendMessage_emitted_iff nodes)

/-- Nodes with one merkle root, one deposit and one message in every block. -/
def sampleNodes : Nodes :=
  { merkleRootsAt := fun block => [⟨3, block⟩]
    depositTxsAt := fun block => [block]
    slotOf := fun block => block + 100
    gearBlockHash := fun block => block
    signedByAuthoritySetId := fun _ => 1
    messageQueuedEvents := fun hash => [⟨0, hash, 0, []⟩]
    inclusionProof := fun _ _ => ⟨[], 1, 0⟩ }

/-- A transient error that the stages recover from. -/
def transient : RpcError := ⟨true, true⟩

/-- The stage is running, has taken the item and has not emitted one of its outputs. -/
def Drops {ι ο : Type} (outputs : ι → List ο) (item : ι) (s : State ι RpcError ο) : Prop :=
  s.running = true ∧ item ∈ s.received ∧ ∃ o ∈ outputs item, o ∉ s.emitted

instance {ι ο : Type} [DecidableEq ι] [DecidableEq ο] (outputs : ι → List ο) (item : ι)
    (s : State ι RpcError ο) : Decidable (Drops outputs item s) :=
  inferInstanceAs (Decidable (_ ∧ _ ∧ ∃ o ∈ outputs item, o ∉ s.emitted))

/-- A message for the root of its block. -/
def sampleItem : SenderItem := .message ⟨⟨0, 7, 0, []⟩, 1, 0, 1⟩ ⟨2, 0, 1, 0⟩

/-- Each stage takes two items; one call made for the first fails, and the stage goes on
without it. -/
theorem stages_drop_on_transient_error :
    Drops (merkleRootOutputs sampleNodes) 7
        ((merkleRootExtractor sampleNodes).run [7, 8] [[none, none, some transient], []]) ∧
      Drops (depositOutputs sampleNodes) 7
        ((depositEventExtractor sampleNodes).run [7, 8] [[none, some transient], []]) ∧
      Drops (messageOutputs sampleNodes) 7
        ((messageQueuedEventExtractor sampleNodes).run [7, 8] [[some transient], []]) ∧
      Drops (senderOutputs sampleNodes) sampleItem
        ((messageSender sampleNodes).run [sampleItem, .txStatus 0]
          [[none, none, some transient], []]) := by
  decide +kernel

end GearBridges.MessageRelayer
