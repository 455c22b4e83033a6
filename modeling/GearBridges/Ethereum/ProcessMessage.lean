import GearBridges.Ethereum.Relayer

/-!
# Ethereum.ProcessMessage

`MessageQueue.processMessage`, which delivers a message against a root kept by the
`Relayer`, and what the emergency stop of the `Relayer` means for both contracts.  The
receiver is a parameter that may change the chain as it likes, calls back into the queue
included; `none` is a receiver that reverts.
-/

namespace GearBridges.MessageQueue

open Relayer (Word)

/-- `MessageProcessed`. -/
structure MessageProcessed where
  blockNumber : Word
  messageHash : FixedBytes 32
  messageNonce : FixedBytes 32
deriving DecidableEq

/-- The state of the two contracts and of everything else on the chain. -/
structure Chain (ρ : Type) where
  relayer : Relayer.State
  processedMessages : FixedBytes 32 → Bool
  events : List MessageProcessed
  others : ρ

inductive Error
  | messageAlreadyProcessed (messageNonce : FixedBytes 32)
  | relayer (error : Relayer.Error)
  | merkleRootNotSet (blockNumber : Word)
  /-- The failed `assert(index < width)`. -/
  | assertion
  | badProof
  | receiverReverted
  | messageNotProcessed
deriving DecidableEq

/-- `IMessageQueueReceiver(receiver).processVaraMessage(sender, data)`. -/
abbrev Receiver (ρ : Type) :=
  FixedBytes 20 → FixedBytes 32 → Bytes → Chain ρ → Option (Bool × Chain ρ)

/-- `processMessage`. -/
def processMessage {ρ : Type} (keccak256 : Bytes → FixedBytes 32)
    (processVaraMessage : Receiver ρ) (chain : Chain ρ) (blockNumber totalLeaves leafIndex : Word)
    (message : VaraMessage) (proof : List (FixedBytes 32)) : Except Error (Chain ρ) :=
  if chain.processedMessages message.nonce then .error (.messageAlreadyProcessed message.nonce)
  else
    let msgHash := hashVaraMsg keccak256 message
    match chain.relayer.getMerkleRoot blockNumber with
    | .error error => .error (.relayer error)
    | .ok merkleRoot =>
        if merkleRoot = Relayer.zeroRoot then .error (.merkleRootNotSet blockNumber)
        else
          match calculateMerkleRoot keccak256 proof msgHash totalLeaves.toNat leafIndex.toNat with
          | none => .error .assertion
          | some root =>
              if root ≠ merkleRoot then .error .badProof
              else
                let marked :=
                  { chain with
                    processedMessages := Function.update chain.processedMessages message.nonce true }
                match processVaraMessage message.receiver message.sender message.data marked with
                | none => .error .receiverReverted
                | some (false, _) => .error .messageNotProcessed
                | some (true, after) =>
                    .ok { after with events := ⟨blockNumber, msgHash, message.nonce⟩ :: after.events }

/-- What a call that succeeds has done: the nonce was new and is marked before the receiver
is called, and the event comes after it. -/
theorem processMessage_ok {ρ : Type} {keccak256 : Bytes → FixedBytes 32}
    {processVaraMessage : Receiver ρ} {chain chain' : Chain ρ}
    {blockNumber totalLeaves leafIndex : Word} {message : VaraMessage}
    {proof : List (FixedBytes 32)}
    (h : processMessage keccak256 processVaraMessage chain blockNumber totalLeaves leafIndex
      message proof = .ok chain') :
    chain.processedMessages message.nonce = false ∧
    ∃ after, processVaraMessage message.receiver message.sender message.data
        { chain with
          processedMessages := Function.update chain.processedMessages message.nonce true } =
        some (true, after) ∧
      chain' = { after with
        events := ⟨blockNumber, hashVaraMsg keccak256 message, message.nonce⟩ :: after.events } := by
  unfold processMessage at h
  split at h
  · contradiction
  · next hnew =>
    refine ⟨by simpa using hnew, ?_⟩
    simp only at h
    split at h
    · contradiction
    · split at h
      · contradiction
      · split at h
        · contradiction
        · split at h
          · contradiction
          · split at h
            · contradiction
            · contradiction
            · next after hafter => exact ⟨after, hafter, (Except.ok.inj h).symm⟩

/-- Nothing is delivered while the relayer is stopped. -/
theorem processMessage_of_stopped {ρ : Type} (keccak256 : Bytes → FixedBytes 32)
    (processVaraMessage : Receiver ρ) (chain : Chain ρ) (h : chain.relayer.emergencyStop = true)
    (blockNumber totalLeaves leafIndex : Word) (message : VaraMessage)
    (proof : List (FixedBytes 32)) :
    ∃ error, processMessage keccak256 processVaraMessage chain blockNumber totalLeaves leafIndex
      message proof = .error error := by
  unfold processMessage
  by_cases hp : chain.processedMessages message.nonce = true
  · exact ⟨_, if_pos hp⟩
  · rw [if_neg hp, Relayer.State.getMerkleRoot, if_pos h]
    exact ⟨_, rfl⟩

end GearBridges.MessageQueue

namespace GearBridges.Relayer

open MessageQueue

/-! ## emergency stop -/

/-- **The emergency stop is final**, over every sequence of calls.  It comes with the first
accepted call that gives a block another root than the non-zero root it had, whichever of
two such roots came first.  From then on nothing changes, roots are not given out and no
message is delivered.  Until then a block keeps its root and the block of a root has this
root.  The zero root counts as no root. -/
theorem emergencyStop_final (verifyProof : Bytes → List Word → Option Bool) (calls : List Call) :
    ((State.deployed.run verifyProof calls).emergencyStop = true ↔
      Contradictory (acceptedCalls verifyProof calls)) ∧
    (∀ c ∈ acceptedCalls verifyProof calls, ∀ d ∈ acceptedCalls verifyProof calls,
      c.blockNumber = d.blockNumber → c.merkleRoot ≠ d.merkleRoot → c.merkleRoot ≠ zeroRoot →
      d.merkleRoot ≠ zeroRoot → (State.deployed.run verifyProof calls).emergencyStop = true) ∧
    ((State.deployed.run verifyProof calls).emergencyStop = true →
      (∀ more, (State.deployed.run verifyProof calls).run verifyProof more =
        State.deployed.run verifyProof calls) ∧
      ∀ (ρ : Type) (keccak256 : Bytes → FixedBytes 32) (processVaraMessage : Receiver ρ)
        (chain : Chain ρ), chain.relayer = State.deployed.run verifyProof calls →
        ∀ blockNumber totalLeaves leafIndex message proof, ∃ error,
          processMessage keccak256 processVaraMessage chain blockNumber totalLeaves leafIndex
            message proof = .error error) ∧
    ((State.deployed.run verifyProof calls).emergencyStop = false →
      ∀ c ∈ acceptedCalls verifyProof calls, c.merkleRoot ≠ zeroRoot →
        (State.deployed.run verifyProof calls).getMerkleRoot c.blockNumber = .ok c.merkleRoot ∧
        (State.deployed.run verifyProof calls).getMerkleRoot
          ((State.deployed.run verifyProof calls).getBlockNumber c.merkleRoot) =
            .ok c.merkleRoot) := by
  refine ⟨?_, ?_, ?_, ?_⟩
  · rcases run_deployed verifyProof calls with ⟨hs, hcon, _⟩ | ⟨hs, hcon⟩
    · simp [hs, hcon]
    · simp [hs, hcon]
  · intro c hc d hd hblock hroot hzc hzd
    rcases run_deployed verifyProof calls with ⟨_, _, hrec⟩ | ⟨hs, _⟩
    · have hroot' := hrec.root c hc hzc
      rw [hblock, hrec.root d hd hzd] at hroot'
      exact absurd hroot'.symm hroot
    · exact hs
  · intro hs
    refine ⟨fun more => run_of_stopped hs more, ?_⟩
    intro ρ keccak256 processVaraMessage chain hchain blockNumber totalLeaves leafIndex message proof
    exact processMessage_of_stopped _ _ _ (hchain ▸ hs) _ _ _ _ _
  · intro hs c hc hzero
    rcases run_deployed verifyProof calls with ⟨_, _, hrec⟩ | ⟨hs', _⟩
    · simp [State.getMerkleRoot, State.getBlockNumber, hs, hrec.root c hc hzero,
        hrec.number c hc hzero]
    · rw [hs] at hs'
      contradiction

/-- The zero root is no root: giving block `1` the zero root and then another one does not
stop the contract, and changes the root of the block. -/
theorem zeroRoot_replaced :
    (State.deployed.run (fun _ _ => some true)
      [⟨1, zeroRoot, []⟩, ⟨1, sampleRoot 7, []⟩]).emergencyStop = false ∧
    (State.deployed.run (fun _ _ => some true) [⟨1, zeroRoot, []⟩]).getMerkleRoot 1 =
      .ok zeroRoot ∧
    (State.deployed.run (fun _ _ => some true)
      [⟨1, zeroRoot, []⟩, ⟨1, sampleRoot 7, []⟩]).getMerkleRoot 1 = .ok (sampleRoot 7) ∧
    zeroRoot ≠ sampleRoot 7 := by
  refine ⟨by decide +kernel, by decide +kernel, by decide +kernel, by decide +kernel⟩

end GearBridges.Relayer
