import GearBridges.Lib.Reentrancy
import GearBridges.Ethereum.ProcessMessage

/-!
# Ethereum.Delivery

Deliveries of `MessageQueue` among contracts that may call it again while they receive a
message.  The receivers and whoever sends transactions are foreign code.  A list of the
messages handed to a receiver is kept beside the storage; being part of the state it loses
the deliveries of reverted frames, so it names the invocations that took effect.
-/

namespace GearBridges.MessageQueue

open Relayer (Word)
open Reentrancy

variable {ρ : Type}

/-! ## the contracts among foreign code -/

/-- The messages handed to receivers, newest first, and the rest of the chain. -/
structure Surroundings (ρ : Type) where
  deliveries : List VaraMessage
  rest : ρ

abbrev World (ρ : Type) := Chain (Surroundings ρ)

/-- What foreign code can do to the contracts and to the rest of the chain. -/
inductive Call (ρ : Type)
  | processMessage (blockNumber totalLeaves leafIndex : Word) (message : VaraMessage)
      (proof : List (FixedBytes 32))
  | submitMerkleRoot (call : Relayer.Call)
  | update (change : ρ → ρ)

/-- What `processVaraMessage` of the contract at an address does. -/
abbrev Receivers (ρ : Type) :=
  FixedBytes 20 → FixedBytes 32 → Bytes → Code (World ρ) (Call ρ)

/-- The message is handed over. -/
def deliver (w : World ρ) (message : VaraMessage) : World ρ :=
  { w with others := { w.others with deliveries := message :: w.others.deliveries } }

section

variable (keccak256 : Bytes → FixedBytes 32) (verifyProof : Bytes → List Word → Option Bool)
  (receivers : Receivers ρ)

/-- One call from foreign code; `none` is a revert. -/
def contracts (callback : Code (World ρ) (Call ρ) → World ρ → Option (Bool × World ρ)) :
    Call ρ → World ρ → Option (World ρ)
  | .processMessage blockNumber totalLeaves leafIndex message proof, w =>
      (MessageQueue.processMessage keccak256
        (fun receiver sender data w => callback (receivers receiver sender data) (deliver w message))
        w blockNumber totalLeaves leafIndex message proof).toOption
  | .submitMerkleRoot c, w =>
      (w.relayer.submitMerkleRoot verifyProof c.blockNumber c.merkleRoot c.proof).toOption.map
        fun relayer => { w with relayer }
  | .update change, w =>
      some { w with others := { w.others with rest := change w.others.rest } }

/-- A queue that has not processed anything. -/
def deployed (relayer : Relayer.State) (rest : ρ) : World ρ :=
  ⟨relayer, fun _ => false, [], ⟨[], rest⟩⟩

/-- The world after a sequence of transactions. -/
def afterTransactions (relayer : Relayer.State) (rest : ρ)
    (transactions : List (Transaction (World ρ) (Call ρ))) : World ρ :=
  run (contracts keccak256 verifyProof receivers) transactions (deployed relayer rest)

/-! ## one call -/

/-- How often a message with the nonce was handed over. -/
def deliveryCount (w : World ρ) (nonce : FixedBytes 32) : Nat :=
  (w.others.deliveries.map (·.nonce)).count nonce

/-- How often `MessageProcessed` was emitted for the nonce. -/
def eventCount (w : World ρ) (nonce : FixedBytes 32) : Nat :=
  (w.events.map (·.messageNonce)).count nonce

/-- What happens to a nonce: nothing, or its only delivery. -/
def DeliveredOnce (w w' : World ρ) : Prop :=
  ∀ nonce,
    (w'.processedMessages nonce = w.processedMessages nonce ∧
      deliveryCount w' nonce = deliveryCount w nonce ∧ eventCount w' nonce = eventCount w nonce) ∨
    (w.processedMessages nonce = false ∧ w'.processedMessages nonce = true ∧
      deliveryCount w' nonce = deliveryCount w nonce + 1 ∧
      eventCount w' nonce = eventCount w nonce + 1)

theorem DeliveredOnce.refl (w : World ρ) : DeliveredOnce w w := fun _ => .inl ⟨rfl, rfl, rfl⟩

theorem DeliveredOnce.trans (w w' w'' : World ρ) (h : DeliveredOnce w w')
    (h' : DeliveredOnce w' w'') : DeliveredOnce w w'' := by
  intro nonce
  rcases h nonce with ⟨hp, hd, he⟩ | ⟨hp, hp', hd, he⟩
  · rcases h' nonce with ⟨hp₁, hd₁, he₁⟩ | ⟨hp₁, hp₁', hd₁, he₁⟩
    · exact .inl ⟨hp₁.trans hp, hd₁.trans hd, he₁.trans he⟩
    · exact .inr ⟨hp.symm.trans hp₁, hp₁', by omega, by omega⟩
  · rcases h' nonce with ⟨hp₁, hd₁, he₁⟩ | ⟨hp₁, _⟩
    · exact .inr ⟨hp, hp₁.trans hp', by omega, by omega⟩
    · rw [hp'] at hp₁
      contradiction

theorem count_cons_nonce {α : Type} (f : α → FixedBytes 32) (x : α) (l : List α)
    (nonce : FixedBytes 32) :
    ((x :: l).map f).count nonce = (l.map f).count nonce + if f x = nonce then 1 else 0 := by
  rw [List.map_cons, List.count_cons]
  congr 1
  exact if_congr beq_iff_eq rfl rfl

variable {keccak256 verifyProof receivers}

/-- The nonce of a message is marked before the receiver runs, so that whatever the receiver
does afterwards no other delivery of it can be part of this one. -/
theorem processMessage_deliveredOnce
    {callback : Code (World ρ) (Call ρ) → World ρ → Option (Bool × World ρ)}
    (hcallback : ∀ code w value w', callback code w = some (value, w') → DeliveredOnce w w')
    {w w' : World ρ} {blockNumber totalLeaves leafIndex : Word} {message : VaraMessage}
    {proof : List (FixedBytes 32)}
    (h : MessageQueue.processMessage keccak256
      (fun receiver sender data w => callback (receivers receiver sender data) (deliver w message))
      w blockNumber totalLeaves leafIndex message proof = .ok w') :
    DeliveredOnce w w' := by
  obtain ⟨hnew, after, hafter, rfl⟩ := processMessage_ok h
  have hreceiver := hcallback _ _ _ _ hafter
  intro nonce
  have hstep := hreceiver nonce
  simp only [deliver, deliveryCount, eventCount, count_cons_nonce] at hstep ⊢
  by_cases hnonce : message.nonce = nonce
  · subst hnonce
    simp only [Function.update_self, if_true] at hstep ⊢
    rcases hstep with ⟨hp, hd, he⟩ | ⟨hp, _⟩
    · exact .inr ⟨hnew, hp, hd, by rw [he]⟩
    · contradiction
  · simp only [Function.update_of_ne (Ne.symm hnonce), if_neg hnonce, Nat.add_zero] at hstep ⊢
    exact hstep

theorem contracts_deliveredOnce
    (callback : Code (World ρ) (Call ρ) → World ρ → Option (Bool × World ρ))
    (hcallback : ∀ code w value w', callback code w = some (value, w') → DeliveredOnce w w')
    (c : Call ρ) (w w' : World ρ)
    (h : contracts keccak256 verifyProof receivers callback c w = some w') : DeliveredOnce w w' := by
  cases c with
  | processMessage blockNumber totalLeaves leafIndex message proof =>
      exact processMessage_deliveredOnce hcallback (ok_of_toOption h)
  | submitMerkleRoot c =>
      rw [contracts, Option.map_eq_some_iff] at h
      obtain ⟨relayer, _, rfl⟩ := h
      exact fun _ => .inl ⟨rfl, rfl, rfl⟩
  | update change =>
      rw [contracts, Option.some.injEq] at h
      subst h
      exact fun _ => .inl ⟨rfl, rfl, rfl⟩

end

/-! ## at most once -/

/-- **A nonce is delivered at most once**, over every sequence of transactions of foreign
code, with calls nested to any depth: the invocations of receivers that took effect and
the events are counted by what the surviving frames left, and a nonce is marked exactly if
its delivery is there.  A call or a transaction that fails leaves the marks as they were. -/
theorem delivery_at_most_once (keccak256 : Bytes → FixedBytes 32)
    (verifyProof : Bytes → List Word → Option Bool) (receivers : Receivers ρ)
    (relayer : Relayer.State) (rest : ρ) (transactions : List (Transaction (World ρ) (Call ρ))) :
    (∀ nonce,
      deliveryCount (afterTransactions keccak256 verifyProof receivers relayer rest transactions)
        nonce ≤ 1 ∧
      eventCount (afterTransactions keccak256 verifyProof receivers relayer rest transactions)
        nonce ≤ 1 ∧
      ((afterTransactions keccak256 verifyProof receivers relayer rest
          transactions).processedMessages nonce = true ↔
        deliveryCount (afterTransactions keccak256 verifyProof receivers relayer rest transactions)
          nonce = 1)) ∧
    (∀ (depth : Nat) (c : Call ρ) (next : Bool → Code (World ρ) (Call ρ)) (w : World ρ),
      handler (contracts keccak256 verifyProof receivers) depth c w = none →
      exec (handler (contracts keccak256 verifyProof receivers) depth) (.call c next) w =
        exec (handler (contracts keccak256 verifyProof receivers) depth) (next false) w) ∧
    ∀ (t : Transaction (World ρ) (Call ρ)) (w : World ρ),
      exec (handler (contracts keccak256 verifyProof receivers) t.depth) t.code w = none →
      (t.apply (contracts keccak256 verifyProof receivers) w).processedMessages =
        w.processedMessages := by
  refine ⟨?_, ?_, ?_⟩
  · intro nonce
    have hrun : DeliveredOnce (deployed relayer rest)
        (afterTransactions keccak256 verifyProof receivers relayer rest transactions) :=
      run_rel DeliveredOnce.refl DeliveredOnce.trans contracts_deliveredOnce transactions _
    have hdeliveries : deliveryCount (deployed relayer rest) nonce = 0 := rfl
    have hevents : eventCount (deployed relayer rest) nonce = 0 := rfl
    have hmarks : (deployed relayer rest).processedMessages nonce = false := rfl
    rcases hrun nonce with ⟨hp, hd, he⟩ | ⟨_, hp, hd, he⟩
    · rw [hmarks] at hp
      rw [hp, hd, he, hdeliveries, hevents]
      simp
    · rw [hp, hd, he, hdeliveries, hevents]
      simp
  · intro depth c next w h
    rw [exec, h]
  · intro t w h
    rw [Transaction.apply, h]

/-- A receiver that has its message delivered again and ignores that this reverts. -/
example :
    let root : FixedBytes 32 := Relayer.sampleRoot 1
    let message : VaraMessage := ⟨root, root, ⟨List.replicate 20 0, by simp⟩, []⟩
    let deliver (next : Bool → Code (World Unit) (Call Unit)) : Code (World Unit) (Call Unit) :=
      .call (.processMessage 1 1 0 message []) next
    let w := afterTransactions (fun _ => root) (fun _ _ => none)
      (fun _ _ _ => deliver fun _ => .ret true)
      { Relayer.State.deployed with blockNumbers := fun _ => root } () [⟨9, deliver .ret⟩]
    deliveryCount w root = 1 ∧ eventCount w root = 1 := by
  decide +kernel

end GearBridges.MessageQueue
