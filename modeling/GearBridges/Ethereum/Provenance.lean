import Mathlib.Data.BitVec
import GearBridges.Ethereum.Delivery

/-!
# Ethereum.Provenance

Where the messages come from that `MessageQueue` hands over.  Beside the storage stands a
record of every delivery that took effect, with the arguments it was made with.  In every
run of foreign code a delivery is made against a root that the verifier has accepted for
the block; if the verifier only accepts roots of the queues of Gear, the message stood in
the queue of a block with the same lowest 32 bits (`deliveries_queued`).
-/

namespace GearBridges.MessageQueue.Provenance

open BinaryMerkle Reentrancy
open Relayer (Word buildPublicInputs zeroRoot)

variable {ρ : Type}

/-! ## the contracts with a record of deliveries -/

/-- The arguments of a call of `processMessage`. -/
structure Delivery where
  blockNumber : Word
  totalLeaves : Word
  leafIndex : Word
  message : VaraMessage
  proof : List (FixedBytes 32)
deriving DecidableEq

/-- The deliveries, newest first, and the rest of the chain. -/
structure Surroundings (ρ : Type) where
  deliveries : List Delivery
  rest : ρ

abbrev World (ρ : Type) := Chain (Surroundings ρ)

/-- What foreign code can do. -/
inductive Call (ρ : Type)
  | processMessage (delivery : Delivery)
  | submitMerkleRoot (call : Relayer.Call)
  | update (change : ρ → ρ)

/-- What `processVaraMessage` of the contract at an address does. -/
abbrev Receivers (ρ : Type) :=
  FixedBytes 20 → FixedBytes 32 → Bytes → Code (World ρ) (Call ρ)

def record (w : World ρ) (delivery : Delivery) : World ρ :=
  { w with others := { w.others with deliveries := delivery :: w.others.deliveries } }

section

variable (keccak256 : Bytes → FixedBytes 32) (verifyProof : Bytes → List Word → Option Bool)
  (receivers : Receivers ρ)

/-- One call from foreign code; `none` is a revert. -/
def contracts (callback : Code (World ρ) (Call ρ) → World ρ → Option (Bool × World ρ)) :
    Call ρ → World ρ → Option (World ρ)
  | .processMessage c, w =>
      (MessageQueue.processMessage keccak256
        (fun receiver sender data w => callback (receivers receiver sender data) (record w c))
        w c.blockNumber c.totalLeaves c.leafIndex c.message c.proof).toOption
  | .submitMerkleRoot c, w =>
      (w.relayer.submitMerkleRoot verifyProof c.blockNumber c.merkleRoot c.proof).toOption.map
        fun relayer => { w with relayer }
  | .update change, w =>
      some { w with others := { w.others with rest := change w.others.rest } }

/-- A queue that has not processed anything, at a relayer without roots. -/
def deployed (rest : ρ) : World ρ := ⟨.deployed, fun _ => false, [], ⟨[], rest⟩⟩

/-- The world after a sequence of transactions. -/
def afterTransactions (rest : ρ) (transactions : List (Transaction (World ρ) (Call ρ))) : World ρ :=
  run (contracts keccak256 verifyProof receivers) transactions (deployed rest)

/-! ## the roots of the relayer -/

/-- Every root kept was accepted by the verifier for its block. -/
def Verified (s : Relayer.State) : Prop :=
  ∀ blockNumber, s.blockNumbers blockNumber ≠ zeroRoot → ∃ proof,
    verifyProof proof (buildPublicInputs blockNumber (s.blockNumbers blockNumber)) = some true

variable {keccak256 verifyProof receivers}

theorem verified_deployed : Verified verifyProof .deployed := fun _ h => absurd rfl h

theorem Verified.submitMerkleRoot {s s' : Relayer.State} (hs : Verified verifyProof s) {blockNumber : Word}
    {merkleRoot : FixedBytes 32} {proof : Bytes}
    (h : s.submitMerkleRoot verifyProof blockNumber merkleRoot proof = .ok s') :
    Verified verifyProof s' := by
  unfold Relayer.State.submitMerkleRoot at h
  split at h
  · contradiction
  · split at h
    · contradiction
    · contradiction
    · next hproof =>
      simp only at h
      split at h
      · cases h
        exact hs
      · cases h
        intro b hb
        by_cases hblock : b = blockNumber
        · subst hblock
          simp only [Function.update_self]
          exact ⟨proof, hproof⟩
        · simp only [Function.update_of_ne hblock] at hb ⊢
          exact hs b hb

/-! ## one delivery -/

/-- The proof of the delivery leads from the message to a root that the verifier has
accepted for the block. -/
def Proved (keccak256 : Bytes → FixedBytes 32) (verifyProof : Bytes → List Word → Option Bool)
    (c : Delivery) : Prop :=
  ∃ merkleRoot, (∃ proof, verifyProof proof (buildPublicInputs c.blockNumber merkleRoot) = some true) ∧
    calculateMerkleRoot keccak256 c.proof (hashVaraMsg keccak256 c.message) c.totalLeaves.toNat
      c.leafIndex.toNat = some merkleRoot

/-- The root a call that succeeds was made against. -/
theorem processMessage_root {processVaraMessage : Receiver ρ} {chain chain' : Chain ρ}
    {blockNumber totalLeaves leafIndex : Word} {message : VaraMessage} {proof : List (FixedBytes 32)}
    (h : processMessage keccak256 processVaraMessage chain blockNumber totalLeaves leafIndex
      message proof = .ok chain') :
    chain.relayer.blockNumbers blockNumber ≠ zeroRoot ∧
      calculateMerkleRoot keccak256 proof (hashVaraMsg keccak256 message) totalLeaves.toNat
        leafIndex.toNat = some (chain.relayer.blockNumbers blockNumber) := by
  unfold processMessage at h
  split at h
  · contradiction
  · simp only at h
    split at h
    · contradiction
    · next merkleRoot hget =>
      have hroot : chain.relayer.blockNumbers blockNumber = merkleRoot := by
        rw [Relayer.State.getMerkleRoot] at hget
        split at hget
        · contradiction
        · exact Except.ok.inj hget
      split at h
      · contradiction
      · next hzero =>
        split at h
        · contradiction
        · next root hcalculate =>
          split at h
          · contradiction
          · next heq =>
            rw [not_not] at heq
            rw [hroot]
            exact ⟨hzero, heq ▸ hcalculate⟩

end

/-- What holds of the deliveries recorded: each was proved, its nonce is marked, and no two
have the same nonce. -/
structure Sound (keccak256 : Bytes → FixedBytes 32) (verifyProof : Bytes → List Word → Option Bool)
    (w : World ρ) : Prop where
  verified : Verified verifyProof w.relayer
  proved : ∀ c ∈ w.others.deliveries, Proved keccak256 verifyProof c
  marked : ∀ c ∈ w.others.deliveries, w.processedMessages c.message.nonce = true
  distinct : (w.others.deliveries.map (·.message.nonce)).Nodup

section

variable {keccak256 : Bytes → FixedBytes 32} {verifyProof : Bytes → List Word → Option Bool}
  {receivers : Receivers ρ}

theorem sound_deployed (rest : ρ) : Sound keccak256 verifyProof (deployed rest) :=
  ⟨verified_deployed, fun _ h => absurd h List.not_mem_nil, fun _ h => absurd h List.not_mem_nil,
    List.nodup_nil⟩

/-- The nonce is new, so the receiver starts from a sound record. -/
theorem Sound.record {w : World ρ} (hw : Sound keccak256 verifyProof w) {c : Delivery}
    (hproved : Proved keccak256 verifyProof c) (hnew : w.processedMessages c.message.nonce = false) :
    Sound keccak256 verifyProof (record { w with
      processedMessages := Function.update w.processedMessages c.message.nonce true } c) := by
  refine ⟨hw.verified, ?_, ?_, ?_⟩
  · intro c' hc'
    rcases List.mem_cons.mp hc' with rfl | hc'
    · exact hproved
    · exact hw.proved c' hc'
  · intro c' hc'
    rcases List.mem_cons.mp hc' with rfl | hc'
    · exact Function.update_self ..
    · have hmarked := hw.marked c' hc'
      have hne : c'.message.nonce ≠ c.message.nonce := by
        intro hnonce
        rw [hnonce, hnew] at hmarked
        contradiction
      exact (Function.update_of_ne hne ..).trans hmarked
  · refine List.nodup_cons.mpr ⟨?_, hw.distinct⟩
    intro hmem
    obtain ⟨c', hc', hnonce⟩ := List.mem_map.mp hmem
    have hmarked := hw.marked c' hc'
    rw [hnonce, hnew] at hmarked
    contradiction

theorem contracts_sound {callback : Code (World ρ) (Call ρ) → World ρ → Option (Bool × World ρ)}
    (hcallback : ∀ code w value w', callback code w = some (value, w') →
      Sound keccak256 verifyProof w → Sound keccak256 verifyProof w')
    (c : Call ρ) (w w' : World ρ)
    (h : contracts keccak256 verifyProof receivers callback c w = some w')
    (hw : Sound keccak256 verifyProof w) : Sound keccak256 verifyProof w' := by
  cases c with
  | processMessage c =>
      have hok := ok_of_toOption h
      obtain ⟨hzero, hroot⟩ := processMessage_root hok
      obtain ⟨hnew, after, hafter, rfl⟩ := processMessage_ok hok
      obtain ⟨proof, hproof⟩ := hw.verified c.blockNumber hzero
      have hsound := hcallback _ _ _ _ hafter (hw.record ⟨_, ⟨proof, hproof⟩, hroot⟩ hnew)
      exact ⟨hsound.verified, hsound.proved, hsound.marked, hsound.distinct⟩
  | submitMerkleRoot c =>
      rw [contracts, Option.map_eq_some_iff] at h
      obtain ⟨relayer, hrelayer, rfl⟩ := h
      exact ⟨hw.verified.submitMerkleRoot (ok_of_toOption hrelayer), hw.proved, hw.marked, hw.distinct⟩
  | update change =>
      rw [contracts, Option.some.injEq] at h
      subst h
      exact ⟨hw.verified, hw.proved, hw.marked, hw.distinct⟩

theorem sound_afterTransactions (rest : ρ) (transactions : List (Transaction (World ρ) (Call ρ))) :
    Sound keccak256 verifyProof
      (afterTransactions keccak256 verifyProof receivers rest transactions) :=
  run_invariant (fun _ hcallback c w w' h hw => contracts_sound hcallback c w w' h hw) transactions
    (sound_deployed rest)

end

/-! ## the queues of Gear -/

/-- The verifier accepts nothing but the roots of the queues of blocks, which is what the
circuits are to prove. -/
def AttestsQueues (keccak256 : Bytes → FixedBytes 32) (verifyProof : Bytes → List Word → Option Bool)
    (queueAt : Nat → List VaraMessage) : Prop :=
  ∀ proof inputs, verifyProof proof inputs = some true →
    ∃ (blockNumber : Word) (merkleRoot : FixedBytes 32), blockNumber.toNat < 2 ^ 32 ∧
      inputs = buildPublicInputs blockNumber merkleRoot ∧
      root (hashPair keccak256) ((queueAt blockNumber.toNat).map (hashVaraMsg keccak256)) =
        some merkleRoot

/-- The block whose queue a delivery is proved against. -/
def Delivery.queueBlock (c : Delivery) : Nat := c.blockNumber.toNat % 2 ^ 32

/-- The inputs hashed for the trees of the queues and for the deliveries. -/
def hashedInputs (keccak256 : Bytes → FixedBytes 32) (queueAt : Nat → List VaraMessage)
    (deliveries : List Delivery) : List Bytes :=
  deliveries.flatMap fun c => treeInputs keccak256 (queueAt c.queueBlock) ++
    messageInputs keccak256 c.message c.proof c.totalLeaves.toNat c.leafIndex.toNat

section

variable {keccak256 : Bytes → FixedBytes 32} {verifyProof : Bytes → List Word → Option Bool}
  {queueAt : Nat → List VaraMessage}

theorem Proved.queue_root {c : Delivery} (h : Proved keccak256 verifyProof c)
    (hattests : AttestsQueues keccak256 verifyProof queueAt) :
    ∃ merkleRoot, root (hashPair keccak256) ((queueAt c.queueBlock).map (hashVaraMsg keccak256)) =
        some merkleRoot ∧
      calculateMerkleRoot keccak256 c.proof (hashVaraMsg keccak256 c.message) c.totalLeaves.toNat
        c.leafIndex.toNat = some merkleRoot := by
  obtain ⟨merkleRoot, ⟨proof, hproof⟩, hcalculate⟩ := h
  obtain ⟨blockNumber, merkleRoot', hlt, hinputs, hroot⟩ := hattests _ _ hproof
  obtain ⟨rfl, hblock⟩ := (Relayer.buildPublicInputs_eq_iff _ _ _ _).mp hinputs
  refine ⟨merkleRoot, ?_, hcalculate⟩
  rw [Delivery.queueBlock, hblock, Nat.mod_eq_of_lt hlt]
  exact hroot

/-- A message that leads to the root of the queue stands in it, when what was hashed does
not collide. -/
theorem Proved.mem_queue {c : Delivery} (h : Proved keccak256 verifyProof c)
    (hattests : AttestsQueues keccak256 verifyProof queueAt) {inputs : List Bytes}
    (hcf : CollisionFreeOn keccak256 inputs)
    (htree : ∀ b ∈ treeInputs keccak256 (queueAt c.queueBlock), b ∈ inputs)
    (hmessage : ∀ b ∈ messageInputs keccak256 c.message c.proof c.totalLeaves.toNat c.leafIndex.toNat,
      b ∈ inputs) :
    c.message ∈ queueAt c.queueBlock := by
  obtain ⟨merkleRoot, hroot, hcalculate⟩ := h.queue_root hattests
  rw [calculateMerkleRoot, Option.ite_none_right_eq_some, Option.some.injEq] at hcalculate
  have hnode : TreeNode keccak256 (queueAt c.queueBlock) merkleRoot := isNode_root hroot
  rw [← hcalculate.2] at hnode
  have hleaf := treeNode_of_calculateMerkleRootLoop hcf htree c.proof _ _ _
    (fun b hb => hmessage b (List.mem_cons_of_mem _ (List.mem_cons_of_mem _ hb))) hnode
  exact mem_of_treeNode_hashVaraMsg hcf htree (hmessage _ List.mem_cons_self)
    (hmessage _ (List.mem_cons_of_mem _ List.mem_cons_self)) hleaf

/-- In a sound record, the deliveries stood in the queues. -/
theorem Sound.mem_queue {w : World ρ} (hw : Sound keccak256 verifyProof w)
    (hattests : AttestsQueues keccak256 verifyProof queueAt)
    (hcf : CollisionFreeOn keccak256 (hashedInputs keccak256 queueAt w.others.deliveries)) {c : Delivery}
    (hc : c ∈ w.others.deliveries) : c.message ∈ queueAt c.queueBlock := by
  apply (hw.proved c hc).mem_queue hattests hcf
  · exact fun b hb => List.mem_flatMap.mpr ⟨c, hc, List.mem_append_left _ hb⟩
  · exact fun b hb => List.mem_flatMap.mpr ⟨c, hc, List.mem_append_right _ hb⟩

/-- The deliveries are as different as their nonces. -/
theorem Sound.eq_of_nonce {w : World ρ} (hw : Sound keccak256 verifyProof w) {c c' : Delivery}
    (hc : c ∈ w.others.deliveries) (hc' : c' ∈ w.others.deliveries)
    (h : c.message.nonce = c'.message.nonce) : c = c' :=
  List.inj_on_of_nodup_map hw.distinct hc hc' h

end

/-- **What is delivered on Ethereum was queued on Gear**, over every sequence of
transactions of foreign code, with calls nested to any depth, if the verifier accepts
nothing but roots of queues and what was hashed does not collide: every message handed over
stood in the queue of a block with the lowest 32 bits of the block number given, and no
message is handed over more often than it was queued. -/
theorem deliveries_queued (keccak256 : Bytes → FixedBytes 32)
    (verifyProof : Bytes → List Word → Option Bool) (receivers : Receivers ρ) (rest : ρ)
    (transactions : List (Transaction (World ρ) (Call ρ))) (queueAt : Nat → List VaraMessage)
    (hattests : AttestsQueues keccak256 verifyProof queueAt)
    (hcf : CollisionFreeOn keccak256 (hashedInputs keccak256 queueAt
      (afterTransactions keccak256 verifyProof receivers rest transactions).others.deliveries)) :
    (∀ c ∈ (afterTransactions keccak256 verifyProof receivers rest transactions).others.deliveries,
      c.message ∈ queueAt (c.blockNumber.toNat % 2 ^ 32)) ∧
    ∀ sent : List VaraMessage, (∀ n, ∀ message ∈ queueAt n, message ∈ sent) →
      List.Subperm ((afterTransactions keccak256 verifyProof receivers rest
        transactions).others.deliveries.map (·.message)) sent := by
  have hsound : Sound keccak256 verifyProof
      (afterTransactions keccak256 verifyProof receivers rest transactions) :=
    sound_afterTransactions rest transactions
  have hmem := fun c hc => hsound.mem_queue hattests hcf (c := c) hc
  refine ⟨hmem, ?_⟩
  intro sent hsent
  have hnodup : ((afterTransactions keccak256 verifyProof receivers rest
      transactions).others.deliveries.map (·.message)).Nodup := by
    apply List.Nodup.of_map (·.nonce)
    rw [List.map_map]
    exact hsound.distinct
  apply hnodup.subperm
  intro message hmessage
  obtain ⟨c, hc, rfl⟩ := List.mem_map.mp hmessage
  exact hsent _ _ (hmem c hc)

/-- The queue of block `5` holds one message. -/
def sampleQueue (n : Nat) : List VaraMessage := if n = 5 then [sampleMessage 1] else []

def sampleVerifier (_ : Bytes) (inputs : List Word) : Option Bool :=
  some (decide (inputs = buildPublicInputs 5 (hashVaraMsg Keccak.keccak256 (sampleMessage 1))))

/-- A block number that agrees with `5` in the lowest 32 bits only. -/
def sampleDelivery : Delivery := ⟨2 ^ 32 + 5, 1, 0, sampleMessage 1, []⟩

/-- The root is submitted and the message delivered, twice. -/
def sampleTransactions : List (Transaction (World Unit) (Call Unit)) :=
  [⟨9, .call (.submitMerkleRoot ⟨2 ^ 32 + 5, hashVaraMsg Keccak.keccak256 (sampleMessage 1), []⟩)
    fun _ => .call (.processMessage sampleDelivery) fun _ =>
      .call (.processMessage sampleDelivery) fun _ => .ret true⟩]

theorem attestsQueues_sample : AttestsQueues Keccak.keccak256 sampleVerifier sampleQueue := by
  intro proof inputs h
  rw [sampleVerifier, Option.some.injEq, decide_eq_true_eq] at h
  exact ⟨5, hashVaraMsg Keccak.keccak256 (sampleMessage 1), by decide, h, rfl⟩

/-- One of the two deliveries took effect. -/
theorem deliveries_sample : (afterTransactions Keccak.keccak256 sampleVerifier (fun _ _ _ => .ret true)
    () sampleTransactions).others.deliveries = [sampleDelivery] := by
  decide +kernel

/-- A message of a queue of its own is hashed, and then its hash. -/
theorem collisionFree_hashedInputs {keccak256 : Bytes → FixedBytes 32} {queueAt : Nat → List VaraMessage}
    {c : Delivery} (hqueue : queueAt c.queueBlock = [c.message]) (hproof : c.proof = [])
    (hcf : CollisionFreeOn keccak256
      [c.message.encodePacked, (keccak256 c.message.encodePacked).val]) :
    CollisionFreeOn keccak256 (hashedInputs keccak256 queueAt [c]) := by
  apply hcf.mono
  have hpairs : treePairs (hashPair keccak256) [hashVaraMsg keccak256 c.message] = [] := rfl
  intro b hb
  simp only [hashedInputs, List.flatMap_singleton, hqueue, hproof, treeInputs, messageInputs, loopInputs,
    List.map_singleton, hpairs, List.map_nil, List.append_nil, List.mem_append, List.mem_cons,
    List.not_mem_nil, or_false] at hb ⊢
  tauto

/-- The message handed over stood in the queue of its block. -/
theorem deliveries_queued_sample :
    sampleDelivery.message ∈ sampleQueue (sampleDelivery.blockNumber.toNat % 2 ^ 32) := by
  refine (deliveries_queued Keccak.keccak256 sampleVerifier (fun _ _ _ => .ret true) ()
    sampleTransactions sampleQueue attestsQueues_sample ?_).1 sampleDelivery ?_
  · rw [deliveries_sample]
    exact collisionFree_hashedInputs rfl rfl (by decide +kernel)
  · rw [deliveries_sample]
    exact List.mem_singleton_self _

end GearBridges.MessageQueue.Provenance
