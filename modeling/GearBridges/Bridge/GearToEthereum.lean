import GearBridges.Ethereum.ERC20Manager
import GearBridges.Ethereum.Provenance
import GearBridges.VftManager.Backing

/-!
# Bridge.GearToEthereum

The way of tokens from Gear to Ethereum, from the deposit taken by the VFT manager to the
payload that `ERC20Manager` is handed.  The VFT manager asks the bridge builtin to queue a
message for each bridged request (`Sent`), the builtin queues what it has answered for
(`QueuesAnswered`), and `MessageQueue` hands over what was queued
(`MessageQueue.Provenance`).

A request can be bridged and refunded all the same, when its wait for the builtin was given
up too early; what is shown here is that nothing is released without a deposit and no
deposit is released twice.
-/

namespace GearBridges.Bridge

open MessageQueue (VaraMessage FixedBytes Bytes hashVaraMsg)
open MessageQueue.Provenance (AttestsQueues hashedInputs afterTransactions Receivers Sound
  sound_afterTransactions)
open BinaryMerkle Reentrancy Transition VftManager

/-! ## what the VFT manager asks the builtin to send -/

section

variable {prog : Program} {w w' : World} {a : Action} {past : List (World × Action)}

/-- The call made of a request: its details packed for the `ERC20Manager` set then. -/
def CallOf (past : List (World × Action)) (d : TxDetails) (ethTokenId : H160)
    (call : VftManager.Call) : Prop :=
  ∃ w₀ a₀, (w₀, a₀) ∈ past ∧ call = .sendEthMessage w₀.state.erc20ManagerAddress
    (Payload.pack ⟨d.receiver, ethTokenId, d.amount⟩)

/-- What is known of the messages to the builtin: each is the only one of a request whose
deposit was answered with success. -/
structure Sent (prog : Program) (past : List (World × Action)) (w : World) : Prop where
  origin : ∀ {id m dest payload}, w.messages id = some m → m.call = .sendEthMessage dest payload →
    ∃ k, m.origin = .builtin k
  request : ∀ {id m k}, w.messages id = some m → m.origin = .builtin k →
    ∃ d ethTokenId, Requested past k d ethTokenId ∧ DepositAnswered prog w k d ∧
      CallOf past d ethTokenId m.call
  unique : ∀ {id id' m m' k}, w.messages id = some m → w.messages id' = some m' →
    m.origin = .builtin k → m'.origin = .builtin k → id = id'
  phase : ∀ {id m k info}, w.messages id = some m → m.origin = .builtin k →
    w.tracker.messageInfo k = some info → info.status.depositing = false

theorem Sent.seed (config : InitConfig) (actorId : ActorId) :
    Sent prog [] (.seed config actorId) := by
  constructor <;> simp [World.seed]

/-- A message after a step is an earlier one later on, or it was sent in the step. -/
theorem message_cases (hf : Fresh w) (hp : Phases prog w) (h : Effect prog w a w') {id : MessageId}
    {m' : Message} (hm' : w'.messages id = some m') :
    (∃ m, w.messages id = some m ∧ m.Later m') ∨ Posted prog w w' m' := by
  cases hm : w.messages id with
  | none => exact .inr (h.posted hf hp hm hm')
  | some m =>
      obtain ⟨m₁, hm₁, hlater⟩ := h.message_later hf hm
      rw [hm'] at hm₁
      cases hm₁
      exact .inl ⟨m, rfl, hlater⟩

theorem depositCall_ne (d : TxDetails) (dest : H160) (payload : List UInt8) :
    depositCall prog d ≠ .sendEthMessage dest payload := by
  rw [depositCall]
  split <;> simp

theorem refundCall_ne (d : TxDetails) (dest : H160) (payload : List UInt8) :
    refundCall prog d ≠ .sendEthMessage dest payload := by
  rw [refundCall]
  split <;> simp

theorem receiptCall_ne (event : BridgingRequested) (supply : TokenSupply) (dest : H160)
    (payload : List UInt8) : receiptCall prog event supply ≠ .sendEthMessage dest payload := by
  cases supply <;> simp [receiptCall]

theorem Sent.origin_step (hs : Sent prog past w) (h : Effect prog w a w') {id : MessageId}
    {m : Message} {dest : H160} {payload : List UInt8} (hm : w'.messages id = some m)
    (hcall : m.call = .sendEthMessage dest payload) : ∃ k, m.origin = .builtin k := by
  have horigin := @hs.origin
  have hdeposit := @depositCall_ne prog
  have hrefund := @refundCall_ne prog
  have hreceipt := @receiptCall_ne prog
  cases h with
  | quiet => grind
  | _ => simp at hm; grind

theorem Sent.unique_step (hs : Sent prog past w) (h : Effect prog w a w')
    {id id' k : MessageId} {m m' : Message} (hm : w'.messages id = some m)
    (hm' : w'.messages id' = some m') (hk : m.origin = .builtin k)
    (hk' : m'.origin = .builtin k) : id = id' := by
  have hunique := @hs.unique
  have hphase := @hs.phase
  cases h with
  | quiet => grind
  | _ => simp at hm hm'; grind

theorem Sent.phase_step (hf : Fresh w) (hs : Sent prog past w) (h : Effect prog w a w')
    {id k : MessageId} {m : Message} {info : MessageInfo} (hm : w'.messages id = some m)
    (hk : m.origin = .builtin k) (hi : w'.tracker.messageInfo k = some info) :
    info.status.depositing = false := by
  have hphase := @hs.phase
  have hne := @hf.origin_ne
  cases h with
  | quiet => grind
  | _ => simp at hm hi; grind

/-- The message is asked for when the deposit has been answered. -/
theorem Sent.request_step (hf : Fresh w) (hp : Phases prog w) (hb : Backed prog w)
    (ht : Traced past w) (hs : Sent prog past w) (h : Effect prog w a w') {id k : MessageId}
    {m : Message} (hm : w'.messages id = some m) (hk : m.origin = .builtin k) :
    ∃ d ethTokenId, Requested ((w, a) :: past) k d ethTokenId ∧ DepositAnswered prog w' k d ∧
      CallOf ((w, a) :: past) d ethTokenId m.call := by
  rcases message_cases hf hp h hm with ⟨m₀, hm₀, hlater⟩ | hposted
  · rw [hlater.origin] at hk
    obtain ⟨d, ethTokenId, hrequested, hanswered, w₀, a₀, hmem, hcall⟩ := hs.request hm₀ hk
    have hlt : k < w.nextId := hf.origin_lt hm₀ (by rw [hk]; rfl)
    exact ⟨d, ethTokenId, hrequested.cons hlt a, hanswered.step hf h, w₀, a₀,
      List.mem_cons_of_mem _ hmem, hlater.call.trans hcall⟩
  · cases hposted with
    | deposit message => simp [message, depositMessage] at hk
    | refund message => simp [message, refundMessage] at hk
    | receipt origin => simp [origin] at hk
    | @builtin e x l info message exec wait tracked status =>
        obtain rfl : l.msgId = k := by simpa [message, builtinMessage] using hk
        obtain ⟨hid, info', hinfo', hdetails⟩ := hf.deposit_tracked exec wait
        rw [← hid, tracked] at hinfo'
        cases hinfo'
        have hrequested := ht.locals exec (by rw [wait]; rfl)
        have hanswered := hb.deposited tracked (by rw [status]; rfl)
        rw [hdetails] at hanswered
        rw [← hid] at hrequested
        refine ⟨l.details, l.ethTokenId, hrequested.cons (hf.tracker_lt tracked) a,
          hanswered.step hf h, w, a, List.mem_cons_self, ?_⟩
        rw [message, builtinMessage]

theorem sent_of_history (h : History (step prog) Seeded past w) : Sent prog past w := by
  refine (History.invariant (I := fun past w => (Fresh w ∧ Phases prog w ∧ Backed prog w ∧
    Traced past w) ∧ Sent prog past w) ?_ ?_ h).2
  · rintro s ⟨config, actorId, rfl⟩
    exact ⟨⟨.seed config actorId, .seed config actorId, .seed config actorId, .seed config actorId⟩,
      .seed config actorId⟩
  · rintro past s a s' ⟨⟨hf, hp, hb, ht⟩, hs⟩ hstep
    have heffect := step_effect hstep
    exact ⟨⟨hf.step heffect, Phases.step hf hp heffect, Backed.step hf hp hb heffect,
      Traced.step hf hp ht hstep⟩, hs.origin_step heffect, hs.request_step hf hp hb ht heffect,
      hs.unique_step heffect, hs.phase_step hf heffect⟩

end

/-! ## what the builtin queues -/

/-- The low bytes of a word, most significant byte first. -/
def fixedBytes {w : Nat} (n : Nat) (x : BitVec w) : FixedBytes n :=
  ⟨beBytes n x, ERC20Manager.length_beBytes n x⟩

/-- The message queued for a call of a program that is answered with a nonce. -/
def queuedMessage (programId : ActorId) (dest : H160) (payload : List UInt8) (nonce : U256) :
    VaraMessage :=
  ⟨fixedBytes 32 nonce, fixedBytes 32 programId, fixedBytes 20 dest, payload⟩

/-- The builtin queues a message of the VFT manager only if it answers the call with the
nonce. -/
def QueuesAnswered (prog : Program) (w : World) (queueAt : Nat → List VaraMessage) : Prop :=
  ∀ n, ∀ message ∈ queueAt n, message.sender = fixedBytes 32 prog.programId →
    ∃ id m dest payload nonce, w.messages id = some m ∧ m.call = .sendEthMessage dest payload ∧
      m.delivery.reply? = some (.ethMessageQueued nonce) ∧
      message = queuedMessage prog.programId dest payload nonce

/-- The deposit of request `k` of a run covers a message for `ERC20Manager`. -/
def CoveredBy (prog : Program) (past : List (World × Action)) (w : World) (message : VaraMessage)
    (k : MessageId) : Prop :=
  ∃ d ethTokenId, Requested past k d ethTokenId ∧ DepositAnswered prog w k d ∧
    ERC20Manager.parsePayload message.data = some (d.receiver, ethTokenId, d.amount) ∧
    ∃ w₀ a₀, (w₀, a₀) ∈ past ∧ message.receiver = fixedBytes 20 w₀.state.erc20ManagerAddress

section

variable {prog : Program} {w : World} {past : List (World × Action)}
  {queueAt : Nat → List VaraMessage}

/-- The request a queued message of the VFT manager was sent for. -/
theorem Sent.covered (hs : Sent prog past w) (hqueue : QueuesAnswered prog w queueAt) {n : Nat}
    {message : VaraMessage} (hmem : message ∈ queueAt n)
    (hsender : message.sender = fixedBytes 32 prog.programId) :
    ∃ k, CoveredBy prog past w message k ∧ ∃ id m dest payload nonce, w.messages id = some m ∧
      m.origin = .builtin k ∧ m.call = .sendEthMessage dest payload ∧
      m.delivery.reply? = some (.ethMessageQueued nonce) ∧
      message = queuedMessage prog.programId dest payload nonce := by
  obtain ⟨id, m, dest, payload, nonce, hm, hcall, hreply, rfl⟩ := hqueue n message hmem hsender
  obtain ⟨k, horigin⟩ := hs.origin hm hcall
  refine ⟨k, ?_, id, m, dest, payload, nonce, hm, horigin, hcall, hreply, rfl⟩
  obtain ⟨d, ethTokenId, hrequested, hanswered, w₀, a₀, hpast, hcall'⟩ := hs.request hm horigin
  rw [hcall, Call.sendEthMessage.injEq] at hcall'
  obtain ⟨rfl, rfl⟩ := hcall'
  exact ⟨d, ethTokenId, hrequested, hanswered, ERC20Manager.parsePayload_pack _, w₀, a₀, hpast, rfl⟩

/-- Messages queued for one request are the same. -/
theorem Sent.eq_of_request (hs : Sent prog past w) {k id id' : MessageId} {m m' : Message}
    {dest dest' : H160} {payload payload' : List UInt8} {nonce nonce' : U256}
    (hm : w.messages id = some m) (hm' : w.messages id' = some m') (hk : m.origin = .builtin k)
    (hk' : m'.origin = .builtin k) (hcall : m.call = .sendEthMessage dest payload)
    (hcall' : m'.call = .sendEthMessage dest' payload')
    (hreply : m.delivery.reply? = some (.ethMessageQueued nonce))
    (hreply' : m'.delivery.reply? = some (.ethMessageQueued nonce')) :
    queuedMessage prog.programId dest payload nonce =
      queuedMessage prog.programId dest' payload' nonce' := by
  obtain rfl := hs.unique hm hm' hk hk'
  rw [hm] at hm'
  cases hm'
  rw [hcall] at hcall'
  rw [hreply] at hreply'
  cases hcall'
  cases hreply'
  rfl

end

/-! ## what is released is covered -/

/-- **What is released on Ethereum was deposited on Gear**, for every run of the VFT
manager and every sequence of transactions of foreign code on Ethereum: each message of the
VFT manager that `MessageQueue` hands over carries the receiver, the token and the amount of
a request whose deposit the `VFT` program has answered with success, for an `ERC20Manager`
the program had then, and different deliveries are of different requests.  The verifier is
to accept nothing but roots of queues, the builtin to queue what it answers for, and what
was hashed not to collide. -/
theorem released_covered {ρ : Type} (keccak256 : Bytes → FixedBytes 32)
    (verifyProof : Bytes → List Relayer.Word → Option Bool) (receivers : Receivers ρ) (rest : ρ)
    (transactions : List (Transaction (MessageQueue.Provenance.World ρ) (MessageQueue.Provenance.Call ρ)))
    (queueAt : Nat → List VaraMessage) (hattests : AttestsQueues keccak256 verifyProof queueAt)
    (hcf : CollisionFreeOn keccak256 (hashedInputs keccak256 queueAt
      (afterTransactions keccak256 verifyProof receivers rest transactions).others.deliveries))
    (prog : Program) (past : List (VftManager.World × Action)) (w : VftManager.World)
    (h : History (step prog) Seeded past w) (hqueue : QueuesAnswered prog w queueAt) :
    ∃ request : MessageQueue.Provenance.Delivery → MessageId,
      (∀ c ∈ (afterTransactions keccak256 verifyProof receivers rest transactions).others.deliveries,
        c.message.sender = fixedBytes 32 prog.programId →
        CoveredBy prog past w c.message (request c)) ∧
      Set.InjOn request {c | c ∈ (afterTransactions keccak256 verifyProof receivers rest
        transactions).others.deliveries ∧ c.message.sender = fixedBytes 32 prog.programId} := by
  have hsound : Sound keccak256 verifyProof
      (afterTransactions keccak256 verifyProof receivers rest transactions) :=
    sound_afterTransactions rest transactions
  have hs : Sent prog past w := sent_of_history h
  have hcovered := fun c hc hsender =>
    hs.covered hqueue (hsound.mem_queue hattests hcf (c := c) hc) hsender
  classical
  refine ⟨fun c => if hc : c ∈ (afterTransactions keccak256 verifyProof receivers rest
    transactions).others.deliveries ∧ c.message.sender = fixedBytes 32 prog.programId then
      (hcovered c hc.1 hc.2).choose else 0, ?_, ?_⟩
  · intro c hc hsender
    simp only [dif_pos (And.intro hc hsender)]
    exact (hcovered c hc hsender).choose_spec.1
  · rintro c ⟨hc, hsender⟩ c' ⟨hc', hsender'⟩ hrequest
    simp only [dif_pos (And.intro hc hsender), dif_pos (And.intro hc' hsender')] at hrequest
    obtain ⟨-, id, m, dest, payload, nonce, hm, hk, hcall, hreply, hmessage⟩ :=
      (hcovered c hc hsender).choose_spec
    obtain ⟨-, id', m', dest', payload', nonce', hm', hk', hcall', hreply', hmessage'⟩ :=
      (hcovered c' hc' hsender').choose_spec
    rw [← hrequest] at hk'
    have hsame := hs.eq_of_request hm hm' hk hk' hcall hcall' hreply hreply'
    rw [← hmessage, ← hmessage'] at hsame
    exact hsound.eq_of_nonce hc hc' (congrArg VaraMessage.nonce hsame)

def samplePayload : List UInt8 := Payload.pack ⟨300, 200, 10⟩

/-- The builtin has queued the message of the request. -/
def sampleQueued : VaraMessage := queuedMessage 3 7 samplePayload 1

def sampleQueue (n : Nat) : List VaraMessage := if n = 5 then [sampleQueued] else []

def sampleVerifier (_ : Bytes) (inputs : List Relayer.Word) : Option Bool :=
  some (decide (inputs = Relayer.buildPublicInputs 5 (hashVaraMsg Keccak.keccak256 sampleQueued)))

def sampleDelivery : MessageQueue.Provenance.Delivery := ⟨5, 1, 0, sampleQueued, []⟩

/-- The root of block `5` is submitted and its only message delivered. -/
def sampleTransactions :
    List (Transaction (MessageQueue.Provenance.World Unit) (MessageQueue.Provenance.Call Unit)) :=
  [⟨9, .call (.submitMerkleRoot ⟨5, hashVaraMsg Keccak.keccak256 sampleQueued, []⟩) fun _ =>
    .call (.processMessage sampleDelivery) .ret⟩]

/-- The request of account `5` that waits for the builtin, once the builtin has answered. -/
theorem released_covered_sample : ∃ past w k, History (step (.deployed 3)) Seeded past w ∧
    sampleDelivery ∈ (afterTransactions Keccak.keccak256 sampleVerifier (fun _ _ _ => .ret true) ()
      sampleTransactions).others.deliveries ∧
    CoveredBy (.deployed 3) past w sampleQueued k := by
  obtain ⟨past, w, hw, hr⟩ := exists_history_of_exec (step (.deployed 3)) sampleSeed_seeded
    (pendingRequest ++ [.execute 3 (.ethMessageQueued 1)])
    (fun w => decide ((w.messages 3).map (fun m => (m.call, m.delivery)) =
      some (.sendEthMessage 7 samplePayload, .executed (.ethMessageQueued 1)))) (by decide +kernel)
  rw [decide_eq_true_eq, Option.map_eq_some_iff] at hr
  obtain ⟨m, hm, heq⟩ := hr
  obtain ⟨hcall, hdelivery⟩ := Prod.mk.inj heq
  have hqueue : QueuesAnswered (.deployed 3) w sampleQueue := by
    intro n message hmem _
    rw [sampleQueue] at hmem
    split at hmem
    · rw [List.mem_singleton.mp hmem]
      exact ⟨3, m, 7, samplePayload, 1, hm, hcall, by rw [hdelivery]; rfl, rfl⟩
    · exact absurd hmem List.not_mem_nil
  have hattests : AttestsQueues Keccak.keccak256 sampleVerifier sampleQueue := by
    intro proof inputs h
    rw [sampleVerifier, Option.some.injEq, decide_eq_true_eq] at h
    exact ⟨5, hashVaraMsg Keccak.keccak256 sampleQueued, by decide, h, rfl⟩
  have hdeliveries : (afterTransactions Keccak.keccak256 sampleVerifier (fun _ _ _ => .ret true) ()
      sampleTransactions).others.deliveries = [sampleDelivery] := by
    decide +kernel
  have hmem : sampleDelivery ∈ (afterTransactions Keccak.keccak256 sampleVerifier
      (fun _ _ _ => .ret true) () sampleTransactions).others.deliveries := by
    rw [hdeliveries]
    exact List.mem_cons_self
  obtain ⟨request, hcovered, -⟩ := released_covered Keccak.keccak256 sampleVerifier
    (fun _ _ _ => .ret true) () sampleTransactions sampleQueue hattests (by
      rw [hdeliveries]
      exact MessageQueue.Provenance.collisionFree_hashedInputs rfl rfl (by decide +kernel))
    (.deployed 3) past w hw hqueue
  exact ⟨past, w, request sampleDelivery, hw, hmem, hcovered sampleDelivery hmem rfl⟩

end GearBridges.Bridge
