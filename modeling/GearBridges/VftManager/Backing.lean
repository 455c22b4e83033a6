import GearBridges.VftManager.BridgeOrRefund

/-!
# VftManager.Backing

What the status of a request says about the tokens deposited for it, in every run:

* `Backed` — a status after the deposit means that the `VFT` program has answered the
  deposit with success, and a status that the recovery does not accept means that the
  message to the bridge builtin is pending or queued, or that a refund was executed;
* `Traced` — what the tracker and the suspended executions know of a request is what the
  `request_bridging` call of that id was made with.
-/

namespace GearBridges.VftManager

open Transition

variable {prog : Program} {w w' : World} {a : Action}

/-- The statuses that a request reaches only after its deposit. -/
def MessageStatus.deposited : MessageStatus → Bool
  | .sendingMessageToDepositTokens | .tokenDepositCompleted false => false
  | _ => true

attribute [grind] MessageStatus.deposited

/-- The `VFT` program has answered the deposit of the request with success. -/
def DepositAnswered (prog : Program) (w : World) (k : MessageId) (d : TxDetails) : Prop :=
  ∃ id m r, w.messages id = some m ∧ m.origin = .deposit k ∧ m.destination = d.varaTokenId ∧
    m.call = depositCall prog d ∧ m.delivery = .processed r ∧ r.isSuccess = true

theorem DepositAnswered.step (hf : Fresh w) (h : Effect prog w a w') {k : MessageId} {d : TxDetails}
    (hd : DepositAnswered prog w k d) : DepositAnswered prog w' k d := by
  obtain ⟨id, m, r, hm, ho, hdest, hcall, hr, hs⟩ := hd
  obtain ⟨m', hm', hlater⟩ := h.message_later hf hm
  exact ⟨id, m', r, hm', hlater.origin.trans ho, hlater.destination.trans hdest,
    hlater.call.trans hcall, hlater.processed r hr, hs⟩

theorem World.bridged_step (hf : Fresh w) (h : Effect prog w a w') {k id : MessageId}
    (hb : w.bridged k id = true) : w'.bridged k id = true := by
  obtain ⟨m, hm, ho, hs⟩ := World.bridged_iff.mp hb
  obtain ⟨m', hm', hlater⟩ := h.message_later hf hm
  exact World.bridged_iff.mpr ⟨m', hm', hlater.origin.trans ho, hlater.succeeded hs⟩

theorem World.refunded_step (hf : Fresh w) (h : Effect prog w a w') {k id : MessageId}
    (hb : w.refunded k id = true) : w'.refunded k id = true := by
  obtain ⟨m, hm, ho, hs⟩ := World.refunded_iff.mp hb
  obtain ⟨m', hm', hlater⟩ := h.message_later hf hm
  exact World.refunded_iff.mpr ⟨m', hm', hlater.origin.trans ho, hlater.succeeded hs⟩

/-- A message stays unanswered until its reply is processed. -/
theorem Effect.unanswered_step (h : Effect prog w a w') (hf : Fresh w) {id : MessageId}
    {m : Message} (hm : w.messages id = some m) (hu : m.delivery.unanswered = true) :
    (∃ m', w'.messages id = some m' ∧ m.Later m' ∧ m'.delivery.unanswered = true) ∨
      a = .processReply id := by
  obtain ⟨m', hm', hlater⟩ := h.message_later hf hm
  by_cases hu' : m'.delivery.unanswered = true
  · exact .inl ⟨m', hm', hlater, hu'⟩
  · have hlt := hf.message_lt hm
    cases h with
    | quiet => grind
    | _ => simp at hm'; grind

/-! ## where a status comes from -/

/-- How the entry `info` of request `k` after a step came about. -/
inductive StatusStep (w w' : World) (k : MessageId) (info : MessageInfo) : Prop
  | kept (same : w.tracker.messageInfo k = some info)
  | requested (new : k = w.nextId) (status : info.status = .sendingMessageToDepositTokens)
  | depositCompleted {id : MessageId} {m : Message} {r : Reply} {info₀ : MessageInfo}
      (tracked : w.tracker.messageInfo k = some info₀) (details : info.details = info₀.details)
      (pending : info₀.status = .sendingMessageToDepositTokens)
      (status : info.status = .tokenDepositCompleted (depositReply info.details r))
      (message : w.messages id = some m) (executed : m.delivery = .executed r)
      (origin : m.origin = .deposit k ∨ m.origin = .refund k)
      (answered : w'.messages id = some { m with delivery := .processed r })
  | returnCompleted {id : MessageId} {m : Message} {r : Reply} {info₀ : MessageInfo}
      (tracked : w.tracker.messageInfo k = some info₀) (details : info.details = info₀.details)
      (pending : info₀.status = .sendingMessageToReturnTokens)
      (status : info.status = .tokensReturnComplete (refundReply info.details r))
      (message : w.messages id = some m) (executed : m.delivery = .executed r)
      (origin : m.origin = .deposit k ∨ m.origin = .refund k)
      (answered : w'.messages id = some { m with delivery := .processed r })
  | bridgeAnswered {id : MessageId} {m : Message} {r : Reply} {info₀ : MessageInfo}
      {nonce : Option U256}
      (tracked : w.tracker.messageInfo k = some info₀) (details : info.details = info₀.details)
      (pending : info₀.status = .sendingMessageToBridgeBuiltin)
      (status : info.status = .bridgeResponseReceived nonce)
      (queued : nonce ≠ none → ∃ n, r = .ethMessageQueued n)
      (origin : m.origin = .builtin k)
      (answered : w'.messages id = some { m with delivery := .processed r })
  | bridging {id : MessageId} {m : Message} {info₀ : MessageInfo}
      (tracked : w.tracker.messageInfo k = some info₀) (details : info.details = info₀.details)
      (completed : info₀.status = .tokenDepositCompleted true)
      (status : info.status = .sendingMessageToBridgeBuiltin)
      (message : w'.messages id = some m) (origin : m.origin = .builtin k)
      (sent : m.delivery = .sent)
  | refunding {info₀ : MessageInfo} (tracked : w.tracker.messageInfo k = some info₀)
      (details : info.details = info₀.details) (deposited : info₀.status.deposited = true)
      (status : info.status = .sendingMessageToReturnTokens)

theorem MessageStatus.deposited_of_recoverable {s : MessageStatus} (h : s.recoverable = true) :
    s.deposited = true := by
  cases s with
  | tokenDepositCompleted b => cases b <;> simp_all [recoverable, deposited]
  | _ => simp_all [recoverable, deposited]

theorem MessageStatus.deposited_of_not_depositing {s : MessageStatus} (h : s.depositing = false) :
    s.deposited = true := by
  cases s <;> simp_all [depositing, deposited]

/-- A status update leaves an entry alone or writes the status. -/
theorem status_of_update {t : MessageTracker} {j k : MessageId} {status : MessageStatus}
    {info info₀ : MessageInfo} (hj : t.messageInfo j = some info₀)
    (h : (t.updateMessageStatus j status).messageInfo k = some info) :
    t.messageInfo k = some info ∨
      (k = j ∧ info.details = info₀.details ∧ info.status = status) := by
  rcases MessageTracker.messageInfo_updateMessageStatus_some.mp h with
    ⟨-, hsame⟩ | ⟨rfl, info₁, h₁, rfl⟩
  · exact .inl hsame
  · rw [hj] at h₁
    cases h₁
    exact .inr ⟨rfl, rfl, rfl⟩

/-- A refund leaves an entry alone or starts the refund of a deposited request. -/
theorem StatusStep.of_refund {t : MessageTracker} {j k : MessageId} {info info₀ : MessageInfo}
    (ht : w.tracker = t) (hj : t.messageInfo j = some info₀) (hd : info₀.status.deposited = true)
    (h : (t.updateMessageStatus j .sendingMessageToReturnTokens).messageInfo k = some info) :
    StatusStep w w' k info := by
  subst ht
  rcases status_of_update hj h with hsame | ⟨rfl, hdetails, hstatus⟩
  · exact .kept hsame
  · exact .refunding hj hdetails hd hstatus

/-- **Inversion for the tracker.** -/
theorem Effect.status_step (h : Effect prog w a w') (hf : Fresh w) (hp : Phases prog w)
    {k : MessageId} {info : MessageInfo} (hi : w'.tracker.messageInfo k = some info) :
    StatusStep w w' k info := by
  cases h with
  | quiet htracker => exact .kept (htracker ▸ hi)
  | requested =>
      simp only [World.suspend_tracker, World.post_tracker, World.withTracker_tracker,
        MessageTracker.messageInfo_insertMessageInfo] at hi
      split at hi
      · next hk =>
          cases hi
          exact .requested hk rfl
      · exact .kept hi
  | recoveryUnsent hj hr | recoveryUnhooked hj hr | recovery hj hr =>
      exact .of_refund rfl hj (MessageStatus.deposited_of_recoverable hr) hi
  | depositCompleted hm hr ho hj hs =>
      rcases status_of_update hj hi with hsame | ⟨rfl, hdetails, hstatus⟩
      · exact .kept hsame
      · exact .depositCompleted hj hdetails hs (hdetails ▸ hstatus) hm hr ho
          (Function.update_self ..)
  | returnCompleted hm hr ho hj hs =>
      rcases status_of_update hj hi with hsame | ⟨rfl, hdetails, hstatus⟩
      · exact .kept hsame
      · exact .returnCompleted hj hdetails hs (hdetails ▸ hstatus) hm hr ho
          (Function.update_self ..)
  | bridgeAnswered hm hr ho hj hs _ hqueued =>
      rcases status_of_update hj hi with hsame | ⟨rfl, hdetails, hstatus⟩
      · exact .kept hsame
      · exact .bridgeAnswered hj hdetails hs hstatus hqueued ho (Function.update_self ..)
  | bridging hx hl hj hs =>
      rcases status_of_update hj hi with hsame | ⟨rfl, hdetails, hstatus⟩
      · exact .kept hsame
      · exact .bridging hj hdetails hs hstatus (Function.update_self ..) rfl rfl
  | refundUnbridged hx hl hj hs => exact .of_refund rfl hj (by rw [hs]; rfl) hi
  | refundFailed hx hl =>
      obtain ⟨hid, info₀, hj, -⟩ := hf.builtin_tracked hx hl
      have hd := MessageStatus.deposited_of_not_depositing (hp.builtin_wait hx hl hj)
      rw [← hid] at hj
      exact .of_refund rfl hj hd hi
  | bridged =>
      simp only [World.finish_tracker, World.withTracker_tracker,
        MessageTracker.messageInfo_removeMessageInfo] at hi
      split at hi
      · contradiction
      · exact .kept hi
  | signalled _ hj hs => exact .of_refund rfl hj (by rw [hs]; rfl) hi
  | _ => exact .kept hi

/-! ## what the status says -/

structure Backed (prog : Program) (w : World) : Prop where
  /-- The deposit of a request is the call made of its details. -/
  call : ∀ {id m k info}, w.messages id = some m → m.origin = .deposit k →
    w.tracker.messageInfo k = some info →
    m.destination = info.details.varaTokenId ∧ m.call = depositCall prog info.details
  deposited : ∀ {k info}, w.tracker.messageInfo k = some info → info.status.deposited = true →
    DepositAnswered prog w k info.details
  /-- An answered deposit has been recorded. -/
  answered : ∀ {id m k info}, w.messages id = some m → m.origin = .deposit k →
    m.delivery.unanswered = false → w.tracker.messageInfo k = some info →
    info.status ≠ .sendingMessageToDepositTokens ∧
      ∀ b, info.status = .tokenDepositCompleted b → m.delivery.succeeded = b
  /-- A request is given up only when it has been bridged. -/
  untracked : ∀ {id m k}, w.messages id = some m → m.origin = .deposit k →
    w.tracker.messageInfo k = none → ∃ id, w.bridged k id = true
  hooked : ∀ {id m k}, w.messages id = some m → m.origin = .deposit k ∨ m.origin = .builtin k →
    m.hooked = true
  bridging : ∀ {k info}, w.tracker.messageInfo k = some info →
    info.status = .sendingMessageToBridgeBuiltin →
    ∃ id m, w.messages id = some m ∧ m.origin = .builtin k ∧ m.delivery.unanswered = true
  queued : ∀ {k info nonce}, w.tracker.messageInfo k = some info →
    info.status = .bridgeResponseReceived (some nonce) → ∃ id, w.bridged k id = true
  returned : ∀ {k info}, w.tracker.messageInfo k = some info →
    info.status = .tokensReturnComplete true → ∃ id, w.refunded k id = true

theorem Backed.seed (config : InitConfig) (actorId : ActorId) :
    Backed prog (.seed config actorId) := by
  constructor <;> simp [World.seed]

theorem Backed.call_step (hf : Fresh w) (hb : Backed prog w) (h : Effect prog w a w')
    {id k : MessageId} {m : Message} {info : MessageInfo} (hm : w'.messages id = some m)
    (hk : m.origin = .deposit k) (hi : w'.tracker.messageInfo k = some info) :
    m.destination = info.details.varaTokenId ∧ m.call = depositCall prog info.details := by
  have hcall := @hb.call
  have hne := @hf.origin_ne
  cases h with
  | quiet => grind
  | _ => simp at hm hi; grind

theorem Backed.hooked_step (hb : Backed prog w) (h : Effect prog w a w') {id k : MessageId}
    {m : Message} (hm : w'.messages id = some m)
    (hk : m.origin = .deposit k ∨ m.origin = .builtin k) : m.hooked = true := by
  have hhooked := @hb.hooked
  cases h with
  | quiet => grind
  | _ => simp at hm; grind

/-- Processing the reply of a deposit tells whether it has succeeded. -/
theorem Backed.depositReply_isSuccess (hp : Phases prog w) (hb : Backed prog w) {id k : MessageId}
    {m : Message} {r : Reply} {info : MessageInfo} (hm : w.messages id = some m)
    (hr : m.delivery = .executed r) (hk : m.origin = .deposit k)
    (hi : w.tracker.messageInfo k = some info) : depositReply info.details r = r.isSuccess := by
  have hadmits := hp.admits hm (by rw [hr]; rfl : m.delivery.reply? = some r)
  rw [(hb.call hm hk hi).2] at hadmits
  exact depositReply_eq hadmits

theorem Backed.deposited_step (hf : Fresh w) (hp : Phases prog w) (hb : Backed prog w)
    (h : Effect prog w a w') {k : MessageId} {info : MessageInfo}
    (hi : w'.tracker.messageInfo k = some info) (hs : info.status.deposited = true) :
    DepositAnswered prog w' k info.details := by
  -- a request that was deposited before the step stays so, with the same details
  have hold : ∀ {info₀}, w.tracker.messageInfo k = some info₀ → info.details = info₀.details →
      info₀.status.deposited = true → DepositAnswered prog w' k info.details := by
    intro info₀ h₀ hdetails hs₀
    rw [hdetails]
    exact (hb.deposited h₀ hs₀).step hf h
  cases h.status_step hf hp hi with
  | kept hsame => exact hold hsame rfl hs
  | requested _ hstatus => rw [hstatus] at hs; contradiction
  | depositCompleted h₀ hdetails hpending hstatus hm hr ho hm' =>
      rcases ho with ho | ho
      · obtain ⟨hdest, hcall⟩ := hb.call hm ho h₀
        have hadmits := hp.admits hm (by rw [hr]; rfl)
        rw [hcall, ← hdetails] at hadmits
        rw [hstatus, depositReply_eq hadmits] at hs
        refine ⟨_, _, _, hm', ho, hdest.trans (by rw [hdetails]), hcall.trans (by rw [hdetails]),
          rfl, ?_⟩
        revert hs
        cases Reply.isSuccess _ <;> simp [MessageStatus.deposited]
      · -- a refund is no reply to a pending deposit
        obtain ⟨info₁, h₁, hrefunding, -⟩ := hp.refund_tracked hm ho
        rw [h₀] at h₁
        cases h₁
        rw [hpending] at hrefunding
        contradiction
  | returnCompleted h₀ hdetails hpending => exact hold h₀ hdetails (by rw [hpending]; rfl)
  | bridgeAnswered h₀ hdetails hpending => exact hold h₀ hdetails (by rw [hpending]; rfl)
  | bridging h₀ hdetails hcompleted => exact hold h₀ hdetails (by rw [hcompleted]; rfl)
  | refunding h₀ hdetails hdeposited => exact hold h₀ hdetails hdeposited

theorem Backed.queued_step (hf : Fresh w) (hp : Phases prog w) (hb : Backed prog w)
    (h : Effect prog w a w') {k : MessageId} {info : MessageInfo} {nonce : U256}
    (hi : w'.tracker.messageInfo k = some info)
    (hs : info.status = .bridgeResponseReceived (some nonce)) : ∃ id, w'.bridged k id = true := by
  cases h.status_step hf hp hi with
  | kept hsame =>
      obtain ⟨id, hid⟩ := hb.queued hsame hs
      exact ⟨id, World.bridged_step hf h hid⟩
  | @bridgeAnswered id m r _ nonce' _ _ _ hstatus hqueued ho hm' =>
      rw [hstatus] at hs
      cases hs
      obtain ⟨n, rfl⟩ := hqueued (by simp)
      exact ⟨id, World.bridged_iff.mpr ⟨_, hm', ho, rfl⟩⟩
  | requested _ hstatus | depositCompleted _ _ _ hstatus | returnCompleted _ _ _ hstatus
  | bridging _ _ _ hstatus | refunding _ _ _ hstatus => rw [hstatus] at hs; contradiction

theorem Backed.returned_step (hf : Fresh w) (hp : Phases prog w) (hb : Backed prog w)
    (h : Effect prog w a w') {k : MessageId} {info : MessageInfo}
    (hi : w'.tracker.messageInfo k = some info) (hs : info.status = .tokensReturnComplete true) :
    ∃ id, w'.refunded k id = true := by
  cases h.status_step hf hp hi with
  | kept hsame =>
      obtain ⟨id, hid⟩ := hb.returned hsame hs
      exact ⟨id, World.refunded_step hf h hid⟩
  | @returnCompleted id m r info₀ h₀ hdetails hpending hstatus hm hr ho hm' =>
      rw [hstatus] at hs
      rcases ho with ho | ho
      · -- a deposit that is still to be answered has its request waiting for it
        obtain ⟨info₁, h₁, hdeposit⟩ := hp.deposit_pending hm ho (by rw [hr]; rfl)
        rw [h₀] at h₁
        cases h₁
        rw [hpending] at hdeposit
        contradiction
      · have hreply : refundReply info.details r = true := by injection hs
        rw [hdetails, hp.refundReply_eq hm hr ho h₀] at hreply
        exact ⟨id, World.refunded_iff.mpr ⟨_, hm', ho, hreply⟩⟩
  | requested _ hstatus | depositCompleted _ _ _ hstatus | bridgeAnswered _ _ _ hstatus
  | bridging _ _ _ hstatus | refunding _ _ _ hstatus => rw [hstatus] at hs; contradiction

/-- The hook of a deposit does not panic while its request is tracked. -/
theorem deposit_hook {k : MessageId} {m : Message} {r : Reply} {info : MessageInfo}
    (hi : w.tracker.messageInfo k = some info) (hr : runHook prog w m r = none) :
    m.origin ≠ .deposit k := by
  intro hk
  rw [runHook, hk, Option.map_eq_none_iff] at hr
  exact handleReplyHook_ne_none hi r hr

theorem Backed.bridging_step (hf : Fresh w) (hp : Phases prog w) (hb : Backed prog w)
    (h : Effect prog w a w') {k : MessageId} {info : MessageInfo}
    (hi : w'.tracker.messageInfo k = some info)
    (hs : info.status = .sendingMessageToBridgeBuiltin) :
    ∃ id m, w'.messages id = some m ∧ m.origin = .builtin k ∧ m.delivery.unanswered = true := by
  cases h.status_step hf hp hi with
  | kept hsame =>
      obtain ⟨id, m, hm, ho, hu⟩ := hb.bridging hsame hs
      rcases h.unanswered_step hf hm hu with ⟨m', hm', hlater, hu'⟩ | rfl
      · exact ⟨id, m', hm', hlater.origin.trans ho, hu'⟩
      · -- the reply is recorded, so the status would have changed
        cases h with
        | quiet _ hmessages => exact ⟨id, m, (hmessages id).trans hm, ho, hu⟩
        | answerIgnored hm₁ =>
            have hhooked := hb.hooked hm (.inr ho)
            grind
        | hookPanicked hm₁ _ hhook =>
            rw [hm] at hm₁
            cases hm₁
            exact absurd ho (builtin_hook hsame hhook)
        | _ => simp at hi; grind
  | bridging _ _ _ _ hm ho hsent => exact ⟨_, _, hm, ho, by rw [hsent]; rfl⟩
  | requested _ hstatus | depositCompleted _ _ _ hstatus | returnCompleted _ _ _ hstatus
  | bridgeAnswered _ _ _ hstatus | refunding _ _ _ hstatus => rw [hstatus] at hs; contradiction

theorem Backed.answered_step (hf : Fresh w) (hp : Phases prog w) (hb : Backed prog w)
    (h : Effect prog w a w') {id k : MessageId} {m : Message} {info : MessageInfo}
    (hm : w'.messages id = some m) (hk : m.origin = .deposit k)
    (hu : m.delivery.unanswered = false) (hi : w'.tracker.messageInfo k = some info) :
    info.status ≠ .sendingMessageToDepositTokens ∧
      ∀ b, info.status = .tokenDepositCompleted b → m.delivery.succeeded = b := by
  have hanswered := @hb.answered
  have hne := @hf.origin_ne
  cases h with
  | quiet => grind
  | depositCompleted =>
      have hreply := @hb.depositReply_isSuccess _ _ hp
      have hunique := @hp.deposit_unique
      have hrefund := @hp.refund_tracked
      simp at hm hi
      grind
  | answerIgnored =>
      have hhooked := @hb.hooked
      have hpending := @hp.deposit_pending
      simp at hm hi
      grind
  | hookPanicked _ _ hhook =>
      simp only [World.deliver_messages, World.deliver_tracker] at hm hi
      have hpanic := deposit_hook hi hhook
      grind
  | _ => simp at hm hi; grind

/-- Only a bridged request is given up. -/
theorem Effect.untracked_cases (h : Effect prog w a w') {k : MessageId}
    (hi : w'.tracker.messageInfo k = none) :
    w.tracker.messageInfo k = none ∨ ∃ info nonce, w.tracker.messageInfo k = some info ∧
      info.status = .bridgeResponseReceived (some nonce) := by
  cases h with
  | quiet => grind
  | @bridged _ _ _ _ _ l _ _ _ _ hj hs =>
      simp only [World.finish_tracker, World.withTracker_tracker,
        MessageTracker.messageInfo_removeMessageInfo] at hi
      split at hi
      · next hk => exact .inr ⟨_, _, hk ▸ hj, hs⟩
      · exact .inl hi
  | _ => simp at hi; grind [MessageTracker.messageInfo_updateMessageStatus_none]

/-! ## what is sent -/

/-- How a message sent in a step came about. -/
inductive Posted (prog : Program) (w w' : World) (m : Message) : Prop
  | deposit {d : TxDetails} {info : MessageInfo} (message : m = depositMessage prog w.nextId d)
      (tracked : w'.tracker.messageInfo w.nextId = some info)
  | builtin {e : MessageId} {x : Execution} {l : RequestLocals} {info : MessageInfo}
      (message : m = builtinMessage w.state w.config l) (exec : w.executions e = some x)
      (wait : x.wait = .deposit l) (tracked : w.tracker.messageInfo l.msgId = some info)
      (status : info.status = .tokenDepositCompleted true)
  | refund {k : MessageId} {info : MessageInfo} {hooked : Bool}
      (message : m = refundMessage prog k info.details hooked)
      (tracked : w.tracker.messageInfo k = some info) (deposited : info.status.deposited = true)
  | receipt {key : TxKey} (origin : m.origin = .receipt key)

/-- A new message is the one that was put on its way. -/
theorem eq_of_update {messages : MessageId → Option Message} {id id' : MessageId} {m m' : Message}
    (hnew : messages id = none) (hm : Function.update messages id' (some m') id = some m) :
    m = m' := by
  rw [Function.update_apply] at hm
  split at hm
  · exact (Option.some.inj hm).symm
  · rw [hnew] at hm
    contradiction

/-- Delivering a message sends none. -/
theorem not_new_of_update {messages : MessageId → Option Message} {id id' : MessageId}
    {m m₁ m' : Message} (hnew : messages id = none) (hm₁ : messages id' = some m₁)
    (hm : Function.update messages id' (some m') id = some m) : False := by
  rw [Function.update_apply] at hm
  split at hm
  · next hid =>
      rw [hid, hm₁] at hnew
      contradiction
  · rw [hnew] at hm
    contradiction

/-- **Inversion for messages.** -/
theorem Effect.posted (h : Effect prog w a w') (hf : Fresh w) (hp : Phases prog w)
    {id : MessageId} {m : Message} (hnew : w.messages id = none) (hm : w'.messages id = some m) :
    Posted prog w w' m := by
  cases h with
  | quiet _ hmessages =>
      rw [hmessages id, hnew] at hm
      contradiction
  | requested =>
      exact .deposit (eq_of_update hnew hm)
        ((MessageTracker.messageInfo_insertMessageInfo ..).trans (if_pos rfl))
  | recoveryUnsent | bridged | signalled => simp [hnew] at hm
  | recoveryUnhooked hj hr | recovery hj hr =>
      exact .refund (eq_of_update hnew hm) hj (MessageStatus.deposited_of_recoverable hr)
  | submitUnhooked | submit => exact .receipt (by rw [eq_of_update hnew hm]; rfl)
  | executed hm₁ | depositCompleted hm₁ | returnCompleted hm₁ | bridgeAnswered hm₁
  | answerIgnored hm₁ | receiptAnswered hm₁ | hookPanicked hm₁ =>
      exact (not_new_of_update hnew hm₁ hm).elim
  | bridging hx hl hj hs => exact .builtin (eq_of_update hnew hm) hx hl hj hs
  | refundUnbridged hx hl hj hs =>
      obtain ⟨hid, info, hinfo, hdetails⟩ := hf.deposit_tracked hx hl
      rw [← hid, hj] at hinfo
      cases hinfo
      exact .refund (hdetails ▸ eq_of_update hnew hm) hj (by rw [hs]; rfl)
  | refundFailed hx hl =>
      obtain ⟨hid, info, hinfo, hdetails⟩ := hf.builtin_tracked hx hl
      have hd := MessageStatus.deposited_of_not_depositing (hp.builtin_wait hx hl hinfo)
      exact .refund (hdetails ▸ eq_of_update hnew hm) (hid ▸ hinfo) hd

theorem Backed.untracked_step (hf : Fresh w) (hp : Phases prog w) (hb : Backed prog w)
    (h : Effect prog w a w') {id k : MessageId} {m : Message} (hm : w'.messages id = some m)
    (hk : m.origin = .deposit k) (hi : w'.tracker.messageInfo k = none) :
    ∃ id, w'.bridged k id = true := by
  have hbridged : ∃ id, w.bridged k id = true := by
    rcases h.untracked_cases hi with hnone | ⟨info, nonce, hinfo, hs⟩
    · cases hold : w.messages id with
      | some m₀ =>
          obtain ⟨m', hm', hlater⟩ := h.message_later hf hold
          rw [hm] at hm'
          cases hm'
          exact hb.untracked hold (hlater.origin ▸ hk) hnone
      | none =>
          -- a new deposit is tracked
          cases h.posted hf hp hold hm with
          | deposit hmessage htracked =>
              rw [hmessage] at hk
              cases hk
              rw [hi] at htracked
              contradiction
          | builtin hmessage => rw [hmessage] at hk; contradiction
          | refund hmessage => rw [hmessage] at hk; contradiction
          | receipt horigin => rw [horigin] at hk; contradiction
    · exact hb.queued hinfo hs
  obtain ⟨id', hid'⟩ := hbridged
  exact ⟨id', World.bridged_step hf h hid'⟩

theorem Backed.step (hf : Fresh w) (hp : Phases prog w) (hb : Backed prog w)
    (h : Effect prog w a w') : Backed prog w' where
  call := Backed.call_step hf hb h
  deposited := Backed.deposited_step hf hp hb h
  answered := Backed.answered_step hf hp hb h
  untracked := Backed.untracked_step hf hp hb h
  hooked := hb.hooked_step h
  bridging := Backed.bridging_step hf hp hb h
  queued := Backed.queued_step hf hp hb h
  returned := Backed.returned_step hf hp hb h

/-! ## what a request was made with -/

/-- Request `k` was made, once, by a `request_bridging` call with these details, and the
token was mapped to `ethTokenId` then. -/
def Requested (past : List (World × Action)) (k : MessageId) (d : TxDetails) (ethTokenId : H160) :
    Prop :=
  ∃ w₀ args sendOk supply, (w₀, Action.requestBridging args sendOk) ∈ past ∧ w₀.nextId = k ∧
    (∀ w₁ args₁ sendOk₁, (w₁, Action.requestBridging args₁ sendOk₁) ∈ past → w₁.nextId = k →
      w₁ = w₀ ∧ args₁ = args) ∧
    d = ⟨args.varaTokenId, args.sender, args.amount, args.receiver, supply⟩ ∧
    w₀.state.tokenMap.getEthTokenId args.varaTokenId = .ok ethTokenId ∧
    w₀.state.tokenMap.getSupplyType args.varaTokenId = .ok supply

theorem Requested.cons {past : List (World × Action)} {k : MessageId} {d : TxDetails}
    {ethTokenId : H160} (h : Requested past k d ethTokenId) (hk : k < w.nextId) (a : Action) :
    Requested ((w, a) :: past) k d ethTokenId := by
  obtain ⟨w₀, args, sendOk, supply, hmem, hid, hunique, hrest⟩ := h
  refine ⟨w₀, args, sendOk, supply, List.mem_cons_of_mem _ hmem, hid, ?_, hrest⟩
  intro w₁ args₁ sendOk₁ hmem₁ hid₁
  rcases List.mem_cons.mp hmem₁ with hnew | hold
  · cases hnew
    exact absurd hid₁ (Nat.ne_of_gt hk)
  · exact hunique w₁ args₁ sendOk₁ hold hid₁

/-- What is known of a request is what it was made with. -/
structure Traced (past : List (World × Action)) (w : World) : Prop where
  ids : ∀ {w₀ args sendOk}, (w₀, Action.requestBridging args sendOk) ∈ past → w₀.nextId < w.nextId
  tracked : ∀ {k info}, w.tracker.messageInfo k = some info →
    ∃ ethTokenId, Requested past k info.details ethTokenId
  locals : ∀ {e x l}, w.executions e = some x → x.wait.request? = some l →
    Requested past e l.details l.ethTokenId

theorem Traced.seed (config : InitConfig) (actorId : ActorId) :
    Traced [] (.seed config actorId) := by
  constructor <;> simp [World.seed]

theorem nextId_le_of_effect (h : Effect prog w a w') : w.nextId ≤ w'.nextId := by
  cases h with
  | quiet _ _ _ hnext => exact hnext
  | requested | recoveryUnhooked | recovery | submitUnhooked | submit =>
      exact Nat.le_add_right w.nextId 2
  | recoveryUnsent | bridging | refundUnbridged | refundFailed => exact Nat.le_succ w.nextId
  | _ => exact le_rfl

/-- A `request_bridging` call uses up an id. -/
theorem nextId_lt_of_request {args : RequestArgs} {sendOk : Bool}
    (h : step prog w (.requestBridging args sendOk) = some w') : w.nextId < w'.nextId := by
  simp only [step, requestBridging, World.bump_state, World.bump_config] at h
  split at h
  · cases h; exact Nat.lt_succ_self _
  split at h
  · contradiction
  split at h
  · cases h; exact Nat.lt_succ_self _
  split at h
  · cases h; exact Nat.lt_succ_self _
  split at h
  · contradiction
  · next hsend =>
      cases h
      rcases World.sendForReply_cases hsend with ⟨-, hr⟩ | ⟨-, -, e, hr⟩ | ⟨-, -, hw, -⟩
      · contradiction
      · contradiction
      · subst hw
        exact Nat.lt_add_of_pos_right (by decide : 0 < 2)

theorem Traced.ids_step {past : List (World × Action)} (ht : Traced past w)
    (h : step prog w a = some w') {w₀ : World} {args : RequestArgs} {sendOk : Bool}
    (hmem : (w₀, Action.requestBridging args sendOk) ∈ (w, a) :: past) : w₀.nextId < w'.nextId := by
  rcases List.mem_cons.mp hmem with hnew | hold
  · cases hnew
    exact nextId_lt_of_request h
  · exact Nat.lt_of_lt_of_le (ht.ids hold) (nextId_le_of_effect (step_effect h))

/-- The request made in this step. -/
theorem requested_new {past : List (World × Action)} (ht : Traced past w) {args : RequestArgs}
    {sendOk : Bool} {supply : TokenSupply} {ethTokenId : H160} {d : TxDetails}
    (hd : d = ⟨args.varaTokenId, args.sender, args.amount, args.receiver, supply⟩)
    (heth : w.state.tokenMap.getEthTokenId args.varaTokenId = .ok ethTokenId)
    (hsupply : w.state.tokenMap.getSupplyType args.varaTokenId = .ok supply) :
    Requested ((w, .requestBridging args sendOk) :: past) w.nextId d ethTokenId := by
  refine ⟨w, args, sendOk, supply, List.mem_cons_self, rfl, ?_, hd, heth, hsupply⟩
  intro w₁ args₁ sendOk₁ hmem hid
  rcases List.mem_cons.mp hmem with hnew | hold
  · cases hnew
    exact ⟨rfl, rfl⟩
  · exact absurd hid (Nat.ne_of_lt (ht.ids hold))

theorem Traced.tracked_step {past : List (World × Action)} (hf : Fresh w) (hp : Phases prog w)
    (ht : Traced past w) (h : Effect prog w a w') {k : MessageId} {info : MessageInfo}
    (hi : w'.tracker.messageInfo k = some info) :
    ∃ ethTokenId, Requested ((w, a) :: past) k info.details ethTokenId := by
  have hold : ∀ {info₀}, w.tracker.messageInfo k = some info₀ → info.details = info₀.details →
      ∃ ethTokenId, Requested ((w, a) :: past) k info.details ethTokenId := by
    intro info₀ h₀ hdetails
    obtain ⟨ethTokenId, hr⟩ := ht.tracked h₀
    exact ⟨ethTokenId, hdetails ▸ hr.cons (hf.tracker_lt h₀) a⟩
  cases h.status_step hf hp hi with
  | kept hsame => exact hold hsame rfl
  | requested hk =>
      subst hk
      have hnone : w.tracker.messageInfo w.nextId = none := by
        by_contra hne
        obtain ⟨info₀, h₀⟩ := Option.ne_none_iff_exists'.mp hne
        exact Nat.lt_irrefl _ (hf.tracker_lt h₀)
      cases h with
      | requested hd heth hsupply =>
          rw [World.suspend_tracker, World.post_tracker, World.withTracker_tracker,
            MessageTracker.messageInfo_insertMessageInfo, if_pos rfl] at hi
          cases hi
          exact ⟨_, requested_new ht hd heth hsupply⟩
      | quiet htracker => rw [htracker, hnone] at hi; contradiction
      | _ => simp at hi; grind
  | depositCompleted h₀ hdetails | returnCompleted h₀ hdetails | bridgeAnswered h₀ hdetails
  | bridging h₀ hdetails | refunding h₀ hdetails => exact hold h₀ hdetails

theorem Traced.locals_step {past : List (World × Action)} (hf : Fresh w)
    (ht : Traced past w) (h : Effect prog w a w') {e : MessageId} {x : Execution}
    {l : RequestLocals} (hx : w'.executions e = some x) (hl : x.wait.request? = some l) :
    Requested ((w, a) :: past) e l.details l.ethTokenId := by
  have hold : ∀ {x₀}, w.executions e = some x₀ → x₀.wait.request? = some l →
      Requested ((w, a) :: past) e l.details l.ethTokenId := fun h₀ hl₀ =>
    (ht.locals h₀ hl₀).cons (hf.execution_lt h₀) a
  cases h with
  | quiet _ _ _ _ hexec => exact hold (hexec e x hx) hl
  | requested hd heth hsupply =>
      simp only [World.suspend_executions, World.post_executions, World.withTracker_executions,
        World.bump_executions, Function.update_apply] at hx
      split at hx
      · next he =>
          cases hx
          cases hl
          rw [he]
          exact requested_new ht hd heth hsupply
      · exact hold hx hl
  | _ => simp at hx; grind

theorem Traced.step {past : List (World × Action)} (hf : Fresh w) (hp : Phases prog w)
    (ht : Traced past w) (h : step prog w a = some w') : Traced ((w, a) :: past) w' where
  ids := ht.ids_step h
  tracked := Traced.tracked_step hf hp ht (step_effect h)
  locals := Traced.locals_step hf ht (step_effect h)

theorem backed_of_history {past : List (World × Action)}
    (h : History (step prog) Seeded past w) :
    Fresh w ∧ Phases prog w ∧ Backed prog w ∧ Traced past w := by
  refine History.invariant
    (I := fun past w => Fresh w ∧ Phases prog w ∧ Backed prog w ∧ Traced past w) ?_ ?_ h
  · rintro s ⟨config, actorId, rfl⟩
    exact ⟨.seed config actorId, .seed config actorId, .seed config actorId, .seed config actorId⟩
  · rintro past s a s' ⟨hf, hp, hb, ht⟩ hstep
    have heffect := step_effect hstep
    exact ⟨hf.step heffect, Phases.step hf hp heffect, Backed.step hf hp hb heffect,
      Traced.step hf hp ht hstep⟩

/-! ## no deposit is lost -/

/-- No message sent for the request is on its way, nor is a reply to one. -/
def World.settled (w : World) (k : MessageId) : Prop :=
  ∀ id m, w.messages id = some m → m.origin.msgId? = some k → m.delivery.unanswered = false

/-- Message `id` is the deposit of the request, and it has been executed successfully. -/
def World.deposited (w : World) (msgId id : MessageId) : Bool :=
  (w.messages id).any fun m => decide (m.origin = .deposit msgId) && m.delivery.succeeded

theorem World.deposited_iff {msgId id : MessageId} : w.deposited msgId id = true ↔
    ∃ m, w.messages id = some m ∧ m.origin = .deposit msgId ∧ m.delivery.succeeded = true := by
  simp [deposited, Option.any_eq_true]

/-- The statuses of a deposited request for which nothing is in flight. -/
theorem Backed.settled_cases (hb : Backed prog w) {k id : MessageId} {m : Message}
    {info : MessageInfo} (hm : w.messages id = some m) (hk : m.origin = .deposit k)
    (hs : m.delivery.succeeded = true) (hsettled : w.settled k)
    (hi : w.tracker.messageInfo k = some info) :
    (∃ id, w.bridged k id = true) ∨ (∃ id, w.refunded k id = true) ∨
      ∃ t, enterRecovery w.tracker k info.status = some t := by
  obtain ⟨hsending, hcompleted⟩ := hb.answered hm hk (hsettled id m hm (by rw [hk]; rfl)) hi
  cases hst : info.status with
  | sendingMessageToDepositTokens => exact absurd hst hsending
  | tokenDepositCompleted b =>
      have hsb := hcompleted b hst
      rw [hs] at hsb
      subst hsb
      exact .inr (.inr ⟨_, rfl⟩)
  | sendingMessageToBridgeBuiltin =>
      obtain ⟨id', m', hm', hk', hu'⟩ := hb.bridging hi hst
      rw [hsettled id' m' hm' (by rw [hk']; rfl)] at hu'
      contradiction
  | bridgeResponseReceived nonce =>
      cases nonce with
      | none => exact .inr (.inr ⟨_, rfl⟩)
      | some nonce => exact .inl (hb.queued hi hst)
  | sendingMessageToReturnTokens => exact .inr (.inr ⟨_, rfl⟩)
  | tokensReturnComplete b =>
      cases b with
      | false => exact .inr (.inr ⟨_, rfl⟩)
      | true => exact .inr (.inl (hb.returned hi hst))

/-- **No deposit is lost**: in every run, when the deposit of a request has succeeded and
nothing sent for the request is in flight, the bridge builtin has queued its message, or a
refund has been executed, or the tracker holds the request as it was made in a status that
the recovery goes on from. -/
theorem deposit_recoverable (prog : Program) (past : List (World × Action)) (w : World)
    (h : History (step prog) Seeded past w) (k id : MessageId) (hd : w.deposited k id = true)
    (hsettled : w.settled k) :
    (∃ id, w.bridged k id = true) ∨ (∃ id, w.refunded k id = true) ∨
      ∃ info ethTokenId t, w.tracker.messageInfo k = some info ∧
        Requested past k info.details ethTokenId ∧
        enterRecovery w.tracker k info.status = some t := by
  obtain ⟨-, -, hb, ht⟩ := backed_of_history h
  obtain ⟨m, hm, hk, hs⟩ := World.deposited_iff.mp hd
  cases hi : w.tracker.messageInfo k with
  | none => exact .inl (hb.untracked hm hk hi)
  | some info =>
      rcases hb.settled_cases hm hk hs hsettled hi with hbridged | hrefunded | ⟨t, henter⟩
      · exact .inl hbridged
      · exact .inr (.inl hrefunded)
      · obtain ⟨ethTokenId, hrequested⟩ := ht.tracked hi
        exact .inr (.inr ⟨info, ethTokenId, t, rfl, hrequested, henter⟩)

/-- No message up to the next id is in flight for the request. -/
def World.settledBelow (w : World) (k : MessageId) : Bool :=
  (List.range w.nextId).all fun id =>
    (w.messages id).all fun m => decide (m.origin.msgId? = some k → m.delivery.unanswered = false)

theorem World.settled_of_settledBelow (hf : Fresh w) {k : MessageId}
    (h : w.settledBelow k = true) : w.settled k := by
  intro id m hm ho
  have hid := List.all_eq_true.mp h id (List.mem_range.mpr (hf.message_lt hm))
  rw [hm, Option.all_some, decide_eq_true_eq] at hid
  exact hid ho

/-- The interrupted request can be recovered. -/
theorem deposit_recoverable_interrupted : ∃ past w, History (step (.deployed 3)) Seeded past w ∧
    ((∃ id, w.bridged 1 id = true) ∨ (∃ id, w.refunded 1 id = true) ∨
      ∃ info ethTokenId t, w.tracker.messageInfo 1 = some info ∧
        Requested past 1 info.details ethTokenId ∧
        enterRecovery w.tracker 1 info.status = some t) := by
  obtain ⟨past, w, hw, hr⟩ := exists_history_of_exec (step (.deployed 3)) sampleSeed_seeded
    interruptedRequest
    (fun w => w.settledBelow 1 && w.deposited 1 2) (by decide +kernel)
  rw [Bool.and_eq_true] at hr
  obtain ⟨hf, -⟩ := backed_of_history hw
  exact ⟨past, w, hw, deposit_recoverable _ past w hw 1 2 hr.2
    (World.settled_of_settledBelow hf hr.1)⟩

/-! ## refunds and bridge messages are backed -/

/-- **Refunds and bridge messages are backed**: in every run, a refund and a message to the
bridge builtin are sent only after the `VFT` program has answered the deposit of their
request with success, and they carry what the request was made with. -/
theorem sent_backed (prog : Program) (past : List (World × Action)) (w w' : World) (a : Action)
    (h : History (step prog) Seeded past w) (hstep : step prog w a = some w') (k id : MessageId)
    (m : Message) (hnew : w.messages id = none) (hm : w'.messages id = some m)
    (hk : m.origin = .refund k ∨ m.origin = .builtin k) :
    ∃ d ethTokenId, Requested past k d ethTokenId ∧ DepositAnswered prog w k d ∧
      (m.origin = .refund k → m.destination = d.varaTokenId ∧ m.call = refundCall prog d) ∧
      (m.origin = .builtin k → m.destination = w.state.gearBridgeBuiltin ∧
        m.call = .sendEthMessage w.state.erc20ManagerAddress
          (Payload.pack ⟨d.receiver, ethTokenId, d.amount⟩)) := by
  obtain ⟨hf, hp, hb, ht⟩ := backed_of_history h
  cases (step_effect hstep).posted hf hp hnew hm with
  | deposit hmessage => subst hmessage; simp [depositMessage] at hk
  | receipt horigin => simp [horigin] at hk
  | @refund j info hooked hmessage hi hd =>
      subst hmessage
      obtain rfl : j = k := by simpa [refundMessage] using hk
      obtain ⟨ethTokenId, hrequested⟩ := ht.tracked hi
      exact ⟨info.details, ethTokenId, hrequested, hb.deposited hi hd, fun _ => ⟨rfl, rfl⟩,
        fun ho => by simp [refundMessage] at ho⟩
  | @builtin e x l info hmessage hx hl hi hs =>
      subst hmessage
      obtain rfl : l.msgId = k := by simpa [builtinMessage] using hk
      obtain ⟨hid, info', hi', hdetails⟩ := hf.deposit_tracked hx hl
      rw [← hid, hi] at hi'
      cases hi'
      have hrequested := ht.locals hx (by rw [hl]; rfl)
      rw [← hid] at hrequested
      have hanswered := hb.deposited hi (by rw [hs]; rfl)
      rw [hdetails] at hanswered
      exact ⟨l.details, l.ethTokenId, hrequested, hanswered,
        fun ho => by simp [builtinMessage] at ho, fun _ => ⟨rfl, rfl⟩⟩

/-- The refund that the recovery sends for the interrupted request. -/
theorem sent_backed_interrupted : ∃ past w w' m, History (step (.deployed 3)) Seeded past w ∧
    step (.deployed 3) w (.handleInterruptedTransfer 1 true) = some w' ∧
    w'.messages 4 = some m ∧ m.origin = .refund 1 ∧
    ∃ d ethTokenId, Requested past 1 d ethTokenId ∧ DepositAnswered (.deployed 3) w 1 d := by
  obtain ⟨past, w, hw, hr⟩ := exists_history_of_exec (step (.deployed 3)) sampleSeed_seeded
    interruptedRequest
    (fun w => decide (w.messages 4 = none) &&
      ((step (.deployed 3) w (.handleInterruptedTransfer 1 true)).any fun w' =>
        (w'.messages 4).any fun m => decide (m.origin = .refund 1))) (by decide +kernel)
  simp only [Bool.and_eq_true, decide_eq_true_eq, Option.any_eq_true] at hr
  obtain ⟨hnew, w', hstep, m, hm, ho⟩ := hr
  obtain ⟨d, ethTokenId, hrequested, hanswered, -⟩ :=
    sent_backed _ past w w' _ hw hstep 1 4 m hnew hm (.inl ho)
  exact ⟨past, w, w', m, hw, hstep, hm, ho, d, ethTokenId, hrequested, hanswered⟩

end GearBridges.VftManager
