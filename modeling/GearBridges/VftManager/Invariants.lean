import GearBridges.VftManager.System

/-!
# VftManager.Invariants

What holds in every world the program can reach, whatever the order of calls,
replies, timeouts and traps:

* `Fresh` — ids in use have been given out, and a `request_bridging` execution
  is tracked under its own id;
* `Phases` — the status of a request says which of its messages exist: an
  unanswered deposit means `SendingMessageToDepositTokens`, a refund means one of
  the two refund statuses.
-/

namespace GearBridges.VftManager

open Transition

/-! ## vocabulary -/

/-- The request a message was sent for. -/
def Origin.msgId? : Origin → Option MessageId
  | .deposit k | .builtin k | .refund k => some k
  | .receipt _ => none

/-- Local variables of a request that has not entered its refund branch. -/
def Wait.request? : Wait → Option RequestLocals
  | .deposit l | .builtin l => some l
  | _ => none

/-- The phase before the bridge builtin is called. -/
def MessageStatus.depositing : MessageStatus → Bool
  | .sendingMessageToDepositTokens | .tokenDepositCompleted _ => true
  | _ => false

attribute [grind =] Function.update_apply
  MessageTracker.messageInfo_insertMessageInfo MessageTracker.messageInfo_updateMessageStatus
  MessageTracker.messageInfo_updateMessageStatus_some MessageTracker.messageInfo_removeMessageInfo
attribute [grind] Origin.msgId? Wait.request? MessageStatus.depositing MessageStatus.refunding
  MessageStatus.recoverable Delivery.unanswered Delivery.reply? Delivery.succeeded
  depositMessage builtinMessage refundMessage receiptMessage

variable {prog : Program} {w w' : World} {a : Action}

/-! ## ids -/

/-- Ids in use have been given out before, and a request is tracked under the id
of its execution for as long as that waits for the deposit or for the builtin. -/
structure Fresh (w : World) : Prop where
  message_lt : ∀ {id m}, w.messages id = some m → id < w.nextId
  origin_lt : ∀ {id m k}, w.messages id = some m → m.origin.msgId? = some k → k < w.nextId
  tracker_lt : ∀ {k info}, w.tracker.messageInfo k = some info → k < w.nextId
  execution_lt : ∀ {e x}, w.executions e = some x → e < w.nextId
  request_tracked : ∀ {e x l}, w.executions e = some x → x.wait.request? = some l →
    l.msgId = e ∧ ∃ info, w.tracker.messageInfo e = some info ∧ info.details = l.details

theorem Fresh.seed (config : InitConfig) (actorId : ActorId) : Fresh (.seed config actorId) := by
  constructor <;> simp [World.seed]

theorem Fresh.message_lt_step (hf : Fresh w) (h : Effect prog w a w') {id : MessageId}
    {m : Message} (hm : w'.messages id = some m) : id < w'.nextId := by
  have hlt := @hf.message_lt
  cases h with
  | quiet => grind
  | _ => simp at hm ⊢; grind

theorem Fresh.origin_lt_step (hf : Fresh w) (h : Effect prog w a w') {id k : MessageId}
    {m : Message} (hm : w'.messages id = some m) (hk : m.origin.msgId? = some k) :
    k < w'.nextId := by
  have hlt := @hf.origin_lt
  have htracked := @hf.tracker_lt
  have hrequest := @hf.request_tracked
  cases h with
  | quiet => grind
  | _ => simp at hm ⊢; grind

theorem Fresh.tracker_lt_step (hf : Fresh w) (h : Effect prog w a w') {k : MessageId}
    {info : MessageInfo} (hk : w'.tracker.messageInfo k = some info) : k < w'.nextId := by
  have hlt := @hf.tracker_lt
  cases h with
  | quiet => grind
  | _ => simp at hk ⊢; grind

theorem Fresh.execution_lt_step (hf : Fresh w) (h : Effect prog w a w') {e : MessageId}
    {x : Execution} (hx : w'.executions e = some x) : e < w'.nextId := by
  have hlt := @hf.execution_lt
  cases h with
  | quiet => grind
  | _ => simp at hx ⊢; grind

theorem Fresh.request_tracked_step (hf : Fresh w) (h : Effect prog w a w') {e : MessageId}
    {x : Execution} {l : RequestLocals} (hx : w'.executions e = some x)
    (hl : x.wait.request? = some l) :
    l.msgId = e ∧ ∃ info, w'.tracker.messageInfo e = some info ∧ info.details = l.details := by
  have htracked := @hf.request_tracked
  have hlt := @hf.execution_lt
  cases h with
  | quiet => grind
  | requested =>
      simp only [World.suspend_executions, World.suspend_tracker, World.post_tracker,
        World.withTracker_tracker, World.post_executions, World.withTracker_executions,
        World.bump_executions, Function.update_apply,
        MessageTracker.messageInfo_insertMessageInfo] at hx ⊢
      split at hx
      · rename_i he
        cases hx
        cases hl
        exact ⟨he.symm, _, if_pos he, rfl⟩
      · rename_i he
        obtain ⟨hle, info, hinfo, hd⟩ := htracked hx hl
        exact ⟨hle, info, by rw [if_neg he, hinfo], hd⟩
  | _ => simp at hx ⊢; grind

theorem Fresh.step (hf : Fresh w) (h : Effect prog w a w') : Fresh w' where
  message_lt := hf.message_lt_step h
  origin_lt := hf.origin_lt_step h
  tracker_lt := hf.tracker_lt_step h
  execution_lt := hf.execution_lt_step h
  request_tracked := hf.request_tracked_step h

theorem Fresh.deposit_tracked (hf : Fresh w) {e : MessageId} {x : Execution} {l : RequestLocals}
    (hx : w.executions e = some x) (hl : x.wait = .deposit l) :
    l.msgId = e ∧ ∃ info, w.tracker.messageInfo e = some info ∧ info.details = l.details :=
  hf.request_tracked hx (by rw [hl, Wait.request?])

theorem Fresh.builtin_tracked (hf : Fresh w) {e : MessageId} {x : Execution} {l : RequestLocals}
    (hx : w.executions e = some x) (hl : x.wait = .builtin l) :
    l.msgId = e ∧ ∃ info, w.tracker.messageInfo e = some info ∧ info.details = l.details :=
  hf.request_tracked hx (by rw [hl, Wait.request?])

/-- A new request uses an id that no message speaks of. -/
theorem Fresh.origin_ne (hf : Fresh w) {id : MessageId} {m : Message}
    (hm : w.messages id = some m) : m.origin.msgId? ≠ some w.nextId := fun h =>
  absurd (hf.origin_lt hm h) (Nat.lt_irrefl _)

/-- The message `m` later on: it stays what it is, and an answer that it has got is kept. -/
structure Message.Later (m m' : Message) : Prop where
  destination : m'.destination = m.destination
  call : m'.call = m.call
  origin : m'.origin = m.origin
  hooked : m'.hooked = m.hooked
  succeeded : m.delivery.succeeded = true → m'.delivery.succeeded = true
  processed : ∀ r, m.delivery = .processed r → m'.delivery = .processed r

theorem Message.Later.refl (m : Message) : m.Later m := ⟨rfl, rfl, rfl, rfl, id, fun _ => id⟩

theorem Message.later_executed {m : Message} (h : m.delivery = .sent) (r : Reply) :
    m.Later { m with delivery := .executed r } := by
  refine ⟨rfl, rfl, rfl, rfl, ?_, ?_⟩ <;> simp [h, Delivery.succeeded, Delivery.reply?]

theorem Message.later_answered {m : Message} {r : Reply} (h : m.delivery = .executed r)
    {d : Delivery} (hd : d = .processed r ∨ d = .trapped r) :
    m.Later { m with delivery := d } := by
  refine ⟨rfl, rfl, rfl, rfl, ?_, ?_⟩
  · rcases hd with rfl | rfl <;> simp [h]
  · simp [h]

/-- Delivering one message leaves the others as they are. -/
theorem later_update {messages : MessageId → Option Message} {id id' : MessageId}
    {m m₁ m₂ : Message} (hm : messages id = some m) (hm₁ : messages id' = some m₁)
    (h : m₁.Later m₂) :
    ∃ m', Function.update messages id' (some m₂) id = some m' ∧ m.Later m' := by
  by_cases hid : id = id'
  · subst hid
    rw [hm] at hm₁
    cases hm₁
    exact ⟨m₂, Function.update_self .., h⟩
  · exact ⟨m, (Function.update_of_ne hid ..).trans hm, .refl m⟩

theorem Effect.message_later (h : Effect prog w a w') (hf : Fresh w) {id : MessageId} {m : Message}
    (hm : w.messages id = some m) : ∃ m', w'.messages id = some m' ∧ m.Later m' := by
  have hlt := hf.message_lt hm
  cases h with
  | quiet _ hmessages => exact ⟨m, (hmessages id).trans hm, .refl m⟩
  | executed hm₁ hs => exact later_update hm hm₁ (Message.later_executed hs _)
  | depositCompleted hm₁ hr | returnCompleted hm₁ hr | bridgeAnswered hm₁ hr
  | answerIgnored hm₁ hr | receiptAnswered hm₁ hr =>
      exact later_update hm hm₁ (Message.later_answered hr (.inl rfl))
  | hookPanicked hm₁ hr => exact later_update hm hm₁ (Message.later_answered hr (.inr rfl))
  | _ =>
      refine ⟨m, ?_, .refl m⟩
      simp [Function.update_apply]
      grind

/-! ## phases of a request -/

/-- The status of a request says which of its messages exist. -/
structure Phases (prog : Program) (w : World) : Prop where
  admits : ∀ {id m r}, w.messages id = some m → m.delivery.reply? = some r →
    m.call.admits r = true
  deposit_unique : ∀ {id id' m m' k}, w.messages id = some m → w.messages id' = some m' →
    m.origin = .deposit k → m'.origin = .deposit k → id = id'
  builtin_wait : ∀ {e x l info}, w.executions e = some x → x.wait = .builtin l →
    w.tracker.messageInfo e = some info → info.status.depositing = false
  deposit_pending : ∀ {id m k}, w.messages id = some m → m.origin = .deposit k →
    m.delivery.unanswered = true →
    ∃ info, w.tracker.messageInfo k = some info ∧ info.status = .sendingMessageToDepositTokens
  refund_tracked : ∀ {id m k}, w.messages id = some m → m.origin = .refund k →
    ∃ info, w.tracker.messageInfo k = some info ∧ info.status.refunding = true ∧
      m.call = refundCall prog info.details
  hook_refunding : ∀ {e x}, w.executions e = some x → x.criticalHook = true →
    ∃ info, w.tracker.messageInfo e = some info ∧ info.status.refunding = true
  signal_refunding : ∀ {e}, e ∈ w.signals →
    ∃ info, w.tracker.messageInfo e = some info ∧ info.status.refunding = true

theorem Phases.seed (config : InitConfig) (actorId : ActorId) :
    Phases prog (.seed config actorId) := by
  constructor <;> simp [World.seed]

theorem Phases.admits_step (hp : Phases prog w) (h : Effect prog w a w') {id : MessageId}
    {m : Message} {r : Reply} (hm : w'.messages id = some m)
    (hr : m.delivery.reply? = some r) : m.call.admits r = true := by
  have hadmits := @hp.admits
  cases h with
  | quiet => grind
  | _ => simp at hm; grind

theorem Phases.deposit_unique_step (hf : Fresh w) (hp : Phases prog w) (h : Effect prog w a w')
    {id id' k : MessageId} {m m' : Message} (hm : w'.messages id = some m)
    (hm' : w'.messages id' = some m') (hk : m.origin = .deposit k)
    (hk' : m'.origin = .deposit k) : id = id' := by
  have hunique := @hp.deposit_unique
  have hne := @hf.origin_ne
  cases h with
  | quiet => grind
  | _ => simp at hm hm'; grind

theorem Phases.builtin_wait_step (hf : Fresh w) (hp : Phases prog w) (h : Effect prog w a w')
    {e : MessageId} {x : Execution} {l : RequestLocals} {info : MessageInfo}
    (hx : w'.executions e = some x) (hl : x.wait = .builtin l)
    (hi : w'.tracker.messageInfo e = some info) : info.status.depositing = false := by
  have hrequest := @hf.request_tracked
  have hlt := @hf.execution_lt
  have hwait := @hp.builtin_wait
  cases h with
  | quiet => grind
  | _ => simp at hx hi; grind

theorem Phases.deposit_pending_step (hf : Fresh w) (hp : Phases prog w) (h : Effect prog w a w')
    {id k : MessageId} {m : Message} (hm : w'.messages id = some m) (hk : m.origin = .deposit k)
    (hu : m.delivery.unanswered = true) :
    ∃ info, w'.tracker.messageInfo k = some info ∧
      info.status = .sendingMessageToDepositTokens := by
  have hrequest := @hf.request_tracked
  have hwait := @hp.builtin_wait
  have hpending := @hp.deposit_pending
  have hunique := @hp.deposit_unique
  have hrefund := @hp.refund_tracked
  have hlt := @hf.tracker_lt
  cases h with
  | quiet => grind
  | requested =>
      simp [MessageTracker.messageInfo_insertMessageInfo, Function.update_apply] at hm ⊢
      by_cases hid : id = w.nextId + 1
      · rw [if_pos hid] at hm
        cases hm
        cases hk
        exact ⟨_, if_pos rfl, rfl⟩
      · rw [if_neg hid] at hm
        obtain ⟨info, hi, hs⟩ := hpending hm hk hu
        have hne : k ≠ w.nextId := Nat.ne_of_lt (hlt hi)
        exact ⟨info, by rw [if_neg hne, hi], hs⟩
  | _ => simp at hm ⊢; grind

theorem Phases.refund_tracked_step (hf : Fresh w) (hp : Phases prog w) (h : Effect prog w a w')
    {id k : MessageId} {m : Message} (hm : w'.messages id = some m) (hk : m.origin = .refund k) :
    ∃ info, w'.tracker.messageInfo k = some info ∧ info.status.refunding = true ∧
      m.call = refundCall prog info.details := by
  have hrequest := @hf.request_tracked
  have hlt := @hf.tracker_lt
  have hpending := @hp.deposit_pending
  have hrefund := @hp.refund_tracked
  cases h with
  | quiet => grind
  | _ => simp at hm ⊢; grind

theorem Phases.hook_refunding_step (hf : Fresh w) (hp : Phases prog w) (h : Effect prog w a w')
    {e : MessageId} {x : Execution} (hx : w'.executions e = some x)
    (hc : x.criticalHook = true) :
    ∃ info, w'.tracker.messageInfo e = some info ∧ info.status.refunding = true := by
  have hdeposit := @hf.deposit_tracked
  have hbuiltin := @hf.builtin_tracked
  have hlt := @hf.tracker_lt
  have hhook := @hp.hook_refunding
  cases h with
  | quiet => grind
  | _ => simp at hx ⊢; grind

theorem Phases.signal_refunding_step (hf : Fresh w) (hp : Phases prog w) (h : Effect prog w a w')
    {e : MessageId} (he : e ∈ w'.signals) :
    ∃ info, w'.tracker.messageInfo e = some info ∧ info.status.refunding = true := by
  have hlt := @hf.tracker_lt
  have hhook := @hp.hook_refunding
  have hsignal := @hp.signal_refunding
  cases h with
  | quiet => grind
  | signalled => have := List.mem_of_mem_erase he; simp; grind
  | _ => simp at he ⊢; grind

theorem Phases.step (hf : Fresh w) (hp : Phases prog w) (h : Effect prog w a w') :
    Phases prog w' where
  admits := hp.admits_step h
  deposit_unique := Phases.deposit_unique_step hf hp h
  builtin_wait := Phases.builtin_wait_step hf hp h
  deposit_pending := Phases.deposit_pending_step hf hp h
  refund_tracked := Phases.refund_tracked_step hf hp h
  hook_refunding := Phases.hook_refunding_step hf hp h
  signal_refunding := Phases.signal_refunding_step hf hp h

theorem phases_of_reachable (h : Reachable (step prog) free Seeded w) :
    Fresh w ∧ Phases prog w := by
  refine Reachable.invariant (I := fun w => Fresh w ∧ Phases prog w) ?_ ?_ h
  · rintro s ⟨config, actorId, rfl⟩
    exact ⟨.seed config actorId, .seed config actorId⟩
  · rintro s a s' ⟨hf, hp⟩ - hstep
    have heffect := step_effect hstep
    exact ⟨hf.step heffect, Phases.step hf hp heffect⟩

end GearBridges.VftManager
