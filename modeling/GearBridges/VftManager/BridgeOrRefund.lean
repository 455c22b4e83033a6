import GearBridges.VftManager.Refunds

/-!
# VftManager.BridgeOrRefund

A request should be bridged or refunded, never both.  The timeout of the wait for
the bridge builtin says nothing about the message to the builtin, which may still
be executed; `request_bridging` refunds the request all the same
(`bridged_and_refunded`).  In runs where that wait is given up only
after the builtin has refused the message, no request is both
(`not_bridged_and_refunded`).
-/

namespace GearBridges.VftManager

open Transition

variable {prog : Program} {w w' : World} {a : Action}

/-- The destination has executed the message and refused it. -/
def Delivery.refused (d : Delivery) : Bool := d.reply?.any (!·.isSuccess)

attribute [grind] Delivery.refused

/-- Message `id` is the message to the bridge builtin of the request, and the
builtin has queued it. -/
def World.bridged (w : World) (msgId id : MessageId) : Bool :=
  (w.messages id).any fun m => decide (m.origin = .builtin msgId) && m.delivery.succeeded

theorem World.bridged_iff {msgId id : MessageId} : w.bridged msgId id = true ↔
    ∃ m, w.messages id = some m ∧ m.origin = .builtin msgId ∧ m.delivery.succeeded = true := by
  simp [bridged, Option.any_eq_true]

/-- The steps under which the wait for the bridge builtin is given up only when
the builtin has refused the message. -/
def timeoutsSettled (w : World) : Action → Bool
  | .resume e true _ _ => match w.executions e with
      | some ⟨.builtin _, awaited, _⟩ => (w.messages awaited).any (·.delivery.refused)
      | _ => true
  | _ => true

/-- The statuses that let a request be refunded after the bridge builtin was
called. -/
def MessageStatus.unbridged : MessageStatus → Bool
  | .bridgeResponseReceived none | .sendingMessageToReturnTokens | .tokensReturnComplete _ => true
  | _ => false

attribute [grind] MessageStatus.unbridged

/-- A status from which the recovery refunds a request is one of the deposit phase
or one that says that the builtin has refused. -/
theorem MessageStatus.unbridged_of_recoverable {s : MessageStatus} (h : s.recoverable = true) :
    s.depositing = true ∨ s.unbridged = true := by
  cases s with
  | tokenDepositCompleted b => exact .inl rfl
  | bridgeResponseReceived nonce => cases nonce <;> simp_all [recoverable, unbridged]
  | _ => simp_all [recoverable, unbridged]

/-! ## the invariant of guarded runs -/

/-- A request has at most one message to the bridge builtin, and a status that
lets it be refunded means that the builtin has refused that message. -/
structure BridgeSettled (w : World) : Prop where
  shape : ∀ {id m k}, w.messages id = some m → m.origin = .builtin k →
    m.hooked = true ∧ ∃ dest payload, m.call = .sendEthMessage dest payload
  unique : ∀ {id id' m m' k}, w.messages id = some m → w.messages id' = some m' →
    m.origin = .builtin k → m'.origin = .builtin k → id = id'
  phase : ∀ {id m k info}, w.messages id = some m → m.origin = .builtin k →
    w.tracker.messageInfo k = some info → info.status.depositing = false
  awaited : ∀ {e x l}, w.executions e = some x → x.wait = .builtin l →
    ∃ m, w.messages x.awaited = some m ∧ m.origin = .builtin e
  awaiting : ∀ {e x l m info}, w.executions e = some x → x.wait = .builtin l →
    w.messages x.awaited = some m → m.delivery.unanswered = true →
    w.tracker.messageInfo e = some info → info.status = .sendingMessageToBridgeBuiltin
  answered : ∀ {e x l m info}, w.executions e = some x → x.wait = .builtin l →
    w.messages x.awaited = some m → m.delivery.unanswered = false →
    m.delivery.succeeded = true → w.tracker.messageInfo e = some info →
    ∃ nonce, info.status = .bridgeResponseReceived (some nonce)
  refused : ∀ {id m k info}, w.messages id = some m → m.origin = .builtin k →
    w.tracker.messageInfo k = some info → info.status.unbridged = true →
    m.delivery.refused = true

theorem BridgeSettled.seed (config : InitConfig) (actorId : ActorId) :
    BridgeSettled (.seed config actorId) := by
  constructor <;> simp [World.seed]

theorem BridgeSettled.shape_step (hb : BridgeSettled w) (h : Effect prog w a w')
    {id k : MessageId} {m : Message} (hm : w'.messages id = some m) (hk : m.origin = .builtin k) :
    m.hooked = true ∧ ∃ dest payload, m.call = .sendEthMessage dest payload := by
  have hshape := @hb.shape
  cases h with
  | quiet => grind
  | _ => simp at hm; grind

theorem BridgeSettled.unique_step (hb : BridgeSettled w) (h : Effect prog w a w')
    {id id' k : MessageId} {m m' : Message} (hm : w'.messages id = some m)
    (hm' : w'.messages id' = some m') (hk : m.origin = .builtin k)
    (hk' : m'.origin = .builtin k) : id = id' := by
  have hunique := @hb.unique
  have hphase := @hb.phase
  cases h with
  | quiet => grind
  | _ => simp at hm hm'; grind

theorem BridgeSettled.phase_step (hf : Fresh w) (hb : BridgeSettled w) (h : Effect prog w a w')
    {id k : MessageId} {m : Message} {info : MessageInfo} (hm : w'.messages id = some m)
    (hk : m.origin = .builtin k) (hi : w'.tracker.messageInfo k = some info) :
    info.status.depositing = false := by
  have hphase := @hb.phase
  have hne := @hf.origin_ne
  cases h with
  | quiet => grind
  | _ => simp at hm hi; grind

theorem BridgeSettled.awaited_step (hf : Fresh w) (hb : BridgeSettled w) (h : Effect prog w a w')
    {e : MessageId} {x : Execution} {l : RequestLocals} (hx : w'.executions e = some x)
    (hl : x.wait = .builtin l) : ∃ m, w'.messages x.awaited = some m ∧ m.origin = .builtin e := by
  have hawaited := @hb.awaited
  have hlt := @hf.message_lt
  cases h with
  | quiet => grind
  | @bridging e₁ _ _ _ _ l₁ _ hx₁ hl₁ =>
      obtain ⟨rfl, -⟩ := hf.deposit_tracked hx₁ hl₁
      simp only [World.suspend_executions, World.post_executions, World.withTracker_executions,
        World.suspend_messages, World.post_messages, World.withTracker_messages,
        World.withTracker_nextId, Function.update_apply] at hx ⊢
      by_cases he : e = l₁.msgId
      · rw [if_pos he] at hx
        cases hx
        exact ⟨_, if_pos rfl, by rw [he]; rfl⟩
      · rw [if_neg he] at hx
        obtain ⟨m, hm, ho⟩ := hawaited hx hl
        exact ⟨m, by rw [if_neg (Nat.ne_of_lt (hlt hm)), hm], ho⟩
  | _ => simp at hx ⊢; grind

/-- A message that is awaited has been sent. -/
theorem BridgeSettled.awaited_lt (hf : Fresh w) (hb : BridgeSettled w) {e : MessageId}
    {x : Execution} {l : RequestLocals} (hx : w.executions e = some x) (hl : x.wait = .builtin l) :
    x.awaited < w.nextId := by
  obtain ⟨m, hm, -⟩ := hb.awaited hx hl
  exact hf.message_lt hm

theorem BridgeSettled.awaiting_step (hf : Fresh w) (hp : Phases prog w) (hb : BridgeSettled w)
    (h : Effect prog w a w') {e : MessageId} {x : Execution} {l : RequestLocals} {m : Message}
    {info : MessageInfo} (hx : w'.executions e = some x) (hl : x.wait = .builtin l)
    (hm : w'.messages x.awaited = some m) (hu : m.delivery.unanswered = true)
    (hi : w'.tracker.messageInfo e = some info) :
    info.status = .sendingMessageToBridgeBuiltin := by
  have hawaiting := @hb.awaiting
  cases h with
  | quiet => grind
  | requested =>
      have hexec := @hf.execution_lt
      have hlt := @hb.awaited_lt _ hf
      simp at hx hm hi
      grind
  | recoveryUnsent | recoveryUnhooked | recovery | submitUnhooked | submit =>
      have hlt := @hb.awaited_lt _ hf
      simp at hx hm hi
      grind
  | depositCompleted | returnCompleted | bridgeAnswered =>
      have hawaited := @hb.awaited
      have hunique := @hb.unique
      simp at hx hm hi
      grind
  | bridging hx₁ hl₁ | refundUnbridged hx₁ hl₁ =>
      have hlt := @hb.awaited_lt _ hf
      obtain ⟨hid, -⟩ := hf.deposit_tracked hx₁ hl₁
      simp at hx hm hi
      grind
  | refundFailed hx₁ hl₁ | bridged hx₁ hl₁ =>
      have hlt := @hb.awaited_lt _ hf
      obtain ⟨hid, -⟩ := hf.builtin_tracked hx₁ hl₁
      simp at hx hm hi
      grind
  | signalled =>
      have hsignal := @hp.signal_refunding
      simp at hx hm hi
      grind
  | _ => simp at hx hm hi; grind

/-- A successful reply of the bridge builtin says that the message was queued. -/
theorem queued_of_isSuccess {dest : H160} {payload : List UInt8} {r : Reply}
    (ha : (Call.sendEthMessage dest payload).admits r = true) (hr : r.isSuccess = true) :
    ∃ nonce, r = .ethMessageQueued nonce := by
  cases r <;> simp_all [Call.admits, Reply.isSuccess]

theorem BridgeSettled.isSuccess_iff (hp : Phases prog w) (hb : BridgeSettled w)
    {id k : MessageId} {m : Message} {r : Reply} (hm : w.messages id = some m)
    (hr : m.delivery = .executed r) (hk : m.origin = .builtin k) :
    r.isSuccess = true ↔ ∃ nonce, r = .ethMessageQueued nonce := by
  have hadmits := hp.admits hm (by rw [hr]; rfl : m.delivery.reply? = some r)
  obtain ⟨-, dest, payload, hcall⟩ := hb.shape hm hk
  rw [hcall] at hadmits
  constructor
  · exact queued_of_isSuccess hadmits
  · rintro ⟨nonce, rfl⟩
    rfl

/-- The hook of a message to the bridge builtin does not panic while its request
is tracked. -/
theorem builtin_hook {k : MessageId} {m : Message} {r : Reply} {info : MessageInfo}
    (hi : w.tracker.messageInfo k = some info) (hr : runHook prog w m r = none) :
    m.origin ≠ .builtin k := by
  intro hk
  rw [runHook, hk, Option.map_eq_none_iff] at hr
  exact handleBridgeReplyHook_ne_none hi r hr

theorem BridgeSettled.answered_step (hf : Fresh w) (hp : Phases prog w) (hb : BridgeSettled w)
    (h : Effect prog w a w') {e : MessageId} {x : Execution} {l : RequestLocals} {m : Message}
    {info : MessageInfo} (hx : w'.executions e = some x) (hl : x.wait = .builtin l)
    (hm : w'.messages x.awaited = some m) (hu : m.delivery.unanswered = false)
    (hs : m.delivery.succeeded = true) (hi : w'.tracker.messageInfo e = some info) :
    ∃ nonce, info.status = .bridgeResponseReceived (some nonce) := by
  have hanswered := @hb.answered
  cases h with
  | quiet => grind
  | requested =>
      have hexec := @hf.execution_lt
      have hlt := @hb.awaited_lt _ hf
      simp at hx hm hi
      grind
  | recoveryUnsent | recoveryUnhooked | recovery | submitUnhooked | submit =>
      have hlt := @hb.awaited_lt _ hf
      simp at hx hm hi
      grind
  | depositCompleted _ _ horigin | returnCompleted _ _ horigin =>
      have hawaited := @hb.awaited
      simp at hx hm hi
      grind
  | receiptAnswered =>
      have hawaited := @hb.awaited
      simp at hx hm hi
      grind
  | @bridgeAnswered id k m₁ r info₁ nonce hm₁ hr₁ hk₁ _ _ hnone _ =>
      have hqueued := hb.isSuccess_iff hp hm₁ hr₁ hk₁
      simp only [World.deliver_executions, World.withTracker_executions, World.deliver_messages,
        World.withTracker_messages, World.deliver_tracker, World.withTracker_tracker,
        Function.update_apply] at hx hm hi
      obtain ⟨m₀, hm₀, hk₀⟩ := hb.awaited hx hl
      by_cases hid : x.awaited = id
      · rw [if_pos hid] at hm
        cases hm
        rw [hid, hm₁] at hm₀
        cases hm₀
        rw [hk₁] at hk₀
        cases hk₀
        obtain ⟨n, rfl⟩ := hqueued.mp (by simpa using hs)
        cases nonce with
        | none => exact absurd rfl (hnone rfl n)
        | some nonce => grind
      · have hne : e ≠ k := by
          rintro rfl
          exact hid (hb.unique hm₀ hm₁ hk₀ hk₁)
        grind
  | answerIgnored =>
      -- The reply of the awaited message is never ignored while its execution waits.
      have hawaited := @hb.awaited
      have hawaiting := @hb.awaiting
      have hshape := @hb.shape
      simp at hx hm hi
      grind
  | hookPanicked hm₁ hr₁ hhook =>
      have hawaited := @hb.awaited
      simp at hx hm hi
      have hne := builtin_hook hi hhook
      grind
  | bridging hx₁ hl₁ | refundUnbridged hx₁ hl₁ =>
      have hlt := @hb.awaited_lt _ hf
      obtain ⟨hid, -⟩ := hf.deposit_tracked hx₁ hl₁
      simp at hx hm hi
      grind
  | refundFailed hx₁ hl₁ | bridged hx₁ hl₁ =>
      have hlt := @hb.awaited_lt _ hf
      obtain ⟨hid, -⟩ := hf.builtin_tracked hx₁ hl₁
      simp at hx hm hi
      grind
  | _ => simp at hx hm hi; grind

/-- When a guarded execution gives up on the bridge builtin, the builtin has refused
its message. -/
theorem BridgeSettled.refused_of_failed (hf : Fresh w) (hb : BridgeSettled w) {e : MessageId}
    {timeout sendOk refundSendOk : Bool} {x : Execution} {l : RequestLocals}
    (hok : timeoutsSettled w (.resume e timeout sendOk refundSendOk) = true)
    (hx : w.executions e = some x) (hl : x.wait = .builtin l)
    (hfailed : timeout = true ∨ ∃ m r, w.messages x.awaited = some m ∧
      m.delivery = .processed r ∧ (r = .error ∨ ∀ info nonce,
        w.tracker.messageInfo l.msgId = some info →
        info.status ≠ .bridgeResponseReceived (some nonce))) :
    ∃ m, w.messages x.awaited = some m ∧ m.origin = .builtin l.msgId ∧
      m.delivery.refused = true := by
  obtain ⟨rfl, info, hi, -⟩ := hf.builtin_tracked hx hl
  obtain ⟨m, hm, hk⟩ := hb.awaited hx hl
  refine ⟨m, hm, hk, ?_⟩
  rcases hfailed with rfl | ⟨m', r, hm', hr, hcase⟩
  · obtain ⟨wait, awaited, hook⟩ := x
    cases hl
    simpa [timeoutsSettled, hx, hm] using hok
  · rw [hm] at hm'
    cases hm'
    by_contra hrefused
    have hsuccess : r.isSuccess = true := by
      simpa [Delivery.refused, Delivery.reply?, hr] using hrefused
    rcases hcase with rfl | hne
    · contradiction
    · obtain ⟨nonce, hs⟩ := hb.answered hx hl hm (by rw [hr]; rfl)
        (by simp [Delivery.succeeded, Delivery.reply?, hr, hsuccess]) hi
      exact hne info nonce hi hs

theorem BridgeSettled.refused_step (hf : Fresh w) (hp : Phases prog w) (hb : BridgeSettled w)
    (hok : timeoutsSettled w a = true) (h : Effect prog w a w') {id k : MessageId} {m : Message}
    {info : MessageInfo} (hm : w'.messages id = some m) (hk : m.origin = .builtin k)
    (hi : w'.tracker.messageInfo k = some info) (hs : info.status.unbridged = true) :
    m.delivery.refused = true := by
  have hrefused := @hb.refused
  have hphase := @hb.phase
  have hunique := @hb.unique
  have hne := @hf.origin_ne
  cases h with
  | quiet => grind
  | recoveryUnsent hi₁ hr₁ =>
      have hcases := MessageStatus.unbridged_of_recoverable hr₁
      simp at hm hi
      grind
  | recoveryUnhooked hi₁ hr₁ =>
      have hcases := MessageStatus.unbridged_of_recoverable hr₁
      simp at hm hi
      grind
  | recovery hi₁ hr₁ =>
      have hcases := MessageStatus.unbridged_of_recoverable hr₁
      simp at hm hi
      grind
  | bridgeAnswered hm₁ hr₁ hk₁ =>
      have hqueued := hb.isSuccess_iff hp hm₁ hr₁ hk₁
      simp at hm hi
      grind
  | refundFailed hx₁ hl₁ hfailed =>
      obtain ⟨m₁, hm₁, hk₁, hr₁⟩ := hb.refused_of_failed hf hok hx₁ hl₁ hfailed
      simp at hm hi
      grind
  | signalled =>
      have hsignal := @hp.signal_refunding
      simp at hm hi
      grind
  | _ => simp at hm hi; grind

theorem BridgeSettled.step (hf : Fresh w) (hp : Phases prog w) (hb : BridgeSettled w)
    (hok : timeoutsSettled w a = true) (h : Effect prog w a w') : BridgeSettled w' where
  shape := hb.shape_step h
  unique := BridgeSettled.unique_step hb h
  phase := BridgeSettled.phase_step hf hb h
  awaited := BridgeSettled.awaited_step hf hb h
  awaiting := BridgeSettled.awaiting_step hf hp hb h
  answered := BridgeSettled.answered_step hf hp hb h
  refused := BridgeSettled.refused_step hf hp hb hok h

/-! ## bridged or refunded -/

/-- The guard `timeoutsSettled` as a relation between a world and the next action. -/
def TimeoutsSettled (w : World) (a : Action) : Prop := timeoutsSettled w a = true

instance : ∀ (w : World) (a : Action), Decidable (TimeoutsSettled w a) := fun w a =>
  inferInstanceAs (Decidable (timeoutsSettled w a = true))

theorem bridgeSettled_of_reachable (h : Reachable (step prog) TimeoutsSettled Seeded w) :
    Fresh w ∧ Phases prog w ∧ BridgeSettled w := by
  refine Reachable.invariant (I := fun w => Fresh w ∧ Phases prog w ∧ BridgeSettled w) ?_ ?_ h
  · rintro s ⟨config, actorId, rfl⟩
    exact ⟨.seed config actorId, .seed config actorId, .seed config actorId⟩
  · rintro s a s' ⟨hf, hp, hb⟩ hok hstep
    have heffect := step_effect hstep
    exact ⟨hf.step heffect, Phases.step hf hp heffect, BridgeSettled.step hf hp hb hok heffect⟩

/-- **Bridged or refunded**: in a run from the seeded state in which the wait for
the bridge builtin is given up only after the builtin has refused the message, no
request is both bridged and refunded. -/
theorem not_bridged_and_refunded (prog : Program) (w : World)
    (h : Reachable (step prog) TimeoutsSettled Seeded w) (msgId id id' : MessageId) :
    ¬ (w.bridged msgId id = true ∧ w.refunded msgId id' = true) := by
  rintro ⟨hbridged, hrefunded⟩
  obtain ⟨-, hp, hb⟩ := bridgeSettled_of_reachable h
  obtain ⟨m, hm, hk, hs⟩ := World.bridged_iff.mp hbridged
  obtain ⟨m', hm', hk', -⟩ := World.refunded_iff.mp hrefunded
  obtain ⟨info, hi, hrefunding, -⟩ := hp.refund_tracked hm' hk'
  have hrefused := hb.refused hm hk hi (by cases hst : info.status <;> simp_all [
    MessageStatus.refunding, MessageStatus.unbridged])
  unfold Delivery.refused at hrefused
  unfold Delivery.succeeded at hs
  cases hreply : m.delivery.reply? with
  | none => simp [hreply] at hs
  | some r =>
      simp only [hreply, Option.any_some, Bool.not_eq_true'] at hrefused hs
      simp [hs] at hrefused

/-- A request of account `5` that waits for the bridge builtin: message `1` is the
request, message `2` the deposit, message `3` the message to the builtin. -/
def pendingRequest : List Action :=
  [.admin 1 (.mapVaraToEthAddress 100 200 .ethereum),
   .requestBridging ⟨5, 0, 100, 10, 300⟩ true, .execute 2 .unit, .processReply 2,
   .resume 1 false true true]

/-- A request that the builtin refuses is refunded by message `4`, and not bridged. -/
theorem not_bridged_and_refunded_refused : ∃ w,
    Reachable (step (.deployed 3)) TimeoutsSettled Seeded w ∧ w.refunded 1 4 = true ∧
      ∀ id, ¬ (w.bridged 1 id = true ∧ w.refunded 1 4 = true) := by
  obtain ⟨w, hw, hr⟩ := exists_reachable_of_exec (step (.deployed 3)) TimeoutsSettled
    sampleSeed_seeded
    (pendingRequest ++ [.execute 3 .error, .resume 1 true true true, .execute 4 .unit])
    (fun w => w.refunded 1 4) (by decide +kernel)
  exact ⟨w, hw, hr, fun id => not_bridged_and_refunded _ w hw 1 id 4⟩

/-- When the wait for the builtin times out before the builtin has executed the
message, the request is refunded and bridged. -/
theorem bridged_and_refunded : ¬ ∀ (prog : Program) (w : World),
    Reachable (step prog) free Seeded w → ∀ msgId id id',
      ¬ (w.bridged msgId id = true ∧ w.refunded msgId id' = true) := by
  intro hclaim
  obtain ⟨w, hw, hr⟩ := exists_reachable_of_exec (step (.deployed 3)) free sampleSeed_seeded
    (pendingRequest ++ [.resume 1 true true true, .execute 3 (.ethMessageQueued 1),
      .execute 4 .unit])
    (fun w => w.bridged 1 3 && w.refunded 1 4) (by decide +kernel)
  rw [Bool.and_eq_true] at hr
  exact hclaim _ w hw 1 3 4 hr

end GearBridges.VftManager
