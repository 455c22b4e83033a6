import GearBridges.VftManager.Invariants

/-!
# VftManager.Refunds

How often the deposit of a request can be given back.

The recovery entry point accepts `SendingMessageToReturnTokens` and so does not
tell a refund that was never sent from one that is under way; and a
`request_bridging` execution that is woken after the recovery has refunded its
request refunds it once more.  In runs that stay clear of these two situations
a request is refunded at most once (`refund_unique`); two recovery calls in a
row refund twice (`refund_twice`).
-/

namespace GearBridges.VftManager

open Transition

variable {prog : Program} {w w' : World} {a : Action}

/-- Message `id` is a refund of the request that has been executed successfully. -/
def World.refunded (w : World) (msgId id : MessageId) : Bool :=
  (w.messages id).any fun m => decide (m.origin = .refund msgId) && m.delivery.succeeded

theorem World.refunded_iff {msgId id : MessageId} : w.refunded msgId id = true ↔
    ∃ m, w.messages id = some m ∧ m.origin = .refund msgId ∧ m.delivery.succeeded = true := by
  simp [refunded, Option.any_eq_true]

/-- A refund of the request is on its way, or its reply is. -/
def World.refundPending (w : World) (msgId : MessageId) : Bool :=
  (List.range w.nextId).any fun id =>
    (w.messages id).any fun m => decide (m.origin = .refund msgId) && m.delivery.unanswered

theorem World.refundPending_of_unanswered (hf : Fresh w) {msgId id : MessageId} {m : Message}
    (hm : w.messages id = some m) (ho : m.origin = .refund msgId)
    (hu : m.delivery.unanswered = true) : w.refundPending msgId = true := by
  unfold refundPending
  rw [List.any_eq_true]
  refine ⟨id, List.mem_range.mpr (hf.message_lt hm), ?_⟩
  simp [hm, ho, hu]

/-- The steps under which refunds do not overlap: a recovery that goes ahead has a
config that lets reply hooks be registered and, for a request in
`SendingMessageToReturnTokens`, no refund of it pending; an execution that waits for
the bridge builtin is woken only when its request is not being refunded already. -/
def refundsApart (w : World) : Action → Bool
  | .handleInterruptedTransfer msgId _ => match w.tracker.messageInfo msgId with
      | some info => !info.status.recoverable ||
          (decide (0 < w.config.replyTimeout) && decide (0 < w.config.gasForReplyDeposit) &&
            !(info.status == .sendingMessageToReturnTokens && w.refundPending msgId))
      | none => true
  | .resume e _ _ _ => match w.executions e with
      | some ⟨.builtin l, _, _⟩ =>
          !(w.tracker.messageInfo l.msgId).any (·.status.refunding)
      | _ => true
  | _ => true

/-! ## the invariant of guarded runs -/

/-- Refunds of one request that are pending or successful are one and the same,
and the status tells whether it has been answered. -/
structure OneRefund (w : World) : Prop where
  hooked : ∀ {id m k}, w.messages id = some m → m.origin = .refund k → m.hooked = true
  unique : ∀ {id id' m m' k}, w.messages id = some m → w.messages id' = some m' →
    m.origin = .refund k → m'.origin = .refund k →
    m.delivery.unanswered = true ∨ m.delivery.succeeded = true →
    m'.delivery.unanswered = true ∨ m'.delivery.succeeded = true → id = id'
  sending : ∀ {id m k info}, w.messages id = some m → m.origin = .refund k →
    w.tracker.messageInfo k = some info → info.status = .sendingMessageToReturnTokens →
    m.delivery.unanswered = true ∨ m.delivery.succeeded = false
  complete : ∀ {id m k info b}, w.messages id = some m → m.origin = .refund k →
    w.tracker.messageInfo k = some info → info.status = .tokensReturnComplete b →
    m.delivery.unanswered = false ∧ (b = false → m.delivery.succeeded = false)

theorem OneRefund.seed (config : InitConfig) (actorId : ActorId) :
    OneRefund (.seed config actorId) := by
  constructor <;> simp [World.seed]

/-- Before a guarded recovery sends a refund, every earlier one has failed. -/
theorem OneRefund.recovery_failed (hf : Fresh w) (hp : Phases prog w) (ho : OneRefund w)
    {msgId : MessageId} {sendOk : Bool} {info : MessageInfo}
    (hok : refundsApart w (.handleInterruptedTransfer msgId sendOk) = true)
    (hi : w.tracker.messageInfo msgId = some info) (hr : info.status.recoverable = true)
    {id : MessageId} {m : Message} (hm : w.messages id = some m)
    (hk : m.origin = .refund msgId) :
    m.delivery.unanswered = false ∧ m.delivery.succeeded = false := by
  obtain ⟨info', hi', hs, -⟩ := hp.refund_tracked hm hk
  rw [hi] at hi'
  cases hi'
  cases hst : info.status with
  | sendingMessageToReturnTokens =>
      have hu : m.delivery.unanswered = false := by
        by_contra hu
        have hpending := World.refundPending_of_unanswered hf hm hk (by simpa using hu)
        simp [refundsApart, hi, hst, hpending, MessageStatus.recoverable] at hok
      exact ⟨hu, (ho.sending hm hk hi hst).resolve_left (by simp [hu])⟩
  | tokensReturnComplete b =>
      obtain ⟨hu, hfail⟩ := ho.complete hm hk hi hst
      rw [hst] at hr
      cases b with
      | true => contradiction
      | false => exact ⟨hu, hfail rfl⟩
  | _ => rw [hst] at hs; contradiction

/-- A guarded execution that waits for the builtin has no refund yet. -/
theorem OneRefund.builtin_none (hp : Phases prog w)
    {e : MessageId} {timeout sendOk refundSendOk : Bool} {x : Execution} {l : RequestLocals}
    (hok : refundsApart w (.resume e timeout sendOk refundSendOk) = true)
    (hx : w.executions e = some x) (hl : x.wait = .builtin l) {id : MessageId} {m : Message}
    (hm : w.messages id = some m) : m.origin ≠ .refund l.msgId := by
  intro hk
  obtain ⟨info, hi, hs, -⟩ := hp.refund_tracked hm hk
  obtain ⟨wait, awaited, hook⟩ := x
  cases hl
  simp [refundsApart, hx, hi, hs] at hok

/-- A request whose deposit has just been answered has no refund yet. -/
theorem Phases.deposited_none (hp : Phases prog w) {k : MessageId} {info : MessageInfo}
    (hi : w.tracker.messageInfo k = some info) (hs : info.status.refunding = false)
    {id : MessageId} {m : Message} (hm : w.messages id = some m) : m.origin ≠ .refund k := by
  intro hk
  obtain ⟨info', hi', hs', -⟩ := hp.refund_tracked hm hk
  rw [hi] at hi'
  cases hi'
  simp [hs] at hs'

theorem OneRefund.hooked_step (ho : OneRefund w) (hok : refundsApart w a = true)
    (h : Effect prog w a w') {id k : MessageId} {m : Message} (hm : w'.messages id = some m)
    (hk : m.origin = .refund k) : m.hooked = true := by
  have hhooked := @ho.hooked
  cases h with
  | quiet => grind
  | recoveryUnhooked hi hr hc =>
      simp [refundsApart, hi, hr] at hok
      omega
  | _ => simp at hm; grind

theorem OneRefund.unique_step (hf : Fresh w) (hp : Phases prog w) (ho : OneRefund w)
    (hok : refundsApart w a = true) (h : Effect prog w a w') {id id' k : MessageId}
    {m m' : Message} (hm : w'.messages id = some m) (hm' : w'.messages id' = some m')
    (hk : m.origin = .refund k) (hk' : m'.origin = .refund k)
    (hu : m.delivery.unanswered = true ∨ m.delivery.succeeded = true)
    (hu' : m'.delivery.unanswered = true ∨ m'.delivery.succeeded = true) : id = id' := by
  have hunique := @ho.unique
  cases h with
  | quiet => grind
  | recoveryUnhooked hi hr =>
      have hfailed := @ho.recovery_failed _ _ hf hp _ _ _ hok hi hr
      simp at hm hm'
      grind
  | recovery hi hr =>
      have hfailed := @ho.recovery_failed _ _ hf hp _ _ _ hok hi hr
      simp at hm hm'
      grind
  | refundUnbridged hx hl hi hs =>
      have hnone := @hp.deposited_none _ _ _ _ hi (by rw [hs]; rfl)
      simp at hm hm'
      grind
  | refundFailed hx hl =>
      have hnone := @OneRefund.builtin_none _ _ hp _ _ _ _ _ _ hok hx hl
      simp at hm hm'
      grind
  | _ => simp at hm hm'; grind

/-- The hook of a refund never panics. -/
theorem Phases.refund_hook (hp : Phases prog w) {id k : MessageId} {m : Message} {r : Reply}
    (hm : w.messages id = some m) (hr : runHook prog w m r = none) : m.origin ≠ .refund k := by
  intro hk
  obtain ⟨info, hi, -, -⟩ := hp.refund_tracked hm hk
  rw [runHook, hk, Option.map_eq_none_iff] at hr
  exact handleReplyHook_ne_none hi r hr

theorem OneRefund.sending_step (hf : Fresh w) (hp : Phases prog w) (ho : OneRefund w)
    (hok : refundsApart w a = true) (h : Effect prog w a w') {id k : MessageId} {m : Message}
    {info : MessageInfo} (hm : w'.messages id = some m) (hk : m.origin = .refund k)
    (hi : w'.tracker.messageInfo k = some info)
    (hs : info.status = .sendingMessageToReturnTokens) :
    m.delivery.unanswered = true ∨ m.delivery.succeeded = false := by
  have hsending := @ho.sending
  have hhooked := @ho.hooked
  have htracked := @hp.refund_tracked
  cases h with
  | quiet => grind
  | recoveryUnsent hi' hr =>
      have hfailed := @ho.recovery_failed _ _ hf hp _ _ _ hok hi' hr
      simp at hm hi
      grind
  | recoveryUnhooked hi' hr =>
      have hfailed := @ho.recovery_failed _ _ hf hp _ _ _ hok hi' hr
      simp at hm hi
      grind
  | recovery hi' hr =>
      have hfailed := @ho.recovery_failed _ _ hf hp _ _ _ hok hi' hr
      simp at hm hi
      grind
  | refundUnbridged hx hl hi' hs' =>
      have hnone := @hp.deposited_none _ _ _ _ hi' (by rw [hs']; rfl)
      simp at hm hi
      grind
  | refundFailed hx hl =>
      have hnone := @OneRefund.builtin_none _ _ hp _ _ _ _ _ _ hok hx hl
      simp at hm hi
      grind
  | signalled _ hi' hs' =>
      have hnone := @hp.deposited_none _ _ _ _ hi' (by rw [hs']; rfl)
      simp at hm hi
      grind
  | hookPanicked hm₀ hr₀ hhook =>
      have hnone := @hp.refund_hook _ _ _ k _ _ hm₀ hhook
      simp at hm hi
      grind
  | _ => simp at hm hi; grind

/-- Processing the reply of a refund tells whether it has succeeded. -/
theorem Phases.refundReply_eq (hp : Phases prog w) {id k : MessageId} {m : Message} {r : Reply}
    {info : MessageInfo} (hm : w.messages id = some m) (hr : m.delivery = .executed r)
    (hk : m.origin = .refund k) (hi : w.tracker.messageInfo k = some info) :
    refundReply info.details r = r.isSuccess := by
  obtain ⟨info', hi', -, hcall⟩ := hp.refund_tracked hm hk
  rw [hi] at hi'
  cases hi'
  have hadmits := hp.admits hm (by rw [hr]; rfl : m.delivery.reply? = some r)
  rw [hcall] at hadmits
  exact VftManager.refundReply_eq hadmits

theorem OneRefund.complete_step (hp : Phases prog w) (ho : OneRefund w)
    (h : Effect prog w a w') {id k : MessageId} {m : Message} {info : MessageInfo} {b : Bool}
    (hm : w'.messages id = some m) (hk : m.origin = .refund k)
    (hi : w'.tracker.messageInfo k = some info) (hs : info.status = .tokensReturnComplete b) :
    m.delivery.unanswered = false ∧ (b = false → m.delivery.succeeded = false) := by
  have hcomplete := @ho.complete
  have htracked := @hp.refund_tracked
  cases h with
  | quiet => grind
  | returnCompleted hm₀ hr₀ horigin hi₀ hs₀ =>
      have hunique := @ho.unique
      have hpending := @hp.deposit_pending
      have hreply := @hp.refundReply_eq
      simp at hm hi
      grind
  | _ => simp at hm hi; grind

theorem OneRefund.step (hf : Fresh w) (hp : Phases prog w) (ho : OneRefund w)
    (hok : refundsApart w a = true) (h : Effect prog w a w') : OneRefund w' where
  hooked := ho.hooked_step hok h
  unique := OneRefund.unique_step hf hp ho hok h
  sending := OneRefund.sending_step hf hp ho hok h
  complete := OneRefund.complete_step hp ho h

/-- The guard `refundsApart` as a relation between a world and the next action. -/
def RefundsApart (w : World) (a : Action) : Prop := refundsApart w a = true

instance : ∀ (w : World) (a : Action), Decidable (RefundsApart w a) := fun w a =>
  inferInstanceAs (Decidable (refundsApart w a = true))

theorem oneRefund_of_reachable
    (h : Reachable (step prog) RefundsApart Seeded w) :
    Fresh w ∧ Phases prog w ∧ OneRefund w := by
  refine Reachable.invariant (I := fun w => Fresh w ∧ Phases prog w ∧ OneRefund w) ?_ ?_ h
  · rintro s ⟨config, actorId, rfl⟩
    exact ⟨.seed config actorId, .seed config actorId, .seed config actorId⟩
  · rintro s a s' ⟨hf, hp, ho⟩ hok hstep
    have heffect := step_effect hstep
    exact ⟨hf.step heffect, Phases.step hf hp heffect, OneRefund.step hf hp ho hok heffect⟩

/-- **At most one refund**: in a run from the seeded state whose steps keep
refunds apart, two successfully executed refunds of a request are the same
message. -/
theorem refund_unique (prog : Program) (w : World)
    (h : Reachable (step prog) RefundsApart Seeded w) (msgId id id' : MessageId)
    (hr : w.refunded msgId id = true) (hr' : w.refunded msgId id' = true) : id = id' := by
  obtain ⟨-, -, ho⟩ := oneRefund_of_reachable h
  obtain ⟨m, hm, hk, hs⟩ := World.refunded_iff.mp hr
  obtain ⟨m', hm', hk', hs'⟩ := World.refunded_iff.mp hr'
  exact ho.unique hm hm' hk hk' (.inr hs) (.inr hs')

/-- A request of account `5` whose deposit has been answered and whose execution
has then run out of gas: message `1` is the request, message `2` the deposit. -/
def interruptedRequest : List Action :=
  [.admin 1 (.mapVaraToEthAddress 100 200 .ethereum),
   .requestBridging ⟨5, 0, 100, 10, 300⟩ true, .execute 2 .unit, .processReply 2, .trap 1]

/-- A seeded program with account `1` as its admin. -/
def sampleSeed : World := .seed ⟨7, 8, 9, ⟨1, 1, 0, 0⟩⟩ 1

theorem sampleSeed_seeded : Seeded sampleSeed := ⟨_, _, rfl⟩

/-- One recovery call refunds the interrupted request, by message `4`. -/
theorem refund_unique_interrupted : ∃ w, Reachable (step (.deployed 3)) RefundsApart Seeded w ∧
    w.refunded 1 4 = true ∧ ∀ id, w.refunded 1 id = true → 4 = id := by
  obtain ⟨w, hw, hr⟩ := exists_reachable_of_exec (step (.deployed 3)) RefundsApart
    sampleSeed_seeded
    (interruptedRequest ++ [.handleInterruptedTransfer 1 true, .execute 4 .unit, .processReply 4])
    (fun w => w.refunded 1 4) (by decide +kernel)
  exact ⟨w, hw, hr, fun id hid => refund_unique _ w hw 1 4 id hr hid⟩

/-- A second recovery call made before the reply to the first refund refunds the
request again. -/
theorem refund_twice : ¬ ∀ (prog : Program) (w : World), Reachable (step prog) free Seeded w →
    ∀ msgId id id', w.refunded msgId id = true → w.refunded msgId id' = true → id = id' := by
  intro hclaim
  obtain ⟨w, hw, hr⟩ := exists_reachable_of_exec (step (.deployed 3)) free sampleSeed_seeded
    (interruptedRequest ++ [.handleInterruptedTransfer 1 true, .handleInterruptedTransfer 1 true,
      .execute 4 .unit, .execute 6 .unit])
    (fun w => w.refunded 1 4 && w.refunded 1 6) (by decide +kernel)
  rw [Bool.and_eq_true] at hr
  have := hclaim _ w hw 1 4 6 hr.1 hr.2
  contradiction

end GearBridges.VftManager
