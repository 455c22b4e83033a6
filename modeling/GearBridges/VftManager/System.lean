import GearBridges.Lib.Transition
import GearBridges.VftManager.RequestBridging
import GearBridges.VftManager.SubmitReceipt

/-!
# VftManager.System

The program as a step function over `World`: incoming calls, executions of its
messages by their destinations, processing of replies, resumption of suspended
executions (by a reply or by the timeout), traps, signals and the calls of the
governance.  `step_effect` says once what a step can do; every
invariant of the program is derived from it.  The state of the service changes only by calls
of the governance (`step_state`).
-/

namespace GearBridges.VftManager

open Transition

/-! ## calls of the governance -/

/-- Calls that only change the state of the service. -/
inductive AdminCall where
  | updateErc20ManagerAddress (address : H160)
  | updateHistoricalProxyAddress (address : ActorId)
  | mapVaraToEthAddress (varaTokenId : ActorId) (ethTokenId : H160) (supply : TokenSupply)
  | removeVaraToEthAddress (varaTokenId : ActorId)
  | updateConfig (config : Config)
  | setAdmin (admin : ActorId)
  | setPauseAdmin (admin : ActorId)
  | pause
  | unpause
  -- `upgrade` up to its first `await`; the transfers that follow touch none of
  -- the data modelled here, and `exit` only ends the run.
  | upgrade (vftManagerNew : ActorId)
  -- The end of `update_vfts`; which map it swaps in is left open.
  | updateVfts (tokenMap : TokenMap)

/-- State and config after a call of the governance; `none` is a panic. -/
def AdminCall.run (s : State) (c : Config) (sender : ActorId) : AdminCall → Option (State × Config)
  | .updateErc20ManagerAddress a => if s.admin ≠ sender then none
      else some ({ s with erc20ManagerAddress := a }, c)
  | .updateHistoricalProxyAddress a => if s.admin ≠ sender then none
      else some ({ s with historicalProxyAddress := a }, c)
  | .mapVaraToEthAddress v e supply => if s.admin ≠ sender then none
      else (s.tokenMap.insert v e supply).map fun m => ({ s with tokenMap := m }, c)
  | .removeVaraToEthAddress v => if s.admin ≠ sender then none
      else (s.tokenMap.remove v).map fun m => ({ s with tokenMap := m.1 }, c)
  | .updateConfig config => if s.admin ≠ sender then none else some (s, config)
  | .setAdmin a => if s.admin ≠ sender then none else some ({ s with admin := a }, c)
  | .setPauseAdmin a => if s.admin ≠ sender then none else some ({ s with pauseAdmin := a }, c)
  | .pause => if sender ≠ s.admin ∧ sender ≠ s.pauseAdmin then none
      else if s.isPaused then none else some ({ s with isPaused := true }, c)
  | .unpause => if sender ≠ s.admin ∧ sender ≠ s.pauseAdmin then none
      else if !s.isPaused then none
      else if s.vftManagerNew.isSome then none else some ({ s with isPaused := false }, c)
  | .upgrade new => if s.admin ≠ sender then none
      else if !s.isPaused then none
      else if s.vftManagerNew.any (· ≠ new) then none
      else some ({ s with vftManagerNew := some new }, c)
  | .updateVfts m => if s.admin ≠ sender then none else some ({ s with tokenMap := m }, c)

/-! ## steps -/

/-- What can happen next. -/
inductive Action where
  | requestBridging (args : RequestArgs) (sendOk : Bool)
  | handleInterruptedTransfer (msgId : MessageId) (sendOk : Bool)
  | submitReceipt (sender : ActorId) (key : TxKey) (receipt : Option Receipt) (sendOk : Bool)
  | admin (sender : ActorId) (call : AdminCall)
  /-- The destination executes a message. -/
  | execute (id : MessageId) (reply : Reply)
  /-- The program processes a reply. -/
  | processReply (id : MessageId)
  /-- A suspended execution goes on. -/
  | resume (exec : MessageId) (timeout sendOk refundSendOk : Bool)
  /-- A suspended execution is woken and runs out of gas. -/
  | trap (exec : MessageId)
  /-- The program handles the signal of an execution that ended abnormally. -/
  | handleSignal (exec : MessageId)

/-- The destination of a message executes it and sends the reply. -/
def execute (w : World) (id : MessageId) (reply : Reply) : Option World :=
  match w.messages id with
  | none => none
  | some m =>
      if m.delivery = .sent ∧ m.call.admits reply then some (w.deliver id m (.executed reply))
      else none

/-- The reply hook of a message. -/
def runHook (prog : Program) (w : World) (m : Message) (reply : Reply) : Option World :=
  match m.origin with
  | .deposit msgId | .refund msgId => (handleReplyHook w.tracker msgId reply).map w.withTracker
  | .builtin msgId => (handleBridgeReplyHook w.tracker msgId reply).map w.withTracker
  | .receipt key => (handleReply prog w.transactions m.call key reply).map fun t =>
      { w with transactions := t }

/-- The program processes the reply of a message: the hook runs, and unless it
panics the reply is recorded for the waiting execution. -/
def processReply (prog : Program) (w : World) (id : MessageId) : Option World :=
  match w.messages id with
  | none => none
  | some m => match m.delivery with
    | .executed reply =>
        if m.hooked then match runHook prog w m reply with
          | none => some (w.deliver id m (.trapped reply))
          | some w => some (w.deliver id m (.processed reply))
        else some (w.deliver id m (.processed reply))
    | _ => none

/-- The segment that a suspended execution runs when it is woken. -/
def runSegment (prog : Program) (w : World) (exec : MessageId) (x : Execution)
    (awaited : Except Error Unit) (sendOk refundSendOk : Bool) : Option World :=
  match x.wait with
  | .deposit l => resumeDeposit prog w exec l awaited sendOk refundSendOk
  | .builtin l => resumeBuiltin prog w exec l awaited refundSendOk
  | .refund l e => resumeRefund w exec l e awaited
  | .recovery msgId => some (resumeRecovery w exec msgId awaited)
  | .receipt => some (resumeReceipt w exec awaited)

/-- A suspended execution is woken by the reply it waits for or by the timeout. -/
def resume (prog : Program) (w : World) (exec : MessageId) (timeout sendOk refundSendOk : Bool) :
    Option World :=
  match w.executions exec with
  | none => none
  | some x => match w.awaitReply x.awaited timeout with
    | none => none
    | some awaited => match runSegment prog w exec x awaited sendOk refundSendOk with
      | none => some (w.trap exec x)
      | some w' => some w'

/-- The program handles a signal. -/
def handleSignal (w : World) (exec : MessageId) : Option World :=
  if exec ∈ w.signals then
    let w := { w with signals := w.signals.erase exec }
    match criticalHook w.tracker exec with
    | none => some w
    | some t => some (w.withTracker t)
  else none

/-- One step; `none`: the action is not possible, or it panics before its first
wait point and leaves no trace. -/
def step (prog : Program) (w : World) : Action → Option World
  | .requestBridging args sendOk => requestBridging prog w args sendOk
  | .handleInterruptedTransfer msgId sendOk => handleInterruptedTransfer prog w msgId sendOk
  | .submitReceipt sender key receipt sendOk =>
      some (submitReceipt prog w sender key receipt sendOk)
  | .admin sender call => (call.run w.state w.config sender).map fun sc =>
      { w.bump with state := sc.1, config := sc.2 }
  | .execute id reply => execute w id reply
  | .processReply id => processReply prog w id
  | .resume exec timeout sendOk refundSendOk => resume prog w exec timeout sendOk refundSendOk
  | .trap exec => (w.executions exec).map (w.trap exec)
  | .handleSignal exec => handleSignal w exec

/-- The worlds a freshly seeded program starts in. -/
def Seeded (w : World) : Prop := ∃ config actorId, w = .seed config actorId

/-! ## what a step can do -/

/-- The message that returns the tokens of a request. -/
def refundMessage (prog : Program) (msgId : MessageId) (d : TxDetails) (hooked : Bool) : Message :=
  ⟨d.varaTokenId, 0, refundCall prog d, .refund msgId, hooked, .sent⟩

/-- The message that takes the tokens of a request. -/
def depositMessage (prog : Program) (msgId : MessageId) (d : TxDetails) : Message :=
  ⟨d.varaTokenId, 0, depositCall prog d, .deposit msgId, true, .sent⟩

/-- The message to the bridge builtin. -/
def builtinMessage (s : State) (c : Config) (l : RequestLocals) : Message :=
  ⟨s.gearBridgeBuiltin, c.feeBridge, .sendEthMessage s.erc20ManagerAddress
    (Payload.pack ⟨l.details.receiver, l.ethTokenId, l.details.amount⟩), .builtin l.msgId, true, .sent⟩

/-- The message that credits the receiver of a receipt. -/
def receiptMessage (prog : Program) (key : TxKey) (token : ActorId) (event : BridgingRequested)
    (supply : TokenSupply) (hooked : Bool) : Message :=
  ⟨token, 0, receiptCall prog event supply, .receipt key, hooked, .sent⟩

/-- The effects a step can have, each with the guards under which it happens. -/
inductive Effect (prog : Program) (w : World) : Action → World → Prop
  | quiet {a : Action} {w' : World} (tracker : w'.tracker = w.tracker)
      (messages : ∀ id, w'.messages id = w.messages id)
      (transactions : w'.transactions = w.transactions) (nextId : w.nextId ≤ w'.nextId)
      (executions : ∀ e x, w'.executions e = some x → w.executions e = some x)
      (signals : ∀ e ∈ w'.signals, e ∈ w.signals ∨
        ∃ x, w.executions e = some x ∧ x.criticalHook = true) : Effect prog w a w'
  | requested {args : RequestArgs} {sendOk : Bool} {supply : TokenSupply} {ethTokenId : H160}
      {d : TxDetails}
      (details : d = ⟨args.varaTokenId, args.sender, args.amount, args.receiver, supply⟩)
      (eth : w.state.tokenMap.getEthTokenId args.varaTokenId = .ok ethTokenId)
      (supplyType : w.state.tokenMap.getSupplyType args.varaTokenId = .ok supply) :
      Effect prog w (.requestBridging args sendOk)
        (((w.bump.withTracker
          (w.tracker.insertMessageInfo w.nextId .sendingMessageToDepositTokens d)).post
          (depositMessage prog w.nextId d)).suspend w.nextId
          ⟨.deposit ⟨w.nextId, ethTokenId, d⟩, w.nextId + 1, false⟩)
  | recoveryUnsent {msgId : MessageId} {sendOk : Bool} {info : MessageInfo}
      (tracked : w.tracker.messageInfo msgId = some info)
      (recoverable : info.status.recoverable = true) :
      Effect prog w (.handleInterruptedTransfer msgId sendOk)
        ((w.bump.withTracker
          (w.tracker.updateMessageStatus msgId .sendingMessageToReturnTokens)).finish w.nextId
          (.failed .sendFailure))
  | recoveryUnhooked {msgId : MessageId} {sendOk : Bool} {info : MessageInfo}
      {e : Error} (tracked : w.tracker.messageInfo msgId = some info)
      (recoverable : info.status.recoverable = true)
      (config : w.config.replyTimeout = 0 ∨ w.config.gasForReplyDeposit = 0) :
      Effect prog w (.handleInterruptedTransfer msgId sendOk)
        (((w.bump.withTracker
          (w.tracker.updateMessageStatus msgId .sendingMessageToReturnTokens)).post
          (refundMessage prog msgId info.details false)).finish w.nextId (.failed e))
  | recovery {msgId : MessageId} {sendOk : Bool} {info : MessageInfo}
      (tracked : w.tracker.messageInfo msgId = some info)
      (recoverable : info.status.recoverable = true) :
      Effect prog w (.handleInterruptedTransfer msgId sendOk)
        (((w.bump.withTracker
          (w.tracker.updateMessageStatus msgId .sendingMessageToReturnTokens)).post
          (refundMessage prog msgId info.details true)).suspend w.nextId
          ⟨.recovery msgId, w.nextId + 1, false⟩)
  | submitUnhooked {sender : ActorId} {key : TxKey} {receipt : Option Receipt} {sendOk : Bool}
      {token : ActorId} {event : BridgingRequested} {supply : TokenSupply} {e : Error}
      (check : checkReceipt prog w sender key receipt = .ok (token, event, supply))
      (config : w.config.replyTimeout = 0 ∨ w.config.gasForReplyDeposit = 0) :
      Effect prog w (.submitReceipt sender key receipt sendOk)
        ((w.bump.post (receiptMessage prog key token event supply false)).finish w.nextId
          (.failed e))
  | submit {sender : ActorId} {key : TxKey} {receipt : Option Receipt} {sendOk : Bool}
      {token : ActorId} {event : BridgingRequested} {supply : TokenSupply}
      (check : checkReceipt prog w sender key receipt = .ok (token, event, supply)) :
      Effect prog w (.submitReceipt sender key receipt sendOk)
        ((w.bump.post (receiptMessage prog key token event supply true)).suspend w.nextId
          ⟨.receipt, w.nextId + 1, false⟩)
  | executed {id : MessageId} {m : Message} {r : Reply} (message : w.messages id = some m)
      (sent : m.delivery = .sent) (admits : m.call.admits r = true) :
      Effect prog w (.execute id r) (w.deliver id m (.executed r))
  | depositCompleted {id k : MessageId} {m : Message} {r : Reply} {info : MessageInfo}
      (message : w.messages id = some m) (executed : m.delivery = .executed r)
      (origin : m.origin = .deposit k ∨ m.origin = .refund k)
      (tracked : w.tracker.messageInfo k = some info)
      (status : info.status = .sendingMessageToDepositTokens) :
      Effect prog w (.processReply id)
        ((w.withTracker (w.tracker.updateMessageStatus k
          (.tokenDepositCompleted (depositReply info.details r)))).deliver id m (.processed r))
  | returnCompleted {id k : MessageId} {m : Message} {r : Reply} {info : MessageInfo}
      (message : w.messages id = some m) (executed : m.delivery = .executed r)
      (origin : m.origin = .deposit k ∨ m.origin = .refund k)
      (tracked : w.tracker.messageInfo k = some info)
      (status : info.status = .sendingMessageToReturnTokens) :
      Effect prog w (.processReply id)
        ((w.withTracker (w.tracker.updateMessageStatus k
          (.tokensReturnComplete (refundReply info.details r)))).deliver id m (.processed r))
  | bridgeAnswered {id k : MessageId} {m : Message} {r : Reply} {info : MessageInfo}
      {nonce : Option U256} (message : w.messages id = some m) (executed : m.delivery = .executed r)
      (origin : m.origin = .builtin k) (tracked : w.tracker.messageInfo k = some info)
      (status : info.status = .sendingMessageToBridgeBuiltin)
      (refused : nonce = none → ∀ n, r ≠ .ethMessageQueued n)
      (queued : nonce ≠ none → ∃ n, r = .ethMessageQueued n) :
      Effect prog w (.processReply id)
        ((w.withTracker (w.tracker.updateMessageStatus k (.bridgeResponseReceived nonce))).deliver
          id m (.processed r))
  | answerIgnored {id : MessageId} {m : Message} {r : Reply}
      (message : w.messages id = some m) (executed : m.delivery = .executed r)
      (ignored : m.hooked = false ∨
        (∃ k info, (m.origin = .deposit k ∨ m.origin = .refund k) ∧
          w.tracker.messageInfo k = some info ∧
          info.status ≠ .sendingMessageToDepositTokens ∧
          info.status ≠ .sendingMessageToReturnTokens) ∨
        (∃ k info, m.origin = .builtin k ∧ w.tracker.messageInfo k = some info ∧
          info.status ≠ .sendingMessageToBridgeBuiltin)) :
      Effect prog w (.processReply id) (w.deliver id m (.processed r))
  | receiptAnswered {id : MessageId} {key : TxKey} {m : Message} {r : Reply} {t : Finset TxKey}
      (message : w.messages id = some m) (executed : m.delivery = .executed r)
      (origin : m.origin = .receipt key) (hooked : m.hooked = true)
      (hook : handleReply prog w.transactions m.call key r = some t) :
      Effect prog w (.processReply id)
        (({ w with transactions := t } : World).deliver id m (.processed r))
  | hookPanicked {id : MessageId} {m : Message} {r : Reply}
      (message : w.messages id = some m) (executed : m.delivery = .executed r)
      (hook : runHook prog w m r = none) :
      Effect prog w (.processReply id) (w.deliver id m (.trapped r))
  | bridging {e : MessageId} {timeout sendOk refundSendOk : Bool} {x : Execution}
      {l : RequestLocals} {info : MessageInfo} (exec : w.executions e = some x)
      (wait : x.wait = .deposit l) (tracked : w.tracker.messageInfo l.msgId = some info)
      (status : info.status = .tokenDepositCompleted true) :
      Effect prog w (.resume e timeout sendOk refundSendOk)
        (((w.withTracker
          (w.tracker.updateMessageStatus l.msgId .sendingMessageToBridgeBuiltin)).post
          (builtinMessage w.state w.config l)).suspend e ⟨.builtin l, w.nextId, false⟩)
  | refundUnbridged {e : MessageId} {timeout sendOk refundSendOk : Bool} {x : Execution}
      {l : RequestLocals} {info : MessageInfo} {err : Error} (exec : w.executions e = some x)
      (wait : x.wait = .deposit l) (tracked : w.tracker.messageInfo l.msgId = some info)
      (status : info.status = .tokenDepositCompleted true) :
      Effect prog w (.resume e timeout sendOk refundSendOk)
        (((w.withTracker
          (w.tracker.updateMessageStatus l.msgId .sendingMessageToReturnTokens)).post
          (refundMessage prog l.msgId l.details true)).suspend e ⟨.refund l err, w.nextId, true⟩)
  | refundFailed {e : MessageId} {timeout sendOk refundSendOk : Bool} {x : Execution}
      {l : RequestLocals} {err : Error} (exec : w.executions e = some x)
      (wait : x.wait = .builtin l)
      (failed : timeout = true ∨ ∃ m r, w.messages x.awaited = some m ∧ m.delivery = .processed r ∧
        (r = .error ∨ ∀ info nonce, w.tracker.messageInfo l.msgId = some info →
          info.status ≠ .bridgeResponseReceived (some nonce))) :
      Effect prog w (.resume e timeout sendOk refundSendOk)
        (((w.withTracker
          (w.tracker.updateMessageStatus l.msgId .sendingMessageToReturnTokens)).post
          (refundMessage prog l.msgId l.details true)).suspend e ⟨.refund l err, w.nextId, true⟩)
  | bridged {e : MessageId} {timeout sendOk refundSendOk : Bool} {x : Execution}
      {l : RequestLocals} {info : MessageInfo} {nonce : U256} (exec : w.executions e = some x)
      (wait : x.wait = .builtin l) (tracked : w.tracker.messageInfo l.msgId = some info)
      (status : info.status = .bridgeResponseReceived (some nonce)) :
      Effect prog w (.resume e timeout sendOk refundSendOk)
        ((w.withTracker (w.tracker.removeMessageInfo l.msgId)).finish e
          (.bridged nonce l.ethTokenId))
  | signalled {e : MessageId} {info : MessageInfo} (signal : e ∈ w.signals)
      (tracked : w.tracker.messageInfo e = some info)
      (status : info.status = .sendingMessageToBridgeBuiltin) :
      Effect prog w (.handleSignal e)
        (({ w with signals := w.signals.erase e } : World).withTracker
          (w.tracker.updateMessageStatus e .sendingMessageToReturnTokens))

variable {prog : Program} {w w' : World}

/-- Ending an execution and giving out ids changes nothing else. -/
theorem Effect.of_finish {a : Action} {e : MessageId} {o : Outcome} {w₁ : World}
    (tracker : w₁.tracker = w.tracker) (messages : ∀ id, w₁.messages id = w.messages id)
    (transactions : w₁.transactions = w.transactions) (nextId : w.nextId ≤ w₁.nextId)
    (executions : w₁.executions = w.executions) (signals : w₁.signals = w.signals) :
    Effect prog w a (w₁.finish e o) := by
  refine .quiet tracker messages transactions nextId ?_ ?_
  · intro e' x hx
    rw [World.finish_executions, executions, Function.update_apply] at hx
    split at hx
    · contradiction
    · exact hx
  · intro e' he'
    rw [World.finish_signals, signals] at he'
    exact .inl he'

/-- A trap changes nothing but the trapped execution and its signal. -/
theorem Effect.of_trap {a : Action} {e : MessageId} {x : Execution}
    (h : w.executions e = some x) : Effect prog w a (w.trap e x) := by
  refine .quiet rfl (fun _ => rfl) rfl le_rfl ?_ ?_
  · intro e' x' hx
    simp only [World.trap, World.finish_executions, Function.update_apply] at hx
    split at hx
    · contradiction
    · exact hx
  · intro e' he'
    simp only [World.trap] at he'
    split at he'
    · rename_i hook
      rcases List.mem_cons.mp he' with rfl | he'
      · exact .inr ⟨x, h, hook⟩
      · exact .inl he'
    · exact .inl he'

theorem requestBridging_effect {args : RequestArgs} {sendOk : Bool}
    (h : requestBridging prog w args sendOk = some w') :
    Effect prog w (.requestBridging args sendOk) w' := by
  unfold requestBridging at h
  simp only [World.bump_state, World.bump_config] at h
  split at h
  · cases h; exact .of_finish rfl (fun _ => rfl) rfl (Nat.le_succ _) rfl rfl
  split at h
  · contradiction
  split at h
  · cases h; exact .of_finish rfl (fun _ => rfl) rfl (Nat.le_succ _) rfl rfl
  rename_i ethTokenId eth
  split at h
  · cases h; exact .of_finish rfl (fun _ => rfl) rfl (Nat.le_succ _) rfl rfl
  rename_i supply supplyType
  split at h
  · contradiction
  rename_i w₁ id hsend
  cases h
  rcases World.sendForReply_cases hsend with ⟨-, hr⟩ | ⟨-, -, e, hr⟩ | ⟨-, -, hw, hr⟩
  · contradiction
  · contradiction
  · cases hr
    subst hw
    exact .requested rfl eth supplyType

theorem handleInterruptedTransfer_effect {msgId : MessageId} {sendOk : Bool}
    (h : handleInterruptedTransfer prog w msgId sendOk = some w') :
    Effect prog w (.handleInterruptedTransfer msgId sendOk) w' := by
  unfold handleInterruptedTransfer at h
  simp only [World.bump_state, World.bump_tracker] at h
  split at h
  · cases h; exact .of_finish rfl (fun _ => rfl) rfl (Nat.le_succ _) rfl rfl
  split at h
  · contradiction
  rename_i info tracked
  split at h
  · contradiction
  rename_i t enter
  obtain ⟨recoverable, rfl⟩ := enterRecovery_eq tracked enter
  split at h
  · rename_i w₁ e hsend
    cases h
    rcases World.sendForReply_cases hsend with ⟨rfl, hr⟩ | ⟨hc, rfl, -⟩ | ⟨-, -, -, hr⟩
    · cases hr; exact .recoveryUnsent tracked recoverable
    · exact .recoveryUnhooked tracked recoverable hc
    · contradiction
  · rename_i w₁ id hsend
    cases h
    rcases World.sendForReply_cases hsend with ⟨-, hr⟩ | ⟨-, -, e, hr⟩ | ⟨-, -, rfl, hr⟩
    · contradiction
    · contradiction
    · cases hr; exact .recovery tracked recoverable

theorem submitReceipt_effect {sender : ActorId} {key : TxKey} {receipt : Option Receipt}
    {sendOk : Bool} :
    Effect prog w (.submitReceipt sender key receipt sendOk)
      (submitReceipt prog w sender key receipt sendOk) := by
  simp only [submitReceipt]
  split
  · exact .of_finish rfl (fun _ => rfl) rfl (Nat.le_succ _) rfl rfl
  rename_i token event supply check
  split
  · rename_i w₁ e hsend
    rcases World.sendForReply_cases hsend with ⟨rfl, hr⟩ | ⟨hc, rfl, -⟩ | ⟨-, -, -, hr⟩
    · exact .of_finish rfl (fun _ => rfl) rfl (Nat.le_succ _) rfl rfl
    · exact .submitUnhooked check hc
    · contradiction
  · rename_i w₁ id hsend
    rcases World.sendForReply_cases hsend with ⟨-, hr⟩ | ⟨-, -, e, hr⟩ | ⟨-, -, rfl, hr⟩
    · contradiction
    · contradiction
    · cases hr; exact .submit check

theorem execute_effect {id : MessageId} {r : Reply} (h : execute w id r = some w') :
    Effect prog w (.execute id r) w' := by
  unfold execute at h
  split at h
  · contradiction
  split at h
  · rename_i m message hm
    cases h; exact .executed message hm.1 hm.2
  · contradiction

theorem vftAnswered_effect {id k : MessageId} {m : Message} {r : Reply} {t : MessageTracker}
    (message : w.messages id = some m) (executed : m.delivery = .executed r)
    (origin : m.origin = .deposit k ∨ m.origin = .refund k)
    (hook : handleReplyHook w.tracker k r = some t) :
    Effect prog w (.processReply id) ((w.withTracker t).deliver id m (.processed r)) := by
  obtain ⟨info, tracked, hcase⟩ := handleReplyHook_cases hook
  rcases hcase with ⟨hs, rfl⟩ | ⟨hs, rfl⟩ | ⟨hd, hr, rfl⟩
  · exact .depositCompleted message executed origin tracked hs
  · exact .returnCompleted message executed origin tracked hs
  · exact .answerIgnored message executed (.inr (.inl ⟨k, info, origin, tracked, hd, hr⟩))

theorem processReply_effect {id : MessageId} (h : processReply prog w id = some w') :
    Effect prog w (.processReply id) w' := by
  unfold processReply at h
  split at h
  · contradiction
  rename_i m message
  split at h
  · rename_i r executed
    split at h
    · rename_i hooked
      split at h
      · rename_i hook
        cases h; exact .hookPanicked message executed hook
      · rename_i w₁ hook
        cases h
        unfold runHook at hook
        split at hook
        · rename_i k origin
          obtain ⟨t, ht, rfl⟩ := Option.map_eq_some_iff.mp hook
          exact vftAnswered_effect message executed (.inl origin) ht
        · rename_i k origin
          obtain ⟨t, ht, rfl⟩ := Option.map_eq_some_iff.mp hook
          exact vftAnswered_effect message executed (.inr origin) ht
        · rename_i k origin
          obtain ⟨t, ht, rfl⟩ := Option.map_eq_some_iff.mp hook
          obtain ⟨info, tracked, hcase⟩ := handleBridgeReplyHook_cases ht
          rcases hcase with ⟨hs, nonce, rfl, refused, queued⟩ | ⟨hs, rfl⟩
          · exact .bridgeAnswered message executed origin tracked hs refused queued
          · exact .answerIgnored message executed (.inr (.inr ⟨k, info, origin, tracked, hs⟩))
        · rename_i key origin
          obtain ⟨t, ht, rfl⟩ := Option.map_eq_some_iff.mp hook
          exact .receiptAnswered message executed origin hooked ht
    · rename_i hooked
      cases h; exact .answerIgnored message executed (.inl (by simpa using hooked))
  · contradiction

/-- The refund branch either panics or leaves a refund under way. -/
theorem requestRefund_eq {e : MessageId} {l : RequestLocals} {err : Error} {sendOk : Bool}
    (h : requestRefund prog w e l err sendOk = some w') :
    (0 < w.config.replyTimeout ∧ 0 < w.config.gasForReplyDeposit) ∧
    w' = ((w.withTracker
      (w.tracker.updateMessageStatus l.msgId .sendingMessageToReturnTokens)).post
      (refundMessage prog l.msgId l.details true)).suspend e ⟨.refund l err, w.nextId, true⟩ := by
  unfold requestRefund at h
  simp only at h
  split at h
  · contradiction
  rename_i w₁ id hsend
  cases h
  rcases World.sendForReply_cases hsend with ⟨-, hr⟩ | ⟨-, -, e, hr⟩ | ⟨ht, hg, rfl, hr⟩
  · contradiction
  · contradiction
  · cases hr; exact ⟨⟨ht, hg⟩, rfl⟩

theorem resumeDeposit_effect {e : MessageId} {timeout sendOk refundSendOk : Bool} {x : Execution}
    {l : RequestLocals} {awaited : Except Error Unit} (hx : w.executions e = some x)
    (wait : x.wait = .deposit l)
    (h : resumeDeposit prog w e l awaited sendOk refundSendOk = some w') :
    Effect prog w (.resume e timeout sendOk refundSendOk) w' := by
  unfold resumeDeposit at h
  split at h
  · contradiction
  split at h
  · contradiction
  rename_i fetch
  obtain ⟨info, tracked, hs⟩ := fetchDepositResult_ok fetch
  simp only at h
  split at h
  · rename_i w₁ err hsend
    obtain ⟨⟨ht, hg⟩, rfl⟩ := requestRefund_eq h
    rcases World.sendForReply_cases hsend with ⟨rfl, -⟩ | ⟨hc, rfl, -⟩ | ⟨-, -, -, hr⟩
    · rw [World.withTracker_tracker, MessageTracker.updateMessageStatus_twice]
      exact .refundUnbridged hx wait tracked hs
    · simp only [World.post_config, World.withTracker_config] at ht hg hc
      omega
    · contradiction
  · rename_i w₁ id hsend
    cases h
    rcases World.sendForReply_cases hsend with ⟨-, hr⟩ | ⟨-, -, e, hr⟩ | ⟨-, -, rfl, hr⟩
    · contradiction
    · contradiction
    · cases hr; exact .bridging hx wait tracked hs

theorem resumeBuiltin_effect {e : MessageId} {timeout sendOk refundSendOk : Bool} {x : Execution}
    {l : RequestLocals} {awaited : Except Error Unit} (hx : w.executions e = some x)
    (wait : x.wait = .builtin l) (hawait : w.awaitReply x.awaited timeout = some awaited)
    (h : resumeBuiltin prog w e l awaited refundSendOk = some w') :
    Effect prog w (.resume e timeout sendOk refundSendOk) w' := by
  have hprocessed : timeout = true ∨ ∃ m r, w.messages x.awaited = some m ∧
      m.delivery = .processed r ∧ (awaited ≠ .ok () → r = .error) := by
    unfold World.awaitReply at hawait
    split at hawait
    · rename_i ht; exact .inl ht
    · split at hawait
      · rename_i m hm
        split at hawait <;> grind
      · contradiction
  unfold resumeBuiltin at h
  split at h
  · rename_i err
    obtain ⟨-, rfl⟩ := requestRefund_eq h
    refine .refundFailed hx wait ?_
    rcases hprocessed with ht | ⟨m, r, hm, hr, herr⟩
    · exact .inl ht
    · exact .inr ⟨m, r, hm, hr, .inl (herr (by simp))⟩
  · rcases fetchBridgeResult_cases w.tracker l.msgId with
      ⟨nonce, info, hinfo, hs, hfetch⟩ | ⟨hne, err, hfetch⟩
    · rw [hfetch] at h
      cases h
      exact .bridged hx wait hinfo hs
    · rw [hfetch] at h
      obtain ⟨-, rfl⟩ := requestRefund_eq h
      refine .refundFailed hx wait ?_
      rcases hprocessed with ht | ⟨m, r, hm, hr, -⟩
      · exact .inl ht
      · exact .inr ⟨m, r, hm, hr, .inr hne⟩

theorem resume_effect {e : MessageId} {timeout sendOk refundSendOk : Bool}
    (h : resume prog w e timeout sendOk refundSendOk = some w') :
    Effect prog w (.resume e timeout sendOk refundSendOk) w' := by
  unfold resume at h
  split at h
  · contradiction
  rename_i x hx
  split at h
  · contradiction
  rename_i awaited hawait
  split at h
  · cases h; exact .of_trap hx
  rename_i w₁ hrun
  cases h
  unfold runSegment at hrun
  split at hrun
  · rename_i l wait; exact resumeDeposit_effect hx wait hrun
  · rename_i l wait; exact resumeBuiltin_effect hx wait hawait hrun
  · unfold resumeRefund at hrun
    split at hrun
    · contradiction
    split at hrun
    · contradiction
    cases hrun
    exact .of_finish rfl (fun _ => rfl) rfl le_rfl rfl rfl
  · cases hrun
    unfold resumeRecovery
    split
    · exact .of_finish rfl (fun _ => rfl) rfl le_rfl rfl rfl
    split <;> exact .of_finish rfl (fun _ => rfl) rfl le_rfl rfl rfl
  · cases hrun
    unfold resumeReceipt
    split <;> exact .of_finish rfl (fun _ => rfl) rfl le_rfl rfl rfl

theorem handleSignal_effect {e : MessageId} (h : handleSignal w e = some w') :
    Effect prog w (.handleSignal e) w' := by
  unfold handleSignal at h
  split at h
  · rename_i signal
    have hframe : Effect prog w (.handleSignal e) { w with signals := w.signals.erase e } :=
      .quiet rfl (fun _ => rfl) rfl le_rfl (fun _ _ hx => hx) fun _ he => .inl (List.mem_of_mem_erase he)
    simp only at h
    split at h
    · cases h; exact hframe
    · rename_i t hook
      cases h
      unfold criticalHook at hook
      rw [MessageTracker.getMessageInfo_eq] at hook
      split at hook
      · contradiction
      · rename_i info hinfo
        split at hook
        · rename_i hs
          cases hook
          exact .signalled signal hinfo hs
        · cases hook; exact hframe
  · contradiction

/-- **Inversion**: every step has one of the effects listed. -/
theorem step_effect {a : Action} (h : step prog w a = some w') : Effect prog w a w' := by
  cases a with
  | requestBridging args sendOk => exact requestBridging_effect h
  | handleInterruptedTransfer msgId sendOk => exact handleInterruptedTransfer_effect h
  | submitReceipt sender key receipt sendOk =>
      cases h
      exact submitReceipt_effect
  | admin sender call =>
      obtain ⟨sc, -, rfl⟩ := Option.map_eq_some_iff.mp h
      exact .quiet rfl (fun _ => rfl) rfl (Nat.le_succ _) (fun _ _ hx => hx) fun _ he => .inl he
  | execute id reply => exact execute_effect h
  | processReply id => exact processReply_effect h
  | resume e timeout sendOk refundSendOk => exact resume_effect h
  | trap e =>
      obtain ⟨x, hx, rfl⟩ := Option.map_eq_some_iff.mp h
      exact .of_trap hx
  | handleSignal e => exact handleSignal_effect h

/-! ## the state of the service -/

/-- Not a call of the governance. -/
def Action.ungoverned : Action → Bool
  | .admin .. => false
  | _ => true

@[simp] theorem World.sendForReply_state (w : World) (sendOk : Bool) (destination : ActorId)
    (value : Nat) (call : Call) (origin : Origin) :
    (w.sendForReply sendOk destination value call origin).1.state = w.state := by
  unfold sendForReply
  split
  · rfl
  split
  · rfl
  split <;> rfl

theorem sendForReply_state_of_eq {sendOk : Bool} {destination : ActorId} {value : Nat}
    {call : Call} {origin : Origin} {r : Except Error MessageId}
    (h : w.sendForReply sendOk destination value call origin = (w', r)) : w'.state = w.state := by
  rw [← World.sendForReply_state w sendOk destination value call origin, h]

theorem requestBridging_state {args : RequestArgs} {sendOk : Bool}
    (h : requestBridging prog w args sendOk = some w') : w'.state = w.state := by
  unfold requestBridging at h
  simp only at h
  repeat' split at h
  all_goals cases h
  · rfl
  · rfl
  · rfl
  · rename_i hsend
    exact (sendForReply_state_of_eq hsend :)

theorem handleInterruptedTransfer_state {msgId : MessageId} {sendOk : Bool}
    (h : handleInterruptedTransfer prog w msgId sendOk = some w') : w'.state = w.state := by
  unfold handleInterruptedTransfer at h
  simp only at h
  repeat' split at h
  all_goals cases h
  · rfl
  · rename_i hsend
    exact (sendForReply_state_of_eq hsend :)
  · rename_i hsend
    exact (sendForReply_state_of_eq hsend :)

theorem submitReceipt_state (sender : ActorId) (key : TxKey) (receipt : Option Receipt)
    (sendOk : Bool) : (submitReceipt prog w sender key receipt sendOk).state = w.state := by
  simp only [submitReceipt]
  split
  · rfl
  · split
    · rename_i hsend
      exact (sendForReply_state_of_eq hsend :)
    · rename_i hsend
      exact (sendForReply_state_of_eq hsend :)

theorem execute_state {id : MessageId} {r : Reply} (h : execute w id r = some w') :
    w'.state = w.state := by
  unfold execute at h
  repeat' split at h
  all_goals cases h
  rfl

theorem runHook_state {m : Message} {r : Reply} (h : runHook prog w m r = some w') :
    w'.state = w.state := by
  unfold runHook at h
  split at h
  all_goals
    obtain ⟨t, -, rfl⟩ := Option.map_eq_some_iff.mp h
    rfl

theorem processReply_state {id : MessageId} (h : processReply prog w id = some w') :
    w'.state = w.state := by
  unfold processReply at h
  repeat' split at h
  all_goals cases h
  · rfl
  · rename_i hhook
    exact (runHook_state hhook :)
  · rfl

theorem requestRefund_state {e : MessageId} {l : RequestLocals} {err : Error} {sendOk : Bool}
    (h : requestRefund prog w e l err sendOk = some w') : w'.state = w.state := by
  obtain ⟨-, rfl⟩ := requestRefund_eq h
  rfl

theorem resumeDeposit_state {e : MessageId} {l : RequestLocals} {awaited : Except Error Unit}
    {sendOk refundSendOk : Bool}
    (h : resumeDeposit prog w e l awaited sendOk refundSendOk = some w') : w'.state = w.state := by
  unfold resumeDeposit at h
  split at h
  · contradiction
  split at h
  · contradiction
  simp only at h
  split at h
  · rename_i hsend
    exact ((requestRefund_state h).trans (sendForReply_state_of_eq hsend) :)
  · rename_i hsend
    cases h
    exact (sendForReply_state_of_eq hsend :)

theorem resumeBuiltin_state {e : MessageId} {l : RequestLocals} {awaited : Except Error Unit}
    {refundSendOk : Bool} (h : resumeBuiltin prog w e l awaited refundSendOk = some w') :
    w'.state = w.state := by
  unfold resumeBuiltin at h
  split at h
  · exact requestRefund_state h
  split at h
  · exact (requestRefund_state h :)
  · cases h
    rfl

theorem runSegment_state {e : MessageId} {x : Execution} {awaited : Except Error Unit}
    {sendOk refundSendOk : Bool}
    (h : runSegment prog w e x awaited sendOk refundSendOk = some w') : w'.state = w.state := by
  unfold runSegment at h
  split at h
  · exact resumeDeposit_state h
  · exact resumeBuiltin_state h
  · unfold resumeRefund at h
    repeat' split at h
    all_goals cases h
    rfl
  · cases h
    unfold resumeRecovery
    repeat' split
    all_goals rfl
  · cases h
    unfold resumeReceipt
    split <;> rfl

theorem resume_state {e : MessageId} {timeout sendOk refundSendOk : Bool}
    (h : resume prog w e timeout sendOk refundSendOk = some w') : w'.state = w.state := by
  unfold resume at h
  repeat' split at h
  all_goals cases h
  · rfl
  · rename_i hrun
    exact runSegment_state hrun

theorem handleSignal_state {e : MessageId} (h : handleSignal w e = some w') :
    w'.state = w.state := by
  unfold handleSignal at h
  simp only at h
  repeat' split at h
  all_goals cases h
  · rfl
  · rfl

/-- Only the governance changes the state of the service. -/
theorem step_state {a : Action} (h : step prog w a = some w') (ha : a.ungoverned = true) :
    w'.state = w.state := by
  cases a with
  | requestBridging args sendOk => exact requestBridging_state h
  | handleInterruptedTransfer msgId sendOk => exact handleInterruptedTransfer_state h
  | submitReceipt sender key receipt sendOk =>
      cases h
      exact submitReceipt_state sender key receipt sendOk
  | admin sender call => contradiction
  | execute id reply => exact execute_state h
  | processReply id => exact processReply_state h
  | resume e timeout sendOk refundSendOk => exact resume_state h
  | trap e =>
      obtain ⟨x, -, rfl⟩ := Option.map_eq_some_iff.mp h
      rfl
  | handleSignal e => exact handleSignal_state h

end GearBridges.VftManager
