import GearBridges.VftManager.Runtime

/-!
# VftManager.RequestBridging

The Gear → Ethereum direction: `request_bridging`, cut into the segments between
its wait points, the recovery entry point `handle_interrupted_transfer`, the
reply hooks that drive the message tracker, and the critical hook.
-/

namespace GearBridges.VftManager

/-! ## decoding of replies -/

/-- Decode a reply without payload. -/
def decodeUnit (e : Error) : Reply → Except Error Bool
  | .unit => .ok true
  | _ => .error e

/-- Decode a reply that carries a `bool`. -/
def decodeBool (e : Error) : Reply → Except Error Bool
  | .bool b => .ok b
  | _ => .error e

def decodeBurnReply := decodeUnit .burnTokensDecode
def decodeLockReply := decodeBool .transferFromDecode
def decodeMintReply := decodeUnit .mintTokensDecode
def decodeUnlockReply := decodeBool .transferFromDecode

/-- Decode the reply of the bridge builtin. -/
def decodeBridgeReply : Reply → Except Error (Option U256)
  | .ethMessageQueued nonce => .ok (some nonce)
  | _ => .error .builtinDecode

/-- `Result::unwrap_or(false)`. -/
def unwrapOrFalse : Except Error Bool → Bool
  | .ok b => b
  | .error _ => false

/-! ## token operations -/

/-- The call of `burn` or `lock`: take the tokens from the sender. -/
def depositCall (prog : Program) (d : TxDetails) : Call :=
  match d.tokenSupply with
  | .ethereum => .burn d.sender d.amount
  | .gear => .transferFrom d.sender prog.programId d.amount

/-- The call of `mint` or `unlock`: give the tokens back to the sender. -/
def refundCall (prog : Program) (d : TxDetails) : Call :=
  match d.tokenSupply with
  | .ethereum => .mint d.sender d.amount
  | .gear => .transferFrom prog.programId d.sender d.amount

/-- Result of the message sent to deposit tokens. -/
def fetchDepositResult (t : MessageTracker) (msgId : MessageId) : Except Error Unit :=
  match t.messageInfo msgId with
  | some info => match info.status with
    | .tokenDepositCompleted true => .ok ()
    | .tokenDepositCompleted false => .error .messageFailed
    | _ => .error .invalidMessageStatus
  | none => .error .messageNotFound

theorem fetchDepositResult_ok {t : MessageTracker} {msgId : MessageId}
    (h : fetchDepositResult t msgId = .ok ()) :
    ∃ info, t.messageInfo msgId = some info ∧ info.status = .tokenDepositCompleted true := by
  unfold fetchDepositResult at h
  cases hi : t.messageInfo msgId with
  | none => simp [hi] at h
  | some info =>
      refine ⟨info, rfl, ?_⟩
      cases hs : info.status with
      | tokenDepositCompleted b => cases b <;> simp [hi, hs] at h ⊢
      | _ => simp [hi, hs] at h

/-- Result of the message sent to withdraw tokens. -/
def fetchWithdrawResult (t : MessageTracker) (msgId : MessageId) : Except Error Unit :=
  match t.messageInfo msgId with
  | some info => match info.status with
    | .tokensReturnComplete true => .ok ()
    | .tokensReturnComplete false => .error .messageFailed
    | _ => .error .invalidMessageStatus
  | none => .error .messageNotFound

/-- What the hook makes of the reply to a deposit. -/
def depositReply (d : TxDetails) (r : Reply) : Bool :=
  unwrapOrFalse (match d.tokenSupply with
    | .ethereum => decodeBurnReply r
    | .gear => decodeLockReply r)

/-- What the hook makes of the reply to a refund. -/
def refundReply (d : TxDetails) (r : Reply) : Bool :=
  unwrapOrFalse (match d.tokenSupply with
    | .ethereum => decodeMintReply r
    | .gear => decodeUnlockReply r)

/-- Handle a reply received from a `VFT` program; `none` is a panic. -/
def handleReplyHook (t : MessageTracker) (msgId : MessageId) (reply : Reply) :
    Option MessageTracker :=
  match t.getMessageInfo msgId with
  | none => none
  | some info => match info.status with
    | .sendingMessageToDepositTokens =>
        some (t.updateMessageStatus msgId
          (.tokenDepositCompleted (depositReply info.details reply)))
    | .sendingMessageToReturnTokens =>
        some (t.updateMessageStatus msgId
          (.tokensReturnComplete (refundReply info.details reply)))
    | _ => some t

/-- A refund that the `VFT` program has executed is told from one that it has
refused. -/
theorem refundReply_eq {prog : Program} {d : TxDetails} {r : Reply}
    (h : (refundCall prog d).admits r = true) : refundReply d r = r.isSuccess := by
  unfold refundCall at h
  unfold refundReply
  cases hs : d.tokenSupply with
  | ethereum => cases r <;> simp_all [Call.admits, Reply.isSuccess, decodeMintReply, decodeUnit,
      unwrapOrFalse]
  | gear =>
      cases r with
      | bool b => cases b <;> rfl
      | _ => simp_all [Call.admits, Reply.isSuccess, decodeUnlockReply, decodeBool, unwrapOrFalse]

/-- A deposit that the `VFT` program has executed is told from one that it has
refused. -/
theorem depositReply_eq {prog : Program} {d : TxDetails} {r : Reply}
    (h : (depositCall prog d).admits r = true) : depositReply d r = r.isSuccess := by
  unfold depositCall at h
  unfold depositReply
  cases hs : d.tokenSupply with
  | ethereum => cases r <;> simp_all [Call.admits, Reply.isSuccess, decodeBurnReply, decodeUnit,
      unwrapOrFalse]
  | gear =>
      cases r with
      | bool b => cases b <;> rfl
      | _ => simp_all [Call.admits, Reply.isSuccess, decodeLockReply, decodeBool, unwrapOrFalse]

/-- The hook answers a pending deposit or a pending refund and ignores replies
that come in any other status. -/
theorem handleReplyHook_cases {t t' : MessageTracker} {msgId : MessageId} {r : Reply}
    (h : handleReplyHook t msgId r = some t') :
    ∃ info, t.messageInfo msgId = some info ∧
      ((info.status = .sendingMessageToDepositTokens ∧
          t' = t.updateMessageStatus msgId (.tokenDepositCompleted (depositReply info.details r))) ∨
        (info.status = .sendingMessageToReturnTokens ∧
          t' = t.updateMessageStatus msgId (.tokensReturnComplete (refundReply info.details r))) ∨
        (info.status ≠ .sendingMessageToDepositTokens ∧
          info.status ≠ .sendingMessageToReturnTokens ∧ t' = t)) := by
  unfold handleReplyHook at h
  rw [MessageTracker.getMessageInfo_eq] at h
  cases hi : t.messageInfo msgId with
  | none => simp [hi] at h
  | some info =>
      rw [hi] at h
      refine ⟨info, rfl, ?_⟩
      cases hs : info.status with
      | sendingMessageToDepositTokens =>
          simp only [hs, Option.some.injEq] at h
          exact .inl ⟨rfl, h.symm⟩
      | sendingMessageToReturnTokens =>
          simp only [hs, Option.some.injEq] at h
          exact .inr (.inl ⟨rfl, h.symm⟩)
      | _ =>
          simp only [hs, Option.some.injEq] at h
          exact .inr (.inr ⟨by simp, by simp, h.symm⟩)

/-- The hook panics only for a request that is not tracked. -/
theorem handleReplyHook_ne_none {t : MessageTracker} {msgId : MessageId} {info : MessageInfo}
    (h : t.messageInfo msgId = some info) (r : Reply) : handleReplyHook t msgId r ≠ none := by
  unfold handleReplyHook
  rw [MessageTracker.getMessageInfo_eq, h]
  cases hs : info.status <;> simp [hs]

/-! ## bridge builtin operations -/

/-- Handle a reply received from the bridge builtin; `none` is a panic. -/
def handleBridgeReplyHook (t : MessageTracker) (msgId : MessageId) (reply : Reply) :
    Option MessageTracker :=
  match t.getMessageInfo msgId with
  | none => none
  | some info =>
      if info.status = .sendingMessageToBridgeBuiltin then
        -- `decode_bridge_reply(..).ok().flatten()`
        let reply := match decodeBridgeReply reply with
          | .ok nonce => nonce
          | .error _ => none
        some (t.updateMessageStatus msgId (.bridgeResponseReceived reply))
      else some t

/-- The part of `send_message_to_bridge_builtin` after its `await`. -/
def fetchBridgeResult (t : MessageTracker) (msgId : MessageId) :
    MessageTracker × Except Error U256 :=
  match t.getMessageInfo msgId with
  | some info => match info.status with
    | .bridgeResponseReceived (some nonce) => (t.removeMessageInfo msgId, .ok nonce)
    | .bridgeResponseReceived none => (t, .error .messageFailed)
    | _ => (t, .error .invalidMessageStatus)
  | none => (t, .error .messageNotFound)

/-- The hook records the answer to a pending bridge request and ignores replies
that come in any other status. -/
theorem handleBridgeReplyHook_cases {t t' : MessageTracker} {msgId : MessageId} {r : Reply}
    (h : handleBridgeReplyHook t msgId r = some t') :
    ∃ info, t.messageInfo msgId = some info ∧
      ((info.status = .sendingMessageToBridgeBuiltin ∧ ∃ nonce,
          t' = t.updateMessageStatus msgId (.bridgeResponseReceived nonce) ∧
          (nonce = none → ∀ n, r ≠ .ethMessageQueued n) ∧
          (nonce ≠ none → ∃ n, r = .ethMessageQueued n)) ∨
        (info.status ≠ .sendingMessageToBridgeBuiltin ∧ t' = t)) := by
  unfold handleBridgeReplyHook at h
  rw [MessageTracker.getMessageInfo_eq] at h
  cases hi : t.messageInfo msgId with
  | none => simp [hi] at h
  | some info =>
      rw [hi] at h
      refine ⟨info, rfl, ?_⟩
      by_cases hs : info.status = .sendingMessageToBridgeBuiltin
      · simp only [hs, if_true, Option.some.injEq] at h
        exact .inl ⟨hs, _, h.symm, by cases r <;> simp [decodeBridgeReply],
          by cases r <;> simp [decodeBridgeReply]⟩
      · simp only [hs, if_false, Option.some.injEq] at h
        exact .inr ⟨hs, h.symm⟩

/-- The hook panics only for a request that is not tracked. -/
theorem handleBridgeReplyHook_ne_none {t : MessageTracker} {msgId : MessageId}
    {info : MessageInfo} (h : t.messageInfo msgId = some info) (r : Reply) :
    handleBridgeReplyHook t msgId r ≠ none := by
  unfold handleBridgeReplyHook
  rw [MessageTracker.getMessageInfo_eq, h]
  by_cases hs : info.status = .sendingMessageToBridgeBuiltin <;> simp [hs]

/-- Either the builtin has queued the message, and the request is no longer
tracked, or the tracker stays and an error is returned. -/
theorem fetchBridgeResult_cases (t : MessageTracker) (msgId : MessageId) :
    (∃ nonce info, t.messageInfo msgId = some info ∧
      info.status = .bridgeResponseReceived (some nonce) ∧
      fetchBridgeResult t msgId = (t.removeMessageInfo msgId, .ok nonce)) ∨
    ((∀ info nonce, t.messageInfo msgId = some info →
      info.status ≠ .bridgeResponseReceived (some nonce)) ∧
      ∃ e, fetchBridgeResult t msgId = (t, .error e)) := by
  unfold fetchBridgeResult
  rw [MessageTracker.getMessageInfo_eq]
  cases h : t.messageInfo msgId with
  | none => exact .inr ⟨fun info nonce hi => by contradiction, _, rfl⟩
  | some info =>
      obtain ⟨status, details⟩ := info
      cases status with
      | bridgeResponseReceived nonce =>
          cases nonce with
          | none => exact .inr ⟨fun info nonce hi hs => (by cases hi; cases hs), _, rfl⟩
          | some nonce => exact .inl ⟨nonce, _, rfl, rfl, rfl⟩
      | _ => exact .inr ⟨fun info nonce hi hs => (by cases hi; cases hs), _, rfl⟩

/-! ## request_bridging -/

/-- Arguments of a `request_bridging` call, with its sender and value. -/
structure RequestArgs where
  sender : ActorId
  value : Nat
  varaTokenId : ActorId
  amount : U256
  receiver : H160

/-- First segment, up to the `await` in `burn`/`lock`; `none` is a panic. -/
def requestBridging (prog : Program) (w : World) (args : RequestArgs) (sendOk : Bool) :
    Option World :=
  let msgId := w.nextId
  let w := w.bump
  if w.state.isPaused then some (w.finish msgId (.failed .paused))
  else if args.value ≠ w.config.feeIncoming then none
  else match w.state.tokenMap.getEthTokenId args.varaTokenId with
    | .error e => some (w.finish msgId (.failed e))
    | .ok ethTokenId =>
      match w.state.tokenMap.getSupplyType args.varaTokenId with
      | .error e => some (w.finish msgId (.failed e))
      | .ok supplyType =>
        let details : TxDetails :=
          ⟨args.varaTokenId, args.sender, args.amount, args.receiver, supplyType⟩
        let w := w.withTracker
          (w.tracker.insertMessageInfo msgId .sendingMessageToDepositTokens details)
        match w.sendForReply sendOk details.varaTokenId 0 (depositCall prog details)
            (.deposit msgId) with
        | (_, .error _) => none
        | (w, .ok id) => some (w.suspend msgId ⟨.deposit ⟨msgId, ethTokenId, details⟩, id, false⟩)

/-- The refund branch of `request_bridging`, entered with the error `e` of the
bridge request and left at the `await` in `mint`/`unlock`; `none` is a panic. -/
def requestRefund (prog : Program) (w : World) (exec : MessageId) (l : RequestLocals) (e : Error)
    (sendOk : Bool) : Option World :=
  let w := w.withTracker (w.tracker.updateMessageStatus l.msgId .sendingMessageToReturnTokens)
  match w.sendForReply sendOk l.details.varaTokenId 0 (refundCall prog l.details)
      (.refund l.msgId) with
  | (_, .error _) => none
  | (w, .ok id) => some (w.suspend exec ⟨.refund l e, id, true⟩)

/-- Second segment: the deposit has been answered (or has timed out), the bridge
builtin is called; `none` is a panic. -/
def resumeDeposit (prog : Program) (w : World) (exec : MessageId) (l : RequestLocals)
    (awaited : Except Error Unit) (sendOk refundSendOk : Bool) : Option World :=
  match awaited with
  | .error _ => none
  | .ok _ => match fetchDepositResult w.tracker l.msgId with
    | .error _ => none
    | .ok _ =>
      let payload : Payload := ⟨l.details.receiver, l.ethTokenId, l.details.amount⟩
      let w := w.withTracker (w.tracker.updateMessageStatus l.msgId .sendingMessageToBridgeBuiltin)
      match w.sendForReply sendOk w.state.gearBridgeBuiltin w.config.feeBridge
          (.sendEthMessage w.state.erc20ManagerAddress payload.pack) (.builtin l.msgId) with
      | (w, .error e) => requestRefund prog w exec l e refundSendOk
      | (w, .ok id) => some (w.suspend exec ⟨.builtin l, id, false⟩)

/-- Third segment: the bridge builtin has answered (or has timed out); `none`
is a panic. -/
def resumeBuiltin (prog : Program) (w : World) (exec : MessageId) (l : RequestLocals)
    (awaited : Except Error Unit) (refundSendOk : Bool) : Option World :=
  match awaited with
  | .error e => requestRefund prog w exec l e refundSendOk
  | .ok _ => match fetchBridgeResult w.tracker l.msgId with
    | (t, .error e) => requestRefund prog (w.withTracker t) exec l e refundSendOk
    | (t, .ok nonce) => some ((w.withTracker t).finish exec (.bridged nonce l.ethTokenId))

/-- Last segment of the refund branch; `none` is a panic. -/
def resumeRefund (w : World) (exec : MessageId) (l : RequestLocals) (e : Error)
    (awaited : Except Error Unit) : Option World :=
  match awaited with
  | .error _ => none
  | .ok _ => match fetchWithdrawResult w.tracker l.msgId with
    | .error _ => none
    | .ok _ => some (w.finish exec (.failed e))

/-- The closure given to `critical::set_hook`; `none` is a panic. -/
def criticalHook (t : MessageTracker) (msgId : MessageId) : Option MessageTracker :=
  match t.getMessageInfo msgId with
  | none => none
  | some info =>
      if info.status = .sendingMessageToBridgeBuiltin then
        some (t.updateMessageStatus msgId .sendingMessageToReturnTokens)
      else some t

/-! ## handle_request_bridging_interrupted_transfer -/

/-- The match on the status: the tracker to go on with, or a panic. -/
def enterRecovery (t : MessageTracker) (msgId : MessageId) (status : MessageStatus) :
    Option MessageTracker :=
  match status with
  | .tokenDepositCompleted true | .bridgeResponseReceived none | .tokensReturnComplete false =>
      some (t.updateMessageStatus msgId .sendingMessageToReturnTokens)
  | .sendingMessageToReturnTokens => some t
  | _ => none

/-- The statuses in which a refund may be sent by the recovery entry point. -/
def MessageStatus.recoverable : MessageStatus → Bool
  | .tokenDepositCompleted true | .bridgeResponseReceived none | .tokensReturnComplete false
  | .sendingMessageToReturnTokens => true
  | _ => false

/-- Recovery leaves the request in `SendingMessageToReturnTokens`. -/
theorem enterRecovery_eq {t t' : MessageTracker} {msgId : MessageId} {info : MessageInfo}
    (hi : t.messageInfo msgId = some info) (h : enterRecovery t msgId info.status = some t') :
    info.status.recoverable = true ∧
      t' = t.updateMessageStatus msgId .sendingMessageToReturnTokens := by
  unfold enterRecovery at h
  obtain ⟨status, details⟩ := info
  cases status with
  | sendingMessageToReturnTokens =>
      cases h
      exact ⟨rfl, (MessageTracker.updateMessageStatus_self hi).symm⟩
  | tokenDepositCompleted b => cases b <;> cases h; exact ⟨rfl, rfl⟩
  | bridgeResponseReceived nonce => cases nonce <;> cases h; exact ⟨rfl, rfl⟩
  | tokensReturnComplete b => cases b <;> cases h; exact ⟨rfl, rfl⟩
  | _ => cases h

/-- First segment, up to the `await` in `mint`/`unlock`; `none` is a panic. -/
def handleInterruptedTransfer (prog : Program) (w : World) (msgId : MessageId) (sendOk : Bool) :
    Option World :=
  let exec := w.nextId
  let w := w.bump
  if w.state.isPaused then some (w.finish exec (.failed .paused))
  else match w.tracker.getMessageInfo msgId with
    | none => none
    | some info => match enterRecovery w.tracker msgId info.status with
      | none => none
      | some t =>
        match (w.withTracker t).sendForReply sendOk info.details.varaTokenId 0
            (refundCall prog info.details) (.refund msgId) with
        | (w, .error e) => some (w.finish exec (.failed e))
        | (w, .ok id) => some (w.suspend exec ⟨.recovery msgId, id, false⟩)

/-- Last segment. -/
def resumeRecovery (w : World) (exec msgId : MessageId) (awaited : Except Error Unit) : World :=
  match awaited with
  | .error e => w.finish exec (.failed e)
  | .ok _ => match fetchWithdrawResult w.tracker msgId with
    | .error e => w.finish exec (.failed e)
    | .ok _ => w.finish exec .done

end GearBridges.VftManager
