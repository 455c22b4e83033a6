import GearBridges.VftManager.Types

/-!
# VftManager.MsgTracker

The message tracker: the state machine kept for every `request_bridging` call,
under the id of the message that made the call.
-/

namespace GearBridges.VftManager

/-- State in which message processing can be. -/
inductive MessageStatus where
  /-- Message to deposit tokens is sent. -/
  | sendingMessageToDepositTokens
  /-- Reply is received for a token deposit message. -/
  | tokenDepositCompleted (success : Bool)
  /-- Message to the bridge builtin is sent. -/
  | sendingMessageToBridgeBuiltin
  /-- Reply is received for a message to the bridge builtin. -/
  | bridgeResponseReceived (nonce : Option U256)
  /-- Message to refund tokens is sent. -/
  | sendingMessageToReturnTokens
  /-- Reply is received for a token refund message. -/
  | tokensReturnComplete (success : Bool)
deriving DecidableEq, Repr

/-- The refund phase: a refund is being sent or has been answered. -/
def MessageStatus.refunding : MessageStatus → Bool
  | .sendingMessageToReturnTokens | .tokensReturnComplete _ => true
  | _ => false

/-- Details about a request associated with a tracked message. -/
structure TxDetails where
  varaTokenId : ActorId
  sender : ActorId
  amount : U256
  receiver : H160
  tokenSupply : TokenSupply
deriving DecidableEq, Repr

/-- Entry for a single message. -/
structure MessageInfo where
  status : MessageStatus
  details : TxDetails
deriving DecidableEq, Repr

/-- The message tracker. -/
structure MessageTracker where
  messageInfo : MessageId → Option MessageInfo

namespace MessageTracker

/-- `MessageTracker::default`. -/
def empty : MessageTracker := ⟨fun _ => none⟩

/-- Start tracking the state of a message. -/
def insertMessageInfo (t : MessageTracker) (msgId : MessageId) (status : MessageStatus)
    (details : TxDetails) : MessageTracker :=
  ⟨Function.update t.messageInfo msgId (some ⟨status, details⟩)⟩

/-- Drive the state machine further; an untracked message is left alone. -/
def updateMessageStatus (t : MessageTracker) (msgId : MessageId) (status : MessageStatus) :
    MessageTracker :=
  ⟨Function.update t.messageInfo msgId
    ((t.messageInfo msgId).map fun info => { info with status := status })⟩

/-- Current state of a tracked message. -/
def getMessageInfo (t : MessageTracker) (msgId : MessageId) : Option MessageInfo :=
  t.messageInfo msgId

/-- Stop tracking a message. -/
def removeMessageInfo (t : MessageTracker) (msgId : MessageId) : MessageTracker :=
  ⟨Function.update t.messageInfo msgId none⟩

/-! ## what is stored after each operation -/

@[simp] theorem messageInfo_empty (k : MessageId) : empty.messageInfo k = none := rfl

@[simp] theorem getMessageInfo_eq (t : MessageTracker) (k : MessageId) :
    t.getMessageInfo k = t.messageInfo k := rfl

theorem messageInfo_insertMessageInfo (t : MessageTracker) (msgId k : MessageId)
    (status : MessageStatus) (details : TxDetails) :
    (t.insertMessageInfo msgId status details).messageInfo k =
      if k = msgId then some ⟨status, details⟩ else t.messageInfo k := by
  simp [insertMessageInfo, Function.update_apply]

theorem messageInfo_updateMessageStatus (t : MessageTracker) (msgId k : MessageId)
    (status : MessageStatus) :
    (t.updateMessageStatus msgId status).messageInfo k =
      if k = msgId then (t.messageInfo k).map fun info => { info with status := status }
      else t.messageInfo k := by
  by_cases hk : k = msgId
  · subst hk; simp [updateMessageStatus]
  · simp [updateMessageStatus, hk]

/-- An entry found after a status update was there before it, with the same
details. -/
theorem messageInfo_updateMessageStatus_some {t : MessageTracker} {msgId k : MessageId}
    {status : MessageStatus} {info : MessageInfo} :
    (t.updateMessageStatus msgId status).messageInfo k = some info ↔
      (k ≠ msgId ∧ t.messageInfo k = some info) ∨
      (k = msgId ∧ ∃ info₀, t.messageInfo k = some info₀ ∧ ⟨status, info₀.details⟩ = info) := by
  rw [messageInfo_updateMessageStatus]
  by_cases hk : k = msgId <;> simp [hk]

theorem messageInfo_updateMessageStatus_none {t : MessageTracker} {msgId k : MessageId}
    {status : MessageStatus} :
    (t.updateMessageStatus msgId status).messageInfo k = none ↔ t.messageInfo k = none := by
  rw [messageInfo_updateMessageStatus]
  by_cases hk : k = msgId <;> simp [hk]

/-- Only the last status written counts. -/
theorem updateMessageStatus_twice (t : MessageTracker) (msgId : MessageId)
    (status status' : MessageStatus) :
    (t.updateMessageStatus msgId status).updateMessageStatus msgId status' =
      t.updateMessageStatus msgId status' := by
  simp only [updateMessageStatus, Function.update_self, Function.update_idem, Option.map_map]
  rfl

/-- Writing the status a message already has changes nothing. -/
theorem updateMessageStatus_self {t : MessageTracker} {msgId : MessageId} {info : MessageInfo}
    (h : t.messageInfo msgId = some info) : t.updateMessageStatus msgId info.status = t := by
  unfold updateMessageStatus
  rw [h, Option.map_some, ← h, Function.update_eq_self]

theorem messageInfo_removeMessageInfo (t : MessageTracker) (msgId k : MessageId) :
    (t.removeMessageInfo msgId).messageInfo k = if k = msgId then none else t.messageInfo k := by
  simp [removeMessageInfo, Function.update_apply]

end MessageTracker

end GearBridges.VftManager
