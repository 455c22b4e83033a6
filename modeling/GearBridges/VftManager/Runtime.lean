import GearBridges.VftManager.MsgTracker
import Mathlib.Data.Prod.Lex
import Mathlib.Data.Finset.Max
import Mathlib.Tactic.Simps.Basic

/-!
# VftManager.Runtime

What surrounds the program's own state: the messages it has sent to `VFT`
programs and to the bridge builtin, the replies to them, and its suspended
executions.

A message is sent, later executed by its destination (which fixes the reply),
and later still the reply is processed by the program: the reply hook runs
then, before the waiting execution is resumed, and it runs also when that
execution has timed out or trapped meanwhile.
-/

namespace GearBridges.VftManager

/-! ## messages -/

/-- Calls made by the program. -/
inductive Call where
  /-- `VftAdmin::Burn`. -/
  | burn (sender : ActorId) (amount : U256)
  /-- `VftAdmin::Mint`. -/
  | mint (receiver : ActorId) (amount : U256)
  /-- `Vft::TransferFrom`. -/
  | transferFrom (sender receiver : ActorId) (amount : U256)
  /-- `gbuiltin_eth_bridge::Request::SendEthMessage`. -/
  | sendEthMessage (destination : H160) (payload : List UInt8)
deriving DecidableEq, Repr

/-- Replies, as far as the program can tell them apart. -/
inductive Reply where
  /-- Reply of `Burn` and `Mint`. -/
  | unit
  /-- Reply of `TransferFrom`. -/
  | bool (b : Bool)
  /-- `gbuiltin_eth_bridge::Response::EthMessageQueued`. -/
  | ethMessageQueued (nonce : U256)
  /-- A reply without error code whose payload decodes to none of the above. -/
  | other
  /-- A reply with an error code. -/
  | error
deriving DecidableEq, Repr

/-- A reply that the destination of the call may give. -/
def Call.admits : Call → Reply → Bool
  | .burn .., .unit | .mint .., .unit => true
  | .transferFrom .., .bool _ => true
  | .sendEthMessage .., .ethMessageQueued _ => true
  | _, .other | _, .error => true
  | _, _ => false

/-- The call took effect: tokens were burned, minted or transferred, or the
message for Ethereum was queued. -/
def Reply.isSuccess : Reply → Bool
  | .unit | .bool true | .ethMessageQueued _ => true
  | _ => false

/-- Slot and transaction index of an Ethereum transaction, ordered as the
keys of a `BTreeSet<(u64, u64)>` are. -/
abbrev TxKey := ℕ ×ₗ ℕ

/-- What a message was sent for; it fixes what the closure registered as its
reply hook has captured. -/
inductive Origin where
  /-- `burn`/`lock` of a `request_bridging` call. -/
  | deposit (msgId : MessageId)
  /-- `send_message_to_bridge_builtin` of a `request_bridging` call. -/
  | builtin (msgId : MessageId)
  /-- `mint`/`unlock` on behalf of a `request_bridging` call. -/
  | refund (msgId : MessageId)
  /-- `mint`/`unlock` of a `submit_receipt` call. -/
  | receipt (key : TxKey)
deriving DecidableEq

/-- How far a message has come. -/
inductive Delivery where
  /-- Not executed yet. -/
  | sent
  /-- Executed by its destination; the reply is under way. -/
  | executed (reply : Reply)
  /-- The reply has been processed. -/
  | processed (reply : Reply)
  /-- The reply hook panicked, so the reply was never recorded. -/
  | trapped (reply : Reply)
deriving DecidableEq, Repr

/-- The reply given by the destination, once there is one. -/
def Delivery.reply? : Delivery → Option Reply
  | .sent => none
  | .executed r | .processed r | .trapped r => some r

/-- The destination has executed the message successfully. -/
def Delivery.succeeded (d : Delivery) : Bool := d.reply?.any Reply.isSuccess

@[simp] theorem Delivery.succeeded_executed (r : Reply) :
    (Delivery.executed r).succeeded = r.isSuccess := rfl

@[simp] theorem Delivery.succeeded_processed (r : Reply) :
    (Delivery.processed r).succeeded = r.isSuccess := rfl

@[simp] theorem Delivery.succeeded_trapped (r : Reply) :
    (Delivery.trapped r).succeeded = r.isSuccess := rfl

/-- The program has not handled the reply yet. -/
def Delivery.unanswered : Delivery → Bool
  | .sent | .executed _ => true
  | _ => false

/-- A message sent by the program. -/
structure Message where
  destination : ActorId
  value : Nat
  call : Call
  origin : Origin
  /-- A reply hook is registered. -/
  hooked : Bool
  delivery : Delivery
deriving DecidableEq

/-! ## executions -/

/-- Local variables of a `request_bridging` execution that live across its
wait points. -/
structure RequestLocals where
  msgId : MessageId
  ethTokenId : H160
  details : TxDetails
deriving DecidableEq, Repr

/-- The wait point an execution is suspended at. -/
inductive Wait where
  /-- `request_bridging` waits for the reply to `burn`/`lock`. -/
  | deposit (l : RequestLocals)
  /-- `request_bridging` waits for the bridge builtin. -/
  | builtin (l : RequestLocals)
  /-- `request_bridging` waits for `mint`/`unlock`; it will return `e`. -/
  | refund (l : RequestLocals) (e : Error)
  /-- `handle_interrupted_transfer` waits for `mint`/`unlock`. -/
  | recovery (msgId : MessageId)
  /-- `submit_receipt` waits for `mint`/`unlock`. -/
  | receipt
deriving DecidableEq, Repr

/-- A suspended execution. -/
structure Execution where
  wait : Wait
  /-- The message whose reply is awaited. -/
  awaited : MessageId
  /-- A critical hook is set for this execution. -/
  criticalHook : Bool
deriving DecidableEq, Repr

/-- How an execution ended. -/
inductive Outcome where
  /-- `Ok((nonce, eth_token_id))` of `request_bridging`. -/
  | bridged (nonce : U256) (ethTokenId : H160)
  /-- `Ok(())`. -/
  | done
  /-- `Err(e)`. -/
  | failed (e : Error)
  /-- A panic, or the gas ran out. -/
  | panicked
deriving DecidableEq, Repr

/-! ## the system -/

/-- The program together with its messages and suspended executions. -/
structure World where
  state : State
  config : Config
  tracker : MessageTracker
  /-- Successfully processed Ethereum transactions. -/
  transactions : Finset TxKey
  messages : MessageId → Option Message
  executions : MessageId → Option Execution
  outcomes : MessageId → Option Outcome
  /-- Executions that ended abnormally with a critical hook set. -/
  signals : List MessageId
  nextId : MessageId

/-- What is fixed when the program is deployed. -/
structure Program where
  /-- `exec::program_id()`. -/
  programId : ActorId
  /-- `TX_HISTORY_DEPTH`. -/
  txHistoryDepth : Nat

/-- The program as it is compiled from the source. -/
def Program.deployed (programId : ActorId) : Program := ⟨programId, 50_000_000⟩

namespace World

/-- The world right after `VftManager::seed`. -/
def seed (config : InitConfig) (actorId : ActorId) : World where
  state := .seed config actorId
  config := config.config
  tracker := .empty
  transactions := ∅
  messages := fun _ => none
  executions := fun _ => none
  outcomes := fun _ => none
  signals := []
  nextId := 0

/-- Change the tracker. -/
@[simps -fullyApplied] def withTracker (w : World) (t : MessageTracker) : World := { w with tracker := t }

/-- Give out a message id. -/
@[simps -fullyApplied] def bump (w : World) : World := { w with nextId := w.nextId + 1 }

/-- Put a message on its way. -/
@[simps -fullyApplied] def post (w : World) (m : Message) : World :=
  { w with messages := Function.update w.messages w.nextId (some m), nextId := w.nextId + 1 }

/-- Record how far a message has come. -/
@[simps -fullyApplied] def deliver (w : World) (id : MessageId) (m : Message) (d : Delivery) : World :=
  { w with messages := Function.update w.messages id (some { m with delivery := d }) }

/-- Suspend an execution. -/
@[simps -fullyApplied] def suspend (w : World) (e : MessageId) (x : Execution) : World :=
  { w with executions := Function.update w.executions e (some x) }

/-- End an execution. -/
@[simps -fullyApplied] def finish (w : World) (e : MessageId) (o : Outcome) : World :=
  { w with executions := Function.update w.executions e none
           outcomes := Function.update w.outcomes e (some o) }

/-- An execution panics or runs out of gas when resumed.  What it did since its
last wait point is lost; a critical hook set before that point gets a signal. -/
def trap (w : World) (e : MessageId) (x : Execution) : World :=
  { w.finish e .panicked with signals := if x.criticalHook then e :: w.signals else w.signals }

/-- The chain `send_bytes…(..)?.up_to(..)?.handle_reply(..)?` up to its `await`.
The message is already on its way when the timeout or the reply deposit turns
out to be zero, but then it has no reply hook. -/
def sendForReply (w : World) (sendOk : Bool) (destination : ActorId) (value : Nat) (call : Call)
    (origin : Origin) : World × Except Error MessageId :=
  if !sendOk then (w, .error .sendFailure)
  else if w.config.replyTimeout = 0 then
    (w.post ⟨destination, value, call, origin, false, .sent⟩, .error .replyTimeout)
  else if w.config.gasForReplyDeposit = 0 then
    (w.post ⟨destination, value, call, origin, false, .sent⟩, .error .replyHook)
  else (w.post ⟨destination, value, call, origin, true, .sent⟩, .ok w.nextId)

/-- What an `await` gives: the reply once it has been recorded, or an error
when the timeout has passed.  `none`: the execution is not woken yet. -/
def awaitReply (w : World) (awaited : MessageId) (timeout : Bool) : Option (Except Error Unit) :=
  if timeout then some (.error .replyFailure)
  else match w.messages awaited with
    | some m => match m.delivery with
      | .processed .error => some (.error .replyFailure)
      | .processed _ => some (.ok ())
      | _ => none
    | none => none

/-- The three ways a send can go: it fails; it goes out without a reply hook;
it goes out with one. -/
theorem sendForReply_cases {w w' : World} {sendOk : Bool} {dest : ActorId} {value : Nat}
    {call : Call} {origin : Origin} {r : Except Error MessageId}
    (h : w.sendForReply sendOk dest value call origin = (w', r)) :
    (w' = w ∧ r = .error .sendFailure) ∨
    ((w.config.replyTimeout = 0 ∨ w.config.gasForReplyDeposit = 0) ∧
      w' = w.post ⟨dest, value, call, origin, false, .sent⟩ ∧ ∃ e, r = .error e) ∨
    (0 < w.config.replyTimeout ∧ 0 < w.config.gasForReplyDeposit ∧
      w' = w.post ⟨dest, value, call, origin, true, .sent⟩ ∧ r = .ok w.nextId) := by
  unfold sendForReply at h
  split at h
  · cases h; exact .inl ⟨rfl, rfl⟩
  · split at h
    · rename_i ht
      cases h; exact .inr (.inl ⟨.inl ht, rfl, _, rfl⟩)
    · split at h
      · rename_i hg
        cases h; exact .inr (.inl ⟨.inr hg, rfl, _, rfl⟩)
      · rename_i ht hg
        cases h; exact .inr (.inr ⟨Nat.pos_of_ne_zero ht, Nat.pos_of_ne_zero hg, rfl, rfl⟩)

end World

end GearBridges.VftManager
