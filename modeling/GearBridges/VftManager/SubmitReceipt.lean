import GearBridges.EthereumCommon.Receipts
import GearBridges.VftManager.Runtime

/-!
# VftManager.SubmitReceipt

The Ethereum → Gear direction: `submit_receipt` and the reply hook that records
a processed transaction.
-/

namespace GearBridges.VftManager

/-- A decoded `BridgingRequested` event of `ERC20Manager`. -/
structure BridgingRequested where
  token : H160
  receiver : ActorId
  amount : U256

/-- A log of a receipt: its address and the event, if it decodes to one. -/
structure Log where
  address : H160
  event : Option BridgingRequested

/-- A decoded receipt. -/
structure Receipt where
  isSuccess : Bool
  logs : List Log

/-- What `submit_receipt` decodes from `receipt_rlp`; `decodeLogData` is the ABI decoder of
`BridgingRequested`. -/
def decodeReceipt (codec : EthereumCommon.ReceiptCodec)
    (decodeLogData : EthereumCommon.Log → Option BridgingRequested) (receiptRlp : EthereumCommon.Bytes) :
    Option Receipt :=
  (codec.decode receiptRlp).map fun receipt =>
    { isSuccess := receipt.isSuccess
      logs := receipt.logs.map fun log => ⟨log.address, decodeLogData log⟩ }

/-- The `find_map` over the logs of the receipt. -/
def findBridgingRequested (s : State) (logs : List Log) : Option (ActorId × BridgingRequested) :=
  logs.findSome? fun log => match log.event with
    | none => none
    | some event => match s.tokenMap.getVaraTokenId event.token with
      | .error _ => none
      | .ok varaTokenId =>
          if s.erc20ManagerAddress = log.address then some (varaTokenId, event) else none

/-- The smallest key is above `key`. -/
def belowFirst (transactions : Finset TxKey) (key : TxKey) : Bool :=
  if h : transactions.Nonempty then decide (key < transactions.min' h) else false

/-- The checks of `submit_receipt` before anything is sent; `receipt` is the
decoded `receipt_rlp`, if it decodes. -/
def checkReceipt (prog : Program) (w : World) (sender : ActorId) (key : TxKey)
    (receipt : Option Receipt) : Except Error (ActorId × BridgingRequested × TokenSupply) :=
  if w.state.isPaused then .error .paused
  else if sender ≠ w.state.historicalProxyAddress then .error .notHistoricalProxy
  else match receipt with
    | none => .error .notSupportedEvent
    | some receipt =>
      if !receipt.isSuccess then .error .notSupportedEvent
      else match findBridgingRequested w.state receipt.logs with
        | none => .error .notSupportedEvent
        | some (varaTokenId, event) =>
          if key ∈ w.transactions then .error .alreadyProcessed
          else if prog.txHistoryDepth ≤ w.transactions.card && belowFirst w.transactions key then
            .error .transactionTooOld
          else match w.state.tokenMap.getSupplyType varaTokenId with
            | .error e => .error e
            | .ok supply => .ok (varaTokenId, event, supply)

/-- The call of `mint` or `unlock` for the receiver named by the event. -/
def receiptCall (prog : Program) (event : BridgingRequested) : TokenSupply → Call
  | .ethereum => .mint event.receiver event.amount
  | .gear => .transferFrom prog.programId event.receiver event.amount

/-- First segment of `submit_receipt`, up to the `await` in `send`. -/
def submitReceipt (prog : Program) (w : World) (sender : ActorId) (key : TxKey)
    (receipt : Option Receipt) (sendOk : Bool) : World :=
  let exec := w.nextId
  match checkReceipt prog w sender key receipt with
  | .error e => w.bump.finish exec (.failed e)
  | .ok (varaTokenId, event, supply) =>
    match w.bump.sendForReply sendOk varaTokenId 0 (receiptCall prog event supply)
        (.receipt key) with
    | (w, .error e) => w.finish exec (.failed e)
    | (w, .ok id) => w.suspend exec ⟨.receipt, id, false⟩

/-- Last segment. -/
def resumeReceipt (w : World) (exec : MessageId) (awaited : Except Error Unit) : World :=
  match awaited with
  | .error e => w.finish exec (.failed e)
  | .ok _ => w.finish exec .done

/-- `BTreeSet::pop_first`. -/
def popFirst (transactions : Finset TxKey) : Finset TxKey :=
  if h : transactions.Nonempty then transactions.erase (transactions.min' h) else transactions

/-- `handle_reply::<Action>`, the action being that of the call; `none` is a
panic (the reply does not decode, or the transfer was refused). -/
def handleReply (prog : Program) (transactions : Finset TxKey) (call : Call) (key : TxKey)
    (reply : Reply) : Option (Finset TxKey) :=
  let checked := match call, reply with
    | .mint .., .unit => true
    | .transferFrom .., .bool b => b
    | _, _ => false
  if checked then
    let transactions :=
      if prog.txHistoryDepth ≤ transactions.card then popFirst transactions else transactions
    some (insert key transactions)
  else none

end GearBridges.VftManager
