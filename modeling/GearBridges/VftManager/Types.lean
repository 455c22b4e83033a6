import Mathlib.Algebra.Group.Nat.Defs
import Mathlib.Logic.Function.Basic
import Mathlib.Data.List.Basic

/-!
# VftManager.Types

Data of the `vft-manager` program: identifiers, the errors of the service, the
part of its `Config` and `State` that the modelled methods read, and the token
map between `VFT` and `ERC20` tokens.

A panic of the program rolls its execution back, so a function of the source
that may panic returns `Option` here and `none` means "nothing happened".
Gas limits are left out: the runtime model lets every execution run out of gas
at any wait point and every wait end by its timeout.
-/

namespace GearBridges.VftManager

/-! ## identifiers -/

/-- Address of a Gear actor (32 bytes). -/
abbrev ActorId := BitVec 256

/-- Address on Ethereum (20 bytes). -/
abbrev H160 := BitVec 160

/-- Unsigned 256-bit number. -/
abbrev U256 := BitVec 256

/-- Id of a Gear message.  The runtime gives every message an id of its own;
here they are handed out in order. -/
abbrev MessageId := Nat

/-- Type of the token supply. -/
inductive TokenSupply where
  | ethereum
  | gear
deriving DecidableEq, Repr

/-- Error types of the service. -/
inductive Error where
  | sendFailure
  | replyFailure
  | replyTimeout
  | replyHook
  | messageNotFound
  | invalidMessageStatus
  | messageFailed
  | burnTokensDecode
  | transferFromDecode
  | mintTokensDecode
  | builtinDecode
  | noCorrespondingEthAddress
  | noCorrespondingVaraAddress
  | notHistoricalProxy
  | notSupportedEvent
  | transactionTooOld
  | alreadyProcessed
  | paused
deriving DecidableEq, Repr

/-! ## token map -/

/-- Mapping between `VFT` and `ERC20` tokens. -/
structure TokenMap where
  varaToEth : ActorId → Option (H160 × TokenSupply)
  ethToVara : H160 → Option ActorId

namespace TokenMap

/-- The map of a freshly seeded program. -/
def empty : TokenMap := ⟨fun _ => none, fun _ => none⟩

/-- Insert a token pair; panics if either side is already mapped. -/
def insert (m : TokenMap) (varaTokenId : ActorId) (ethTokenId : H160) (supply : TokenSupply) :
    Option TokenMap :=
  if (m.varaToEth varaTokenId).isSome then none
  else if (m.ethToVara ethTokenId).isSome then none
  else some
    { varaToEth := Function.update m.varaToEth varaTokenId (some (ethTokenId, supply))
      ethToVara := Function.update m.ethToVara ethTokenId (some varaTokenId) }

/-- Remove a token pair; panics if one of the two directions is missing. -/
def remove (m : TokenMap) (varaTokenId : ActorId) : Option (TokenMap × H160 × TokenSupply) :=
  match m.varaToEth varaTokenId with
  | none => none
  | some (ethTokenId, supplyType) =>
      match m.ethToVara ethTokenId with
      | none => none
      | some _ => some
          ({ varaToEth := Function.update m.varaToEth varaTokenId none
             ethToVara := Function.update m.ethToVara ethTokenId none }, ethTokenId, supplyType)

/-- `ERC20` address of a `VFT`. -/
def getEthTokenId (m : TokenMap) (varaTokenId : ActorId) : Except Error H160 :=
  match m.varaToEth varaTokenId with
  | some (ethTokenId, _) => .ok ethTokenId
  | none => .error .noCorrespondingEthAddress

/-- `VFT` address of an `ERC20`. -/
def getVaraTokenId (m : TokenMap) (ethTokenId : H160) : Except Error ActorId :=
  match m.ethToVara ethTokenId with
  | some varaTokenId => .ok varaTokenId
  | none => .error .noCorrespondingVaraAddress

/-- Supply type of a `VFT`. -/
def getSupplyType (m : TokenMap) (varaTokenId : ActorId) : Except Error TokenSupply :=
  match m.varaToEth varaTokenId with
  | some (_, supply) => .ok supply
  | none => .error .noCorrespondingVaraAddress

end TokenMap

/-! ## state and config -/

/-- The part of `Config` the modelled methods read. -/
structure Config where
  gasForReplyDeposit : Nat
  replyTimeout : Nat
  feeBridge : Nat
  feeIncoming : Nat

/-- State of the service. -/
structure State where
  gearBridgeBuiltin : ActorId
  admin : ActorId
  pauseAdmin : ActorId
  erc20ManagerAddress : H160
  tokenMap : TokenMap
  historicalProxyAddress : ActorId
  isPaused : Bool
  vftManagerNew : Option ActorId

/-- Config provided on initialization. -/
structure InitConfig where
  erc20ManagerAddress : H160
  gearBridgeBuiltin : ActorId
  historicalProxyAddress : ActorId
  config : Config

/-- `VftManager::seed`: the state a program starts with. -/
def State.seed (config : InitConfig) (actorId : ActorId) : State where
  gearBridgeBuiltin := config.gearBridgeBuiltin
  admin := actorId
  pauseAdmin := actorId
  erc20ManagerAddress := config.erc20ManagerAddress
  tokenMap := .empty
  historicalProxyAddress := config.historicalProxyAddress
  isPaused := false
  vftManagerNew := none

/-! ## payload of a bridge message -/

/-- The `n` low bytes of a word, most significant byte first. -/
def beBytes {w : Nat} (n : Nat) (x : BitVec w) : List UInt8 :=
  (List.range n).map fun i => UInt8.ofNat (x.toNat / 256 ^ (n - 1 - i))

/-- Payload of the message that `ERC20Manager` will accept. -/
structure Payload where
  receiver : H160
  tokenId : H160
  amount : U256
deriving DecidableEq, Repr

/-- Pack the payload into the binary format that `ERC20Manager` will parse. -/
def Payload.pack (p : Payload) : List UInt8 :=
  beBytes 20 p.receiver ++ beBytes 20 p.tokenId ++ beBytes 32 p.amount

end GearBridges.VftManager
