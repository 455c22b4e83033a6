import GearBridges.Lib.Digits
import GearBridges.Lib.Reentrancy
import GearBridges.VftManager.Types

/-!
# Ethereum.ERC20Manager

The `ERC20Manager` contract among tokens.  A token is either an `ERC20` with the usual
ledger, or foreign code that does what it likes and may call the manager back
(`Contract`).  Users are foreign code too: they call the manager and the tokens under any
address but the one of the manager.
-/

namespace GearBridges.ERC20Manager

open Digits Reentrancy
open VftManager (Payload beBytes)

/-! ## payload -/

abbrev Address := BitVec 160

/-- `uint256`. -/
abbrev Word := BitVec 256

abbrev Bytes := List UInt8

/-- `address(bytes20(slice))`. -/
def addressOfBytes (slice : Bytes) : Address := BitVec.ofNat 160 (ofBytesBE slice)

/-- `uint256(bytes32(slice))`. -/
def wordOfBytes (slice : Bytes) : Word := BitVec.ofNat 256 (ofBytesBE slice)

/-- The slices of `processVaraMessage`: receiver, token and amount.  `none` is a payload of
another length, which is refused before it is sliced. -/
def parsePayload (payload : Bytes) : Option (Address × Address × Word) :=
  if payload.length = 20 + 20 + 32 then
    some (addressOfBytes (payload.take 20), addressOfBytes ((payload.drop 20).take 20),
      wordOfBytes (payload.drop 40))
  else none

theorem beBytes_eq {w : Nat} (n : Nat) (x : BitVec w) : beBytes n x = toBytesBE n x.toNat := by
  unfold beBytes toBytesBE
  rw [toBE_eq_map, List.map_map]
  apply List.map_congr_left
  intro i _
  exact UInt8.toNat_inj.mp (by simp)

theorem length_beBytes {w : Nat} (n : Nat) (x : BitVec w) : (beBytes n x).length = n := by
  rw [beBytes_eq, length_toBytesBE]

/-- Bytes of a word write the word. -/
theorem ofNat_ofBytesBE {w n : Nat} (hw : 256 ^ n = 2 ^ w) (x : BitVec w) :
    BitVec.ofNat w (ofBytesBE (beBytes n x)) = x := by
  rw [beBytes_eq, ofBytesBE_toBytesBE (hw ▸ x.isLt), BitVec.ofNat_toNat, BitVec.setWidth_eq]

/-- Every string of this many bytes is the one of a word. -/
theorem beBytes_ofNat {w n : Nat} {bytes : Bytes} (hn : bytes.length = n) (hw : 256 ^ n = 2 ^ w) :
    beBytes n (BitVec.ofNat w (ofBytesBE bytes)) = bytes := by
  subst hn
  have hlt : ofBytesBE bytes < 2 ^ w := hw ▸ ofBytesBE_lt bytes
  rw [beBytes_eq, BitVec.toNat_ofNat, Nat.mod_eq_of_lt hlt]
  apply ofBytesBE_inj (length_toBytesBE _ _)
  exact ofBytesBE_toBytesBE (ofBytesBE_lt bytes)

theorem parsePayload_pack (p : Payload) :
    parsePayload p.pack = some (p.receiver, p.tokenId, p.amount) := by
  have hreceiver : (beBytes 20 p.receiver).length = 20 := length_beBytes _ _
  have htoken : (beBytes 20 p.tokenId).length = 20 := length_beBytes _ _
  have hamount : (beBytes 32 p.amount).length = 32 := length_beBytes _ _
  have hlength : p.pack.length = 20 + 20 + 32 := by
    rw [Payload.pack, List.length_append, List.length_append, hreceiver, htoken, hamount]
  have hfirst : p.pack.take 20 = beBytes 20 p.receiver := by
    rw [Payload.pack, List.append_assoc, List.take_left' hreceiver]
  have hsecond : (p.pack.drop 20).take 20 = beBytes 20 p.tokenId := by
    rw [Payload.pack, List.append_assoc, List.drop_left' hreceiver, List.take_left' htoken]
  have hthird : p.pack.drop 40 = beBytes 32 p.amount := by
    rw [Payload.pack, List.drop_left' (by rw [List.length_append, hreceiver, htoken])]
  rw [parsePayload, if_pos hlength, hfirst, hsecond, hthird]
  unfold addressOfBytes wordOfBytes
  rw [ofNat_ofBytesBE (by decide), ofNat_ofBytesBE (by decide), ofNat_ofBytesBE (by decide)]

theorem pack_of_parsePayload {payload : Bytes} {receiver token : Address} {amount : Word}
    (h : parsePayload payload = some (receiver, token, amount)) :
    (⟨receiver, token, amount⟩ : Payload).pack = payload := by
  rw [parsePayload, Option.ite_none_right_eq_some, Option.some.injEq, Prod.mk.injEq,
    Prod.mk.injEq] at h
  obtain ⟨hlength, rfl, rfl, rfl⟩ := h
  have hfirst : (payload.take 20).length = 20 := by rw [List.length_take]; omega
  have hsecond : ((payload.drop 20).take 20).length = 20 := by
    rw [List.length_take, List.length_drop]; omega
  have hthird : (payload.drop 40).length = 32 := by rw [List.length_drop]; omega
  unfold addressOfBytes wordOfBytes Payload.pack
  simp only [beBytes_ofNat hfirst (show 256 ^ 20 = 2 ^ 160 by decide),
    beBytes_ofNat hsecond (show 256 ^ 20 = 2 ^ 160 by decide),
    beBytes_ofNat hthird (show 256 ^ 32 = 2 ^ 256 by decide)]
  have hdrop : payload.drop 40 = (payload.drop 20).drop 20 := by rw [List.drop_drop]
  rw [hdrop, List.append_assoc, List.take_append_drop, List.take_append_drop]

/-- **Packing and slicing agree**: slicing a packed payload gives back its fields, and every
payload of the accepted length is the packing of exactly one triple, the one it is sliced
into. -/
theorem payload_formats_agree :
    (∀ receiver token amount,
      parsePayload (⟨receiver, token, amount⟩ : Payload).pack = some (receiver, token, amount)) ∧
    ∀ payload : Bytes, payload.length = 20 + 20 + 32 →
      ∃! p : Payload, p.pack = payload ∧
        parsePayload payload = some (p.receiver, p.tokenId, p.amount) := by
  refine ⟨fun receiver token amount => parsePayload_pack _, ?_⟩
  intro payload hlength
  have hparse : parsePayload payload = some _ := if_pos hlength
  refine ⟨⟨_, _, _⟩, ⟨pack_of_parsePayload hparse, hparse⟩, ?_⟩
  rintro p ⟨_, hparse'⟩
  rw [hparse, Option.some.injEq, Prod.mk.injEq, Prod.mk.injEq] at hparse'
  obtain ⟨hreceiver, htoken, hamount⟩ := hparse'
  rw [Payload.mk.injEq]
  exact ⟨hreceiver.symm, htoken.symm, hamount.symm⟩

/-! ## tokens -/

/-- The functions of other contracts that the manager or users of tokens call. -/
inductive TokenCall
  | transfer (recipient : Address) (amount : Word)
  | transferFrom (owner recipient : Address) (amount : Word)
  | approve (spender : Address) (amount : Word)
  | mint (recipient : Address) (amount : Word)
  | burn (amount : Word)
  | burnFrom (account : Address) (amount : Word)
  /-- `payFee` of a bridging payment, which no token has. -/
  | payFee
deriving DecidableEq

/-- The books of an `ERC20`. -/
structure Ledger where
  balances : Address → Nat
  allowances : Address → Address → Nat
  totalSupply : Nat

namespace Ledger

/-- Allowance that is not used up. -/
def infiniteAllowance : Nat := 2 ^ 256 - 1

def move (l : Ledger) (owner recipient : Address) (amount : Nat) : Option Ledger :=
  if l.balances owner < amount then none
  else
    let balances := Function.update l.balances owner (l.balances owner - amount)
    some { l with balances := Function.update balances recipient (balances recipient + amount) }

def spendAllowance (l : Ledger) (owner spender : Address) (amount : Nat) : Option Ledger :=
  if l.allowances owner spender = infiniteAllowance then some l
  else if l.allowances owner spender < amount then none
  else
    some { l with
      allowances := Function.update l.allowances owner
        (Function.update (l.allowances owner) spender (l.allowances owner spender - amount)) }

def take (l : Ledger) (account : Address) (amount : Nat) : Option Ledger :=
  if l.balances account < amount then none
  else
    some { l with
      balances := Function.update l.balances account (l.balances account - amount)
      totalSupply := l.totalSupply - amount }

/-- A call of an account; `none` is a revert. -/
def apply (l : Ledger) (sender : Address) : TokenCall → Option Ledger
  | .transfer recipient amount => l.move sender recipient amount.toNat
  | .transferFrom owner recipient amount =>
      (l.spendAllowance owner sender amount.toNat).bind (·.move owner recipient amount.toNat)
  | .approve spender amount =>
      some { l with
        allowances := Function.update l.allowances sender
          (Function.update (l.allowances sender) spender amount.toNat) }
  | .mint recipient amount =>
      some { l with
        balances := Function.update l.balances recipient (l.balances recipient + amount.toNat)
        totalSupply := l.totalSupply + amount.toNat }
  | .burn amount => l.take sender amount.toNat
  | .burnFrom account amount =>
      (l.spendAllowance account sender amount.toNat).bind (·.take account amount.toNat)
  | .payFee => none

end Ledger

/-! ## state -/

inductive SupplyType
  | unknown
  | ethereum
  | gear
deriving DecidableEq

inductive Event
  | bridgingRequested (sender : Address) (destination : Word) (token : Address) (amount : Word)
  | bridgingAccepted (recipient token : Address) (amount : Word)
deriving DecidableEq

def Event.token : Event → Address
  | .bridgingRequested _ _ token _ => token
  | .bridgingAccepted _ token _ => token

/-- The storage of the manager, its events, newest first, the books of the tokens, and what
was sent to the manager directly, by token. -/
structure State (ρ : Type) where
  tokenSupplyType : Address → SupplyType
  events : List Event
  ledgers : Address → Ledger
  direct : Address → Nat
  rest : ρ

/-- What foreign code can do under the address `sender`. -/
inductive Call (ρ : Type)
  | requestBridging (sender token : Address) (amount destination : Word)
  | requestBridgingPayingFee (sender token : Address) (amount destination : Word) (bridgingPayment : Address)
  | processVaraMessage (sender : Address) (varaSender : Word) (payload : Bytes)
  | token (sender token : Address) (call : TokenCall)
  | update (change : ρ → ρ)

/-- What stands at an address.  An `ERC20` moves the amounts it is told to move and calls
nobody; it may refuse a call for reasons of its own, so a token without `mint` refuses
every `mint`. -/
inductive Contract (ρ : Type)
  | erc20 (accepts : State ρ → Address → TokenCall → Bool)
  | foreign (code : Address → TokenCall → Code (State ρ) (Call ρ))

/-- The addresses of the deployment and what stands at the others. -/
structure Deployment (ρ : Type) where
  manager : Address
  messageQueue : Address
  vftManager : Word
  contracts : Address → Contract ρ

inductive Error
  | notAuthorized
  | badArguments
  | badVftManagerAddress
  /-- The called contract reverted. -/
  | callReverted
  /-- `SafeERC20` got `false` from a token. -/
  | safeERC20FailedOperation
deriving DecidableEq

/-! ## the manager -/

namespace State

variable {ρ : Type}

def emit (s : State ρ) (event : Event) : State ρ := { s with events := event :: s.events }

def setSupplyType (s : State ρ) (token : Address) (supplyType : SupplyType) : State ρ :=
  { s with tokenSupplyType := Function.update s.tokenSupplyType token supplyType }

def setLedger (s : State ρ) (token : Address) (ledger : Ledger) : State ρ :=
  { s with ledgers := Function.update s.ledgers token ledger }

end State

section

variable {ρ : Type} (d : Deployment ρ)
  (callback : Code (State ρ) (Call ρ) → State ρ → Option (Bool × State ρ))

/-- A call of `sender` to the contract at an address.  The manager has none of the functions
in question. -/
def external (sender callee : Address) (c : TokenCall) (s : State ρ) : Option (Bool × State ρ) :=
  if callee = d.manager then none
  else
    match d.contracts callee with
    | .erc20 accepts =>
        if accepts s sender c then
          ((s.ledgers callee).apply sender c).map fun ledger => (true, s.setLedger callee ledger)
        else none
    | .foreign code => callback (code sender c) s

/-- `requestBridging`. -/
def requestBridging (s : State ρ) (msgSender token : Address) (amount destination : Word) :
    Except Error (State ρ) :=
  let supplyType := s.tokenSupplyType token
  if supplyType = .gear then
    match external d callback d.manager token (.burnFrom msgSender amount) s with
    | none => .error .callReverted
    | some (_, s) => .ok (s.emit (.bridgingRequested msgSender destination token amount))
  else
    let s := if supplyType = .unknown then s.setSupplyType token .ethereum else s
    match external d callback d.manager token (.transferFrom msgSender d.manager amount) s with
    | none => .error .callReverted
    | some (false, _) => .error .safeERC20FailedOperation
    | some (true, s) => .ok (s.emit (.bridgingRequested msgSender destination token amount))

/-- `requestBridgingPayingFee`. -/
def requestBridgingPayingFee (s : State ρ) (msgSender token : Address) (amount destination : Word)
    (bridgingPayment : Address) : Except Error (State ρ) :=
  match external d callback d.manager bridgingPayment .payFee s with
  | none => .error .callReverted
  | some (_, s) => requestBridging d callback s msgSender token amount destination

/-- `processVaraMessage`, which returns `true` if it does not revert. -/
def processVaraMessage (s : State ρ) (msgSender : Address) (sender : Word) (payload : Bytes) :
    Except Error (State ρ) :=
  if msgSender ≠ d.messageQueue then .error .notAuthorized
  else
    match parsePayload payload with
    | none => .error .badArguments
    | some (receiver, token, amount) =>
        if sender ≠ d.vftManager then .error .badVftManagerAddress
        else
          let supplyType := s.tokenSupplyType token
          if supplyType = .ethereum then
            match external d callback d.manager token (.transfer receiver amount) s with
            | none => .error .callReverted
            | some (false, _) => .error .safeERC20FailedOperation
            | some (true, s) => .ok (s.emit (.bridgingAccepted receiver token amount))
          else
            let s := if supplyType = .unknown then s.setSupplyType token .gear else s
            match external d callback d.manager token (.mint receiver amount) s with
            | none => .error .callReverted
            | some (_, s) => .ok (s.emit (.bridgingAccepted receiver token amount))

/-- What a token call of a user adds to the balance of the manager. -/
def incoming (manager : Address) : TokenCall → Nat
  | .transfer recipient amount => if recipient = manager then amount.toNat else 0
  | .transferFrom owner recipient amount =>
      if recipient = manager ∧ owner ≠ manager then amount.toNat else 0
  | .mint recipient amount => if recipient = manager then amount.toNat else 0
  | _ => 0

/-- A call of an account; `none` is a revert.  The manager makes no calls of its own, so
nobody calls under its address. -/
def contracts : Call ρ → State ρ → Option (State ρ)
  | .requestBridging sender token amount destination, s =>
      if sender = d.manager then none
      else (requestBridging d callback s sender token amount destination).toOption
  | .requestBridgingPayingFee sender token amount destination bridgingPayment, s =>
      if sender = d.manager then none
      else
        (requestBridgingPayingFee d callback s sender token amount destination
          bridgingPayment).toOption
  | .processVaraMessage sender varaSender payload, s =>
      if sender = d.manager then none
      else (processVaraMessage d callback s sender varaSender payload).toOption
  | .token sender token c, s =>
      if sender = d.manager then none
      else
        (external d callback sender token c s).map fun (_, s) =>
          { s with
            direct := Function.update s.direct token (s.direct token + incoming d.manager c) }
  | .update change, s => some { s with rest := change s.rest }

end

end GearBridges.ERC20Manager
