import GearBridges.HistoricalProxy.Redirect
import GearBridges.Indexer.TempState
import GearBridges.Lib.Decimal
import GearBridges.Lib.Sha256
import Mathlib.Data.List.TakeWhile

/-!
# Indexer.NonceKeys

The keys under which the two processors of the indexer find the transfers of each other.  A
deposit on Ethereum has the hash of its block number and its transaction index, a message from
Gear has its nonce, which one chain reports in little-endian and the other in big-endian hex.

The nonces are told apart (`gearNonce_inj`).  The deposits are not: nothing stands between the two
numbers that are hashed, and a digit may belong to either (`keysIdentify_iff`).
-/

namespace GearBridges.Indexer

open Decimal Digits

/-! ## packages -/

/-- `update(data)` of a hash takes the UTF-8 bytes of a string. -/
def utf8 (data : List Char) : List UInt8 := data.flatMap String.utf8EncodeChar

/-- The two lower-case digits of a byte. -/
def hexByte (b : UInt8) : List Char := [Nat.digitChar (b.toNat / 16), Nat.digitChar (b.toNat % 16)]

/-- `digest('hex')`. -/
def hex (bytes : List UInt8) : List Char := bytes.flatMap hexByte

/-- The functions of `node:crypto`, `@polkadot/util` and `@subsquid/scale-codec`. -/
structure Packages where
  sha256 : List UInt8 → List UInt8
  hexToBigInt : List Char → (isLe : Bool) → Nat
  /-- `codec.encodeToHex(0, n)` for the type `U256`. -/
  encodeToHex : Nat → List Char

/-- What the packages are documented to do. -/
class Documented (p : Packages) : Prop where
  length_sha256 : ∀ data, (p.sha256 data).length = 32
  hexToBigInt_le : ∀ bytes, p.hexToBigInt ('0' :: 'x' :: hex bytes) true = ofBytesBE bytes.reverse
  hexToBigInt_be : ∀ bytes, p.hexToBigInt ('0' :: 'x' :: hex bytes) false = ofBytesBE bytes
  encodeToHex_eq : ∀ n, n < 2 ^ 256 →
    p.encodeToHex n = '0' :: 'x' :: hex (toBytesBE 32 n).reverse

/-- Two texts that have the same hash are the same. -/
def CollisionFree (p : Packages) (x y : List Char) : Prop :=
  p.sha256 (utf8 x) = p.sha256 (utf8 y) → utf8 x = utf8 y

/-! ## the keys -/

def ethNonce (p : Packages) (data : List Char) : List Char := hex (p.sha256 (utf8 data))

/-- The loop of `gearNonce`: two zeros at the front are cut off. -/
def stripZeros : List Char → List Char
  | '0' :: '0' :: rest => stripZeros rest
  | nonce => nonce

def gearNonce (p : Packages) (data : List Char) (isLe : Bool := true) : List Char :=
  stripZeros ((p.encodeToHex (p.hexToBigInt data isLe)).drop 2)

/-- Where a deposit stands on Ethereum.  JavaScript writes both numbers in decimal. -/
structure Deposit where
  height : Nat
  transactionIndex : Nat
deriving DecidableEq

/-- The text that the Ethereum processor hashes. -/
def Deposit.data (d : Deposit) : List Char := decimal d.height ++ decimal d.transactionIndex

/-- The nonce under which the Ethereum processor stores the transfer. -/
def Deposit.nonce (p : Packages) (d : Deposit) : List Char := ethNonce p d.data

/-- The nonce that the Gear processor completes when it sees the event. -/
def relayedNonce (p : Packages) (event : HistoricalProxy.Relayed) : List Char :=
  ethNonce p (decimal event.blockNumber ++ decimal event.transactionIndex.toNat)

/-- The nonce in the tables. -/
def Deposit.key (p : Packages) (d : Deposit) : Nonce := .eth (ofBytesBE (p.sha256 (utf8 d.data)))

/-- The hex in which Gear reports a nonce. -/
def hexLE (m : BitVec 256) : List Char := '0' :: 'x' :: hex (toBytesBE 32 m.toNat).reverse

/-- The hex in which Ethereum reports a nonce. -/
def hexBE (m : BitVec 256) : List Char := '0' :: 'x' :: hex (toBytesBE 32 m.toNat)

/-- The event that reports the deposit as relayed. -/
def Reports (event : HistoricalProxy.Relayed) (d : Deposit) : Prop :=
  event.blockNumber = d.height ∧ event.transactionIndex.toNat = d.transactionIndex

/-- A batch of a processor that completes one transfer. -/
def complete (network : Network) (store : Store) (nonce : Nonce) (ts : Timestamp) : Store :=
  ((TempState.new network store).transferCompleted network nonce ts).save network store

/-- Keys identify transfers. -/
structure KeysIdentify (p : Packages) (d e : Deposit) : Prop where
  distinct : d ≠ e → d.nonce p ≠ e.nonce p
  relayed : ∀ event, Reports event d → relayedNonce p event = d.nonce p
  gear : ∀ m n, gearNonce p (hexLE m) = gearNonce p (hexBE n) false ↔ m = n
  /-- The completion of a deposit leaves the transfer of the other one alone. -/
  untouched : d ≠ e → ∀ (store : Store) (ts : Timestamp), store.completed (e.key p) = none →
    (complete .gear store (d.key p) ts).transfers (e.key p) = store.transfers (e.key p)
  gearUntouched : ∀ m n : BitVec 256, m ≠ n → ∀ (store : Store) (ts : Timestamp),
    store.completed (.gear n.toNat) = none →
      (complete .ethereum store (.gear m.toNat) ts).transfers (.gear n.toNat) =
        store.transfers (.gear n.toNat)

/-! ## hex -/

theorem digitChar_inj {m n : Nat} (hm : m < 16) (hn : n < 16)
    (h : Nat.digitChar m = Nat.digitChar n) : m = n := by
  have hall : ∀ m < 16, ∀ n < 16, Nat.digitChar m = Nat.digitChar n → m = n := by decide
  exact hall m hm n hn h

theorem hexByte_inj {a b : UInt8} (h : hexByte a = hexByte b) : a = b := by
  injection h with hhigh hlow
  injection hlow with hlow
  have ha := a.toNat_lt
  have hb := b.toNat_lt
  have hhigh := digitChar_inj (by omega) (by omega) hhigh
  have hlow := digitChar_inj (by omega) (by omega) hlow
  exact UInt8.toNat_inj.mp (by omega)

@[simp] theorem hex_cons (b : UInt8) (bytes : List UInt8) :
    hex (b :: bytes) = hexByte b ++ hex bytes := rfl

theorem hex_injective : Function.Injective hex := by
  intro bytes
  induction bytes with
  | nil =>
      intro bytes' h
      cases bytes' with
      | nil => rfl
      | cons b rest => contradiction
  | cons a bytes ih =>
      intro bytes' h
      cases bytes' with
      | nil => contradiction
      | cons b rest =>
          rw [hex_cons, hex_cons] at h
          obtain ⟨hbyte, hrest⟩ := List.append_inj h rfl
          rw [hexByte_inj hbyte, ih hrest]

theorem utf8_injective : Function.Injective utf8 := by
  intro x y h
  have hbytes : x.utf8Encode = y.utf8Encode := congrArg List.toByteArray h
  exact String.ofList_inj.mp (String.toByteArray_inj.mp hbytes)

/-- Pairs of zeros are zero bytes. -/
theorem stripZeros_hex (bytes : List UInt8) :
    stripZeros (hex bytes) = hex (bytes.dropWhile (· = 0)) := by
  induction bytes with
  | nil => rfl
  | cons b bytes ih =>
      by_cases hb : b = 0
      · subst hb
        exact ih
      · rw [List.dropWhile_cons_of_neg (by simpa using hb)]
        unfold stripZeros
        split
        · next rest heq =>
          have heq : hexByte b ++ hex bytes = hexByte 0 ++ rest := heq
          exact absurd (hexByte_inj (List.append_inj heq rfl).1) hb
        · rfl

/-- Of two strings of one length, the bytes behind the leading zeros say which they are. -/
theorem dropWhile_zero_inj {bytes bytes' : List UInt8} (hlength : bytes.length = bytes'.length)
    (h : bytes.dropWhile (· = 0) = bytes'.dropWhile (· = 0)) : bytes = bytes' := by
  have hzeros : ∀ l : List UInt8, l =
      List.replicate (l.length - (l.dropWhile (· = 0)).length) 0 ++ l.dropWhile (· = 0) := by
    intro l
    have hsplit : l.takeWhile (· = 0) ++ l.dropWhile (· = 0) = l := List.takeWhile_append_dropWhile
    have hlen := congrArg List.length hsplit
    rw [List.length_append] at hlen
    have htake : l.takeWhile (· = 0) = List.replicate (l.takeWhile (· = 0)).length 0 :=
      List.eq_replicate_of_mem fun b hb => by simpa using List.mem_takeWhile_imp hb
    rw [← hlen, Nat.add_sub_cancel, ← htake, hsplit]
  rw [hzeros bytes, hzeros bytes', h, hlength]

/-! ## a batch -/

/-- Without a completion that waits, a batch leaves the transfers with other nonces alone. -/
theorem complete_transfers {network : Network} {store : Store} {nonce other : Nonce}
    (hne : other ≠ nonce) (hnone : store.completed other = none) (ts : Timestamp) :
    (complete network store nonce ts).transfers other = store.transfers other := by
  simp [complete, TempState.save, TempState.savedTransfers, TempState.transferCompleted,
    TempState.new, Function.update_of_ne hne, hnone]

/-! ## deposits -/

theorem relayedNonce_eq (p : Packages) {event : HistoricalProxy.Relayed} {d : Deposit}
    (h : Reports event d) : relayedNonce p event = d.nonce p := by
  unfold relayedNonce
  rw [h.1, h.2]
  rfl

theorem Deposit.data_eq_iff (d e : Deposit) :
    d.data = e.data ↔ d = e ∨
      Moved d.height d.transactionIndex e.height e.transactionIndex ∨
      Moved e.height e.transactionIndex d.height d.transactionIndex := by
  unfold Deposit.data
  rw [append_eq_append_iff, Deposit.mk.injEq]

theorem nonce_eq_iff {p : Packages} {d e : Deposit} (hfree : CollisionFree p d.data e.data) :
    d.nonce p = e.nonce p ↔ d.data = e.data := by
  constructor
  · intro h
    exact utf8_injective (hfree (hex_injective h))
  · intro h
    unfold Deposit.nonce
    rw [h]

/-! ## nonces from Gear -/

variable (p : Packages) [Documented p]

theorem gearNonce_hexLE (m : BitVec 256) :
    gearNonce p (hexLE m) = hex ((toBytesBE 32 m.toNat).reverse.dropWhile (· = 0)) := by
  have hm : ofBytesBE (toBytesBE 32 m.toNat) = m.toNat := ofBytesBE_toBytesBE m.isLt
  unfold gearNonce hexLE
  rw [Documented.hexToBigInt_le, List.reverse_reverse, hm, Documented.encodeToHex_eq _ m.isLt,
    List.drop_succ_cons, List.drop_succ_cons, List.drop_zero, stripZeros_hex]

theorem gearNonce_hexBE (n : BitVec 256) :
    gearNonce p (hexBE n) false = hex ((toBytesBE 32 n.toNat).reverse.dropWhile (· = 0)) := by
  have hn : ofBytesBE (toBytesBE 32 n.toNat) = n.toNat := ofBytesBE_toBytesBE n.isLt
  unfold gearNonce hexBE
  rw [Documented.hexToBigInt_be, hn, Documented.encodeToHex_eq _ n.isLt,
    List.drop_succ_cons, List.drop_succ_cons, List.drop_zero, stripZeros_hex]

/-- What both chains report of a nonce is the same, and no other nonce has it. -/
theorem gearNonce_inj (m n : BitVec 256) :
    gearNonce p (hexLE m) = gearNonce p (hexBE n) false ↔ m = n := by
  rw [gearNonce_hexLE, gearNonce_hexBE]
  constructor
  · intro h
    have hbytes := dropWhile_zero_inj (by simp) (hex_injective h)
    have hnum := congrArg ofBytesBE (List.reverse_injective hbytes)
    rw [ofBytesBE_toBytesBE m.isLt, ofBytesBE_toBytesBE n.isLt] at hnum
    exact BitVec.eq_of_toNat_eq hnum
  · rintro rfl
    rfl

/-! ## the two processors -/

variable {p}

theorem key_eq_iff {d e : Deposit} (hfree : CollisionFree p d.data e.data) :
    d.key p = e.key p ↔ d.data = e.data := by
  constructor
  · intro h
    injection h with h
    have hlength : (p.sha256 (utf8 d.data)).length = (p.sha256 (utf8 e.data)).length := by
      rw [Documented.length_sha256, Documented.length_sha256]
    exact utf8_injective (hfree (ofBytesBE_inj hlength h))
  · intro h
    unfold Deposit.key
    rw [h]

/-- **Keys identify transfers**, of two deposits, when neither comes from the other by moving
digits from the transaction index to the block number. -/
theorem keysIdentify_iff (d e : Deposit) (hfree : CollisionFree p d.data e.data) :
    KeysIdentify p d e ↔
      ¬ Moved d.height d.transactionIndex e.height e.transactionIndex ∧
        ¬ Moved e.height e.transactionIndex d.height d.transactionIndex := by
  constructor
  · intro h
    have hmoved : ∀ hm : d.data = e.data, d = e := by
      intro hm
      by_contra hne
      exact h.distinct hne ((nonce_eq_iff hfree).mpr hm)
    constructor
    · intro hm
      have heq := hmoved ((d.data_eq_iff e).mpr (.inr (.inl hm)))
      exact absurd hm.shorter (by rw [heq]; exact Nat.lt_irrefl _)
    · intro hm
      have heq := hmoved ((d.data_eq_iff e).mpr (.inr (.inr hm)))
      exact absurd hm.shorter (by rw [heq]; exact Nat.lt_irrefl _)
  · rintro ⟨hde, hed⟩
    have hdata : d ≠ e → d.data ≠ e.data := by
      intro hne heq
      rcases (d.data_eq_iff e).mp heq with h | h | h
      · exact hne h
      · exact hde h
      · exact hed h
    exact
      { distinct := fun hne h => hdata hne ((nonce_eq_iff hfree).mp h)
        relayed := fun event hr => relayedNonce_eq p hr
        gear := gearNonce_inj p
        untouched := fun hne store ts hnone =>
          complete_transfers (fun h => hdata hne ((key_eq_iff hfree).mp h.symm)) hnone ts
        gearUntouched := fun m n hne store ts hnone => by
          refine complete_transfers (fun h => hne ?_) hnone ts
          injection h with h
          exact BitVec.eq_of_toNat_eq h.symm }

/-! ## a run -/

def digitValue (c : Char) : Nat := if c.isDigit then c.toNat - 48 else c.toNat - 87

/-- The bytes that hex digits write. -/
def unhex : List Char → List UInt8
  | a :: b :: rest => UInt8.ofNat (16 * digitValue a + digitValue b) :: unhex rest
  | _ => []

theorem digitValue_digitChar {n : Nat} (hn : n < 16) : digitValue (Nat.digitChar n) = n := by
  have hall : ∀ n < 16, digitValue (Nat.digitChar n) = n := by decide
  exact hall n hn

theorem unhex_hex (bytes : List UInt8) : unhex (hex bytes) = bytes := by
  induction bytes with
  | nil => rfl
  | cons b bytes ih =>
      have hb := b.toNat_lt
      have hhigh : digitValue (Nat.digitChar (b.toNat / 16)) = b.toNat / 16 :=
        digitValue_digitChar (by omega)
      have hlow : digitValue (Nat.digitChar (b.toNat % 16)) = b.toNat % 16 :=
        digitValue_digitChar (by omega)
      rw [hex_cons, hexByte, List.cons_append, List.cons_append, List.nil_append, unhex, ih, hhigh,
        hlow, Nat.div_add_mod, UInt8.ofNat_toNat]

/-- The packages on the inputs of the indexer. -/
def packages : Packages where
  sha256 := Sha256.digest
  hexToBigInt data isLe :=
    if isLe then ofBytesBE (unhex (data.drop 2)).reverse else ofBytesBE (unhex (data.drop 2))
  encodeToHex n := '0' :: 'x' :: hex (toBytesBE 32 n).reverse

instance : Documented packages where
  length_sha256 := Sha256.length_digest
  hexToBigInt_le := fun bytes =>
    congrArg (fun l : List UInt8 => ofBytesBE l.reverse) (unhex_hex bytes)
  hexToBigInt_be := fun bytes => congrArg ofBytesBE (unhex_hex bytes)
  encodeToHex_eq := fun _ _ => rfl

/-- Two deposits of one block. -/
theorem keysIdentify_iff_one_block : KeysIdentify packages ⟨21000000, 15⟩ ⟨21000000, 16⟩ :=
  (keysIdentify_iff _ _ (by unfold CollisionFree; decide +kernel)).mpr
    ⟨fun h => absurd h.shorter (by decide), fun h => absurd h.shorter (by decide)⟩

/-- Transaction 15 of block 2100000 and transaction 5 of block 21000001 have one key. -/
theorem digit_moved :
    ¬ ∀ (p : Packages) [Documented p] (d e : Deposit), CollisionFree p d.data e.data →
      KeysIdentify p d e := by
  intro h
  have hkeys := h packages ⟨2100000, 15⟩ ⟨21000001, 5⟩ fun _ => rfl
  exact hkeys.distinct (by decide) rfl

end GearBridges.Indexer
