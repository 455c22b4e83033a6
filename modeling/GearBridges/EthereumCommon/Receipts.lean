import GearBridges.Lib.Digits
import Mathlib.Data.List.Pairwise

/-!
# EthereumCommon.Receipts

Receipts of a block and the trie that holds them (`ethereum-common/src/utils.rs`).  Codecs
of receipts and the Patricia trie are third-party code: `ReceiptCodec` and `TrieDb` name
what the repository calls, `TrieDb.Sound` and `TrieDb.Complete` what it relies on.
-/

namespace GearBridges.EthereumCommon

abbrev Bytes := List UInt8

/-! ## receipts -/

/-- A log of a receipt. -/
structure Log where
  address : BitVec 160
  topics : List (BitVec 256)
  data : Bytes
deriving DecidableEq

/-- Status of a receipt: since EIP-658 whether the transaction succeeded, before it the
root of the state. -/
inductive Eip658Value where
  | eip658 (success : Bool)
  | postState (root : BitVec 256)
deriving DecidableEq

/-- `coerce_status`. -/
def Eip658Value.coerceStatus : Eip658Value → Bool
  | .eip658 success => success
  | .postState _ => true

inductive TxType where
  | legacy
  | eip2930
  | eip1559
  | eip4844
  | eip7702
deriving DecidableEq

/-- A receipt with its bloom filter, under the type of its transaction.  The RPC returns
logs with more data than receipts hold, hence the parameter. -/
structure ReceiptEnvelope (L : Type) where
  txType : TxType
  status : Eip658Value
  cumulativeGasUsed : BitVec 128
  logs : List L
  logsBloom : BitVec 2048
deriving DecidableEq

/-- `status`, which `is_success` returns. -/
def ReceiptEnvelope.isSuccess {L : Type} (r : ReceiptEnvelope L) : Bool := r.status.coerceStatus

/-- A log as the RPC returns it. -/
structure RpcLog where
  inner : Log
  blockHash : Option (BitVec 256)
  logIndex : Option Nat

/-- Drop what the RPC adds. -/
def mapReceiptEnvelope (receipt : ReceiptEnvelope RpcLog) : ReceiptEnvelope Log where
  txType := receipt.txType
  status := .eip658 receipt.isSuccess
  cumulativeGasUsed := receipt.cumulativeGasUsed
  logs := receipt.logs.map RpcLog.inner
  logsBloom := receipt.logsBloom

/-- The answer of a node whose logs are those of `receipt`. -/
def Reports (receipt : ReceiptEnvelope Log) (answer : ReceiptEnvelope RpcLog) : Prop :=
  answer.txType = receipt.txType ∧ answer.status = receipt.status ∧
    answer.cumulativeGasUsed = receipt.cumulativeGasUsed ∧
    answer.logs.map RpcLog.inner = receipt.logs ∧ answer.logsBloom = receipt.logsBloom

/-- A receipt with a status since EIP-658 is what `map_receipt_envelope` makes of an answer
that reports it, whatever its type. -/
theorem mapReceiptEnvelope_eq {receipt : ReceiptEnvelope Log} {answer : ReceiptEnvelope RpcLog}
    (h : Reports receipt answer) {success : Bool} (hstatus : receipt.status = .eip658 success) :
    mapReceiptEnvelope answer = receipt := by
  obtain ⟨txType, status, gas, logs, bloom⟩ := receipt
  obtain ⟨htype, hstatus', hgas, hlogs, hbloom⟩ := h
  simp only at hstatus htype hstatus' hgas hlogs hbloom
  subst hstatus
  simp [mapReceiptEnvelope, ReceiptEnvelope.isSuccess, hstatus', Eip658Value.coerceStatus, htype, hgas,
    hlogs, hbloom]

/-! ## codecs -/

/-- Encodings of receipts and of their index. -/
structure ReceiptCodec where
  /-- `Decodable::decode`. -/
  decode : Bytes → Option (ReceiptEnvelope Log)
  /-- `Encodable::encode`. -/
  encode : ReceiptEnvelope Log → Bytes
  /-- `Encodable2718::encode_2718`. -/
  encode2718 : ReceiptEnvelope Log → Bytes
  /-- RLP of a `u64`. -/
  encodeIndex : UInt64 → Bytes

namespace ReceiptCodec

variable (codec : ReceiptCodec)

def rlpEncodeTransactionIndex (index : UInt64) : Bytes := codec.encodeIndex index

/-- Key and value of a receipt in the trie. -/
def rlpEncodeIndexAndReceipt (index : UInt64) (receipt : ReceiptEnvelope Log) : Bytes × Bytes :=
  (codec.rlpEncodeTransactionIndex index, codec.encode2718 receipt)

def rlpEncodeReceiptsAndNibbleTuples (receipts : List (UInt64 × ReceiptEnvelope Log)) :
    List (Bytes × Bytes) :=
  receipts.map fun r => codec.rlpEncodeIndexAndReceipt r.1 r.2

/-- What holds of the codecs on the receipts of a block: decoding undoes encoding, values are
not empty (the trie would take an empty one for a removal), and indices have different keys. -/
structure Lawful (receipts : List (UInt64 × ReceiptEnvelope Log)) : Prop where
  decode_encode : ∀ r ∈ receipts, codec.decode (codec.encode r.2) = some r.2
  encode2718_ne_nil : ∀ r ∈ receipts, codec.encode2718 r.2 ≠ []
  encodeIndex_injective : Function.Injective codec.encodeIndex

variable {codec}

theorem Lawful.tail {r : UInt64 × ReceiptEnvelope Log} {receipts : List (UInt64 × ReceiptEnvelope Log)}
    (h : codec.Lawful (r :: receipts)) : codec.Lawful receipts where
  decode_encode := fun x hx => h.decode_encode x (List.mem_cons_of_mem _ hx)
  encode2718_ne_nil := fun x hx => h.encode2718_ne_nil x (List.mem_cons_of_mem _ hx)
  encodeIndex_injective := h.encodeIndex_injective

end ReceiptCodec

/-! ## the trie -/

/-- The Patricia trie over keccak.  Nodes of a trie lie in a database by their hashes;
`TrieDB` reads a trie from a database and a root. -/
structure TrieDb where
  Root : Type
  Trie : Type
  empty : Trie
  /-- `TrieDBMut::insert`. -/
  insert : Trie → Bytes → Bytes → Option Trie
  root : Trie → Root
  /-- The value stored at a key. -/
  lookup : Trie → Bytes → Option Bytes
  /-- The database filled by `TrieDBMut`. -/
  nodes : Trie → List Bytes
  /-- `TrieDB::new` succeeds. -/
  opens : List Bytes → Root → Bool
  /-- `TrieDB::get`. -/
  get : List Bytes → Root → Bytes → Except Unit (Option Bytes)
  /-- Nodes that `get_with` hands to the recorder. -/
  record : List Bytes → Root → Bytes → List Bytes

namespace TrieDb

variable (T : TrieDb)

/-- `get` returns what is stored in the trie of the root, whatever nodes it is given. -/
def Sound : Prop :=
  ∀ nodes t key value, T.get nodes (T.root t) key = .ok (some value) → T.lookup t key = some value

/-- A trie can be filled, and the nodes recorded for a stored key let `get` find it again. -/
structure Complete : Prop where
  lookup_insert : ∀ t key value, value ≠ [] → ∃ t', T.insert t key value = some t' ∧
    ∀ k, T.lookup t' k = if k = key then some value else T.lookup t k
  opens_nodes : ∀ t, T.opens (T.nodes t) (T.root t) = true
  opens_record : ∀ t key value, T.lookup t key = some value →
    T.opens (T.record (T.nodes t) (T.root t) key) (T.root t) = true
  get_record : ∀ t key value, T.lookup t key = some value →
    T.get (T.record (T.nodes t) (T.root t) key) (T.root t) key = .ok (some value)

/-- The trie of a list of pairs, inserted in order. -/
def insertAll : T.Trie → List (Bytes × Bytes) → Option T.Trie
  | t, [] => some t
  | t, (key, value) :: rest => match T.insert t key value with
      | none => none
      | some t' => insertAll t' rest

end TrieDb

/-! ## generate_merkle_proof -/

inductive MerkleProofError where
  | receiptNotFound
  | insertionFailed
  | rootIsNotValid
deriving DecidableEq

structure MerkleProof where
  proof : List Bytes
  receipt : ReceiptEnvelope Log

/-- Proof of the receipt of a transaction. -/
def generateMerkleProof (codec : ReceiptCodec) (T : TrieDb) (txIndex : UInt64)
    (receipts : List (UInt64 × ReceiptEnvelope Log)) : Except MerkleProofError MerkleProof :=
  match T.insertAll T.empty (codec.rlpEncodeReceiptsAndNibbleTuples receipts) with
  | none => .error .insertionFailed
  | some t =>
      match receipts.find? fun r => r.1 = txIndex with
      | none => .error .receiptNotFound
      | some (txIndex, receipt) =>
          if T.opens (T.nodes t) (T.root t) then
            .ok ⟨T.record (T.nodes t) (T.root t) (codec.rlpEncodeIndexAndReceipt txIndex receipt).1,
              receipt⟩
          else .error .rootIsNotValid

/-- The receipts trie of a block with the given receipts. -/
def receiptsTrie (codec : ReceiptCodec) (T : TrieDb) (receipts : List (UInt64 × ReceiptEnvelope Log)) :
    Option T.Trie :=
  T.insertAll T.empty (codec.rlpEncodeReceiptsAndNibbleTuples receipts)

section

variable {codec : ReceiptCodec} {T : TrieDb} (hT : T.Complete)
include hT

/-- Inserting receipts of different indices stores each one and leaves other keys alone. -/
theorem insertAll_receipts (t : T.Trie) {receipts : List (UInt64 × ReceiptEnvelope Log)}
    (hcodec : codec.Lawful receipts) (hdistinct : receipts.Pairwise fun a b => a.1 ≠ b.1) :
    ∃ t', T.insertAll t (codec.rlpEncodeReceiptsAndNibbleTuples receipts) = some t' ∧
      (∀ r ∈ receipts, T.lookup t' (codec.encodeIndex r.1) = some (codec.encode2718 r.2)) ∧
      ∀ index, (∀ r ∈ receipts, r.1 ≠ index) →
        T.lookup t' (codec.encodeIndex index) = T.lookup t (codec.encodeIndex index) := by
  induction receipts generalizing t with
  | nil => exact ⟨t, rfl, by simp, fun _ _ => rfl⟩
  | cons r receipts ih =>
      obtain ⟨hr, hdistinct⟩ := List.pairwise_cons.mp hdistinct
      obtain ⟨t₁, hinsert, hlookup⟩ := hT.lookup_insert t (codec.encodeIndex r.1)
        (codec.encode2718 r.2) (hcodec.encode2718_ne_nil r List.mem_cons_self)
      obtain ⟨t', hall, hstored, hother⟩ := ih t₁ hcodec.tail hdistinct
      refine ⟨t', ?_, ?_, ?_⟩
      · show (match T.insert t (codec.encodeIndex r.1) (codec.encode2718 r.2) with
          | none => none
          | some t₁ => T.insertAll t₁ (codec.rlpEncodeReceiptsAndNibbleTuples receipts)) = some t'
        rw [hinsert]
        exact hall
      · intro x hx
        rw [List.mem_cons] at hx
        rcases hx with rfl | hx
        · rw [hother x.1 (fun y hy => (hr y hy).symm), hlookup, if_pos rfl]
        · exact hstored x hx
      · intro index hindex
        have hne : codec.encodeIndex index ≠ codec.encodeIndex r.1 := fun h =>
          hindex r List.mem_cons_self (hcodec.encodeIndex_injective h).symm
        rw [hother index (fun y hy => hindex y (List.mem_cons_of_mem _ hy)), hlookup, if_neg hne]

/-- **A generated proof** is one of the receipt of the transaction, and a database of its nodes
opens at the root of the receipts trie and returns its value. -/
theorem generateMerkleProof_spec {receipts : List (UInt64 × ReceiptEnvelope Log)}
    (hcodec : codec.Lawful receipts) (hdistinct : receipts.Pairwise fun a b => a.1 ≠ b.1) {txIndex : UInt64}
    {receipt : ReceiptEnvelope Log} (hreceipt : (txIndex, receipt) ∈ receipts) :
    ∃ t proof, receiptsTrie codec T receipts = some t ∧
      generateMerkleProof codec T txIndex receipts = .ok ⟨proof, receipt⟩ ∧
      T.opens proof (T.root t) = true ∧
      T.get proof (T.root t) (codec.encodeIndex txIndex) = .ok (some (codec.encode2718 receipt)) := by
  obtain ⟨t, hall, hstored, -⟩ := insertAll_receipts hT T.empty hcodec hdistinct
  have hlookup := hstored _ hreceipt
  have hfind : receipts.find? (fun r => r.1 = txIndex) = some (txIndex, receipt) := by
    cases hf : receipts.find? (fun r => r.1 = txIndex) with
    | none => simpa using List.find?_eq_none.mp hf _ hreceipt
    | some r =>
        have hindex : r.1 = txIndex := by simpa using List.find?_some hf
        by_contra hne
        have hsymm : Std.Symm fun a b : UInt64 × ReceiptEnvelope Log => a.1 ≠ b.1 :=
          ⟨fun _ _ h => h.symm⟩
        exact hdistinct.forall (List.mem_of_find?_eq_some hf) hreceipt
          (fun h => hne (congrArg some h)) hindex
  refine ⟨t, _, hall, ?_, hT.opens_record t _ _ hlookup, hT.get_record t _ _ hlookup⟩
  simp only [generateMerkleProof, hall, hfind, hT.opens_nodes t, if_true]
  rfl

end

/-! ## a trie over free digests -/

/-- A trie that is its own root: pairs of keys and values, the newest first, whose nodes are
its values. -/
abbrev freeTrie : TrieDb where
  Root := List (Bytes × Bytes)
  Trie := List (Bytes × Bytes)
  empty := []
  insert t key value := some ((key, value) :: t)
  root t := t
  lookup t key := t.lookup key
  nodes t := t.map Prod.snd
  opens nodes root := root.isEmpty || !nodes.isEmpty
  get nodes root key := match root.lookup key with
    | none => .ok none
    | some value => if value ∈ nodes then .ok (some value) else .error ()
  record _ root key := (root.lookup key).toList

theorem freeTrie_sound : freeTrie.Sound := by
  intro nodes t key value h
  unfold freeTrie at h ⊢
  simp only at h ⊢
  cases hvalue : t.lookup key with
  | none => simp [hvalue] at h
  | some v =>
      rw [hvalue] at h
      simp only at h
      split at h
      · cases h
        rfl
      · contradiction

theorem freeTrie_complete : freeTrie.Complete where
  lookup_insert := by
    intro t key value _
    refine ⟨_, rfl, ?_⟩
    intro k
    show List.lookup k ((key, value) :: t) = if k = key then some value else List.lookup k t
    by_cases hk : k = key
    · rw [if_pos hk, hk, List.lookup_cons_self]
    · rw [if_neg hk, List.lookup_cons, beq_eq_false_iff_ne.mpr hk]
  opens_nodes := by
    intro t
    cases t <;> rfl
  opens_record := by
    intro t key value h
    have h : List.lookup key t = some value := h
    simp [h]
  get_record := by
    intro t key value h
    have h : List.lookup key t = some value := h
    simp [h]

/-- Digits in place of a number, most significant first. -/
def indexDigits (n : Nat) : Bytes := (Nat.digits 256 n).reverse.map UInt8.ofNat

theorem ofBytesBE_indexDigits (n : Nat) : Digits.ofBytesBE (indexDigits n) = n := by
  have hlt : ∀ d ∈ (Nat.digits 256 n).reverse, d < 256 := fun d hd =>
    Nat.digits_lt_base (by decide) (List.mem_reverse.mp hd)
  rw [Digits.ofBytesBE, indexDigits, Digits.map_toNat_ofNat hlt, Digits.ofBE, List.reverse_reverse,
    Nat.ofDigits_digits]

/-- RLP of a number: one byte for itself, more behind their length. -/
def rlpIndex (index : UInt64) : Bytes :=
  if index = 0 then [0x80]
  else if index.toNat < 0x80 then [UInt8.ofNat index.toNat]
  else
    UInt8.ofNat (0x80 + (indexDigits index.toNat).length) :: indexDigits index.toNat

/-- The number that `rlpIndex` has encoded. -/
def ofRlpIndex : Bytes → Nat
  | [b] => if b = 0x80 then 0 else b.toNat
  | _ :: digits => Digits.ofBytesBE digits
  | [] => 0

theorem ofRlpIndex_rlpIndex (index : UInt64) : ofRlpIndex (rlpIndex index) = index.toNat := by
  unfold rlpIndex
  split
  · next h =>
    rw [h]
    rfl
  · split
    · next h =>
      have htoNat : (UInt8.ofNat index.toNat).toNat = index.toNat :=
        UInt8.toNat_ofNat_of_lt' (Nat.lt_trans h (by decide))
      have hne : UInt8.ofNat index.toNat ≠ 0x80 := by
        intro heq
        rw [heq] at htoNat
        have hbyte : (0x80 : UInt8).toNat = 0x80 := rfl
        omega
      simp only [ofRlpIndex, if_neg hne, htoNat]
    · next hpos h =>
      have hdigits := ofBytesBE_indexDigits index.toNat
      cases hd : indexDigits index.toNat with
      | nil =>
          rw [hd] at hdigits
          have hzero : index.toNat = 0 := hdigits.symm
          omega
      | cons b digits =>
          rw [← hdigits, hd]
          rfl

theorem rlpIndex_injective : Function.Injective rlpIndex := by
  intro a b h
  apply UInt64.toNat_inj.mp
  rw [← ofRlpIndex_rlpIndex a, ← ofRlpIndex_rlpIndex b, h]

/-- A successful receipt of a transaction of type EIP-1559 without logs. -/
def sampleReceipt : ReceiptEnvelope Log := ⟨.eip1559, .eip658 true, 21000, [], 0⟩

/-- Its encoding in the trie: the type, then status, gas, bloom filter and logs as a list. -/
def sample2718 : Bytes :=
  [0x02, 0xf9, 0x01, 0x08, 0x01, 0x82, 0x52, 0x08, 0xb9, 0x01, 0x00] ++
    List.replicate 256 0x00 ++ [0xc0]

/-- The codecs on this receipt; its RLP is that encoding as a string. -/
abbrev sampleCodec : ReceiptCodec where
  decode rlp := if rlp = [0xb9, 0x01, 0x0c] ++ sample2718 then some sampleReceipt else none
  encode _ := [0xb9, 0x01, 0x0c] ++ sample2718
  encode2718 _ := sample2718
  encodeIndex := rlpIndex

end GearBridges.EthereumCommon
