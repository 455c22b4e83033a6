import GearBridges.CheckpointLightClient.HonestChain
import GearBridges.VftManager.SubmitReceipt

/-!
# EthEvents.CheckProofs

The `eth-events-*` programs check that a receipt belongs to a block behind a checkpoint:
headers link the block to the checkpoint, a trie proof links the receipt to the block.
Everything in the message comes from the caller.
-/

namespace GearBridges.EthEvents

open EthereumCommon CheckpointLightClient

inductive Error where
  | decodeReceiptEnvelopeFailure
  | failedEthTransaction
  | sendFailure
  | replyFailure
  | handleResultDecodeFailure
  | missingCheckpoint
  | invalidBlockProof
  | trieDbFailure
  | invalidReceiptProof
deriving DecidableEq, Repr

structure CheckedProofs where
  receiptRlp : Bytes
  transactionIndex : UInt64
  blockNumber : Nat
  slot : Slot
deriving DecidableEq

/-- The body of a light block: the fields of its payload that are read, and the others,
which only enter its root. -/
structure BlockBody (Root Other : Type) where
  receiptsRoot : Root
  blockNumber : Nat
  other : Other

/-- The hash functions and the codecs the programs are built with. -/
structure Setting where
  primitives : Primitives
  codec : ReceiptCodec
  trie : TrieDb
  /-- The other fields of a light body. -/
  Other : Type
  /-- `tree_hash_root` of a light body. -/
  bodyRoot : BlockBody trie.Root Other → primitives.Hash

variable (E : Setting)

/-- `LightBeaconBlock`. -/
structure LightBlock where
  slot : Slot
  proposerIndex : Nat
  parentRoot : E.primitives.Hash
  stateRoot : E.primitives.Hash
  body : BlockBody E.trie.Root E.Other

structure BlockInclusionProof where
  block : LightBlock E
  headers : List (Header E.primitives)

structure EthToVaraEvent where
  proofBlock : BlockInclusionProof E
  proof : List Bytes
  transactionIndex : UInt64
  receiptRlp : Bytes

/-- What a request to `checkpoint-light-client` comes back with. -/
inductive CheckpointReply where
  | failed
  | missing
  | found (checkpoint : Checkpoint E.primitives)

structure Proofs where
  slot : Slot
  blockRoot : E.primitives.Hash
  receiptsRoot : E.trie.Root
  blockNumber : Nat
  headers : List (Header E.primitives)
  proof : List Bytes
  transactionIndex : UInt64
  receiptRlp : Bytes

variable {E}

/-- The header of a block.  A block is merkleized as a container of its fields, so its root
is that of its header. -/
def LightBlock.header (block : LightBlock E) : Header E.primitives where
  slot := block.slot
  proposerIndex := block.proposerIndex
  parentRoot := block.parentRoot
  stateRoot := block.stateRoot
  bodyRoot := E.bodyRoot block.body

def LightBlock.treeHashRoot (block : LightBlock E) : E.primitives.Hash :=
  E.primitives.headerRoot block.header

theorem treeHashRoot_injective (hroot : Function.Injective E.primitives.headerRoot)
    (hbody : Function.Injective E.bodyRoot) :
    Function.Injective (LightBlock.treeHashRoot (E := E)) := by
  intro ⟨_, _, _, _, _⟩ ⟨_, _, _, _, _⟩ h
  have hheader := hroot h
  simp only [LightBlock.header, BlockHeader.mk.injEq] at hheader
  obtain ⟨h1, h2, h3, h4, h5⟩ := hheader
  rw [LightBlock.mk.injEq]
  exact ⟨h1, h2, h3, h4, hbody h5⟩

/-! ## check -/

def decodeAndCheckReceipt (codec : ReceiptCodec) (receiptRlp : Bytes) :
    Except Error (ReceiptEnvelope Log) :=
  match codec.decode receiptRlp with
  | none => .error .decodeReceiptEnvelopeFailure
  | some receipt => if !receipt.isSuccess then .error .failedEthTransaction else .ok receipt

/-- `request_checkpoint`, by the reply. -/
def requestCheckpoint : CheckpointReply E → Except Error E.primitives.Hash
  | .failed => .error .sendFailure
  | .missing => .error .missingCheckpoint
  | .found (_, hash) => .ok hash

/-- The `try_fold` over the headers: the root that is expected below them. -/
def foldHeaders {P : Primitives} : P.Hash → List (Header P) → Option P.Hash
  | blockRootParent, [] => some blockRootParent
  | blockRootParent, header :: rest =>
      if P.headerRoot header = blockRootParent then foldHeaders header.parentRoot rest else none

/-- `Proofs::check`; `popped` is the order in which the fold meets the headers, that of
`sort_unstable_by` on the slot from its end. -/
def Proofs.check (p : Proofs E) (reply : Slot → CheckpointReply E)
    (popped : List (Header E.primitives)) : Except Error CheckedProofs :=
  match decodeAndCheckReceipt E.codec p.receiptRlp with
  | .error e => .error e
  | .ok receipt =>
    match requestCheckpoint (reply p.slot) with
    | .error e => .error e
    | .ok checkpoint =>
      match foldHeaders checkpoint popped with
      | none => .error .invalidBlockProof
      | some blockRootParent =>
        if p.blockRoot ≠ blockRootParent then .error .invalidBlockProof
        else if E.trie.opens p.proof p.receiptsRoot then
          let pair := E.codec.rlpEncodeIndexAndReceipt p.transactionIndex receipt
          match E.trie.get p.proof p.receiptsRoot pair.1 with
          | .ok (some foundValue) =>
              if foundValue = pair.2 then
                .ok ⟨p.receiptRlp, p.transactionIndex, p.blockNumber, p.slot⟩
              else .error .invalidReceiptProof
          | _ => .error .invalidReceiptProof
        else .error .trieDbFailure

def EthToVaraEvent.proofs (message : EthToVaraEvent E) : Proofs E where
  slot := message.proofBlock.block.slot
  blockRoot := message.proofBlock.block.treeHashRoot
  receiptsRoot := message.proofBlock.block.body.receiptsRoot
  blockNumber := message.proofBlock.block.body.blockNumber
  headers := message.proofBlock.headers
  proof := message.proof
  transactionIndex := message.transactionIndex
  receiptRlp := message.receiptRlp

/-- `check_proofs`. -/
def checkProofs (message : EthToVaraEvent E) (reply : Slot → CheckpointReply E)
    (popped : List (Header E.primitives)) : Except Error CheckedProofs :=
  message.proofs.check reply popped

/-! ## what is accepted -/

/-- The headers lead from a root down to a root by parent hashes, each used once. -/
inductive Descends {P : Primitives} : P.Hash → List (Header P) → P.Hash → Prop
  | here (root : P.Hash) : Descends root [] root
  | parent {header : Header P} {rest : List (Header P)} {target : P.Hash}
      (below : Descends header.parentRoot rest target) :
      Descends (P.headerRoot header) (header :: rest) target

theorem foldHeaders_some_iff {P : Primitives} {headers : List (Header P)} {root target : P.Hash} :
    foldHeaders root headers = some target ↔ Descends root headers target := by
  induction headers generalizing root with
  | nil =>
      constructor
      · intro h
        cases h
        exact .here _
      · rintro ⟨⟩
        rfl
  | cons header rest ih =>
      constructor
      · intro h
        unfold foldHeaders at h
        split at h
        · next hroot =>
          subst hroot
          exact .parent (ih.mp h)
        · contradiction
      · rintro (_ | below)
        rw [foldHeaders, if_pos rfl]
        exact ih.mpr below

/-- Headers below a header that is linked to `tip` lead to a block linked to it. -/
theorem Descends.linked_below {P : Primitives} {headers : List (Header P)} {tip above block : Header P}
    (htip : Linked tip above) (h : Descends above.parentRoot headers (P.headerRoot block)) :
    Linked tip block := by
  induction headers generalizing above with
  | nil =>
      generalize hroot : above.parentRoot = root at h
      cases h
      exact .parent htip hroot.symm
  | cons header rest ih =>
      generalize hroot : above.parentRoot = root at h
      cases h with
      | parent below => exact ih (.parent htip hroot.symm) below

/-- Without collisions the headers lead from the block of the checkpoint to the block. -/
theorem Descends.linked {P : Primitives} (hroot : Function.Injective P.headerRoot)
    {headers : List (Header P)} {tip block : Header P}
    (h : Descends (P.headerRoot tip) headers (P.headerRoot block)) : Linked tip block := by
  generalize hr : P.headerRoot tip = root at h
  cases headers with
  | nil =>
      generalize hb : P.headerRoot block = target at h
      cases h
      rw [hroot (hb.trans hr.symm)]
      exact .refl
  | cons header rest =>
      cases h with
      | parent below =>
          rw [hroot hr]
          exact below.linked_below .refl

theorem Descends.target_unique {P : Primitives} {headers : List (Header P)} {root a b : P.Hash}
    (ha : Descends root headers a) (hb : Descends root headers b) : a = b := by
  rw [← foldHeaders_some_iff] at ha hb
  rw [ha] at hb
  exact Option.some.inj hb

theorem decodeAndCheckReceipt_ok_iff {codec : ReceiptCodec} {rlp : Bytes}
    {receipt : ReceiptEnvelope Log} : decodeAndCheckReceipt codec rlp = .ok receipt ↔
      codec.decode rlp = some receipt ∧ receipt.isSuccess = true := by
  unfold decodeAndCheckReceipt
  cases codec.decode rlp with
  | none => simp
  | some r =>
      by_cases hr : r.isSuccess = true
      · simp only [hr, Bool.not_true, Bool.false_eq_true, if_false, Except.ok.injEq, Option.some.injEq]
        constructor
        · rintro rfl
          exact ⟨rfl, hr⟩
        · exact And.left
      · simp only [hr, Bool.not_false, if_true, Option.some.injEq, false_iff, reduceCtorEq]
        rintro ⟨rfl, h⟩
        exact hr h

/-- **What a successful check went through**; nothing else succeeds. -/
theorem check_ok_iff {p : Proofs E} {reply : Slot → CheckpointReply E}
    {popped : List (Header E.primitives)} {checked : CheckedProofs} :
    p.check reply popped = .ok checked ↔
      checked = ⟨p.receiptRlp, p.transactionIndex, p.blockNumber, p.slot⟩ ∧
      ∃ receipt checkpoint, E.codec.decode p.receiptRlp = some receipt ∧ receipt.isSuccess = true ∧
        reply p.slot = .found checkpoint ∧ Descends checkpoint.2 popped p.blockRoot ∧
        E.trie.opens p.proof p.receiptsRoot = true ∧
        E.trie.get p.proof p.receiptsRoot (E.codec.encodeIndex p.transactionIndex) =
          .ok (some (E.codec.encode2718 receipt)) := by
  constructor
  · intro h
    unfold Proofs.check at h
    split at h
    · contradiction
    · next receipt hreceipt =>
      obtain ⟨hdecode, hsuccess⟩ := decodeAndCheckReceipt_ok_iff.mp hreceipt
      split at h
      · contradiction
      · next checkpoint hcheckpoint =>
        split at h
        · contradiction
        · next root hfold =>
          split at h
          · contradiction
          · next hroot =>
            split at h
            · next hopens =>
              dsimp only at h
              split at h
              · next value hget =>
                split at h
                · next hvalue =>
                  cases h
                  subst hvalue
                  refine ⟨rfl, receipt, ?_⟩
                  cases hreply : reply p.slot with
                  | failed => simp [requestCheckpoint, hreply] at hcheckpoint
                  | missing => simp [requestCheckpoint, hreply] at hcheckpoint
                  | found c =>
                      rw [hreply] at hcheckpoint
                      cases hcheckpoint
                      rw [not_not] at hroot
                      rw [← hroot] at hfold
                      exact ⟨c, hdecode, hsuccess, rfl, foldHeaders_some_iff.mp hfold, hopens, hget⟩
                · contradiction
              · contradiction
            · contradiction
  · rintro ⟨rfl, receipt, checkpoint, hdecode, hsuccess, hreply, hchain, hopens, hget⟩
    have hreceipt := decodeAndCheckReceipt_ok_iff.mpr ⟨hdecode, hsuccess⟩
    have hget' : E.trie.get p.proof p.receiptsRoot
        (E.codec.rlpEncodeIndexAndReceipt p.transactionIndex receipt).1 = _ := hget
    simp only [Proofs.check, hreceipt, hreply, requestCheckpoint, foldHeaders_some_iff.mpr hchain,
      hopens, hget', ne_eq, not_true_eq_false, if_false, if_true]
    exact if_pos rfl

/-! ## the receipt behind a checkpoint -/

/-- The receipt is stored for the transaction in the receipts trie of a block. -/
def Stored (block : LightBlock E) (index : UInt64) (receipt : ReceiptEnvelope Log) : Prop :=
  ∀ t, E.trie.root t = block.body.receiptsRoot →
    E.trie.lookup t (E.codec.encodeIndex index) = some (E.codec.encode2718 receipt)

/-- **Checked proofs are true.**  The headers of the message, in some order, lead from the
checkpoint of the slot of the block down to the block and no other; the receipt succeeded, is
stored in the trie of the block, and is what `submit_receipt` will decode.  The order in which
headers of different slots are sent does not matter. -/
theorem checkProofs_sound (hroot : Function.Injective E.primitives.headerRoot)
    (hbody : Function.Injective E.bodyRoot) (htrie : E.trie.Sound) (message : EthToVaraEvent E)
    (reply : Slot → CheckpointReply E) :
    (∀ popped checked, Popped message.proofBlock.headers popped →
      checkProofs message reply popped = .ok checked →
      ∃ checkpoint receipt,
        reply message.proofBlock.block.slot = .found checkpoint ∧
        popped.Perm message.proofBlock.headers ∧
        Descends checkpoint.2 popped message.proofBlock.block.treeHashRoot ∧
        (∀ tip, E.primitives.headerRoot tip = checkpoint.2 →
          Linked tip message.proofBlock.block.header) ∧
        (∀ block : LightBlock E, Descends checkpoint.2 popped block.treeHashRoot →
          block = message.proofBlock.block) ∧
        E.codec.decode message.receiptRlp = some receipt ∧ receipt.isSuccess = true ∧
        Stored message.proofBlock.block message.transactionIndex receipt ∧
        checked = ⟨message.receiptRlp, message.transactionIndex,
          message.proofBlock.block.body.blockNumber, message.proofBlock.block.slot⟩ ∧
        ∀ decodeLogData, VftManager.decodeReceipt E.codec decodeLogData checked.receiptRlp =
          some ⟨true, receipt.logs.map fun log => ⟨log.address, decodeLogData log⟩⟩) ∧
    (message.proofBlock.headers.Pairwise (fun a b => a.slot ≠ b.slot) →
      ∀ headers popped popped', headers.Perm message.proofBlock.headers →
        Popped message.proofBlock.headers popped → Popped headers popped' →
        checkProofs { message with proofBlock := ⟨message.proofBlock.block, headers⟩ } reply popped' =
          checkProofs message reply popped) := by
  refine ⟨?_, ?_⟩
  · intro popped checked hpopped h
    obtain ⟨rfl, receipt, checkpoint, hdecode, hsuccess, hreply, hchain, -, hget⟩ := check_ok_iff.mp h
    refine ⟨checkpoint, receipt, hreply, hpopped.1, hchain, ?_, ?_, hdecode, hsuccess, ?_, rfl, ?_⟩
    · rintro tip htip
      rw [← htip] at hchain
      exact hchain.linked hroot
    · intro block hblock
      exact treeHashRoot_injective hroot hbody (hblock.target_unique hchain)
    · intro t ht
      refine htrie message.proof t _ _ ?_
      rw [ht]
      exact hget
    · intro decodeLogData
      have hdecode' : E.codec.decode message.proofs.receiptRlp = some receipt := hdecode
      simp only [VftManager.decodeReceipt, hdecode', Option.map_some, hsuccess]
  · intro hdistinct headers popped popped' hperm hpopped hpopped'
    rw [hpopped.unique hdistinct hperm hpopped']
    rfl

/-! ## a block with one receipt -/

/-- The digest of a list of pairs. -/
def freeRoot : List (Bytes × Bytes) → Digest
  | [] => .zero
  | (key, value) :: rest =>
      .node (.node (.committee (key.map UInt8.toNat) 0) (.committee (value.map UInt8.toNat) 0))
        (freeRoot rest)

theorem freeRoot_injective : Function.Injective freeRoot := by
  intro a
  induction a with
  | nil =>
      intro b h
      cases b with
      | nil => rfl
      | cons pair b => injection h
  | cons pair a ih =>
      intro b h
      cases b with
      | nil => injection h
      | cons pair' b =>
          injection h with hpair hrest
          injection hpair with hkey hvalue
          injection hkey with hkey _
          injection hvalue with hvalue _
          have hbyte : Function.Injective UInt8.toNat := fun _ _ => UInt8.toNat_inj.mp
          rw [ih hrest, Prod.ext (hbyte.list_map hkey) (hbyte.list_map hvalue)]

/-- Programs over free digests. -/
abbrev sampleSetting : Setting where
  primitives := ledgerPrimitives
  codec := sampleCodec
  trie := freeTrie
  Other := Nat
  bodyRoot body := .node (freeRoot body.receiptsRoot) (.committee [body.blockNumber] body.other)

theorem bodyRoot_sampleSetting_injective : Function.Injective sampleSetting.bodyRoot := by
  intro ⟨_, _, _⟩ ⟨_, _, _⟩ h
  injection h with hroot hrest
  injection hrest with hnumber hother
  rw [BlockBody.mk.injEq]
  exact ⟨freeRoot_injective hroot, List.head_eq_of_cons_eq hnumber, hother⟩

/-- Block 7 with one receipt, and the header after it. -/
def sampleBlock : LightBlock sampleSetting :=
  ⟨100, 3, .zero, .zero, ⟨[(rlpIndex 0, sample2718)], 7, 5⟩⟩

def sampleHeader : Header ledgerPrimitives := ⟨101, 4, sampleBlock.treeHashRoot, .zero, .zero⟩

def sampleMessage : EthToVaraEvent sampleSetting :=
  ⟨⟨sampleBlock, [sampleHeader]⟩, [sample2718], 0, [0xb9, 0x01, 0x0c] ++ sample2718⟩

/-- The receipt of block 7 checked against the checkpoint of the header after it. -/
theorem checkProofs_sound_sample :
    checkProofs sampleMessage (fun _ => .found (ledgerPrimitives.checkpoint sampleHeader))
        [sampleHeader] = .ok ⟨[0xb9, 0x01, 0x0c] ++ sample2718, 0, 7, 100⟩ ∧
      Linked sampleHeader sampleBlock.header := by
  have hok : checkProofs sampleMessage (fun _ => .found (ledgerPrimitives.checkpoint sampleHeader))
      [sampleHeader] = .ok ⟨[0xb9, 0x01, 0x0c] ++ sample2718, 0, 7, 100⟩ := by decide +kernel
  have hpopped : Popped sampleMessage.proofBlock.headers [sampleHeader] :=
    ⟨.refl _, List.pairwise_singleton _ _⟩
  obtain ⟨checkpoint, receipt, hreply, _, _, hlinked, _⟩ := (checkProofs_sound
    headerRoot_ledger_injective bodyRoot_sampleSetting_injective freeTrie_sound sampleMessage
    (fun _ => .found (ledgerPrimitives.checkpoint sampleHeader))).1 _ _ hpopped hok
  cases hreply
  exact ⟨hok, hlinked sampleHeader rfl⟩

end GearBridges.EthEvents
