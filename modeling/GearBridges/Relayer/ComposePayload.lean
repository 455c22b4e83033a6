import GearBridges.CheckpointLightClient.CheckpointFor
import GearBridges.EthEvents.CheckProofs

/-!
# Relayer.ComposePayload

The relayer composes what `check_proofs` will check: it finds the beacon block of a
transaction, asks for the checkpoint of its slot, fetches the headers in between and proves
the receipt.  Checkpoints may be pushed before the message is checked; as long as they rise
the message stays good (`compose_accepted`).
-/

namespace GearBridges.ComposePayload

open EthereumCommon CheckpointLightClient EthEvents Transition

/-- Errors of the relayer: `ErrorNotFound` of the beacon client, or a text. -/
inductive AnyError where
  | notFound
  | other (text : String)
deriving DecidableEq

def AnyError.text : AnyError → String
  | .notFound => "NotFound"
  | .other text => text

/-! ## nodes -/

section

variable (E : Setting)

/-- Full block bodies: their other fields, their root, and what `into` keeps of those fields. -/
structure FullBody where
  Other : Type
  bodyRoot : BlockBody E.trie.Root Other → E.primitives.Hash
  light : Other → E.Other

variable (F : FullBody E)

/-- A beacon block as the node returns it. -/
structure Block where
  slot : Nat
  proposerIndex : Nat
  parentRoot : E.primitives.Hash
  stateRoot : E.primitives.Hash
  body : BlockBody E.trie.Root F.Other

/-- Requests of `BeaconClient`. -/
structure BeaconClient where
  getBlock : Nat → Except AnyError (Block E F)
  getBlockByHash : E.primitives.Hash → Except AnyError (Block E F)
  getBlockHeader : Nat → Except AnyError (Header E.primitives)
  getBlockHeaderFinalized : Except AnyError (Header E.primitives)

/-- A receipt as the execution node returns it. -/
structure TransactionReceipt where
  inner : ReceiptEnvelope RpcLog
  blockHash : Option (BitVec 256)
  blockNumber : Option Nat
  transactionIndex : Option UInt64

/-- A block of the execution layer. -/
structure EthBlock where
  parentBeaconBlockRoot : Option E.primitives.Hash
  number : Nat

/-- Requests of `EthApi`. -/
structure EthApi where
  getTransactionReceipt : BitVec 256 → Except AnyError (Option TransactionReceipt)
  getBlockByHash : BitVec 256 → Except AnyError (Option (EthBlock E))
  getBlockByNumber : Nat → Except AnyError (Option (EthBlock E))
  getBlockReceipts : Nat → Except AnyError (Option (List TransactionReceipt))

/-- Queries of the programs on Vara; the inner error is the reply of the program. -/
structure GearApi where
  endpointFor : Slot → Except AnyError (Except String (BitVec 256))
  checkpointLightClientAddress : BitVec 256 → Except AnyError (BitVec 256)
  checkpoint : BitVec 256 → Slot → Except AnyError (Except String (Checkpoint E.primitives))

/-- `sort_unstable_by` on the slot: any order of headers of one slot. -/
abbrev SortBySlot : Type :=
  { sort : List (Header E.primitives) → List (Header E.primitives) //
    ∀ headers, Popped headers (sort headers).reverse }

end

variable {E : Setting} {F : FullBody E}

def Block.header (block : Block E F) : Header E.primitives where
  slot := block.slot
  proposerIndex := block.proposerIndex
  parentRoot := block.parentRoot
  stateRoot := block.stateRoot
  bodyRoot := F.bodyRoot block.body

def Block.root (block : Block E F) : E.primitives.Hash := E.primitives.headerRoot block.header

/-- The light block of a block: `BlockGenericForBlockBody` with `body.into()`. -/
def Block.toLight (block : Block E F) : LightBlock E where
  slot := block.slot
  proposerIndex := block.proposerIndex
  parentRoot := block.parentRoot
  stateRoot := block.stateRoot
  body := ⟨block.body.receiptsRoot, block.body.blockNumber, F.light block.body.other⟩

/-- Addition of `u64`. -/
def nextSlot (slot : Nat) : Nat := (slot + 1) % 2 ^ 64

/-! ## the beacon client -/

/-- The loop of `find_beacon_block`. -/
def searchSlots (client : BeaconClient E F) (blockNumber : Nat) :
    List Nat → Except AnyError (Block E F)
  | [] => .error (.other "Block was not found")
  | slot :: rest => match client.getBlock slot with
      | .ok block =>
          if block.body.blockNumber = blockNumber then .ok block
          else searchSlots client blockNumber rest
      | .error .notFound => searchSlots client blockNumber rest
      | .error e => .error e

def findBeaconBlock (client : BeaconClient E F) (blockNumber : Nat) (blockStart : Block E F) :
    Except AnyError (Block E F) :=
  match compare blockNumber blockStart.body.blockNumber with
  | .lt => .error (.other "Requested block number is behind the start beacon block")
  | .eq => .ok blockStart
  | .gt => match client.getBlockHeaderFinalized with
      | .error e => .error e
      | .ok headerFinalized =>
          let slotStart := nextSlot blockStart.slot
          searchSlots client blockNumber
            (List.range' slotStart (headerFinalized.slot + 1 - slotStart))

/-- `collect` of the responses without those that were not found. -/
def collectFound {α : Type} : List (Except AnyError α) → Except AnyError (List α)
  | [] => .ok []
  | .ok a :: rest => (collectFound rest).map (a :: ·)
  | .error .notFound :: rest => collectFound rest
  | .error e :: _ => .error e

/-- Headers of the slots from `slotStart` on, below `slotEnd`.  The subtraction in the
capacity panics if they are the other way round. -/
def requestHeaders (client : BeaconClient E F) (slotStart slotEnd : Nat) :
    Except AnyError (List (Header E.primitives)) :=
  if slotEnd < slotStart then .error (.other "attempt to subtract with overflow")
  else match collectFound ((List.range' slotStart (slotEnd - slotStart)).map client.getBlockHeader) with
    | .error e => .error (.other ("Failed to fetch block headers ([" ++ toString slotStart ++ "; " ++
        toString slotEnd ++ ")): " ++ e.text))
    | .ok headers => .ok headers

/-! ## compose -/

/-- `ok_or` with a text. -/
def okOr {α : Type} (a : Option α) (text : String) : Except AnyError α :=
  match a with
  | none => .error (.other text)
  | some a => .ok a

/-- The part of `build_inclusion_proof` after the checkpoint is known. -/
def linkToCheckpoint (client : BeaconClient E F) (sort : SortBySlot E) (block : Block E F)
    (checkpoint : Checkpoint E.primitives) : Except AnyError (BlockInclusionProof E) :=
  if block.slot = checkpoint.1 then .ok ⟨block.toLight, []⟩
  else match requestHeaders client (nextSlot block.slot) (nextSlot checkpoint.1) with
    | .error e => .error e
    | .ok headers =>
        match foldHeaders checkpoint.2 (sort.val headers).reverse with
        | none => .error (.other "Invalid block proof")
        | some _ => .ok ⟨block.toLight, sort.val headers⟩

def buildInclusionProof (client : BeaconClient E F) (gear : GearApi E) (sort : SortBySlot E)
    (beaconRootParent : E.primitives.Hash) (blockNumber : Nat) :
    Except AnyError (BlockInclusionProof E) := do
  let beaconBlockParent ← client.getBlockByHash beaconRootParent
  let beaconBlock ← findBeaconBlock client blockNumber beaconBlockParent
  let beaconBlock ← client.getBlock beaconBlock.slot
  let slot := beaconBlock.slot
  let endpoint ← match (← gear.endpointFor slot) with
    | .ok endpoint => pure endpoint
    | .error text => throw (.other ("Proxy faield to get endpoint for slot #" ++ toString slot ++ ": " ++
        text))
  let checkpointEndpoint ← gear.checkpointLightClientAddress endpoint
  let checkpoint ← match (← gear.checkpoint checkpointEndpoint slot) with
    | .ok checkpoint => pure checkpoint
    | .error text => throw (.other ("Checkpoint error: " ++ text))
  linkToCheckpoint client sort beaconBlock checkpoint

/-- The block of a receipt. -/
def blockOfReceipt (eth : EthApi E) (receipt : TransactionReceipt) : Except AnyError (EthBlock E) :=
  match receipt.blockHash with
  | some hash => do okOr (← eth.getBlockByHash hash) "Ethereum block (hash) is missing"
  | none => match receipt.blockNumber with
      | some number => do okOr (← eth.getBlockByNumber number) "Ethereum block (number) is missing"
      | none => throw (.other "Unable to get Ethereum block")

/-- Receipts with their indices; none at all if an index is missing. -/
def indexReceipts (receipts : List TransactionReceipt) : List (UInt64 × ReceiptEnvelope Log) :=
  (receipts.mapM fun r : TransactionReceipt =>
    r.transactionIndex.map fun i => (i, mapReceiptEnvelope r.inner)).getD []

def MerkleProofError.text : MerkleProofError → String
  | .receiptNotFound => "ReceiptNotFound"
  | .insertionFailed => "InsertionFailed"
  | .rootIsNotValid => "RootIsNotValid"

/-- `compose`, with the order in which its headers are sorted. -/
def compose (client : BeaconClient E F) (gear : GearApi E) (eth : EthApi E) (sort : SortBySlot E)
    (txHash : BitVec 256) : Except AnyError (EthToVaraEvent E) := do
  let receipt ← okOr (← eth.getTransactionReceipt txHash) "Transaction receipt is missing"
  let block ← blockOfReceipt eth receipt
  let beaconRootParent ← okOr block.parentBeaconBlockRoot
    "Unable to determine root of parent beacon block"
  let proofBlock ← buildInclusionProof client gear sort beaconRootParent block.number
  let txIndex ← okOr receipt.transactionIndex "Unable to determine transaction index"
  let receipts := indexReceipts ((← eth.getBlockReceipts block.number).getD [])
  match generateMerkleProof E.codec E.trie txIndex receipts with
  | .error e => throw (.other (MerkleProofError.text e))
  | .ok merkle => pure ⟨proofBlock, merkle.proof, txIndex, E.codec.encode merkle.receipt⟩

/-! ## honest nodes -/

/-- Consecutive blocks of the chain. -/
def Follows (parent block : Block E F) : Prop :=
  block.parentRoot = parent.root ∧ parent.slot < block.slot ∧
    block.body.blockNumber = parent.body.blockNumber + 1

/-- The answer of a node about a slot. -/
def answer {α : Type} (blocks : List (Block E F)) (f : Block E F → α) (slot : Nat) :
    Except AnyError α :=
  match blocks.find? fun b => b.slot = slot with
  | some block => .ok (f block)
  | none => .error .notFound

/-- A beacon node that answers from the chain `blocks`, oldest first, of which `finalized` is
finalized.  There is a slot after each block, since something comes after what is finalized.
A request of a block fails in the client when the JSON of the block does not decode; nothing
is known of it then. -/
structure Honest (client : BeaconClient E F) (blocks : List (Block E F)) (finalized : Block E F)
    (decodes : Block E F → Prop) : Prop where
  chain : blocks.IsChain Follows
  slot_lt : ∀ b ∈ blocks, b.slot + 1 < 2 ^ 64
  getBlock : ∀ slot, (∀ b ∈ blocks, b.slot = slot → decodes b) →
    client.getBlock slot = answer blocks id slot
  getBlockHeader : ∀ slot, client.getBlockHeader slot = answer blocks Block.header slot
  getBlockByHash : ∀ b ∈ blocks, decodes b → client.getBlockByHash b.root = .ok b
  getBlockHeaderFinalized : client.getBlockHeaderFinalized = .ok finalized.header

theorem nextSlot_eq {slot : Nat} (h : slot + 1 < 2 ^ 64) : nextSlot slot = slot + 1 :=
  Nat.mod_eq_of_lt h

theorem searchSlots_append {client : BeaconClient E F} {blockNumber : Nat} {empty rest : List Nat}
    (h : ∀ slot ∈ empty, client.getBlock slot = .error .notFound) :
    searchSlots client blockNumber (empty ++ rest) = searchSlots client blockNumber rest := by
  induction empty with
  | nil => rfl
  | cons slot empty ih =>
      rw [List.cons_append, searchSlots, h slot List.mem_cons_self]
      exact ih fun x hx => h x (List.mem_cons_of_mem _ hx)

/-- Responses of an honest node: those found. -/
theorem collectFound_answer {α : Type} (blocks : List (Block E F)) (f : Block E F → α)
    (slots : List Nat) : collectFound (slots.map (answer blocks f)) =
      .ok ((slots.filterMap fun slot => blocks.find? fun b => b.slot = slot).map f) := by
  induction slots with
  | nil => rfl
  | cons slot slots ih =>
      rw [List.map_cons, List.filterMap_cons]
      unfold answer at ih ⊢
      cases hfind : blocks.find? (fun b => b.slot = slot) with
      | none =>
          simp only [collectFound]
          exact ih
      | some block =>
          simp only [collectFound]
          rw [ih]
          rfl

section

variable {client : BeaconClient E F} {blocks : List (Block E F)} {finalized : Block E F}
  {decodes : Block E F → Prop}

theorem Honest.slots (h : Honest client blocks finalized decodes) :
    blocks.Pairwise fun a b => a.slot < b.slot := by
  let older (a b : Block E F) : Prop := a.slot < b.slot
  have : Trans older older older := ⟨Nat.lt_trans⟩
  exact (h.chain.imp fun _ _ hab => hab.2.1).pairwise

theorem find?_slot (hslots : blocks.Pairwise fun a b => a.slot < b.slot) {slot : Nat}
    {b : Block E F} : blocks.find? (fun x => x.slot = slot) = some b ↔ b ∈ blocks ∧ b.slot = slot := by
  constructor
  · intro hfind
    exact ⟨List.mem_of_find?_eq_some hfind, by simpa using List.find?_some hfind⟩
  · rintro ⟨hb, rfl⟩
    cases hfind : blocks.find? (fun x => x.slot = b.slot) with
    | none => simpa using List.find?_eq_none.mp hfind b hb
    | some x =>
        have hslot : x.slot = b.slot := by simpa using List.find?_some hfind
        by_contra hne
        have : Std.Symm fun a b : Block E F => a.slot ≠ b.slot := ⟨fun _ _ h => h.symm⟩
        exact (hslots.imp Nat.ne_of_lt).forall (List.mem_of_find?_eq_some hfind) hb
          (fun heq => hne (congrArg some heq)) hslot

theorem Honest.getBlock_of_mem (h : Honest client blocks finalized decodes) {b : Block E F}
    (hb : b ∈ blocks) (hdecodes : decodes b) : client.getBlock b.slot = .ok b := by
  have hfind := (find?_slot h.slots).mpr ⟨hb, rfl⟩
  have honly : ∀ x ∈ blocks, x.slot = b.slot → decodes x := by
    intro x hx hslot
    have heq := (find?_slot h.slots).mpr ⟨hx, hslot⟩
    rw [hfind] at heq
    rwa [← Option.some.inj heq]
  rw [h.getBlock _ honly, answer, hfind]
  rfl

/-- **The block of a transaction is found**: the slots after the parent up to it are empty. -/
theorem Honest.findBeaconBlock (h : Honest client blocks finalized decodes)
    {older newer : List (Block E F)}
    {parent block : Block E F} (hblocks : blocks = older ++ parent :: block :: newer)
    (hfinalized : block.slot ≤ finalized.slot) (hdecodes : decodes block) :
    findBeaconBlock client block.body.blockNumber parent = .ok block := by
  have hchain := h.chain
  rw [hblocks, List.isChain_append_cons_cons] at hchain
  obtain ⟨-, ⟨-, hslot, hnumber⟩, -⟩ := hchain
  have hparent : parent ∈ blocks := by simp [hblocks]
  have hblock : block ∈ blocks := by simp [hblocks]
  have hsplit : List.range' (parent.slot + 1) (finalized.slot + 1 - (parent.slot + 1)) =
      List.range' (parent.slot + 1) (block.slot - (parent.slot + 1)) ++
        block.slot :: List.range' (block.slot + 1) (finalized.slot - block.slot) := by
    have hn : finalized.slot + 1 - (parent.slot + 1) =
        (block.slot - (parent.slot + 1)) + (finalized.slot - block.slot + 1) := by omega
    have hs : parent.slot + 1 + (block.slot - (parent.slot + 1)) = block.slot := by omega
    rw [hn, ← List.range'_append_1, List.range'_succ, hs]
  have hempty : ∀ slot ∈ List.range' (parent.slot + 1) (block.slot - (parent.slot + 1)),
      client.getBlock slot = .error .notFound := by
    intro slot hmem
    rw [List.mem_range'_1] at hmem
    have hnone : blocks.find? (fun b => b.slot = slot) = none := by
      rw [List.find?_eq_none]
      intro x hx hxslot
      have hxslot : x.slot = slot := by simpa using hxslot
      have hslots := h.slots
      rw [hblocks] at hx hslots
      rw [List.pairwise_append] at hslots
      obtain ⟨-, hnewer, holder⟩ := hslots
      rw [List.pairwise_cons, List.pairwise_cons] at hnewer
      simp only [List.mem_append, List.mem_cons] at hx
      rcases hx with hx | rfl | rfl | hx
      · have := holder x hx parent List.mem_cons_self
        omega
      · omega
      · omega
      · have := hnewer.2.1 x hx
        omega
    have hempty : ∀ b ∈ blocks, b.slot = slot → decodes b := fun b hb hslot =>
      absurd hslot (by simpa using List.find?_eq_none.mp hnone b hb)
    rw [h.getBlock slot hempty, answer, hnone]
  unfold ComposePayload.findBeaconBlock
  rw [hnumber, Nat.compare_eq_gt.mpr (Nat.lt_succ_self _), h.getBlockHeaderFinalized]
  show searchSlots client (parent.body.blockNumber + 1)
    (List.range' (nextSlot parent.slot) (finalized.slot + 1 - nextSlot parent.slot)) = .ok block
  rw [nextSlot_eq (h.slot_lt parent hparent), hsplit, searchSlots_append hempty, searchSlots,
    h.getBlock_of_mem hblock hdecodes]
  exact if_pos hnumber

/-- Lists of blocks in the order of their slots are equal when their members are. -/
theorem eq_of_slots {l l' : List (Block E F)} (h : l.Pairwise fun a b => a.slot < b.slot)
    (h' : l'.Pairwise fun a b => a.slot < b.slot) (hmem : ∀ b, b ∈ l ↔ b ∈ l') : l = l' := by
  have hnodup : ∀ {l : List (Block E F)}, l.Pairwise (fun a b => a.slot < b.slot) → l.Nodup :=
    fun h => h.imp fun hlt heq => Nat.ne_of_lt hlt (congrArg Block.slot heq)
  have hperm := (List.perm_ext_iff_of_nodup (hnodup h) (hnodup h')).mpr hmem
  exact hperm.eq_of_pairwise (fun a b _ _ hab hba => absurd hab (Nat.lt_asymm hba)) h h'

/-- Blocks found in a range of slots come in the order of their slots. -/
theorem pairwise_found (hslots : blocks.Pairwise fun a b => a.slot < b.slot) (lo n : Nat) :
    ((List.range' lo n).filterMap
      (fun slot => blocks.find? fun b => b.slot = slot)).Pairwise fun a b => a.slot < b.slot := by
  refine List.Pairwise.filterMap _ ?_ (List.pairwise_lt_range' 1)
  intro slot slot' hlt a ha b hb
  rw [((find?_slot hslots).mp ha).2, ((find?_slot hslots).mp hb).2]
  exact hlt

/-- Blocks found in a range of slots: those after one block up to another. -/
theorem filterMap_find?_slot (hslots : blocks.Pairwise fun a b => a.slot < b.slot)
    {older between newer : List (Block E F)} {low high : Block E F}
    (hblocks : blocks = older ++ low :: (between ++ high :: newer)) :
    (List.range' (low.slot + 1) (high.slot - low.slot)).filterMap
      (fun slot => blocks.find? fun b => b.slot = slot) = between ++ [high] := by
  have hparts := hslots
  rw [hblocks, List.pairwise_append, List.pairwise_cons, List.pairwise_append, List.pairwise_cons]
    at hparts
  obtain ⟨-, ⟨hlow, hbetween, ⟨hnewer, -⟩, hup⟩, holder⟩ := hparts
  have hhigh : low.slot < high.slot := hlow high (by simp)
  have hsorted : (between ++ [high]).Pairwise fun a b => a.slot < b.slot := by
    rw [List.pairwise_append]
    exact ⟨hbetween, List.pairwise_singleton _ _, fun a ha b hb =>
      hup a ha b (List.mem_cons.mpr (.inl (List.mem_singleton.mp hb)))⟩
  have hmem : ∀ x, x ∈ (List.range' (low.slot + 1) (high.slot - low.slot)).filterMap
      (fun slot => blocks.find? fun b => b.slot = slot) ↔ x ∈ between ++ [high] := by
    intro x
    simp only [List.mem_filterMap, List.mem_range'_1, find?_slot hslots]
    constructor
    · rintro ⟨slot, hrange, hx, rfl⟩
      rw [hblocks] at hx
      simp only [List.mem_append, List.mem_cons, List.not_mem_nil, or_false] at hx ⊢
      rcases hx with hx | rfl | hx | rfl | hx
      · have := holder x hx low List.mem_cons_self
        omega
      · omega
      · exact .inl hx
      · exact .inr rfl
      · have := hnewer x hx
        omega
    · intro hx
      have hxblocks : x ∈ blocks := by
        rw [hblocks]
        simp only [List.mem_append, List.mem_cons, List.not_mem_nil, or_false] at hx ⊢
        tauto
      refine ⟨x.slot, ?_, hxblocks, rfl⟩
      simp only [List.mem_append, List.mem_cons, List.not_mem_nil, or_false] at hx
      rcases hx with hx | rfl
      · have hxlow := hlow x (by simp [hx])
        have hxhigh := hup x hx high List.mem_cons_self
        omega
      · omega
  exact eq_of_slots (pairwise_found hslots _ _) hsorted hmem

/-- **The headers of a range of slots**: those of the blocks after one block up to another. -/
theorem Honest.requestHeaders (h : Honest client blocks finalized decodes)
    {older between newer : List (Block E F)} {low high : Block E F}
    (hblocks : blocks = older ++ low :: (between ++ high :: newer)) :
    requestHeaders client (low.slot + 1) (high.slot + 1) =
      .ok ((between ++ [high]).map Block.header) := by
  have hlt : low.slot < high.slot := by
    have hslots := h.slots
    rw [hblocks, List.pairwise_append, List.pairwise_cons] at hslots
    exact hslots.2.1.1 high (by simp)
  have hget : client.getBlockHeader = answer blocks Block.header := funext h.getBlockHeader
  unfold ComposePayload.requestHeaders
  rw [if_neg (by omega), show high.slot + 1 - (low.slot + 1) = high.slot - low.slot by omega, hget,
    collectFound_answer, filterMap_find?_slot h.slots hblocks]

/-! ## the chain between a block and a checkpoint -/

theorem Descends.append {P : Primitives} {xs ys : List (Header P)} {root middle target : P.Hash}
    (hx : Descends root xs middle) (hy : Descends middle ys target) :
    Descends root (xs ++ ys) target := by
  induction hx with
  | here => exact hy
  | parent _ ih => exact .parent (ih hy)

/-- The headers above a block lead down to it. -/
theorem descends_of_chain {block top : Block E F} {above : List (Block E F)}
    (h : (block :: above).IsChain Follows) (htop : (block :: above).getLast? = some top) :
    Descends top.root (above.map Block.header).reverse block.root := by
  induction above generalizing block with
  | nil =>
      cases htop
      exact .here _
  | cons next above ih =>
      rw [List.isChain_cons_cons] at h
      rw [List.getLast?_cons_cons] at htop
      rw [List.map_cons, List.reverse_cons]
      refine Descends.append (ih h.2 htop) (.parent ?_)
      show Descends next.parentRoot [] block.root
      rw [h.1.1]
      exact .here _

theorem Descends.source_unique {P : Primitives} {headers : List (Header P)} {a b target : P.Hash}
    (ha : Descends a headers target) (hb : Descends b headers target) : a = b := by
  cases ha with
  | here => cases hb; rfl
  | parent _ => cases hb; rfl

/-- Headers in rising order come out of the sort as they are, and are met from the newest on. -/
theorem popped_of_rising {P : Primitives} {headers popped : List (Header P)}
    (h : headers.Pairwise fun a b => a.slot < b.slot) (hpopped : Popped headers popped) :
    popped = headers.reverse := by
  have hself : Popped headers headers.reverse :=
    ⟨List.reverse_perm headers, List.pairwise_reverse.mpr (h.imp Nat.le_of_lt)⟩
  exact hpopped.unique (h.imp Nat.ne_of_lt) (.refl _) hself

/-- **The inclusion proof**: headers that lead from the checkpoint to the block, however they are
sorted. -/
theorem Honest.linkToCheckpoint (h : Honest client blocks finalized decodes) (sort : SortBySlot E)
    {older newer : List (Block E F)} {low high : Block E F} (hblocks : blocks = older ++ low :: newer)
    (hhigh : high = low ∨ high ∈ newer) :
    ∃ headers, linkToCheckpoint client sort low (high.slot, high.root) = .ok ⟨low.toLight, headers⟩ ∧
      (∃ popped, Popped headers popped) ∧
      ∀ popped, Popped headers popped → Descends high.root popped low.root := by
  unfold ComposePayload.linkToCheckpoint
  rcases hhigh with rfl | hhigh
  · refine ⟨[], if_pos rfl, ⟨[], .refl _, .nil⟩, ?_⟩
    intro popped hpopped
    rw [hpopped.1.eq_nil]
    exact .here _
  · obtain ⟨between, newest, rfl⟩ := List.append_of_mem hhigh
    have hslots := h.slots
    have hlow : low ∈ blocks := by simp [hblocks]
    have hmem : high ∈ blocks := by simp [hblocks]
    rw [hblocks, List.pairwise_append, List.pairwise_cons] at hslots
    obtain ⟨-, ⟨habove, hnewer⟩, -⟩ := hslots
    have hlt : low.slot < high.slot := habove high (by simp)
    have hrising : ((between ++ [high]).map Block.header).Pairwise fun a b => a.slot < b.slot := by
      rw [List.pairwise_map]
      refine hnewer.sublist ?_
      rw [show between ++ high :: newest = (between ++ [high]) ++ newest by simp]
      exact List.sublist_append_left _ _
    have hchain : (low :: (between ++ [high])).IsChain Follows := by
      have hall := h.chain
      rw [hblocks, show older ++ low :: (between ++ high :: newest) =
        older ++ (low :: (between ++ [high]) ++ newest) by simp] at hall
      exact hall.right_of_append.left_of_append
    have htop : (low :: (between ++ [high])).getLast? = some high := by
      rw [← List.cons_append, List.getLast?_concat]
    have hdescends := descends_of_chain hchain htop
    have hsorted := sort.property ((between ++ [high]).map Block.header)
    have hsort : sort.val ((between ++ [high]).map Block.header) =
        (between ++ [high]).map Block.header :=
      List.reverse_inj.mp (popped_of_rising hrising hsorted)
    refine ⟨(between ++ [high]).map Block.header, ?_, ?_, ?_⟩
    · rw [if_neg (Nat.ne_of_lt hlt), nextSlot_eq (h.slot_lt low hlow), nextSlot_eq (h.slot_lt high hmem),
        h.requestHeaders hblocks]
      simp only [hsort, foldHeaders_some_iff.mpr hdescends]
    · rw [hsort] at hsorted
      exact ⟨_, hsorted⟩
    · intro popped hpopped
      rw [popped_of_rising hrising hpopped]
      exact hdescends

end

/-! ## what is composed -/

/-- The receipts of a block: their trie has the root that the block carries. -/
structure Holds (block : Block E F) (receipts : List (UInt64 × ReceiptEnvelope Log)) : Prop where
  root : ∃ t, receiptsTrie E.codec E.trie receipts = some t ∧
    E.trie.root t = block.body.receiptsRoot
  distinct : receipts.Pairwise fun a b => a.1 ≠ b.1
  status : ∀ r ∈ receipts, ∃ success, r.2.status = .eip658 success

/-- An execution node that answers about a transaction of a block with the given receipts. -/
structure Reported (eth : EthApi E) (txHash : BitVec 256) (block : Block E F) (index : UInt64)
    (receipts : List (UInt64 × ReceiptEnvelope Log)) : Prop where
  transaction : ∃ receipt ethBlock, eth.getTransactionReceipt txHash = .ok (some receipt) ∧
    receipt.transactionIndex = some index ∧
    ((∃ hash, receipt.blockHash = some hash ∧ eth.getBlockByHash hash = .ok (some ethBlock)) ∨
      (receipt.blockHash = none ∧ ∃ number, receipt.blockNumber = some number ∧
        eth.getBlockByNumber number = .ok (some ethBlock))) ∧
    ethBlock.number = block.body.blockNumber ∧ ethBlock.parentBeaconBlockRoot = some block.parentRoot
  receipts : ∃ answers, eth.getBlockReceipts block.body.blockNumber = .ok (some answers) ∧
    List.Forall₂ (fun r answer => answer.transactionIndex = some r.1 ∧ Reports r.2 answer.inner)
      receipts answers

/-- The programs on Vara answer with a checkpoint of the slot. -/
def Answers (gear : GearApi E) (slot : Slot) (checkpoint : Checkpoint E.primitives) : Prop :=
  ∃ endpoint address, gear.endpointFor slot = .ok (.ok endpoint) ∧
    gear.checkpointLightClientAddress endpoint = .ok address ∧
    gear.checkpoint address slot = .ok (.ok checkpoint)

theorem indexReceipts_eq {receipts : List (UInt64 × ReceiptEnvelope Log)}
    {answers : List TransactionReceipt} (hstatus : ∀ r ∈ receipts, ∃ success, r.2.status = .eip658 success)
    (h : List.Forall₂ (fun r answer => answer.transactionIndex = some r.1 ∧ Reports r.2 answer.inner)
      receipts answers) : indexReceipts answers = receipts := by
  have hmap : answers.mapM (fun r : TransactionReceipt =>
      r.transactionIndex.map fun i => (i, mapReceiptEnvelope r.inner)) = some receipts := by
    induction h with
    | nil => rfl
    | @cons r answer receipts answers hr _ ih =>
        obtain ⟨success, hsuccess⟩ := hstatus r List.mem_cons_self
        rw [List.mapM_cons, hr.1, ih fun x hx => hstatus x (List.mem_cons_of_mem _ hx),
          Option.map_some, mapReceiptEnvelope_eq hr.2 hsuccess]
        rfl
  rw [indexReceipts, hmap]
  rfl

theorem blockOfReceipt_eq {eth : EthApi E} {receipt : TransactionReceipt} {ethBlock : EthBlock E}
    (h : (∃ hash, receipt.blockHash = some hash ∧ eth.getBlockByHash hash = .ok (some ethBlock)) ∨
      (receipt.blockHash = none ∧ ∃ number, receipt.blockNumber = some number ∧
        eth.getBlockByNumber number = .ok (some ethBlock))) :
    blockOfReceipt eth receipt = .ok ethBlock := by
  unfold blockOfReceipt
  rcases h with ⟨hash, hhash, hget⟩ | ⟨hhash, number, hnumber, hget⟩
  · rw [hhash]
    simp only [hget]
    rfl
  · rw [hhash, hnumber]
    simp only [hget]
    rfl

section

variable {client : BeaconClient E F} {blocks : List (Block E F)} {finalized : Block E F}
  {decodes : Block E F → Prop}
  {older newer : List (Block E F)} {parent block high : Block E F}

theorem Honest.buildInclusionProof (h : Honest client blocks finalized decodes) (sort : SortBySlot E)
    (hblocks : blocks = older ++ parent :: block :: newer) (hfinalized : block.slot ≤ finalized.slot)
    (hdecodes : decodes parent ∧ decodes block) (hhigh : high = block ∨ high ∈ newer)
    {gear : GearApi E}
    (hgear : Answers gear block.slot (high.slot, high.root)) :
    ∃ headers, buildInclusionProof client gear sort block.parentRoot block.body.blockNumber =
        .ok ⟨block.toLight, headers⟩ ∧ (∃ popped, Popped headers popped) ∧
      ∀ popped, Popped headers popped → Descends high.root popped block.root := by
  have hparent : block.parentRoot = parent.root := by
    have hchain := h.chain
    rw [hblocks, List.isChain_append_cons_cons] at hchain
    exact hchain.2.1.1
  obtain ⟨endpoint, address, hendpoint, haddress, hcheckpoint⟩ := hgear
  obtain ⟨headers, hlink, hsome, hdescends⟩ := h.linkToCheckpoint sort
    (show blocks = (older ++ [parent]) ++ block :: newer by simp [hblocks]) hhigh
  refine ⟨headers, ?_, hsome, hdescends⟩
  unfold ComposePayload.buildInclusionProof
  rw [hparent, h.getBlockByHash parent (by simp [hblocks]) hdecodes.1]
  simp only [bind, Except.bind, h.findBeaconBlock hblocks hfinalized hdecodes.2,
    h.getBlock_of_mem (show block ∈ blocks by simp [hblocks]) hdecodes.2, hendpoint, haddress,
    hcheckpoint, pure, Except.pure]
  exact hlink

/-- **What `compose` returns** from honest nodes: the block, headers that lead from the checkpoint
to it, and a proof that the receipt is in its trie. -/
theorem Honest.compose (h : Honest client blocks finalized decodes) (sort : SortBySlot E)
    (hblocks : blocks = older ++ parent :: block :: newer) (hfinalized : block.slot ≤ finalized.slot)
    (hdecodes : decodes parent ∧ decodes block) (hhigh : high = block ∨ high ∈ newer)
    {gear : GearApi E}
    (hgear : Answers gear block.slot (high.slot, high.root)) {eth : EthApi E} {txHash : BitVec 256}
    {index : UInt64} {receipts : List (UInt64 × ReceiptEnvelope Log)}
    (hreported : Reported eth txHash block index receipts) (hholds : Holds block receipts)
    (hcodec : E.codec.Lawful receipts) (htrie : E.trie.Complete) {receipt : ReceiptEnvelope Log}
    (hreceipt : (index, receipt) ∈ receipts) :
    ∃ headers proof, compose client gear eth sort txHash =
        .ok ⟨⟨block.toLight, headers⟩, proof, index, E.codec.encode receipt⟩ ∧
      (∃ popped, Popped headers popped) ∧
      (∀ popped, Popped headers popped → Descends high.root popped block.root) ∧
      E.trie.opens proof block.body.receiptsRoot = true ∧
      E.trie.get proof block.body.receiptsRoot (E.codec.encodeIndex index) =
        .ok (some (E.codec.encode2718 receipt)) := by
  obtain ⟨headers, hbuild, hsome, hdescends⟩ :=
    h.buildInclusionProof sort hblocks hfinalized hdecodes hhigh hgear
  obtain ⟨txReceipt, ethBlock, htx, hindex, hblock, hnumber, hroot⟩ := hreported.transaction
  obtain ⟨answers, hanswers, hall⟩ := hreported.receipts
  obtain ⟨t, proof, ht, hmerkle, hopens, hget⟩ :=
    generateMerkleProof_spec htrie hcodec hholds.distinct hreceipt
  obtain ⟨t', ht', hreceiptsRoot⟩ := hholds.root
  rw [ht] at ht'
  cases ht'
  rw [hreceiptsRoot] at hopens hget
  refine ⟨headers, proof, ?_, hsome, hdescends, hopens, hget⟩
  unfold ComposePayload.compose
  simp only [htx, bind, Except.bind, okOr, blockOfReceipt_eq hblock, hroot, hnumber, hbuild, hindex,
    hanswers, Option.getD_some, indexReceipts_eq hholds.status hall, hmerkle, pure, Except.pure]

/-- What `checkpoint-light-client` replies to a request for the checkpoint of a slot. -/
def lookupReply (cs : Checkpoints E.primitives) (search : BinarySearch.Search) (split : Nat)
    (slot : Slot) : CheckpointReply E :=
  match cs.checkpoint search split slot with
  | .ok checkpoint => .found checkpoint
  | .error _ => .missing

theorem Block.treeHashRoot_toLight (hlight : ∀ body : BlockBody E.trie.Root F.Other, F.bodyRoot body =
      E.bodyRoot ⟨body.receiptsRoot, body.blockNumber, F.light body.other⟩) (block : Block E F) :
    block.toLight.treeHashRoot = block.root := by
  unfold LightBlock.treeHashRoot Block.root LightBlock.header Block.header
  rw [hlight]
  rfl

/-- The block of a checkpoint not below another block is that block or comes after it. -/
theorem Honest.eq_or_mem_newer (h : Honest client blocks finalized decodes)
    (hblocks : blocks = older ++ parent :: block :: newer) (hmem : high ∈ blocks)
    (hslot : block.slot ≤ high.slot) : high = block ∨ high ∈ newer := by
  have hslots := h.slots
  rw [hblocks, List.pairwise_append, List.pairwise_cons] at hslots
  obtain ⟨-, ⟨hparent, -⟩, holder⟩ := hslots
  rw [hblocks] at hmem
  simp only [List.mem_append, List.mem_cons] at hmem
  rcases hmem with hmem | rfl | hmem | hmem
  · exact absurd (holder high hmem block (by simp)) (Nat.not_lt.mpr hslot)
  · exact absurd (hparent block (by simp)) (Nat.not_lt.mpr hslot)
  · exact .inl hmem
  · exact .inr hmem

/-- **What the relayer composes is accepted.**  With honest nodes, and if the block of the
transaction and its parent decode, `compose` returns a message for the receipt; it is accepted
exactly if the checkpoint found for the slot then is the one found when composing, and so it is
after every run in which checkpoints are pushed in order and that one is still stored. -/
theorem compose_accepted {arg : Init E.primitives} {s₀ : State E.primitives}
    (hinit : init arg = some s₀) {w : World E.primitives}
    (hw : Reachable step InOrder (StartsAt s₀) w) (h : Honest client blocks finalized decodes)
    (hlight : ∀ body : BlockBody E.trie.Root F.Other, F.bodyRoot body =
      E.bodyRoot ⟨body.receiptsRoot, body.blockNumber, F.light body.other⟩)
    (hblocks : blocks = older ++ parent :: block :: newer) (hfinalized : block.slot ≤ finalized.slot)
    (hdecodes : decodes parent ∧ decodes block)
    {search : BinarySearch.Search} {split : Nat} (hmem : high ∈ blocks)
    (hcheckpoint : w.state.checkpoints.checkpoint search split block.slot = .ok (high.slot, high.root))
    {gear : GearApi E} (hgear : Answers gear block.slot (high.slot, high.root))
    {eth : EthApi E} {txHash : BitVec 256} {index : UInt64}
    {receipts : List (UInt64 × ReceiptEnvelope Log)}
    (hreported : Reported eth txHash block index receipts) (hholds : Holds block receipts)
    (hcodec : E.codec.Lawful receipts) (htrie : E.trie.Complete) {receipt : ReceiptEnvelope Log}
    (hreceipt : (index, receipt) ∈ receipts) (hsuccess : receipt.isSuccess = true)
    (sort : SortBySlot E) :
    ∃ event, compose client gear eth sort txHash = .ok event ∧
      (∀ reply : Slot → CheckpointReply E,
        (∀ popped, Popped event.proofBlock.headers popped → checkProofs event reply popped =
          .ok ⟨event.receiptRlp, index, block.body.blockNumber, block.slot⟩) ↔
        ∃ slot, reply block.slot = .found (slot, high.root)) ∧
      ∀ w' search' split', Reachable step InOrder (· = w) w' →
        (high.slot, high.root) ∈ w'.state.checkpoints.entries →
        ∀ popped, Popped event.proofBlock.headers popped →
          checkProofs event (lookupReply w'.state.checkpoints search' split') popped =
            .ok ⟨event.receiptRlp, index, block.body.blockNumber, block.slot⟩ := by
  have hordered := (ordered_of_reachable ⟨s₀, []⟩ (ordered_init hinit) hw).1
  have hcovering : covering w.state.checkpoints.entries block.slot = some (high.slot, high.root) :=
    Checkpoints.covering_of_ok hordered.rising hcheckpoint
  have hslot : block.slot ≤ high.slot := by
    have hfound := List.find?_some hcovering
    exact of_decide_eq_true hfound
  have hhigh := h.eq_or_mem_newer hblocks hmem hslot
  obtain ⟨headers, proof, hcompose, ⟨popped₀, hpopped₀⟩, hdescends, hopens, hget⟩ :=
    h.compose sort hblocks hfinalized hdecodes hhigh hgear hreported hholds hcodec htrie hreceipt
  have hroot := block.treeHashRoot_toLight hlight
  have haccepted : ∀ reply : Slot → CheckpointReply E,
      (∃ slot, reply block.slot = .found (slot, high.root)) → ∀ popped, Popped headers popped →
      checkProofs ⟨⟨block.toLight, headers⟩, proof, index, E.codec.encode receipt⟩ reply popped =
        .ok ⟨E.codec.encode receipt, index, block.body.blockNumber, block.slot⟩ := by
    rintro reply ⟨slot, hreply⟩ popped hpopped
    refine check_ok_iff.mpr ⟨rfl, receipt, (slot, high.root), hcodec.decode_encode _ hreceipt, hsuccess,
      hreply, ?_, hopens, hget⟩
    show Descends high.root popped block.toLight.treeHashRoot
    rw [hroot]
    exact hdescends popped hpopped
  refine ⟨_, hcompose, ?_, ?_⟩
  · intro reply
    refine ⟨?_, haccepted reply⟩
    intro hall
    obtain ⟨-, _, checkpoint, -, -, hreply, hchain, -⟩ := check_ok_iff.mp (hall popped₀ hpopped₀)
    have hchain : Descends checkpoint.2 popped₀ block.toLight.treeHashRoot := hchain
    rw [hroot] at hchain
    refine ⟨checkpoint.1, ?_⟩
    rw [← Descends.source_unique hchain (hdescends popped₀ hpopped₀)]
    exact hreply
  · intro w' search' split' hw' hkept
    refine haccepted _ ⟨high.slot, ?_⟩
    have hrising := (ordered_of_reachable w hordered hw').1.rising
    have hstill := (extends_of_reachable hordered hw').covering_eq hcovering hkept
    unfold lookupReply
    rw [Checkpoints.checkpoint_eq hrising, hstill]

end

/-! ## nodes of the ledger -/

/-- Programs over free digests; headers of the ledger have an empty body root. -/
abbrev ledgerSetting : Setting where
  primitives := ledgerPrimitives
  codec := sampleCodec
  trie := freeTrie
  Other := Unit
  bodyRoot _ := .zero

abbrev ledgerBody : FullBody ledgerSetting := ⟨Unit, fun _ => .zero, id⟩

/-- Block `n` of the ledger with one receipt. -/
def fullBlock (n : Nat) : Block ledgerSetting ledgerBody where
  slot := Digest.ledgerSlot n
  proposerIndex := 0
  parentRoot := Digest.ledgerParent n
  stateRoot := Digest.ledgerState n (Digest.ledgerParent n)
  body := ⟨[(rlpIndex 0, sample2718)], n, ()⟩

def fullBlocks : List (Block ledgerSetting ledgerBody) :=
  [fullBlock 0, fullBlock 1, fullBlock 2, fullBlock 3]

def ledgerClient : BeaconClient ledgerSetting ledgerBody where
  getBlock := answer fullBlocks id
  getBlockByHash root := match root with
    | .header slot .. => answer fullBlocks id slot
    | _ => .error .notFound
  getBlockHeader := answer fullBlocks Block.header
  getBlockHeaderFinalized := .ok (fullBlock 3).header

theorem honest_ledgerClient : Honest ledgerClient fullBlocks (fullBlock 3) fun _ => True where
  chain := by
    simp only [fullBlocks, List.isChain_cons_cons, List.isChain_singleton, and_true]
    exact ⟨⟨rfl, by decide, rfl⟩, ⟨rfl, by decide, rfl⟩, ⟨rfl, by decide, rfl⟩⟩
  slot_lt := by
    simp only [fullBlocks, List.mem_cons, List.not_mem_nil, or_false]
    rintro b (rfl | rfl | rfl | rfl) <;> decide
  getBlock := fun _ _ => rfl
  getBlockHeader := fun _ => rfl
  getBlockByHash := by
    simp only [fullBlocks, List.mem_cons, List.not_mem_nil, or_false]
    rintro b (rfl | rfl | rfl | rfl) <;> exact fun _ => rfl
  getBlockHeaderFinalized := rfl

/-- The receipt of the transaction of block `n`. -/
def ledgerReceipt (n : Nat) : TransactionReceipt :=
  ⟨⟨.eip1559, .eip658 true, 21000, [], 0⟩, some 5, some n, some 0⟩

def ledgerEth (n : Nat) : EthApi ledgerSetting where
  getTransactionReceipt _ := .ok (some (ledgerReceipt n))
  getBlockByHash _ := .ok (some ⟨some (Digest.ledgerParent n), n⟩)
  getBlockByNumber _ := .ok (some ⟨some (Digest.ledgerParent n), n⟩)
  getBlockReceipts _ := .ok (some [ledgerReceipt n])

theorem reported_ledgerEth (n : Nat) :
    Reported (ledgerEth n) 7 (fullBlock n) 0 [(0, sampleReceipt)] where
  transaction := ⟨ledgerReceipt n, _, rfl, rfl, .inl ⟨5, rfl, rfl⟩, rfl, rfl⟩
  receipts := ⟨_, rfl, .cons ⟨rfl, rfl, rfl, rfl, rfl, rfl⟩ .nil⟩

theorem holds_fullBlock (n : Nat) : Holds (fullBlock n) [(0, sampleReceipt)] where
  root := ⟨_, rfl, rfl⟩
  distinct := List.pairwise_singleton _ _
  status := by
    simp only [List.mem_singleton]
    rintro r rfl
    exact ⟨true, rfl⟩

theorem lawful_sampleCodec : sampleCodec.Lawful [(0, sampleReceipt)] where
  decode_encode := by
    simp only [List.mem_singleton]
    rintro r rfl
    exact if_pos trivial
  encode2718_ne_nil := fun _ _ => List.cons_ne_nil _ _
  encodeIndex_injective := rlpIndex_injective

/-- Programs that answer with the checkpoint of block `n`. -/
def ledgerGear (n : Nat) : GearApi ledgerSetting where
  endpointFor _ := .ok (.ok 1)
  checkpointLightClientAddress _ := .ok 2
  checkpoint _ _ := .ok (.ok ((fullBlock n).slot, (fullBlock n).root))

theorem answers_ledgerGear (n : Nat) (slot : Slot) :
    Answers (ledgerGear n) slot ((fullBlock n).slot, (fullBlock n).root) :=
  ⟨1, 2, rfl, rfl, rfl⟩

theorem popped_mergeSort {P : Primitives} (headers : List (Header P)) :
    Popped headers (headers.mergeSort fun a b => decide (a.slot ≤ b.slot)).reverse := by
  refine ⟨(List.reverse_perm _).trans (List.mergeSort_perm _ _), ?_⟩
  have htrans : ∀ a b c : Header P, decide (a.slot ≤ b.slot) = true →
      decide (b.slot ≤ c.slot) = true → decide (a.slot ≤ c.slot) = true := by
    intro a b c hab hbc
    exact decide_eq_true (Nat.le_trans (of_decide_eq_true hab) (of_decide_eq_true hbc))
  have htotal : ∀ a b : Header P, (decide (a.slot ≤ b.slot) || decide (b.slot ≤ a.slot)) = true := by
    intro a b
    rw [Bool.or_eq_true, decide_eq_true_eq, decide_eq_true_eq]
    exact Nat.le_total _ _
  rw [List.pairwise_reverse]
  exact (List.pairwise_mergeSort htrans htotal headers).imp of_decide_eq_true

/-- A stable sort. -/
def sortBySlot (E : Setting) : SortBySlot E :=
  ⟨fun headers => headers.mergeSort fun a b => decide (a.slot ≤ b.slot), popped_mergeSort⟩

/-- A lookup has found a checkpoint. -/
def finds {P : Primitives} (checkpoint : Checkpoint P) : Except CheckpointError (Checkpoint P) → Bool
  | .ok c => decide (c = checkpoint)
  | .error _ => false

theorem eq_of_finds {P : Primitives} {checkpoint : Checkpoint P}
    {result : Except CheckpointError (Checkpoint P)} (h : finds checkpoint result = true) :
    result = .ok checkpoint := by
  cases result with
  | error e => contradiction
  | ok c => rw [of_decide_eq_true h]

theorem lookupReply_of_not_isOk {cs : Checkpoints E.primitives} {search : BinarySearch.Search}
    {split : Nat} {slot : Slot} (h : (cs.checkpoint search split slot).isOk = false) :
    lookupReply cs search split slot = (.missing : CheckpointReply E) := by
  unfold lookupReply
  cases hc : cs.checkpoint search split slot with
  | error e => rfl
  | ok c =>
      rw [hc] at h
      contradiction

theorem check_of_missing {p : Proofs E} {reply : Slot → CheckpointReply E}
    {popped : List (Header E.primitives)} {receipt : ReceiptEnvelope Log}
    (hdecode : E.codec.decode p.receiptRlp = some receipt) (hsuccess : receipt.isSuccess = true)
    (h : reply p.slot = .missing) : p.check reply popped = .error .missingCheckpoint := by
  have hreceipt := decodeAndCheckReceipt_ok_iff.mpr ⟨hdecode, hsuccess⟩
  simp only [Proofs.check, hreceipt, h, requestCheckpoint]

/-- A receipt of block 1 composed when block 2 is the newest checkpoint and checked after block 3
has become one. -/
theorem compose_accepted_ledger : ∃ w w' event,
    Reachable step InOrder (StartsAt ledgerStart) w ∧ Reachable step InOrder (· = w) w' ∧
    w.state.checkpoints.entries.length = 2 ∧ w'.state.checkpoints.entries.length = 3 ∧
    compose ledgerClient (ledgerGear 2) (ledgerEth 1) (sortBySlot _) 7 = .ok event ∧
    ∀ popped, Popped event.proofBlock.headers popped →
      checkProofs event (lookupReply w'.state.checkpoints BinarySearch.stdSearch 3) popped =
        .ok ⟨event.receiptRlp, 0, 1, 81889⟩ := by
  obtain ⟨w, hw, htest⟩ := exists_reachable_of_exec step InOrder
    (show StartsAt ledgerStart ⟨ledgerStart, []⟩ from rfl)
    [.process (ledgerUpdate 3 true) ledgerBits, .finish 0 []]
    (fun w => decide (w.state.checkpoints.entries.length = 2) &&
      finds ((fullBlock 2).slot, (fullBlock 2).root)
        (w.state.checkpoints.checkpoint BinarySearch.stdSearch 2 (fullBlock 1).slot) &&
      (exec step InOrder w [.process (ledgerUpdate 4 false) ledgerBits, .finish 0 []]).any
        fun w' : World ledgerPrimitives => decide (w'.state.checkpoints.entries.length = 3 ∧
          ((fullBlock 2).slot, (fullBlock 2).root) ∈ w'.state.checkpoints.entries))
    (by rw [ledgerStart_eq]; decide +kernel)
  simp only [Bool.and_eq_true, decide_eq_true_eq, Option.any_eq_true] at htest
  obtain ⟨⟨hlength, hlookup⟩, w', hexec, hlength', hkept⟩ := htest
  have hw' : Reachable step InOrder (· = w) w' := .of_exec (.start rfl) hexec
  obtain ⟨event, hcompose, -, haccepted⟩ := compose_accepted (E := ledgerSetting) init_ledgerInit hw
    honest_ledgerClient (fun _ => rfl)
    (show fullBlocks = [] ++ fullBlock 0 :: fullBlock 1 :: [fullBlock 2, fullBlock 3] from rfl)
    (by decide) ⟨trivial, trivial⟩ (by simp [fullBlocks]) (eq_of_finds hlookup)
    (answers_ledgerGear 2 _)
    (reported_ledgerEth 1) (holds_fullBlock 1) lawful_sampleCodec freeTrie_complete
    (List.mem_singleton_self _) rfl (sortBySlot _)
  exact ⟨w, w', event, hw, hw', hlength, hlength', hcompose, haccepted w' _ _ hw' hkept⟩

/-- A receipt of block 2 composed when that block is the newest checkpoint.  An update resumed late
then pushes the checkpoint of block 1 behind it: block 2 is still stored but no longer found. -/
theorem composed_refused : init ledgerInit = some ledgerStart ∧
    (Honest ledgerClient fullBlocks (fullBlock 3) fun _ => True) ∧ ∃ w w' event,
    Reachable step free (StartsAt ledgerStart) w ∧ Reachable step free (· = w) w' ∧
    w.state.checkpoints.checkpoint BinarySearch.stdSearch 2 (fullBlock 2).slot =
      .ok ((fullBlock 2).slot, (fullBlock 2).root) ∧
    ((fullBlock 2).slot, (fullBlock 2).root) ∈ w'.state.checkpoints.entries ∧
    compose ledgerClient (ledgerGear 2) (ledgerEth 2) (sortBySlot _) 7 = .ok event ∧
    ∀ popped, Popped event.proofBlock.headers popped →
      checkProofs event (lookupReply w'.state.checkpoints BinarySearch.stdSearch 3) popped =
        .error .missingCheckpoint := by
  refine ⟨init_ledgerInit, honest_ledgerClient, ?_⟩
  obtain ⟨w, hw, htest⟩ := exists_reachable_of_exec step free
    (show StartsAt ledgerStart ⟨ledgerStart, []⟩ from rfl)
    [.process (ledgerUpdate 3 true) ledgerBits, .process (ledgerUpdate 2 false) ledgerBits,
      .finish 0 []]
    (fun w => finds ((fullBlock 2).slot, (fullBlock 2).root)
        (w.state.checkpoints.checkpoint BinarySearch.stdSearch 2 (fullBlock 2).slot) &&
      (exec step free w [.finish 0 []]).any fun w' : World ledgerPrimitives =>
        decide (((fullBlock 2).slot, (fullBlock 2).root) ∈ w'.state.checkpoints.entries) &&
        !(w'.state.checkpoints.checkpoint BinarySearch.stdSearch 3 (fullBlock 2).slot).isOk)
    (by rw [ledgerStart_eq]; decide +kernel)
  simp only [Bool.and_eq_true, decide_eq_true_eq, Option.any_eq_true, Bool.not_eq_true'] at htest
  obtain ⟨hlookup, w', hexec, hkept, hlost⟩ := htest
  obtain ⟨headers, proof, hcompose, -⟩ := honest_ledgerClient.compose (sortBySlot _)
    (show fullBlocks = [fullBlock 0] ++ fullBlock 1 :: fullBlock 2 :: [fullBlock 3] from rfl)
    (by decide) ⟨trivial, trivial⟩ (.inl rfl) (answers_ledgerGear 2 _) (reported_ledgerEth 2)
    (holds_fullBlock 2) lawful_sampleCodec freeTrie_complete (List.mem_singleton_self _)
  refine ⟨w, w', _, hw, .of_exec (.start rfl) hexec, eq_of_finds hlookup, hkept, hcompose, ?_⟩
  intro popped _
  exact check_of_missing (lawful_sampleCodec.decode_encode _ (List.mem_singleton_self _)) rfl
    (lookupReply_of_not_isOk hlost)

end GearBridges.ComposePayload
