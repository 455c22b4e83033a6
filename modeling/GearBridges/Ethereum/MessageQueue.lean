import GearBridges.Lib.BinaryMerkle
import GearBridges.Lib.Keccak

/-!
# Ethereum.MessageQueue

The Merkle check of the `MessageQueue` contract: `hash_vara_msg` and
`_calculateMerkleRoot`, with `keccak256` a parameter of the section, and the
two halves of its correctness against the tree that the Gear side builds
(`BinaryMerkle`, the `binary_merkle_tree` rule the contract refers to):

* `calculateMerkleRoot_complete` — the sibling path of a leaf is accepted;
* `calculateMerkleRoot_sound` — whatever width, index and proof the caller
  chooses, an accepted message is one of the listed messages.

A `uint256` is a `Nat` here.  The contract asserts `index < width` first and
an iteration halves both sides, the width rounded up, so none of its additions
and subtractions can wrap.
-/

namespace GearBridges.MessageQueue

open BinaryMerkle

/-! ## data -/

/-- A byte string. -/
abbrev Bytes := List UInt8

/-- A fixed-size byte value (`bytes32`, `address`). -/
abbrev FixedBytes (n : Nat) := { bs : List UInt8 // bs.length = n }

/-- A message relayed from Vara. -/
structure VaraMessage where
  nonce : FixedBytes 32
  sender : FixedBytes 32
  receiver : FixedBytes 20
  data : Bytes
deriving DecidableEq

/-- `abi.encodePacked(nonce, sender, receiver, data)`. -/
def VaraMessage.encodePacked (m : VaraMessage) : Bytes :=
  m.nonce.val ++ (m.sender.val ++ (m.receiver.val ++ m.data))

/-- All fields but the last have a fixed width, so packing loses nothing. -/
theorem VaraMessage.encodePacked_injective : Function.Injective VaraMessage.encodePacked := by
  rintro ⟨n₁, s₁, r₁, d₁⟩ ⟨n₂, s₂, r₂, d₂⟩ h
  simp only [encodePacked] at h
  obtain ⟨hn, h⟩ := List.append_inj h (n₁.property.trans n₂.property.symm)
  obtain ⟨hs, h⟩ := List.append_inj h (s₁.property.trans s₂.property.symm)
  obtain ⟨hr, hd⟩ := List.append_inj h (r₁.property.trans r₂.property.symm)
  rw [Subtype.ext hn, Subtype.ext hs, Subtype.ext hr, hd]

section Contract

variable (keccak256 : Bytes → FixedBytes 32)

/-- `hash_vara_msg`: the packed message hashed twice. -/
def hashVaraMsg (message : VaraMessage) : FixedBytes 32 :=
  keccak256 (keccak256 message.encodePacked).val

/-- Hash of an inner node: `keccak256` of the 64 bytes `left ++ right`. -/
def hashPair (left right : FixedBytes 32) : FixedBytes 32 :=
  keccak256 (left.val ++ right.val)

/-- The loop of `_calculateMerkleRoot`: one iteration per proof element. -/
def calculateMerkleRootLoop : List (FixedBytes 32) → FixedBytes 32 → Nat → Nat → FixedBytes 32
  | [], hash, _, _ => hash
  | proofElement :: proof, hash, width, index =>
      calculateMerkleRootLoop proof
        (if index % 2 = 1 ∨ index + 1 = width then hashPair keccak256 proofElement hash
          else hashPair keccak256 hash proofElement)
        ((width - 1) / 2 + 1) (index / 2)

/-- `_calculateMerkleRoot`; `none` is the failed `assert(index < width)`. -/
def calculateMerkleRoot (proof : List (FixedBytes 32)) (leaf : FixedBytes 32)
    (width index : Nat) : Option (FixedBytes 32) :=
  if index < width then some (calculateMerkleRootLoop keccak256 proof leaf width index) else none

/-! ## completeness -/

/-- What relates the loop's `(width, index)` to the level it has reached: they
are in step with the level, or both sides are at their last position.  Once a
node is last it stays last, so the second case absorbs the levels at which a
node is promoted without a proof element. -/
def InStep (length position width index : Nat) : Prop :=
  (width = length ∧ index = position) ∨ (position + 1 = length ∧ index + 1 = width)

/-- Both sides move up one level. -/
theorem InStep.up {length position width index : Nat} (h : InStep length position width index)
    (hp : position < length) :
    InStep ((length + 1) / 2) (position / 2) ((width - 1) / 2 + 1) (index / 2) := by
  cases h with
  | inl hs => exact .inl ⟨by omega, by omega⟩
  | inr hl => exact .inr ⟨by omega, by omega⟩

/-- A promoted node moves up one level while the loop stands still. -/
theorem InStep.promoted {length position width index : Nat}
    (h : InStep length position width index) (hl : position + 1 = length) (he : position % 2 = 0) :
    InStep ((length + 1) / 2) (position / 2) width index := by
  cases h with
  | inl hs => exact .inr ⟨by omega, by omega⟩
  | inr hs => exact .inr ⟨by omega, by omega⟩

/-- The loop over the siblings met during `n` levels computes the node above
the starting position. -/
theorem calculateMerkleRootLoop_pathUpTo (n : Nat) (l : List (FixedBytes 32)) (i : Nat)
    (x : FixedBytes 32) (width index : Nat) (hx : l[i]? = some x)
    (hs : InStep l.length i width index) :
    (levelAt (hashPair keccak256) n l)[i / 2 ^ n]? = some (calculateMerkleRootLoop keccak256
      (pathUpTo (hashPair keccak256) n l i) x width index) := by
  induction n generalizing l i x width index with
  | zero => simpa [levelAt, pathUpTo, calculateMerkleRootLoop] using hx
  | succ n ih =>
      have hi : i < l.length := (List.getElem?_eq_some_iff.mp hx).1
      have hdiv : i / 2 ^ (n + 1) = i / 2 / 2 ^ n := by
        rw [Nat.div_div_eq_div_mul, Nat.pow_succ']
      rw [levelAt, pathUpTo, hdiv]
      by_cases hodd : i % 2 = 1
      · -- a right child: the proof element is its left neighbour
        obtain ⟨y, hy⟩ : ∃ y, l[i - 1]? = some y :=
          ⟨_, List.getElem?_eq_getElem (show i - 1 < l.length by omega)⟩
        have hside : index % 2 = 1 ∨ index + 1 = width := by
          cases hs with
          | inl h => exact .inl (h.2 ▸ hodd)
          | inr h => exact .inr h.2
        rw [sibling, if_pos hodd, hy, Option.toList_some, List.singleton_append,
          calculateMerkleRootLoop, if_pos hside]
        refine ih (nextLevel (hashPair keccak256) l) (i / 2) _ _ _ ?_ ?_
        · refine getElem?_nextLevel_pair _ l (i / 2) y x ?_ ?_
          · rw [show 2 * (i / 2) = i - 1 by omega]; exact hy
          · rw [show 2 * (i / 2) + 1 = i by omega]; exact hx
        · rw [length_nextLevel]; exact hs.up hi
      · by_cases hlast : i + 1 = l.length
        · -- an odd last node: promoted, no proof element
          have hnone : l[i + 1]? = none := List.getElem?_eq_none (by omega)
          rw [sibling, if_neg hodd, hnone, Option.toList_none, List.nil_append]
          refine ih (nextLevel (hashPair keccak256) l) (i / 2) _ _ _ ?_ ?_
          · rw [getElem?_nextLevel_promoted _ l (i / 2) (by omega),
              show 2 * (i / 2) = i by omega]
            exact hx
          · rw [length_nextLevel]; exact hs.promoted hlast (by omega)
        · -- a left child: the proof element is its right neighbour
          obtain ⟨y, hy⟩ : ∃ y, l[i + 1]? = some y :=
            ⟨_, List.getElem?_eq_getElem (show i + 1 < l.length by omega)⟩
          have hside : ¬(index % 2 = 1 ∨ index + 1 = width) := by
            cases hs with
            | inl h => omega
            | inr h => omega
          rw [sibling, if_neg hodd, hy, Option.toList_some, List.singleton_append,
            calculateMerkleRootLoop, if_neg hside]
          refine ih (nextLevel (hashPair keccak256) l) (i / 2) _ _ _ ?_ ?_
          · refine getElem?_nextLevel_pair _ l (i / 2) x y ?_ ?_
            · rw [show 2 * (i / 2) = i by omega]; exact hx
            · rw [show 2 * (i / 2) + 1 = i + 1 by omega]; exact hy
          · rw [length_nextLevel]; exact hs.up hi

/-- **Completeness**: for a leaf list of any length and every index in it, the
sibling path of the leaf is accepted: the contract computes the tree's root. -/
theorem calculateMerkleRoot_complete (leaves : List (FixedBytes 32)) (i : Nat)
    (leaf : FixedBytes 32) (hleaf : leaves[i]? = some leaf) :
    calculateMerkleRoot keccak256 (siblingPath (hashPair keccak256) leaves i) leaf leaves.length i =
      root (hashPair keccak256) leaves := by
  have hi : i < leaves.length := (List.getElem?_eq_some_iff.mp hleaf).1
  have hnode := calculateMerkleRootLoop_pathUpTo keccak256 leaves.length leaves i leaf
    leaves.length i hleaf (.inl ⟨rfl, rfl⟩)
  -- the last level has one node, so the node above the leaf is the root
  have hone := length_levelAt_le_one (hashPair keccak256) leaves.length leaves (by omega)
  have hlt := (List.getElem?_eq_some_iff.mp hnode).1
  have hzero : i / 2 ^ leaves.length = 0 := Nat.lt_one_iff.mp (Nat.lt_of_lt_of_le hlt hone)
  rw [hzero, ← List.head?_eq_getElem?] at hnode
  rw [calculateMerkleRoot, if_pos hi, root, hnode, siblingPath]

/-! ## soundness -/

/-- The inputs hashed while the tree over the messages is built. -/
def treeInputs (messages : List VaraMessage) : List Bytes :=
  messages.map VaraMessage.encodePacked ++
    (messages.map (fun m => (keccak256 m.encodePacked).val) ++
      (treePairs (hashPair keccak256) (messages.map (hashVaraMsg keccak256))).map
        fun p => p.1.val ++ p.2.val)

/-- The inner hash of a listed message is hashed again for its leaf. -/
theorem digest_mem_treeInputs {messages : List VaraMessage} {m : VaraMessage} (hm : m ∈ messages) :
    (keccak256 m.encodePacked).val ∈ treeInputs keccak256 messages :=
  List.mem_append_right _ (List.mem_append_left _ (List.mem_map_of_mem hm))

/-- Every pair of the tree is hashed for the node above it. -/
theorem pair_mem_treeInputs {messages : List VaraMessage} {p : FixedBytes 32 × FixedBytes 32}
    (hp : p ∈ treePairs (hashPair keccak256) (messages.map (hashVaraMsg keccak256))) :
    p.1.val ++ p.2.val ∈ treeInputs keccak256 messages :=
  List.mem_append_right _ (List.mem_append_right _
    (List.mem_map_of_mem (f := fun p : FixedBytes 32 × FixedBytes 32 => p.1.val ++ p.2.val) hp))

/-- The inputs hashed by the loop of `_calculateMerkleRoot`. -/
def loopInputs : List (FixedBytes 32) → FixedBytes 32 → Nat → Nat → List Bytes
  | [], _, _, _ => []
  | proofElement :: proof, hash, width, index =>
      if index % 2 = 1 ∨ index + 1 = width then
        (proofElement.val ++ hash.val) :: loopInputs proof (hashPair keccak256 proofElement hash)
          ((width - 1) / 2 + 1) (index / 2)
      else
        (hash.val ++ proofElement.val) :: loopInputs proof (hashPair keccak256 hash proofElement)
          ((width - 1) / 2 + 1) (index / 2)

/-- The inputs hashed by the contract for a message and a proof. -/
def messageInputs (message : VaraMessage) (proof : List (FixedBytes 32)) (width index : Nat) :
    List Bytes :=
  message.encodePacked :: (keccak256 message.encodePacked).val ::
    loopInputs keccak256 proof (hashVaraMsg keccak256 message) width index

section Soundness

variable {keccak256} {messages : List VaraMessage} {inputs : List Bytes}

/-- The nodes of the tree over the hashed messages. -/
def TreeNode (keccak256 : Bytes → FixedBytes 32) (messages : List VaraMessage)
    (x : FixedBytes 32) : Prop :=
  IsNode (hashPair keccak256) (messages.map (hashVaraMsg keccak256))
    (treePairs (hashPair keccak256) (messages.map (hashVaraMsg keccak256))) x

/-- Leaves hash 32 bytes and inner nodes hash 64, so a hashed pair that is a
node of the tree is one of the tree's own pairs: both halves are nodes. -/
theorem treeNode_of_hashPair (hcf : CollisionFreeOn keccak256 inputs)
    (htree : ∀ b ∈ treeInputs keccak256 messages, b ∈ inputs)
    {x y : FixedBytes 32} (hxy : x.val ++ y.val ∈ inputs)
    (h : TreeNode keccak256 messages (hashPair keccak256 x y)) :
    TreeNode keccak256 messages x ∧ TreeNode keccak256 messages y := by
  cases h with
  | inl hleaf =>
      obtain ⟨m, hm, he⟩ := List.mem_map.mp hleaf
      have hin : (keccak256 m.encodePacked).val ∈ inputs :=
        htree _ (digest_mem_treeInputs keccak256 hm)
      have hlen := congrArg List.length (hcf _ hin _ hxy he)
      rw [List.length_append, x.property, y.property, (keccak256 m.encodePacked).property] at hlen
      omega
  | inr hnode =>
      obtain ⟨p, hp, he⟩ := hnode
      have hin : p.1.val ++ p.2.val ∈ inputs :=
        htree _ (pair_mem_treeInputs keccak256 hp)
      obtain ⟨h₁, h₂⟩ := List.append_inj (hcf _ hxy _ hin he) (x.property.trans p.1.property.symm)
      obtain ⟨n₁, n₂⟩ := isNode_of_mem_pairsUpTo hp
      rw [Subtype.ext h₁, Subtype.ext h₂]
      exact ⟨n₁, n₂⟩

/-- If the loop ends in a node of the tree, it started in one. -/
theorem treeNode_of_calculateMerkleRootLoop (hcf : CollisionFreeOn keccak256 inputs)
    (htree : ∀ b ∈ treeInputs keccak256 messages, b ∈ inputs)
    (proof : List (FixedBytes 32)) (hash : FixedBytes 32) (width index : Nat)
    (hloop : ∀ b ∈ loopInputs keccak256 proof hash width index, b ∈ inputs)
    (h : TreeNode keccak256 messages (calculateMerkleRootLoop keccak256 proof hash width index)) :
    TreeNode keccak256 messages hash := by
  induction proof generalizing hash width index with
  | nil => exact h
  | cons proofElement proof ih =>
      rw [calculateMerkleRootLoop] at h
      rw [loopInputs] at hloop
      by_cases hside : index % 2 = 1 ∨ index + 1 = width
      · rw [if_pos hside] at h hloop
        have hup := ih _ _ _ (fun b hb => hloop b (List.mem_cons_of_mem _ hb)) h
        exact (treeNode_of_hashPair hcf htree (hloop _ List.mem_cons_self) hup).2
      · rw [if_neg hside] at h hloop
        have hup := ih _ _ _ (fun b hb => hloop b (List.mem_cons_of_mem _ hb)) h
        exact (treeNode_of_hashPair hcf htree (hloop _ List.mem_cons_self) hup).1

/-- A message whose hash is a node of the tree is one of the messages: an
inner node hashes 64 bytes, a message hash 32. -/
theorem mem_of_treeNode_hashVaraMsg (hcf : CollisionFreeOn keccak256 inputs)
    (htree : ∀ b ∈ treeInputs keccak256 messages, b ∈ inputs) {message : VaraMessage}
    (h₁ : message.encodePacked ∈ inputs) (h₂ : (keccak256 message.encodePacked).val ∈ inputs)
    (h : TreeNode keccak256 messages (hashVaraMsg keccak256 message)) : message ∈ messages := by
  cases h with
  | inl hleaf =>
      obtain ⟨m, hm, he⟩ := List.mem_map.mp hleaf
      have hin₁ : m.encodePacked ∈ inputs :=
        htree _ (List.mem_append_left _ (List.mem_map_of_mem hm))
      have hin₂ : (keccak256 m.encodePacked).val ∈ inputs :=
        htree _ (digest_mem_treeInputs keccak256 hm)
      have houter := hcf _ hin₂ _ h₂ he
      have hinner := hcf _ hin₁ _ h₁ (Subtype.ext houter)
      rw [← VaraMessage.encodePacked_injective hinner]
      exact hm
  | inr hnode =>
      obtain ⟨p, hp, he⟩ := hnode
      have hin : p.1.val ++ p.2.val ∈ inputs :=
        htree _ (pair_mem_treeInputs keccak256 hp)
      have hlen := congrArg List.length (hcf _ h₂ _ hin he)
      rw [List.length_append, p.1.property, p.2.property,
        (keccak256 message.encodePacked).property] at hlen
      omega

end Soundness

/-- **Soundness**: let `keccak256` not collide on the inputs hashed for the
tree and for the check.  Whatever message, width, index and proof (of any
length) the caller passes, if the contract computes the root of the tree over
the listed messages, then the message is one of them. -/
theorem calculateMerkleRoot_sound (messages : List VaraMessage) (message : VaraMessage)
    (totalLeaves leafIndex : Nat) (proof : List (FixedBytes 32)) (merkleRoot : FixedBytes 32)
    (hcf : CollisionFreeOn keccak256 (treeInputs keccak256 messages ++
      messageInputs keccak256 message proof totalLeaves leafIndex))
    (hroot : root (hashPair keccak256) (messages.map (hashVaraMsg keccak256)) = some merkleRoot)
    (h : calculateMerkleRoot keccak256 proof (hashVaraMsg keccak256 message) totalLeaves leafIndex =
      some merkleRoot) :
    message ∈ messages := by
  rw [calculateMerkleRoot] at h
  split at h
  · have hloop := Option.some.inj h
    have hnode : TreeNode keccak256 messages merkleRoot := isNode_root hroot
    rw [← hloop] at hnode
    have htree : ∀ b ∈ treeInputs keccak256 messages, b ∈ treeInputs keccak256 messages ++
        messageInputs keccak256 message proof totalLeaves leafIndex :=
      fun b hb => List.mem_append_left _ hb
    have hmsg : ∀ b ∈ messageInputs keccak256 message proof totalLeaves leafIndex,
        b ∈ treeInputs keccak256 messages ++
          messageInputs keccak256 message proof totalLeaves leafIndex :=
      fun b hb => List.mem_append_right _ hb
    have hleaf := treeNode_of_calculateMerkleRootLoop hcf htree proof _ totalLeaves leafIndex
      (fun b hb => hmsg b (by simp [messageInputs, hb])) hnode
    exact mem_of_treeNode_hashVaraMsg hcf htree (hmsg _ (by simp [messageInputs]))
      (hmsg _ (by simp [messageInputs])) hleaf
  · contradiction

end Contract

/-! ## the two results at concrete inputs -/

/-- A message with the given nonce byte. -/
def sampleMessage (nonce : UInt8) : VaraMessage where
  nonce := ⟨List.replicate 32 nonce, by simp⟩
  sender := ⟨List.replicate 32 7, by simp⟩
  receiver := ⟨List.replicate 20 9, by simp⟩
  data := [1, 2, 3]

/-- Leaves of the sample tree. -/
def sampleLeaves : List (FixedBytes 32) :=
  [1, 2, 3, 4, 5].map fun nonce => hashVaraMsg Keccak.keccak256 (sampleMessage nonce)

/-- Completeness at the promoted leaf of a five-leaf tree. -/
theorem calculateMerkleRoot_complete_sample :
    calculateMerkleRoot Keccak.keccak256 (siblingPath (hashPair Keccak.keccak256) sampleLeaves 4)
      (hashVaraMsg Keccak.keccak256 (sampleMessage 5)) 5 4 =
      root (hashPair Keccak.keccak256) sampleLeaves :=
  calculateMerkleRoot_complete Keccak.keccak256 sampleLeaves 4 _ rfl

set_option maxRecDepth 10000 in
/-- Soundness at a two-message tree with the real hash function. -/
theorem calculateMerkleRoot_sound_sample :
    sampleMessage 1 ∈ [sampleMessage 1, sampleMessage 2] :=
  calculateMerkleRoot_sound Keccak.keccak256 [sampleMessage 1, sampleMessage 2] (sampleMessage 1)
    2 0 [hashVaraMsg Keccak.keccak256 (sampleMessage 2)]
    (hashPair Keccak.keccak256 (hashVaraMsg Keccak.keccak256 (sampleMessage 1))
      (hashVaraMsg Keccak.keccak256 (sampleMessage 2)))
    (by decide +kernel) rfl rfl

end GearBridges.MessageQueue
