import GearBridges.Prover.BranchParser
import GearBridges.Prover.LeafParser

/-!
# Prover.StorageTrieProof

The proof of a storage item: hashed branch nodes in a recursive chain, and a hashed leaf.
The circuits are taken with the byte strings they hash, which the prover chooses.

The hasher takes nodes of up to eight blocks and the branch parser has five of them, so
that a node can go on where the parser reads nothing but zeros.  `trieProof_path_iff` says
when the hashed nodes are the path the proof claims; `unreadable_accepted` is a proof for
a node that is not the encoding of anything.
-/

namespace GearBridges.Prover

open Goldilocks CyclicRecursion Plonky2Blake2b256 SubstrateTrie

/-! ## the circuits -/

/-- A proof of `GenericBlake2` whose hash is the one of its data. -/
structure CorrectBlake2 (pis : GenericBlake2Target blake2b) : Prop where
  proved : GenericBlake2 blake2b pis
  hash : pis.hash = blake2 (pis.data.val.take pis.length.val)

structure BranchNodeData where
  data : List UInt8
  childNibble : UInt8

/-- `HashedBranchParser` for the node it hashes.  The bytes of the parser are connected to
the first ones of the hasher. -/
def HashedBranchParser (node : BranchNodeData) (pis : HashedBranchParserTarget (List UInt8)) : Prop :=
  ∃ (hasher : GenericBlake2Target blake2b) (parser : BranchParserTarget),
    CorrectBlake2 hasher ∧ BranchParser (node.childNibble.toNat : F) parser ∧
    hasher.length = parser.nodeDataLength ∧
    parser.paddedNodeData.bytes = hasher.data.val.take maxBranchNodeDataBytes ∧
    node.data = hasher.data.val.take hasher.length.val ∧
    pis = ⟨hasher.hash, parser.childNodeHash, parser.partialAddress, parser.resultingPartialAddress⟩

structure HashedLeafParserTarget where
  nodeHash : List UInt8
  storageDataHash : List UInt8
  partialAddress : StorageAddressTarget
  finalAddress : StorageAddressTarget

/-- `HashedLeafParser` for the node it hashes. -/
def HashedLeafParser (nodeData : List UInt8) (pis : HashedLeafParserTarget) : Prop :=
  ∃ (hasher : GenericBlake2Target blake2b) (leafType : LeafType) (parser : LeafParserTarget),
    CorrectBlake2 hasher ∧ LeafParser leafType parser ∧
    hasher.length = parser.nodeDataLength ∧
    parser.paddedNodeData.val = hasher.data.val.take nodeDataBlockBytes ∧
    nodeData = hasher.data.val.take hasher.length.val ∧
    pis = ⟨hasher.hash, parser.storageDataHash, parser.partialAddress, parser.finalAddress⟩

/-- A layer of the chain, with the nodes hashed so far. -/
def nodesLayer (condition : Bool)
    (inner outer : List BranchNodeData × BranchNodeChainParserTarget (List UInt8)) : Prop :=
  ∃ node, branchLayer (HashedBranchParser node) condition inner.2 outer.2 ∧
    outer.1 = (if condition then inner.1 else []) ++ [node]

/-- `BranchNodeChain` for the nodes it hashes, from the root on.  Without their names this is
the recursive circuit (`exists_branchNodeChain_iff`). -/
def BranchNodeChain (nodes : List BranchNodeData) (pis : BranchNodeChainParserTarget (List UInt8)) :
    Prop :=
  Layers nodesLayer (nodes, pis)

structure StorageTrieProofTarget where
  rootHash : List UInt8
  dataHash : List UInt8
  address : StorageAddressTarget

/-- `StorageTrieProof`: the nodes a prover provides. -/
structure StorageTrieProof where
  branchNodes : List BranchNodeData
  leafNodeData : List UInt8

/-- The circuit of `StorageTrieProof` accepts the nodes with these public inputs. -/
def StorageTrieProof.Accepted (proof : StorageTrieProof) (pis : StorageTrieProofTarget) : Prop :=
  ∃ chain leaf, BranchNodeChain proof.branchNodes chain ∧
    HashedLeafParser proof.leafNodeData leaf ∧
    chain.leafHash = leaf.nodeHash ∧ chain.partialAddress = leaf.partialAddress ∧
    pis = ⟨chain.rootHash, leaf.storageDataHash, leaf.finalAddress⟩

/-- The byte strings hashed, from the root to the leaf. -/
def StorageTrieProof.nodes (proof : StorageTrieProof) : List (List UInt8) :=
  proof.branchNodes.map (·.data) ++ [proof.leafNodeData]

/-- The nodes of a chain are what its layers hash, so they only name witnesses of the
recursive circuit. -/
theorem exists_branchNodeChain_iff (pis : BranchNodeChainParserTarget (List UInt8)) :
    (∃ nodes, BranchNodeChain nodes pis) ↔
      Layers (branchLayer fun parser => ∃ node, HashedBranchParser node parser) pis := by
  constructor
  · rintro ⟨nodes, h⟩
    unfold BranchNodeChain at h
    generalize hstate : (nodes, pis) = state at h
    induction h generalizing nodes pis with
    | @layer condition inner outer hlayer _ ih =>
        subst hstate
        obtain ⟨node, ⟨parser, hparser, hconnected⟩, _⟩ := hlayer
        exact .layer ⟨parser, ⟨node, hparser⟩, hconnected⟩ fun hcondition =>
          ih hcondition inner.2 inner.1 rfl
  · intro h
    induction h with
    | @layer condition inner outer hlayer _ ih =>
        obtain ⟨parser, ⟨node, hparser⟩, hconnected⟩ := hlayer
        have hlayer : branchLayer (HashedBranchParser node) condition inner outer :=
          ⟨parser, hparser, hconnected⟩
        cases condition with
        | false => exact ⟨[node], @Layers.layer _ _ false ([], inner) _ ⟨node, hlayer, rfl⟩ nofun⟩
        | true =>
            obtain ⟨nodes, hnodes⟩ := ih rfl
            exact ⟨nodes ++ [node],
              @Layers.layer _ _ true (nodes, inner) _ ⟨node, hlayer, rfl⟩ fun _ => hnodes⟩

/-! ## what a hashed node says -/

/-- The bytes of a branch node that its parser reads past the padded data are zeros.  In a
node that fits into the padded data there are none. -/
def BranchNodeData.ZeroPastData (node : BranchNodeData) : Prop :=
  ∀ key bits rest, decodeBranchFront node.data = some (key, bits, rest) →
    ∀ position ∈ readPositions node.data bits (node.data.length - rest.length)
        node.childNibble.toNat,
      maxBranchNodeDataBytes ≤ position → node.data.getD position 0 = 0

theorem BranchNodeData.zeroPastData_of_length {node : BranchNodeData}
    (h : node.data.length ≤ maxBranchNodeDataBytes) : node.ZeroPastData := by
  intro key bits rest _ position _ hpast
  exact List.getD_eq_default _ _ (Nat.le_trans h hpast)

/-- What the circuits establish of a hashed branch node: it starts like a branch with the
partial key, and it is one, with the child at the nibble, exactly if nothing but zeros was
read past its padded data. -/
structure NodeReads (node : BranchNodeData) (key : List Nat) (child : List UInt8) : Prop where
  front : ∃ bits rest, decodeBranchFront node.data = some (key, bits, rest)
  child_length : child.length = hashLength
  branch_iff : (∃ branch, decodeBranch node.data = some branch ∧
    branch.children[node.childNibble.toNat]? = some (some child)) ↔ node.ZeroPastData

/-- The front of a node decides the partial key of the branch. -/
theorem NodeReads.key_eq {node : BranchNodeData} {key : List Nat} {child : List UInt8}
    (h : NodeReads node key child) {branch : NibbledBranch}
    (hbranch : decodeBranch node.data = some branch) : branch.key = key := by
  obtain ⟨bits, rest, hfront⟩ := h.front
  simp only [decodeBranch, hfront, Option.bind_eq_bind, Option.bind_some, Option.bind_eq_some_iff,
    Option.guard_eq_some', Option.pure_def, Option.some.injEq] at hbranch
  obtain ⟨_, _, _, _, rfl⟩ := hbranch
  rfl

/-- One node of the path. -/
theorem NodeReads.triePath_iff {node : BranchNodeData} {key : List Nat} {child : List UInt8}
    (h : NodeReads node key child) {next value : List UInt8} {nodes : List (List UInt8)}
    {address : List Nat} (hnext : child = blake2 next) :
    TriePath blake2 (blake2 node.data) (key ++ node.childNibble.toNat :: address) value
        (node.data :: next :: nodes) ↔
      node.ZeroPastData ∧ TriePath blake2 child address value (next :: nodes) := by
  rw [← h.branch_iff]
  constructor
  · intro hpath
    obtain ⟨branch, nibble, reference, rest, hbranch, hchild, haddress, hrest⟩ := hpath.branch_cases
    rw [h.key_eq hbranch, List.append_cancel_left_eq, List.cons.injEq] at haddress
    obtain ⟨rfl, rfl⟩ := haddress
    have hreference : reference = child := hrest.root_eq.trans hnext.symm
    rw [hreference] at hchild hrest
    exact ⟨⟨branch, hbranch, hchild⟩, hrest⟩
  · rintro ⟨⟨branch, hbranch, hchild⟩, hrest⟩
    rw [← h.key_eq hbranch]
    exact .branch hbranch hchild h.child_length hrest

/-- Hashed branch nodes one below the other. -/
inductive ChainReads (root : List UInt8) : List BranchNodeData → List Nat → List UInt8 → Prop
  | nil : ChainReads root [] [] root
  | concat {child : List UInt8} {nodes : List BranchNodeData} {address key : List Nat}
      {node : BranchNodeData} (h : ChainReads root nodes address (blake2 node.data))
      (hnode : NodeReads node key child) :
      ChainReads root (nodes ++ [node]) (address ++ (key ++ [node.childNibble.toNat])) child

/-- A chain of nodes on top of a path. -/
theorem ChainReads.triePath_iff {root hash value next : List UInt8} {nodes : List BranchNodeData}
    {address suffix : List Nat} {rest : List (List UInt8)} (h : ChainReads root nodes address hash)
    (hnext : hash = blake2 next) :
    TriePath blake2 root (address ++ suffix) value (nodes.map (·.data) ++ next :: rest) ↔
      (∀ node ∈ nodes, node.ZeroPastData) ∧ TriePath blake2 hash suffix value (next :: rest) := by
  induction h generalizing suffix rest next with
  | nil => simp
  | @concat child nodes address key node _ hnode ih =>
      have haddress : address ++ (key ++ [node.childNibble.toNat]) ++ suffix =
          address ++ (key ++ node.childNibble.toNat :: suffix) := by simp
      have hnodes : (nodes ++ [node]).map (·.data) ++ next :: rest =
          nodes.map (·.data) ++ node.data :: next :: rest := by simp
      rw [haddress, hnodes, ih rfl, hnode.triePath_iff hnext, ← and_assoc]
      simp only [List.forall_mem_append, List.forall_mem_singleton]

/-! ## what the circuits establish -/

/-- The address of nibbles that the codec gives. -/
def addressOf (nibbles : List Nat) : StorageAddressTarget := .ofNibbles (nibbles.map Nat.cast)

/-- The padded data and the hashed node are fronts of the same bytes. -/
theorem agreesWithin_take (data : List UInt8) (m n : Nat) :
    AgreesWithin (data.take m) (data.take n) := by
  intro i hi hi'
  rw [List.length_take] at hi hi'
  rw [getD_take (by omega), getD_take (by omega)]

theorem hashedBranchParser_sound {node : BranchNodeData}
    {pis : HashedBranchParserTarget (List UInt8)} (h : HashedBranchParser node pis)
    {address : List Nat} (haddress : address.length ≤ maxStorageAddressLengthInNibbles)
    (hprev : pis.partialAddress = addressOf address) :
    ∃ key, pis.nodeHash = blake2 node.data ∧ NodeReads node key pis.childNodeHash ∧
      (address ++ (key ++ [node.childNibble.toNat])).length ≤ maxStorageAddressLengthInNibbles ∧
      pis.resultingPartialAddress = addressOf (address ++ (key ++ [node.childNibble.toNat])) := by
  obtain ⟨hasher, parser, hhasher, hparser, hlength, hdata, hnode, rfl⟩ := h
  simp only at hprev ⊢
  obtain ⟨nibble, length, start, key, bits, hnibbleLt, hnibble, hlengthLt, hparserLength, hfit,
    hresult, hwalk, hfront⟩ := branchParser_sound hdata (by rwa [List.length_map]) hprev hparser
  have hbyte := node.childNibble.toNat_lt
  have hnibbleEq : node.childNibble.toNat = nibble :=
    (natCast_inj (by unfold modulus; omega) (by unfold modulus; omega)).mp hnibble
  rw [← hnibbleEq] at hfit hresult hwalk
  have hval : hasher.length.val = length := by
    rw [hlength, hparserLength, val_natCast hlengthLt]
  have hle : length ≤ hasher.data.val.length := by
    rw [← hval, hasher.data.property]
    exact hhasher.proved.length_le
  have hnodeLength : node.data.length = length := by
    rw [hnode, hval, List.length_take]
    omega
  have hfront := hfront hle
  rw [← hval, ← hnode] at hfront
  have hagree : AgreesWithin parser.paddedNodeData.bytes node.data := by
    rw [hdata, hnode]
    exact agreesWithin_take _ _ _
  rw [← hnodeLength] at hwalk
  have hstart : node.data.length - (node.data.drop start).length = start := by
    have hend := childPosition_add_le parser.paddedNodeData.bytes start 0 (bits.count true)
    rw [Nat.zero_add, hwalk.final] at hend
    change start + _ ≤ _ at hend
    rw [List.length_drop]
    omega
  have hiff := hwalk.decodeBranch_iff hagree hfront
  rw [parser.paddedNodeData.length_bytes] at hiff
  have haddressEq : address.map Nat.cast ++ key.map Nat.cast ++ [(node.childNibble.toNat : F)] =
      (address ++ (key ++ [node.childNibble.toNat])).map Nat.cast := by simp
  rw [haddressEq] at hfit hresult
  rw [List.length_map] at hfit
  refine ⟨key, by rw [hhasher.hash, hnode], ⟨⟨bits, _, hfront⟩, ?_, ?_⟩, hfit, hresult⟩
  · rw [hwalk.isClaimed.1]
    simp [BranchNodeDataPaddedTarget.slice, blake2DigestSize, hashLength]
  · rw [hiff]
    constructor
    · intro hzero key' bits' rest hfront'
      rw [hfront, Option.some.injEq, Prod.mk.injEq, Prod.mk.injEq] at hfront'
      obtain ⟨_, rfl, rfl⟩ := hfront'
      rwa [hstart]
    · intro hzero
      have hzero := hzero key bits _ hfront
      rwa [hstart] at hzero

theorem hashedLeafParser_sound {nodeData : List UInt8} {pis : HashedLeafParserTarget}
    (h : HashedLeafParser nodeData pis) {address : List Nat}
    (haddress : address.length ≤ maxStorageAddressLengthInNibbles)
    (hprev : pis.partialAddress = addressOf address) :
    ∃ leaf, pis.nodeHash = blake2 nodeData ∧ decodeLeaf nodeData = some leaf ∧
      pis.storageDataHash = leaf.value.hash blake2 ∧
      (address ++ leaf.key).length ≤ maxStorageAddressLengthInNibbles ∧
      pis.finalAddress = addressOf (address ++ leaf.key) := by
  obtain ⟨hasher, leafType, parser, hhasher, hparser, hlength, hdata, hnode, rfl⟩ := h
  simp only at hprev ⊢
  obtain ⟨length, leaf, hparserLength, hlengthLe, hfit, hresult, hhash, hdecode⟩ :=
    leafParser_sound hdata (by rwa [List.length_map]) hprev hparser
  have hval : hasher.length.val = length := by
    rw [hlength, hparserLength, val_natCast (Nat.lt_of_le_of_lt hlengthLe (by decide))]
  rw [← List.map_append] at hfit hresult
  rw [List.length_map] at hfit
  rw [← hval, ← hnode] at hdecode
  exact ⟨leaf, by rw [hhasher.hash, hnode], hdecode, hhash, hfit, hresult⟩

/-- The chain establishes that its nodes are one below the other. -/
theorem branchNodeChain_sound {nodes : List BranchNodeData}
    {pis : BranchNodeChainParserTarget (List UInt8)} (h : BranchNodeChain nodes pis) :
    ∃ address, address.length ≤ maxStorageAddressLengthInNibbles ∧
      pis.partialAddress = addressOf address ∧
      ChainReads pis.rootHash nodes address pis.leafHash := by
  unfold BranchNodeChain at h
  generalize hstate : (nodes, pis) = state at h
  induction h generalizing nodes pis with
  | @layer condition inner outer hlayer _ ih =>
      subst hstate
      obtain ⟨node, ⟨parser, hparser, hhash, haddress, rfl⟩, hnodes⟩ := hlayer
      obtain ⟨previous, address, hlength, hprev, hreads⟩ : ∃ previous address,
          address.length ≤ maxStorageAddressLengthInNibbles ∧
          parser.partialAddress = addressOf address ∧
          nodes = previous ++ [node] ∧
          ChainReads inner.2.rootHash previous address parser.nodeHash := by
        cases condition with
        | false => exact ⟨[], [], by decide, by simpa [addressOf] using haddress, hnodes, by
            rw [hhash]; exact .nil⟩
        | true =>
            obtain ⟨address, hlength, hprev, hreads⟩ := ih rfl rfl
            refine ⟨inner.1, address, hlength, haddress.trans hprev, hnodes, ?_⟩
            rw [hhash]
            exact hreads
      obtain ⟨key, hnodeHash, hnode, hfit, hresult⟩ := hashedBranchParser_sound hparser hlength hprev
      obtain ⟨rfl, hreads⟩ := hreads
      rw [hnodeHash] at hreads
      exact ⟨_, hfit, hresult, .concat hreads hnode⟩

/-- **When an accepted proof describes its path**: its address has at most 64 nibbles, and
the nodes it hashes are the path to the data under this address exactly if every branch
node has nothing but zeros where it is read past the padded data. -/
theorem trieProof_path_iff (proof : StorageTrieProof) (pis : StorageTrieProofTarget)
    (h : proof.Accepted pis) :
    ∃ address : List Nat, address.length ≤ maxStorageAddressLengthInNibbles ∧
      pis.address = addressOf address ∧
      (TriePath blake2 pis.rootHash address pis.dataHash proof.nodes ↔
        ∀ node ∈ proof.branchNodes, node.ZeroPastData) := by
  obtain ⟨chain, leaf, hchain, hleaf, hhash, haddress, rfl⟩ := h
  obtain ⟨address, hlength, hprev, hreads⟩ := branchNodeChain_sound hchain
  obtain ⟨decoded, hnodeHash, hdecode, hvalue, hfit, hfinal⟩ :=
    hashedLeafParser_sound hleaf hlength (haddress.symm.trans hprev)
  have hleafHash : chain.leafHash = blake2 proof.leafNodeData := hhash.trans hnodeHash
  refine ⟨address ++ decoded.key, hfit, hfinal, ?_⟩
  have hpath : TriePath blake2 chain.leafHash decoded.key leaf.storageDataHash
      [proof.leafNodeData] := by
    rw [hleafHash, hvalue]
    exact .leaf hdecode
  have hiff : TriePath blake2 chain.rootHash (address ++ decoded.key) leaf.storageDataHash
      proof.nodes ↔ _ := hreads.triePath_iff hleafHash
  rw [and_iff_left hpath] at hiff
  exact hiff

/-! ## proofs for given nodes -/

/-- The honest hasher of a message. -/
def hasherOf (message : List UInt8) (h : message.length ≤ maxDataBytes) :
    GenericBlake2Target blake2b :=
  ⟨⟨padData message, length_padData h⟩, message.length, blake2 message⟩

theorem val_length_hasherOf {message : List UInt8} (h : message.length ≤ maxDataBytes) :
    (hasherOf message h).length.val = message.length := by
  have hmax : maxDataBytes = 1024 := rfl
  exact val_natCast (by unfold modulus; omega)

theorem correctBlake2_hasherOf {message : List UInt8} (h : message.length ≤ maxDataBytes) :
    CorrectBlake2 (hasherOf message h) := by
  refine ⟨?_, ?_⟩
  · have hblocks := padMessage_prefix_padData h
    unfold hasherOf blake2
    exact genericBlake2_of_blocks blake2b h hblocks
  · rw [val_length_hasherOf]
    exact congrArg blake2 (take_padData message).symm

/-- The padded data of a branch node. -/
def branchDataOf (node : List UInt8) (h : node.length ≤ maxDataBytes) : BranchNodeDataPaddedTarget :=
  ⟨(padData node).take maxBranchNodeDataBytes, by
    rw [List.length_take, length_padData h]
    decide⟩

def sampleValue : List UInt8 := List.replicate 32 7

/-- A leaf with an empty partial key and the value inline. -/
def sampleLeaf : List UInt8 := 0x40 :: 128 :: sampleValue

def sampleLeafHash : List UInt8 :=
  [228, 95, 27, 102, 131, 246, 135, 79, 198, 56, 96, 240, 151, 143, 186, 22,
   156, 71, 41, 142, 174, 83, 85, 86, 133, 24, 17, 184, 108, 247, 222, 237]

theorem blake2_sampleLeaf : blake2 sampleLeaf = sampleLeafHash := by
  unfold blake2
  decide +kernel

theorem hashedLeafParser_sampleLeaf : HashedLeafParser sampleLeaf
    ⟨sampleLeafHash, blake2 sampleValue, addressOf [9], addressOf [9]⟩ := by
  have hlength : sampleLeaf.length ≤ maxDataBytes := by decide
  have hblock : ((padData sampleLeaf).take nodeDataBlockBytes).length = nodeDataBlockBytes := by
    rw [List.length_take, length_padData hlength]
    decide
  have hheader : headerParser (((padData sampleLeaf).take nodeDataBlockBytes).getD 0 0)
      (((padData sampleLeaf).take nodeDataBlockBytes).getD 1 0) .leaf = some ⟨0, 1⟩ := by
    decide +kernel
  have hnibbles : nibbleParser ((padData sampleLeaf).take nodeDataBlockBytes) 1 0 (addressOf [9]) =
      some ⟨1, addressOf [9]⟩ := by
    decide +kernel
  have hfirst : ArrayTarget.randomRead ((padData sampleLeaf).take nodeDataBlockBytes) 1 = some 128 := by
    decide +kernel
  have hsize : singleByteParser ((128 : UInt8).toNat : F) = some (inlinedDataLength : F) := by
    decide +kernel
  have hread : ArrayTarget.randomReadArray inlinedDataLength
      ((padData sampleLeaf).take nodeDataBlockBytes) (1 + 1) = some sampleValue := by
    decide +kernel
  have hdata : inlinedDataParser ((padData sampleLeaf).take nodeDataBlockBytes) 1 =
      some ⟨34, blake2 sampleValue⟩ := by
    simp only [inlinedDataParser, hfirst, hsize, hread, guard, if_true, Option.bind_eq_bind,
      Option.bind_some, Option.pure_def]
    rfl
  refine ⟨hasherOf sampleLeaf hlength, .leaf, ⟨⟨_, hblock⟩, 34, blake2 sampleValue, addressOf [9],
    addressOf [9]⟩, correctBlake2_hasherOf hlength, ⟨_, _, _, hheader, hnibbles, hdata, rfl, rfl, rfl⟩,
    rfl, rfl, ?_, ?_⟩
  · rw [val_length_hasherOf]
    exact (take_padData sampleLeaf).symm
  · rw [← blake2_sampleLeaf]
    rfl

/-- A chain of one branch node without partial key, left at nibble nine for the leaf. -/
theorem accepted_of_children {node : List UInt8} (count index : Nat)
    (hlength : node.length ≤ maxDataBytes) (hcount : 0 < count)
    (hheader : headerParser ((padData node).getD 0 0) ((padData node).getD 1 0) .branchWithoutValue =
      some ⟨0, 1⟩)
    (hnibbles : nibbleParser ((padData node).take nodeDataBlockBytes) 1 0 .empty =
      some ⟨1, .empty⟩)
    (hbitmap : bitmapParser ((padData node).take nodeDataBlockBytes) 1 9 =
      some ⟨3, (count : F), (index : F)⟩)
    (hchildren : ∀ k < count,
      ChildReadable (childPosition ((padData node).take maxBranchNodeDataBytes) 3 k) ∧
      (((padData node).take maxBranchNodeDataBytes).getD
        (childPosition ((padData node).take maxBranchNodeDataBytes) 3 k) 0).toNat % 4 = 0 ∧
      ((index : F) = (k : F) → IsClaimedChild ((padData node).take maxBranchNodeDataBytes)
        (childPosition ((padData node).take maxBranchNodeDataBytes) 3 k) sampleLeafHash))
    (hfinal : childPosition ((padData node).take maxBranchNodeDataBytes) 3 count = node.length) :
    (⟨[⟨node, 9⟩], sampleLeaf⟩ : StorageTrieProof).Accepted
      ⟨blake2 node, blake2 sampleValue, addressOf [9]⟩ := by
  have hblock : (branchDataOf node hlength).bytes.take nodeDataBlockBytes =
      (padData node).take nodeDataBlockBytes := by
    rw [branchDataOf, List.take_take, Nat.min_eq_left (by decide)]
  have hget : ∀ i < nodeDataBlockBytes, ((branchDataOf node hlength).bytes.take
      nodeDataBlockBytes).getD i 0 = (padData node).getD i 0 := by
    intro i hi
    rw [hblock, getD_take hi]
  have happend : StorageAddressTarget.empty.append (.fromSingleNibbleTarget 9) =
      some (addressOf [9]) := by
    rw [← StorageAddressTarget.ofNibbles_nil, StorageAddressTarget.fromSingleNibbleTarget_eq]
    exact StorageAddressTarget.append_eq (Nat.le_of_ble_eq_true rfl)
  have hparser : BranchParser ((9 : UInt8).toNat : F) ⟨branchDataOf node hlength, (node.length : F),
      sampleLeafHash, .empty, addressOf [9]⟩ := by
    refine ⟨by decide, ⟨0, 1⟩, ⟨1, .empty⟩, ⟨3, (count : F), (index : F)⟩, ?_, ?_, happend, ?_, ?_⟩
    · rw [hget 0 (by decide), hget 1 (by decide), hheader]
    · rw [hblock]
      exact hnibbles
    · rw [hblock]
      exact hbitmap
    · have hread : childrenRead (branchDataOf node hlength) sampleLeafHash (index : F)
          ((3 : Nat) : F) count = some (node.length : F) :=
        (childrenRead_eq_some_iff (by decide)).mpr ⟨hchildren, congrArg Nat.cast hfinal.symm⟩
      exact (childNodeArrayParser_iff _).mpr ⟨count, hcount, rfl, hread⟩
  have hbranch : HashedBranchParser ⟨node, 9⟩ ⟨blake2 node, sampleLeafHash, .empty, addressOf [9]⟩ := by
    refine ⟨hasherOf node hlength, _, correctBlake2_hasherOf hlength, hparser, rfl, rfl, ?_, rfl⟩
    rw [val_length_hasherOf]
    exact (take_padData node).symm
  refine ⟨⟨blake2 node, sampleLeafHash, addressOf [9]⟩, _, ?_, hashedLeafParser_sampleLeaf, rfl, rfl,
    rfl⟩
  exact @Layers.layer _ _ false ([], ⟨blake2 node, [], .empty⟩) _
    ⟨_, ⟨_, hbranch, rfl, rfl, rfl⟩, rfl⟩ nofun

/-- A branch with one child. -/
def sampleBranch : List UInt8 := [0x80, 0x00, 0x02, 128] ++ sampleLeafHash

theorem accepted_sampleBranch : (⟨[⟨sampleBranch, 9⟩], sampleLeaf⟩ : StorageTrieProof).Accepted
    ⟨blake2 sampleBranch, blake2 sampleValue, addressOf [9]⟩ :=
  accepted_of_children 1 0 (by decide) (by decide) (by decide +kernel)
    (by decide +kernel) (by decide +kernel) (by decide +kernel) (by decide +kernel)

/-- The nodes of a proof whose branch node fits into the padded data are a path. -/
theorem trieProof_path_iff_sample :
    (⟨[⟨sampleBranch, 9⟩], sampleLeaf⟩ : StorageTrieProof).Accepted
      ⟨blake2 sampleBranch, blake2 sampleValue, addressOf [9]⟩ ∧
    ∃ address : List Nat, address.length ≤ maxStorageAddressLengthInNibbles ∧
      addressOf [9] = addressOf address ∧
      TriePath blake2 (blake2 sampleBranch) address (blake2 sampleValue)
        [sampleBranch, sampleLeaf] := by
  refine ⟨accepted_sampleBranch, ?_⟩
  obtain ⟨address, hlength, haddress, hiff⟩ := trieProof_path_iff _ _ accepted_sampleBranch
  refine ⟨address, hlength, haddress, hiff.mpr ?_⟩
  intro node hnode
  rw [List.mem_singleton] at hnode
  subst hnode
  exact BranchNodeData.zeroPastData_of_length (by decide)

/-- Nine children of 63 bytes, the leaf, a child of 27 bytes and a last one, whose length
stands at position 640 and says one byte more than the node has. -/
def unreadableBranch : List UInt8 :=
  [0x80, 0xFF, 0x0F] ++ (List.replicate 9 (252 :: List.replicate 63 0)).flatten ++
    128 :: sampleLeafHash ++ 108 :: List.replicate 27 0 ++ [4]

theorem accepted_unreadableBranch :
    (⟨[⟨unreadableBranch, 9⟩], sampleLeaf⟩ : StorageTrieProof).Accepted
      ⟨blake2 unreadableBranch, blake2 sampleValue, addressOf [9]⟩ :=
  accepted_of_children 12 9 (by decide +kernel) (by decide) (by decide +kernel)
    (by decide +kernel) (by decide +kernel) (by decide +kernel) (by decide +kernel)

/-- An accepted proof for a node that does not decode: the length of its last child is
nonzero and read as zero.  A path from the root hash would need another node with the hash
of this one. -/
theorem unreadable_accepted :
    (⟨[⟨unreadableBranch, 9⟩], sampleLeaf⟩ : StorageTrieProof).Accepted
      ⟨blake2 unreadableBranch, blake2 sampleValue, addressOf [9]⟩ ∧
    ∀ (address : List Nat) (nodes : List (List UInt8)),
      TriePath blake2 (blake2 unreadableBranch) address (blake2 sampleValue) nodes →
      ∃ first ∈ nodes, first ≠ unreadableBranch ∧ blake2 first = blake2 unreadableBranch := by
  refine ⟨accepted_unreadableBranch, ?_⟩
  intro address nodes hpath
  have hleaf : (decodeLeaf unreadableBranch).isSome = false := by decide +kernel
  have hbranch : (decodeBranch unreadableBranch).isSome = false := by decide +kernel
  obtain ⟨first, rest, rfl⟩ := hpath.nodes_eq_cons
  refine ⟨first, List.mem_cons_self, ?_, hpath.root_eq.symm⟩
  rintro rfl
  cases hpath.decodable with
  | inl h => rw [hleaf] at h; cases h
  | inr h => rw [hbranch] at h; cases h

end GearBridges.Prover
