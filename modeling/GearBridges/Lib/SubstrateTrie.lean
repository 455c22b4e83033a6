import Mathlib.Algebra.Group.Nat.Defs
import Mathlib.Data.List.GetD
import Mathlib.Data.Option.Basic

/-!
# Lib.SubstrateTrie

The node format of Substrate tries: headers, partial keys, SCALE compact lengths,
branches without value and leaves, each as a decoder that consumes a front of its bytes.
`TriePath` are the nodes along an address, each found under the hash its predecessor
refers to it by.

A reader that takes every child length for a single byte walks the positions
`childPosition`; `decodeChildren_of_positions` and `positions_of_decodeChildren` compare
the walk with the decoder.
-/

namespace SubstrateTrie

/-! ## bytes and compact integers -/

/-- The first `n` bytes and the rest. -/
def takeBytes (n : Nat) (bytes : List UInt8) : Option (List UInt8 × List UInt8) :=
  if n ≤ bytes.length then some (bytes.take n, bytes.drop n) else none

def leNat (bytes : List UInt8) : Nat := bytes.foldr (fun byte rest => byte.toNat + 256 * rest) 0

/-- An integer above its mode bits, in so many bytes; it has to need them. -/
def compactOfWidth (width least : Nat) (bytes : List UInt8) : Option (Nat × List UInt8) := do
  let (encoded, rest) ← takeBytes width bytes
  guard (least ≤ leNat encoded / 4)
  return (leNat encoded / 4, rest)

/-- `Compact<u32>`. -/
def decodeCompact : List UInt8 → Option (Nat × List UInt8)
  | [] => none
  | first :: rest =>
      match first.toNat % 4 with
      | 0 => some (first.toNat / 4, rest)
      | 1 => compactOfWidth 2 (2 ^ 6) (first :: rest)
      | 2 => compactOfWidth 4 (2 ^ 14) (first :: rest)
      | _ => do
          guard (first.toNat / 4 = 0)
          let (encoded, rest) ← takeBytes 4 rest
          guard (2 ^ 30 ≤ leNat encoded)
          return (leNat encoded, rest)

/-! ## headers and partial keys -/

inductive NodeKind
  | leaf
  | branchWithoutValue
  | branchWithValue
  | hashedValueLeaf
  | hashedValueBranch
  deriving DecidableEq, Repr

/-- The kind of node a first byte announces and the number of bits that do. -/
def nodeKind (first : UInt8) : Option (NodeKind × Nat) :=
  match first.toNat / 64 with
  | 0 =>
      if first.toNat / 32 = 1 then some (.hashedValueLeaf, 3)
      else if first.toNat / 16 = 1 then some (.hashedValueBranch, 4)
      else none
  | 1 => some (.leaf, 2)
  | 2 => some (.branchWithoutValue, 2)
  | _ => some (.branchWithValue, 2)

def nibbleSizeBound : Nat := 65535

/-- The bytes after a first one whose size bits are all set. -/
def decodeSizeTail : Nat → List UInt8 → Option (Nat × List UInt8)
  | result, [] => if result ≤ nibbleSizeBound then none else some (nibbleSizeBound, [])
  | result, byte :: bytes =>
      if nibbleSizeBound < result then some (nibbleSizeBound, byte :: bytes)
      else if byte.toNat < 255 then some (result + byte.toNat + 1, bytes)
      else decodeSizeTail (result + 255) bytes

/-- The number of nibbles in the bits of a first byte below the announcing ones, and in
the bytes after it. -/
def decodeSize (kindBits : Nat) (first : UInt8) (bytes : List UInt8) : Option (Nat × List UInt8) :=
  let maxValue := 255 / 2 ^ kindBits
  let result := first.toNat % (maxValue + 1)
  if result < maxValue then some (result, bytes) else decodeSizeTail (result - 1) bytes

/-- Kind, number of nibbles and the bytes after the header. -/
def decodeHeader : List UInt8 → Option (NodeKind × Nat × List UInt8)
  | [] => none
  | first :: bytes => do
      let (kind, kindBits) ← nodeKind first
      let (count, bytes) ← decodeSize kindBits first bytes
      return (kind, count, bytes)

def byteNibbles (byte : UInt8) : List Nat := [byte.toNat / 16, byte.toNat % 16]

/-- `count` nibbles in whole bytes; an odd number has a zero nibble in front. -/
def decodePartial (count : Nat) (bytes : List UInt8) : Option (List Nat × List UInt8) := do
  let (encoded, bytes) ← takeBytes ((count + 1) / 2) bytes
  let nibbles := encoded.flatMap byteNibbles
  guard (count % 2 = 1 → nibbles.head? = some 0)
  return (nibbles.drop (count % 2), bytes)

/-! ## branches -/

/-- Bits of a byte, lowest first. -/
def byteBits (byte : UInt8) : List Bool := (List.range 8).map byte.toNat.testBit

/-- Which of the sixteen children are there: at least one. -/
def decodeBitmap : List UInt8 → Option (List Bool × List UInt8)
  | first :: second :: bytes => do
      let bits := byteBits first ++ byteBits second
      guard (true ∈ bits)
      return (bits, bytes)
  | _ => none

def decodeChild (bytes : List UInt8) : Option (List UInt8 × List UInt8) := do
  let (length, bytes) ← decodeCompact bytes
  takeBytes length bytes

/-- The encoded children, one place for each bit. -/
def decodeChildren : List Bool → List UInt8 → Option (List (Option (List UInt8)) × List UInt8)
  | [], bytes => some ([], bytes)
  | false :: bits, bytes => do
      let (children, bytes) ← decodeChildren bits bytes
      return (none :: children, bytes)
  | true :: bits, bytes => do
      let (child, bytes) ← decodeChild bytes
      let (children, bytes) ← decodeChildren bits bytes
      return (some child :: children, bytes)

/-- Partial key and bitmap of a branch without value, and the bytes of its children. -/
def decodeBranchFront (node : List UInt8) : Option (List Nat × List Bool × List UInt8) := do
  let (kind, count, bytes) ← decodeHeader node
  guard (kind = .branchWithoutValue)
  let (key, bytes) ← decodePartial count bytes
  let (bits, bytes) ← decodeBitmap bytes
  return (key, bits, bytes)

structure NibbledBranch where
  key : List Nat
  children : List (Option (List UInt8))

/-- The branch without value that a byte string is the encoding of. -/
def decodeBranch (node : List UInt8) : Option NibbledBranch := do
  let (key, bits, bytes) ← decodeBranchFront node
  let (children, bytes) ← decodeChildren bits bytes
  guard (bytes = [])
  return ⟨key, children⟩

/-! ## leaves -/

inductive LeafValue
  | inline (value : List UInt8)
  | hashed (digest : List UInt8)

/-- The hash of the value, in terms of the hash function of the trie. -/
def LeafValue.hash (hash : List UInt8 → List UInt8) : LeafValue → List UInt8
  | .inline value => hash value
  | .hashed digest => digest

structure Leaf where
  key : List Nat
  value : LeafValue

def hashLength : Nat := 32

def decodeLeafValue (kind : NodeKind) (bytes : List UInt8) : Option (LeafValue × List UInt8) :=
  match kind with
  | .leaf => do
      let (length, bytes) ← decodeCompact bytes
      let (value, bytes) ← takeBytes length bytes
      return (.inline value, bytes)
  | .hashedValueLeaf => do
      let (digest, bytes) ← takeBytes hashLength bytes
      return (.hashed digest, bytes)
  | _ => none

/-- The leaf that a byte string is the encoding of. -/
def decodeLeaf (node : List UInt8) : Option Leaf := do
  let (kind, count, bytes) ← decodeHeader node
  let (key, bytes) ← decodePartial count bytes
  let (value, bytes) ← decodeLeafValue kind bytes
  guard (bytes = [])
  return ⟨key, value⟩

/-! ## paths -/

/-- `TriePath hash root address value nodes`: the nodes from the one with hash `root`
down to a leaf whose value has the hash `value`.  Each branch is left through a child
that is a hash reference, and the address is made of the partial keys and the nibbles
of these children. -/
inductive TriePath (hash : List UInt8 → List UInt8) :
    List UInt8 → List Nat → List UInt8 → List (List UInt8) → Prop
  | leaf {node : List UInt8} {leaf : Leaf} (hleaf : decodeLeaf node = some leaf) :
      TriePath hash (hash node) leaf.key (leaf.value.hash hash) [node]
  | branch {node reference value : List UInt8} {branch : NibbledBranch} {nibble : Nat}
      {address : List Nat} {nodes : List (List UInt8)}
      (hbranch : decodeBranch node = some branch)
      (hchild : branch.children[nibble]? = some (some reference))
      (hlength : reference.length = hashLength)
      (hrest : TriePath hash reference address value nodes) :
      TriePath hash (hash node) (branch.key ++ nibble :: address) value (node :: nodes)

/-- The first node has the hash the path starts from. -/
theorem TriePath.root_eq {hash : List UInt8 → List UInt8} {root value node : List UInt8}
    {address : List Nat} {nodes : List (List UInt8)}
    (h : TriePath hash root address value (node :: nodes)) : root = hash node := by
  cases h with
  | leaf _ => rfl
  | branch _ _ _ _ => rfl

theorem TriePath.nodes_eq_cons {hash : List UInt8 → List UInt8} {root value : List UInt8}
    {address : List Nat} {nodes : List (List UInt8)}
    (h : TriePath hash root address value nodes) : ∃ node rest, nodes = node :: rest := by
  cases h with
  | leaf _ => exact ⟨_, _, rfl⟩
  | branch _ _ _ _ => exact ⟨_, _, rfl⟩

/-- A path starts with a node that decodes. -/
theorem TriePath.decodable {hash : List UInt8 → List UInt8} {root value node : List UInt8}
    {address : List Nat} {nodes : List (List UInt8)}
    (h : TriePath hash root address value (node :: nodes)) :
    (decodeLeaf node).isSome = true ∨ (decodeBranch node).isSome = true := by
  cases h with
  | leaf hleaf => exact .inl (Option.isSome_of_eq_some hleaf)
  | branch hbranch _ _ _ => exact .inr (Option.isSome_of_eq_some hbranch)

/-- A path of more than one node starts with a branch. -/
theorem TriePath.branch_cases {hash : List UInt8 → List UInt8} {root value node next : List UInt8}
    {address : List Nat} {nodes : List (List UInt8)}
    (h : TriePath hash root address value (node :: next :: nodes)) :
    ∃ branch nibble reference rest, decodeBranch node = some branch ∧
      branch.children[nibble]? = some (some reference) ∧ address = branch.key ++ nibble :: rest ∧
      TriePath hash reference rest value (next :: nodes) := by
  cases h with
  | branch hbranch hchild _ hrest => exact ⟨_, _, _, _, hbranch, hchild, rfl, hrest⟩

/-! ## what the decoders consume -/

theorem drop_eq_cons_getD {bytes : List UInt8} {i : Nat} (h : i < bytes.length) :
    bytes.drop i = bytes.getD i 0 :: bytes.drop (i + 1) := by
  rw [List.drop_eq_getElem_cons h, List.getD_eq_getElem _ _ h]

theorem getD_take {bytes : List UInt8} {n i : Nat} (h : i < n) :
    (bytes.take n).getD i 0 = bytes.getD i 0 := by
  rw [List.getD_eq_getElem?_getD, List.getElem?_take_of_lt h, ← List.getD_eq_getElem?_getD]

theorem takeBytes_of_le {n : Nat} {bytes : List UInt8} (h : n ≤ bytes.length) :
    takeBytes n bytes = some (bytes.take n, bytes.drop n) := if_pos h

theorem takeBytes_of_length {n : Nat} {bytes : List UInt8} (h : bytes.length = n) :
    takeBytes n bytes = some (bytes, []) := by
  rw [takeBytes_of_le (Nat.le_of_eq h.symm), List.take_of_length_le (Nat.le_of_eq h),
    List.drop_of_length_le (Nat.le_of_eq h)]

theorem takeBytes_eq_some {n : Nat} {bytes front rest : List UInt8}
    (h : takeBytes n bytes = some (front, rest)) :
    n ≤ bytes.length ∧ front = bytes.take n ∧ rest = bytes.drop n := by
  unfold takeBytes at h
  split at h
  · rename_i hle
    rw [Option.some.injEq, Prod.mk.injEq] at h
    exact ⟨hle, h.1.symm, h.2.symm⟩
  · cases h

theorem length_of_compactOfWidth {width least n : Nat} {bytes rest : List UInt8}
    (h : compactOfWidth width least bytes = some (n, rest)) :
    rest.length + width = bytes.length := by
  unfold compactOfWidth at h
  simp only [Option.bind_eq_bind, Option.bind_eq_some_iff, Option.guard_eq_some',
    Option.pure_def, Option.some.injEq, Prod.mk.injEq] at h
  obtain ⟨⟨encoded, rest'⟩, htake, -, -, -, rfl⟩ := h
  obtain ⟨hle, -, hrest⟩ := takeBytes_eq_some htake
  rw [hrest, List.length_drop]
  omega

theorem le_of_compactOfWidth {width least n : Nat} {bytes rest : List UInt8}
    (h : compactOfWidth width least bytes = some (n, rest)) : least ≤ n := by
  unfold compactOfWidth at h
  simp only [Option.bind_eq_bind, Option.bind_eq_some_iff, Option.guard_eq_some',
    Option.pure_def, Option.some.injEq, Prod.mk.injEq] at h
  obtain ⟨_, -, _, hleast, rfl, -⟩ := h
  exact hleast

/-- A number below 64 is encoded in a single byte. -/
theorem decodeCompact_small {n : Nat} {first : UInt8} {bytes rest : List UInt8}
    (h : decodeCompact (first :: bytes) = some (n, rest)) (hn : n < 64) :
    first.toNat % 4 = 0 ∧ n = first.toNat / 4 ∧ rest = bytes := by
  simp only [decodeCompact] at h
  split at h
  · rename_i hmode
    rw [Option.some.injEq, Prod.mk.injEq] at h
    exact ⟨hmode, h.1.symm, h.2.symm⟩
  · have hleast := le_of_compactOfWidth h
    omega
  · have hleast := le_of_compactOfWidth h
    omega
  · simp only [Option.bind_eq_bind, Option.bind_eq_some_iff, Option.guard_eq_some',
      Option.pure_def, Option.some.injEq, Prod.mk.injEq] at h
    obtain ⟨_, -, _, -, _, hleast, rfl, -⟩ := h
    omega

theorem length_flatMap_byteNibbles (bytes : List UInt8) :
    (bytes.flatMap byteNibbles).length = 2 * bytes.length := by
  induction bytes with
  | nil => rfl
  | cons byte bytes ih =>
      rw [List.flatMap_cons, List.length_append, ih, List.length_cons]
      show 2 + 2 * bytes.length = _
      omega

theorem take_flatMap_byteNibbles (bytes : List UInt8) (k : Nat) :
    (bytes.take k).flatMap byteNibbles = (bytes.flatMap byteNibbles).take (2 * k) := by
  induction bytes generalizing k with
  | nil => simp
  | cons byte bytes ih =>
      cases k with
      | zero => rfl
      | succ k =>
          rw [List.take_succ_cons, List.flatMap_cons, List.flatMap_cons, ih]
          rfl

/-- The partial key of `count` nibbles that starts at an offset. -/
def partialKeyAt (bytes : List UInt8) (offset count : Nat) : List Nat :=
  (((bytes.drop offset).take ((count + 1) / 2)).flatMap byteNibbles).drop (count % 2)

theorem le_length_of_decodePartial {count : Nat} {bytes rest : List UInt8} {key : List Nat}
    (h : decodePartial count bytes = some (key, rest)) : (count + 1) / 2 ≤ bytes.length := by
  simp only [decodePartial, Option.bind_eq_bind, Option.bind_eq_some_iff] at h
  obtain ⟨_, htake, -⟩ := h
  exact (takeBytes_eq_some htake).1

/-- As many nibbles as announced, in the bytes that are gone. -/
theorem length_of_decodePartial {count : Nat} {bytes rest : List UInt8} {key : List Nat}
    (h : decodePartial count bytes = some (key, rest)) :
    key.length = count ∧ rest.length ≤ bytes.length := by
  simp only [decodePartial, Option.bind_eq_bind, Option.bind_eq_some_iff, Option.pure_def,
    Option.some.injEq, Prod.mk.injEq, Prod.exists] at h
  obtain ⟨_, _, htake, -, -, rfl, rfl⟩ := h
  obtain ⟨hle, rfl, rfl⟩ := takeBytes_eq_some htake
  rw [List.length_drop, length_flatMap_byteNibbles, List.length_take, Nat.min_eq_left hle,
    List.length_drop]
  omega

theorem decodePartial_drop {bytes : List UInt8} {offset count : Nat}
    (hsize : offset + (count + 1) / 2 ≤ bytes.length) :
    decodePartial count (bytes.drop offset) =
      if count % 2 = 1 → (bytes.getD offset 0).toNat / 16 = 0 then
        some (partialKeyAt bytes offset count, bytes.drop (offset + (count + 1) / 2))
      else none := by
  have hguard : (count % 2 = 1 →
      (((bytes.drop offset).take ((count + 1) / 2)).flatMap byteNibbles).head? = some 0) ↔
        (count % 2 = 1 → (bytes.getD offset 0).toNat / 16 = 0) := by
    apply imp_congr_right
    intro hodd
    obtain ⟨n, hn⟩ : ∃ n, (count + 1) / 2 = n + 1 := ⟨(count + 1) / 2 - 1, by omega⟩
    rw [hn, drop_eq_cons_getD (by omega), List.take_succ_cons, List.flatMap_cons]
    show some ((bytes.getD offset 0).toNat / 16) = some 0 ↔ _
    rw [Option.some.injEq]
  rw [decodePartial, takeBytes_of_le (by rw [List.length_drop]; omega), List.drop_drop]
  simp only [Option.bind_eq_bind, Option.bind_some, guard, Option.pure_def, hguard]
  split
  · rfl
  · rfl

theorem decodePartial_at {bytes : List UInt8} {offset count length : Nat}
    (hsize : offset + (count + 1) / 2 ≤ length) (hlength : length ≤ bytes.length)
    (hpadding : count % 2 = 1 → (bytes.getD offset 0).toNat / 16 = 0) :
    decodePartial count ((bytes.take length).drop offset) =
      some (partialKeyAt bytes offset count,
        (bytes.take length).drop (offset + (count + 1) / 2)) := by
  have htake : partialKeyAt (bytes.take length) offset count = partialKeyAt bytes offset count := by
    unfold partialKeyAt
    rw [List.drop_take, List.take_take, Nat.min_eq_left (by omega)]
  have hfirst : count % 2 = 1 → ((bytes.take length).getD offset 0).toNat / 16 = 0 := by
    intro hodd
    rw [getD_take (by omega)]
    exact hpadding hodd
  rw [decodePartial_drop (by rw [List.length_take]; omega), if_pos hfirst, htake]

theorem length_partialKeyAt {bytes : List UInt8} {offset count : Nat}
    (hsize : offset + (count + 1) / 2 ≤ bytes.length) :
    (partialKeyAt bytes offset count).length = count := by
  unfold partialKeyAt
  rw [List.length_drop, length_flatMap_byteNibbles, List.length_take, List.length_drop]
  omega

/-- A header of one byte. -/
theorem decodeHeader_one {first : UInt8} {kind : NodeKind} {kindBits : Nat}
    (hkind : nodeKind first = some (kind, kindBits))
    (h : first.toNat % (255 / 2 ^ kindBits + 1) < 255 / 2 ^ kindBits) (bytes : List UInt8) :
    decodeHeader (first :: bytes) =
      some (kind, first.toNat % (255 / 2 ^ kindBits + 1), bytes) := by
  simp only [decodeHeader, hkind, decodeSize, Option.bind_eq_bind, Option.bind_some, if_pos h,
    Option.pure_def]

/-- A header of two bytes. -/
theorem decodeHeader_two {first second : UInt8} {kind : NodeKind} {kindBits : Nat}
    (hkind : nodeKind first = some (kind, kindBits)) (hpos : 0 < 255 / 2 ^ kindBits)
    (h : first.toNat % (255 / 2 ^ kindBits + 1) = 255 / 2 ^ kindBits) (hsecond : second.toNat < 255)
    (bytes : List UInt8) :
    decodeHeader (first :: second :: bytes) =
      some (kind, second.toNat + 255 / 2 ^ kindBits, bytes) := by
  have hle : 255 / 2 ^ kindBits ≤ 255 := Nat.div_le_self _ _
  have hbound : ¬ nibbleSizeBound < 255 / 2 ^ kindBits - 1 := by
    unfold nibbleSizeBound
    omega
  have hcount : 255 / 2 ^ kindBits - 1 + second.toNat + 1 = second.toNat + 255 / 2 ^ kindBits := by
    omega
  simp only [decodeHeader, hkind, decodeSize, Option.bind_eq_bind, Option.bind_some, h, Nat.lt_irrefl,
    if_false, decodeSizeTail, if_neg hbound, if_pos hsecond, hcount, Option.pure_def]

theorem length_decodeSizeTail {result n : Nat} {bytes rest : List UInt8}
    (h : decodeSizeTail result bytes = some (n, rest)) :
    rest.length ≤ bytes.length ∧ (result ≤ nibbleSizeBound → rest.length < bytes.length) := by
  induction bytes generalizing result with
  | nil =>
      rw [decodeSizeTail] at h
      split at h
      · cases h
      · rename_i hlarge
        rw [Option.some.injEq, Prod.mk.injEq] at h
        rw [← h.2]
        exact ⟨Nat.le_refl _, fun hle => absurd hle hlarge⟩
  | cons byte bytes ih =>
      rw [List.length_cons]
      rw [decodeSizeTail] at h
      split at h
      · rename_i hlarge
        rw [Option.some.injEq, Prod.mk.injEq] at h
        rw [← h.2, List.length_cons]
        exact ⟨Nat.le_refl _, fun hle => absurd hle (by omega)⟩
      · split at h
        · rw [Option.some.injEq, Prod.mk.injEq] at h
          rw [← h.2]
          exact ⟨Nat.le_succ _, fun _ => Nat.lt_succ_self _⟩
        · have hle := (ih h).1
          exact ⟨by omega, fun _ => by omega⟩

theorem le_of_decodeSizeTail {result n : Nat} {bytes rest : List UInt8}
    (h : decodeSizeTail result bytes = some (n, rest)) : min result nibbleSizeBound ≤ n := by
  induction bytes generalizing result with
  | nil =>
      rw [decodeSizeTail] at h
      split at h
      · cases h
      · rw [Option.some.injEq, Prod.mk.injEq] at h
        omega
  | cons byte bytes ih =>
      rw [decodeSizeTail] at h
      split at h
      · rw [Option.some.injEq, Prod.mk.injEq] at h
        omega
      · split at h
        · rw [Option.some.injEq, Prod.mk.injEq] at h
          omega
        · have hle := ih h
          omega

/-- A header for fewer than 254 nibbles takes at most two bytes. -/
theorem decodeHeader_short_of_lt {first : UInt8} {kind : NodeKind} {count : Nat}
    {bytes rest : List UInt8} (h : decodeHeader (first :: bytes) = some (kind, count, rest))
    (hcount : count < 254) : bytes.length ≤ rest.length + 1 := by
  simp only [decodeHeader, Option.bind_eq_bind, Option.bind_eq_some_iff, Option.pure_def,
    Option.some.injEq, Prod.mk.injEq, Prod.exists] at h
  obtain ⟨_, kindBits, -, _, _, hsize, -, rfl, rfl⟩ := h
  have hle : 255 / 2 ^ kindBits ≤ 255 := Nat.div_le_self _ _
  simp only [decodeSize] at hsize
  split at hsize
  · rw [Option.some.injEq, Prod.mk.injEq] at hsize
    rw [← hsize.2]
    omega
  · cases bytes with
    | nil => exact Nat.zero_le _
    | cons second bytes =>
        rw [decodeSizeTail] at hsize
        split at hsize
        · rw [Option.some.injEq, Prod.mk.injEq] at hsize
          rw [← hsize.2]
          omega
        · split at hsize
          · rw [Option.some.injEq, Prod.mk.injEq] at hsize
            rw [← hsize.2]
            exact Nat.le_refl _
          · -- a third byte makes the number too large
            have hlarge := le_of_decodeSizeTail hsize
            unfold nibbleSizeBound at hlarge
            omega

/-- A header of at most two bytes is one of the two above. -/
theorem decodeHeader_short {first : UInt8} {kind : NodeKind} {count : Nat} {bytes rest : List UInt8}
    (h : decodeHeader (first :: bytes) = some (kind, count, rest))
    (hshort : bytes.length ≤ rest.length + 1) :
    ∃ kindBits, nodeKind first = some (kind, kindBits) ∧
      (first.toNat % (255 / 2 ^ kindBits + 1) = 255 / 2 ^ kindBits →
        ∃ second, second.toNat < 255 ∧ bytes = second :: rest) := by
  simp only [decodeHeader, Option.bind_eq_bind, Option.bind_eq_some_iff, Option.pure_def,
    Option.some.injEq, Prod.mk.injEq, Prod.exists] at h
  obtain ⟨_, kindBits, hkind, _, _, hsize, rfl, rfl, rfl⟩ := h
  refine ⟨kindBits, hkind, fun hmax => ?_⟩
  have hle : 255 / 2 ^ kindBits ≤ 255 := Nat.div_le_self _ _
  simp only [decodeSize, hmax, Nat.lt_irrefl, if_false] at hsize
  cases bytes with
  | nil =>
      have hlen := (length_decodeSizeTail hsize).2 (by unfold nibbleSizeBound; omega)
      exact absurd hlen (Nat.not_lt_zero _)
  | cons second bytes =>
      have hbound : ¬ nibbleSizeBound < 255 / 2 ^ kindBits - 1 := by
        unfold nibbleSizeBound
        omega
      rw [decodeSizeTail, if_neg hbound] at hsize
      split at hsize
      · rename_i hsecond
        rw [Option.some.injEq, Prod.mk.injEq] at hsize
        exact ⟨second, hsecond, by rw [hsize.2]⟩
      · -- a third byte is read
        have hlen := (length_decodeSizeTail hsize).2 (by unfold nibbleSizeBound; omega)
        rw [List.length_cons] at hshort
        omega

theorem length_of_decodeHeader {first : UInt8} {kind : NodeKind} {count : Nat}
    {bytes rest : List UInt8} (h : decodeHeader (first :: bytes) = some (kind, count, rest)) :
    rest.length ≤ bytes.length := by
  simp only [decodeHeader, Option.bind_eq_bind, Option.bind_eq_some_iff, Option.pure_def,
    Option.some.injEq, Prod.mk.injEq, Prod.exists] at h
  obtain ⟨_, _, -, _, _, hsize, -, rfl, rfl⟩ := h
  simp only [decodeSize] at hsize
  split at hsize
  · rw [Option.some.injEq, Prod.mk.injEq] at hsize
    exact Nat.le_of_eq (congrArg List.length hsize.2.symm)
  · exact (length_decodeSizeTail hsize).1

theorem decodeBitmap_eq_some {bytes rest : List UInt8} {bits : List Bool}
    (h : decodeBitmap bytes = some (bits, rest)) :
    2 ≤ bytes.length ∧ bits = byteBits (bytes.getD 0 0) ++ byteBits (bytes.getD 1 0) ∧
      rest = bytes.drop 2 := by
  match bytes, h with
  | first :: second :: bytes, h =>
      simp only [decodeBitmap, Option.bind_eq_bind, Option.bind_eq_some_iff, Option.pure_def,
        Option.some.injEq, Prod.mk.injEq] at h
      obtain ⟨_, -, rfl, rfl⟩ := h
      exact ⟨Nat.le_add_left _ _, rfl, rfl⟩

theorem decodeBitmap_at {bytes : List UInt8} {offset length : Nat} (hoffset : offset + 2 ≤ length)
    (hlength : length ≤ bytes.length)
    (hchild : true ∈ byteBits (bytes.getD offset 0) ++ byteBits (bytes.getD (offset + 1) 0)) :
    decodeBitmap ((bytes.take length).drop offset) =
      some (byteBits (bytes.getD offset 0) ++ byteBits (bytes.getD (offset + 1) 0),
        (bytes.take length).drop (offset + 2)) := by
  have hlen : (bytes.take length).length = length := by
    rw [List.length_take]
    omega
  rw [drop_eq_cons_getD (by omega), drop_eq_cons_getD (by omega), getD_take (by omega),
    getD_take (by omega)]
  simp only [decodeBitmap, guard, if_pos hchild, Option.pure_def, Option.bind_eq_bind,
    Option.bind_some]

/-- A compact integer takes at least a byte, and only a single-byte one takes no more. -/
theorem length_of_decodeCompact {n : Nat} {first : UInt8} {bytes rest : List UInt8}
    (h : decodeCompact (first :: bytes) = some (n, rest)) :
    rest.length ≤ bytes.length ∧ (rest.length = bytes.length → n = first.toNat / 4 ∧
      first.toNat % 4 = 0 ∧ rest = bytes) := by
  simp only [decodeCompact] at h
  split at h
  · rename_i hmode
    rw [Option.some.injEq, Prod.mk.injEq] at h
    obtain ⟨rfl, rfl⟩ := h
    exact ⟨Nat.le_refl _, fun _ => ⟨rfl, hmode, rfl⟩⟩
  · have hlen := length_of_compactOfWidth h
    rw [List.length_cons] at hlen
    exact ⟨by omega, fun _ => by omega⟩
  · have hlen := length_of_compactOfWidth h
    rw [List.length_cons] at hlen
    exact ⟨by omega, fun _ => by omega⟩
  · simp only [Option.bind_eq_bind, Option.bind_eq_some_iff, Option.guard_eq_some',
      Option.pure_def, Option.some.injEq, Prod.mk.injEq] at h
    obtain ⟨-, -, ⟨encoded, rest'⟩, htake, -, -, -, rfl⟩ := h
    obtain ⟨hle, -, hrest⟩ := takeBytes_eq_some htake
    rw [hrest, List.length_drop]
    exact ⟨by omega, fun _ => by omega⟩

/-- A child with a single-byte length. -/
theorem decodeChild_single {first : UInt8} {bytes : List UInt8} (hmode : first.toNat % 4 = 0)
    (hlen : first.toNat / 4 ≤ bytes.length) :
    decodeChild (first :: bytes) =
      some (bytes.take (first.toNat / 4), bytes.drop (first.toNat / 4)) := by
  simp only [decodeChild, decodeCompact, hmode, Option.bind_eq_bind, Option.bind_some]
  exact takeBytes_of_le hlen

/-- A child takes at least a byte, and only the empty one, a zero, takes no more. -/
theorem length_of_decodeChild {first : UInt8} {bytes child rest : List UInt8}
    (h : decodeChild (first :: bytes) = some (child, rest)) :
    rest.length ≤ bytes.length ∧ (rest.length = bytes.length → first = 0 ∧ rest = bytes) := by
  unfold decodeChild at h
  simp only [Option.bind_eq_bind, Option.bind_eq_some_iff] at h
  obtain ⟨⟨n, rest'⟩, hcompact, htake⟩ := h
  obtain ⟨hle, -, hrest⟩ := takeBytes_eq_some htake
  obtain ⟨hcompactLen, hsingle⟩ := length_of_decodeCompact hcompact
  have hlen := congrArg List.length hrest
  rw [List.length_drop] at hlen
  simp only at hle hlen
  refine ⟨by omega, fun heq => ?_⟩
  obtain ⟨hn, hmode, hbytes⟩ := hsingle (by omega)
  have hzero : first.toNat = 0 := by omega
  refine ⟨UInt8.toNat_inj.mp hzero, ?_⟩
  have hn0 : n = 0 := by omega
  rw [hrest, hn0, List.drop_zero, hbytes]

/-- Children take at least a byte each, and no more only if all of them are empty. -/
theorem length_of_decodeChildren {bits : List Bool} {bytes rest : List UInt8}
    {children : List (Option (List UInt8))}
    (h : decodeChildren bits bytes = some (children, rest)) :
    rest.length + bits.count true ≤ bytes.length ∧
      (rest.length + bits.count true = bytes.length →
        ∀ i, i < bits.count true → bytes.getD i 0 = 0) := by
  induction bits generalizing bytes children with
  | nil =>
      simp only [decodeChildren, Option.some.injEq, Prod.mk.injEq] at h
      obtain ⟨-, rfl⟩ := h
      simp
  | cons bit bits ih =>
      cases bit with
      | false =>
          simp only [decodeChildren, Option.bind_eq_bind, Option.bind_eq_some_iff, Option.pure_def,
            Option.some.injEq, Prod.mk.injEq] at h
          obtain ⟨⟨rest', _⟩, hrest, -, rfl⟩ := h
          simpa using ih hrest
      | true =>
          simp only [decodeChildren, Option.bind_eq_bind, Option.bind_eq_some_iff, Option.pure_def,
            Option.some.injEq, Prod.mk.injEq] at h
          obtain ⟨⟨child, middle⟩, hchild, ⟨rest', _⟩, hrest, -, rfl⟩ := h
          obtain ⟨hlen, hzero⟩ := ih hrest
          rw [List.count_cons_self]
          cases bytes with
          | nil => cases hchild
          | cons first bytes =>
              obtain ⟨hle, hempty⟩ := length_of_decodeChild hchild
              rw [List.length_cons]
              simp only at hle hlen hzero hempty ⊢
              refine ⟨by omega, fun heq i hi => ?_⟩
              obtain ⟨hfirst, hmiddle⟩ := hempty (by omega)
              cases i with
              | zero => exact hfirst
              | succ i =>
                  rw [List.getD_cons_succ, ← hmiddle]
                  exact hzero (by omega) i (by omega)

/-! ## the positions of the children -/

/-- Where the `k`-th child starts when every length before it is a single byte; nothing
but zeros stands after the bytes. -/
def childPosition (bytes : List UInt8) (start : Nat) : Nat → Nat
  | 0 => start
  | k + 1 => childPosition bytes start k + 1 +
      (bytes.getD (childPosition bytes start k) 0).toNat / 4

theorem childPosition_succ (bytes : List UInt8) (start k : Nat) :
    childPosition bytes start (k + 1) = childPosition bytes start k + 1 +
      (bytes.getD (childPosition bytes start k) 0).toNat / 4 := rfl

theorem childPosition_add_le (bytes : List UInt8) (start k n : Nat) :
    childPosition bytes start k + n ≤ childPosition bytes start (k + n) := by
  induction n with
  | zero => exact Nat.le_refl _
  | succ n ih =>
      have hsucc := childPosition_succ bytes start (k + n)
      rw [← Nat.add_assoc k n 1]
      omega

/-- Bytes that agree at the positions have the same positions. -/
theorem childPosition_congr {bytes other : List UInt8} {start k : Nat}
    (h : ∀ j < k, other.getD (childPosition bytes start j) 0 =
      bytes.getD (childPosition bytes start j) 0) :
    childPosition other start k = childPosition bytes start k := by
  induction k with
  | zero => rfl
  | succ k ih =>
      have hk := ih fun j hj => h j (Nat.lt_succ_of_lt hj)
      rw [childPosition_succ, childPosition_succ, hk, h k (Nat.lt_succ_self k)]

/-- The `k`-th child. -/
def childAt (bytes : List UInt8) (start k : Nat) : List UInt8 :=
  (bytes.drop (childPosition bytes start k + 1)).take
    ((bytes.getD (childPosition bytes start k) 0).toNat / 4)

/-- One child at its position. -/
theorem decodeChild_at {bytes : List UInt8} {start k : Nat}
    (hmode : (bytes.getD (childPosition bytes start k) 0).toNat % 4 = 0)
    (hlen : childPosition bytes start (k + 1) ≤ bytes.length) :
    decodeChild (bytes.drop (childPosition bytes start k)) =
      some (childAt bytes start k, bytes.drop (childPosition bytes start (k + 1))) := by
  rw [childPosition_succ] at hlen
  rw [drop_eq_cons_getD (by omega), decodeChild_single hmode (by rw [List.length_drop]; omega),
    List.drop_drop, childPosition_succ, childAt]

/-- **The walk decodes the children** when every length it meets is a single byte and it
stays inside the bytes. -/
theorem decodeChildren_of_positions {bytes : List UInt8} {start : Nat} (bits : List Bool)
    {k : Nat} (hmode : ∀ j, k ≤ j → j < k + bits.count true →
      (bytes.getD (childPosition bytes start j) 0).toNat % 4 = 0)
    (hlen : childPosition bytes start (k + bits.count true) ≤ bytes.length) :
    ∃ children, decodeChildren bits (bytes.drop (childPosition bytes start k)) =
        some (children, bytes.drop (childPosition bytes start (k + bits.count true))) ∧
      ∀ c, bits[c]? = some true →
        children[c]? = some (some (childAt bytes start (k + (bits.take c).count true))) := by
  induction bits generalizing k with
  | nil => exact ⟨[], rfl, by simp⟩
  | cons bit bits ih =>
      cases bit with
      | false =>
          rw [List.count_cons_of_ne (by decide)] at hmode hlen ⊢
          obtain ⟨children, hchildren, hat⟩ := ih hmode hlen
          refine ⟨none :: children, by rw [decodeChildren, hchildren]; rfl, ?_⟩
          intro c hc
          cases c with
          | zero => cases hc
          | succ c =>
              rw [List.take_succ_cons, List.count_cons_of_ne (by decide)]
              exact hat c hc
      | true =>
          have hcount : k + (true :: bits).count true = k + 1 + bits.count true := by
            rw [List.count_cons_self]
            omega
          rw [hcount] at hmode hlen ⊢
          have hfirst := childPosition_add_le bytes start (k + 1) (bits.count true)
          obtain ⟨children, hchildren, hat⟩ := ih (fun j hj => hmode j (by omega)) hlen
          refine ⟨some (childAt bytes start k) :: children, ?_, ?_⟩
          · rw [decodeChildren, decodeChild_at (hmode k (Nat.le_refl k) (by omega)) (by omega)]
            simp only [Option.bind_eq_bind, Option.bind_some, hchildren, Option.pure_def]
          · intro c hc
            cases c with
            | zero => rfl
            | succ c =>
                have hshift : k + ((true :: bits).take (c + 1)).count true =
                    k + 1 + (bits.take c).count true := by
                  rw [List.take_succ_cons, List.count_cons_self]
                  omega
                rw [hshift]
                exact hat c hc

/-- A child of fewer than 64 bytes has a single-byte length. -/
theorem decodeChild_small {first : UInt8} {bytes child rest : List UInt8}
    (h : decodeChild (first :: bytes) = some (child, rest)) (hchild : child.length < 64) :
    first.toNat % 4 = 0 ∧ first.toNat / 4 = child.length ∧ first.toNat / 4 ≤ bytes.length ∧
      rest = bytes.drop (first.toNat / 4) := by
  unfold decodeChild at h
  simp only [Option.bind_eq_bind, Option.bind_eq_some_iff, Prod.exists] at h
  obtain ⟨n, rest', hcompact, htake⟩ := h
  obtain ⟨hle, rfl, rfl⟩ := takeBytes_eq_some htake
  rw [List.length_take, Nat.min_eq_left hle] at hchild ⊢
  obtain ⟨hmode, rfl, rfl⟩ := decodeCompact_small hcompact hchild
  exact ⟨hmode, rfl, hle, rfl⟩

/-- **The decoder walks the positions** when all children are short. -/
theorem walk_of_decodeChildren {bytes : List UInt8} {start bound : Nat} (hbound : bound < 64)
    (bits : List Bool) {k : Nat} {children : List (Option (List UInt8))} {rest : List UInt8}
    (hk : childPosition bytes start k ≤ bytes.length)
    (hchildren : ∀ child, some child ∈ children → child.length ≤ bound)
    (h : decodeChildren bits (bytes.drop (childPosition bytes start k)) = some (children, rest)) :
    (∀ j, k ≤ j → j < k + bits.count true →
      (bytes.getD (childPosition bytes start j) 0).toNat % 4 = 0 ∧
      (bytes.getD (childPosition bytes start j) 0).toNat / 4 ≤ bound) ∧
    childPosition bytes start (k + bits.count true) ≤ bytes.length ∧
    rest = bytes.drop (childPosition bytes start (k + bits.count true)) ∧
    ∀ (c : Nat) (child : List UInt8), children[c]? = some (some child) → bits[c]? = some true := by
  induction bits generalizing k children with
  | nil =>
      simp only [decodeChildren, Option.some.injEq, Prod.mk.injEq] at h
      obtain ⟨rfl, rfl⟩ := h
      rw [List.count_nil]
      refine ⟨fun j hkj hj => ?_, hk, rfl, fun c child hc => ?_⟩
      · omega
      · rw [List.getElem?_nil] at hc
        cases hc
  | cons bit bits ih =>
      cases bit with
      | false =>
          simp only [decodeChildren, Option.bind_eq_bind, Option.bind_eq_some_iff, Option.pure_def,
            Option.some.injEq, Prod.mk.injEq, Prod.exists] at h
          obtain ⟨others, _, hrest, rfl, rfl⟩ := h
          rw [List.count_cons_of_ne (by decide)]
          obtain ⟨hmode, hlen, hrest, hbits⟩ :=
            ih hk (fun child hmem => hchildren child (List.mem_cons_of_mem _ hmem)) hrest
          refine ⟨hmode, hlen, hrest, fun c child hc => ?_⟩
          cases c with
          | zero => cases hc
          | succ c => exact hbits c child hc
      | true =>
          simp only [decodeChildren, Option.bind_eq_bind, Option.bind_eq_some_iff, Option.pure_def,
            Option.some.injEq, Prod.mk.injEq, Prod.exists] at h
          obtain ⟨child, middle, hchild, others, _, hrest, rfl, rfl⟩ := h
          have hin : childPosition bytes start k < bytes.length := by
            by_contra hout
            rw [List.drop_of_length_le (by omega)] at hchild
            cases hchild
          rw [drop_eq_cons_getD hin] at hchild
          have hshort := hchildren child List.mem_cons_self
          obtain ⟨hmode, hsize, hle, rfl⟩ := decodeChild_small hchild (by omega)
          rw [List.length_drop] at hle
          rw [List.drop_drop, ← childPosition_succ] at hrest
          have hnext : childPosition bytes start (k + 1) ≤ bytes.length := by
            rw [childPosition_succ]
            omega
          have hcount : k + (true :: bits).count true = k + 1 + bits.count true := by
            rw [List.count_cons_self]
            omega
          obtain ⟨hmodes, hlen, hrest, hbits⟩ :=
            ih hnext (fun child hmem => hchildren child (List.mem_cons_of_mem _ hmem)) hrest
          rw [hcount]
          refine ⟨fun j hkj hj => ?_, hlen, hrest, fun c child hc => ?_⟩
          · by_cases hjk : j = k
            · rw [hjk]
              exact ⟨hmode, by omega⟩
            · exact hmodes j (by omega) hj
          · cases c with
            | zero => rfl
            | succ c => exact hbits c child hc

/-- Short children keep the positions close together. -/
theorem childPosition_le {bytes : List UInt8} {start bound n : Nat}
    (h : ∀ j < n, (bytes.getD (childPosition bytes start j) 0).toNat / 4 ≤ bound) :
    childPosition bytes start n ≤ start + n * (bound + 1) := by
  induction n with
  | zero =>
      rw [Nat.zero_mul]
      exact Nat.le_refl _
  | succ n ih =>
      have hprevious := ih fun j hj => h j (Nat.lt_succ_of_lt hj)
      have hlast := h n (Nat.lt_succ_self n)
      rw [childPosition_succ, Nat.succ_mul]
      omega

/-! ## reading a front of the bytes -/

section

variable {bytes front : List UInt8}

/-- `front` is what a reader has of `bytes`: the same bytes as far as it goes. -/
def AgreesWithin (front bytes : List UInt8) : Prop :=
  ∀ i < front.length, i < bytes.length → front.getD i 0 = bytes.getD i 0

/-- Past the end the reader meets zeros, so that all children there are empty. -/
theorem childPosition_past {start k : Nat} (h : front.length ≤ childPosition front start k)
    (n : Nat) : childPosition front start (k + n) = childPosition front start k + n := by
  induction n with
  | zero => rfl
  | succ n ih =>
      rw [← Nat.add_assoc, childPosition_succ, ih, List.getD_eq_default _ _ (by omega),
        UInt8.toNat_zero, Nat.zero_div]
      omega

/-- **What the decoder accepts the walk has read**: if the walk over the front counts the
children and ends where the bytes end, and the bytes decode, every length the walk met
is the one in the bytes. -/
theorem positions_of_decodeChildren (hagree : AgreesWithin front bytes) {start : Nat}
    (bits : List Bool) {k : Nat} {children : List (Option (List UInt8))}
    (hmode : ∀ j, k ≤ j → j < k + bits.count true →
      (front.getD (childPosition front start j) 0).toNat % 4 = 0)
    (hlen : childPosition front start (k + bits.count true) = bytes.length)
    (h : decodeChildren bits (bytes.drop (childPosition front start k)) = some (children, [])) :
    ∀ j, k ≤ j → j < k + bits.count true →
      bytes.getD (childPosition front start j) 0 = front.getD (childPosition front start j) 0 := by
  induction bits generalizing k children with
  | nil =>
      intro j hkj hj
      rw [List.count_nil] at hj
      omega
  | cons bit bits ih =>
      cases bit with
      | false =>
          rw [List.count_cons_of_ne (by decide)] at hmode hlen ⊢
          simp only [decodeChildren, Option.bind_eq_bind, Option.bind_eq_some_iff, Option.pure_def,
            Option.some.injEq, Prod.mk.injEq] at h
          obtain ⟨⟨_, _⟩, hrest, -, rfl⟩ := h
          exact ih hmode hlen hrest
      | true =>
          by_cases hin : childPosition front start k < front.length
          · have hcount : k + (true :: bits).count true = k + 1 + bits.count true := by
              rw [List.count_cons_self]
              omega
            rw [hcount] at hmode hlen ⊢
            have hnext := childPosition_add_le front start (k + 1) (bits.count true)
            have hsucc := childPosition_succ front start k
            have heq := hagree _ hin (by omega)
            -- here the walk and the decoder take the same child
            have hinBytes : childPosition front start k < bytes.length := by omega
            have hchild : decodeChild (bytes.drop (childPosition front start k)) =
                some ((bytes.drop (childPosition front start k + 1)).take
                  ((front.getD (childPosition front start k) 0).toNat / 4),
                  bytes.drop (childPosition front start (k + 1))) := by
              rw [drop_eq_cons_getD hinBytes, ← heq, decodeChild_single (hmode k (Nat.le_refl k) (by omega))
                (by rw [List.length_drop]; omega), List.drop_drop, hsucc]
            rw [decodeChildren, hchild] at h
            simp only [Option.bind_eq_bind, Option.bind_some, Option.bind_eq_some_iff,
              Option.pure_def, Option.some.injEq, Prod.mk.injEq] at h
            obtain ⟨⟨_, _⟩, hrest, -, rfl⟩ := h
            intro j hkj hj
            by_cases hjk : j = k
            · rw [hjk, heq]
            · exact ih (fun j hj => hmode j (by omega)) hlen hrest j (by omega) hj
          · -- from here on the walk meets zeros only: a byte for each child is all there is
            rw [childPosition_past (by omega)] at hlen
            have hzero := (length_of_decodeChildren h).2 (by
              rw [List.length_nil, List.length_drop]
              omega)
            intro j hkj hj
            obtain ⟨i, rfl⟩ := Nat.exists_eq_add_of_le hkj
            have hi := hzero i (by omega)
            rw [List.getD_eq_getElem?_getD, List.getElem?_drop, ← List.getD_eq_getElem?_getD] at hi
            rw [childPosition_past (by omega), hi, List.getD_eq_default _ _ (by omega)]

/-- The walks over the front and over the bytes meet the same lengths when every length
past the front is zero. -/
theorem lengths_agree_iff (hagree : AgreesWithin front bytes) {start n : Nat}
    (hlen : childPosition front start n ≤ bytes.length) :
    (∀ j < n, bytes.getD (childPosition front start j) 0 =
        front.getD (childPosition front start j) 0) ↔
      ∀ j < n, front.length ≤ childPosition bytes start j →
        bytes.getD (childPosition bytes start j) 0 = 0 := by
  constructor
  · intro h j hj hpast
    have heq : childPosition bytes start j = childPosition front start j :=
      childPosition_congr fun i hi => h i (by omega)
    rw [heq] at hpast ⊢
    rw [h j hj, List.getD_eq_default _ _ hpast]
  · intro h j
    induction j using Nat.strongRecOn with
    | ind j ih =>
        intro hj
        have heq : childPosition bytes start j = childPosition front start j :=
          childPosition_congr fun i hi => ih i hi (by omega)
        by_cases hin : childPosition front start j < front.length
        · have hle := childPosition_add_le front start j (n - j)
          rw [Nat.add_sub_cancel' (Nat.le_of_lt hj)] at hle
          exact (hagree _ hin (by omega)).symm
        · have hzero := h j hj (by rw [heq]; omega)
          rw [heq] at hzero
          rw [hzero, List.getD_eq_default _ _ (by omega)]

end

end SubstrateTrie
