import GearBridges.EthereumCommon.Bits
import GearBridges.Lib.Ssz

/-!
# EthereumCommon.TreeHash

The `TreeHash` implementations of the base types: lists, arrays, byte strings and bitfields of
any size.  The crate `tree_hash` is a parameter, with its hasher, its `mix_in_length`, its derive
macro and its implementations for integers and `H256`; `Prescribed` says that these follow SSZ.
Under it every one of the base types computes the SSZ root of its values (`Merkleizes`).
-/

namespace GearBridges.EthereumCommon

open BitBytes Digits Ssz

/-! ## the crate -/

abbrev H256 := Chunk

/-- `as_bytes`. -/
def H256.asBytes (self : H256) : List UInt8 := self.1

inductive TreeHashType where
  | basic
  | container
  | list
  | vector
deriving DecidableEq

/-- What is used of the crate `tree_hash`.  `merkleHasher leaves writes` is
`MerkleHasher::with_leaves(leaves)`, a `write` of each element and `finish`; `none` is an error
of one of these. -/
structure TreeHashCrate where
  merkleHasher (leaves : Nat) (writes : List (List UInt8)) : Option H256
  mixInLength (root : H256) (length : Nat) : H256
  containerRoot (fieldRoots : List H256) : H256
  uintPackedEncoding (size value : Nat) : List UInt8
  uintPackingFactor (size : Nat) : Nat
  uintRoot (size value : Nat) : H256
  h256Root (value : H256) : H256

/-- The crate follows SSZ: the hasher merkleizes the chunks of what is written, as long as they
fit, and a derived root merkleizes the roots of the fields.  A chunk holds `32 / size` integers
of a size. -/
class Prescribed (hash : Chunk → Chunk → Chunk) (c : TreeHashCrate) : Prop where
  merkleHasher : ∀ leaves writes, writes.flatten.length ≤ 32 * leaves →
    c.merkleHasher leaves writes = some (merkleize hash (toChunks writes.flatten) leaves)
  mixInLength : ∀ root length, c.mixInLength root length = Ssz.mixInLength hash root length
  containerRoot : ∀ roots, c.containerRoot roots = merkleize hash roots roots.length
  uintPackedEncoding : ∀ size value, c.uintPackedEncoding size value = toBytesLE size value
  uintPackingFactor : ∀ size, c.uintPackingFactor size = 32 / size
  uintRoot : ∀ size value, c.uintRoot size value = .ofBytes (toBytesLE size value)
  h256Root : ∀ value, c.h256Root value = value

/-- The trait `TreeHash`; `none` is a panic. -/
class TreeHash (c : TreeHashCrate) (T : Type) where
  treeHashType : TreeHashType
  treeHashPackedEncoding : T → Option (List UInt8)
  treeHashPackingFactor : Option Nat
  treeHashRoot : T → Option H256

open TreeHash

variable (c : TreeHashCrate) {T : Type} {N : Nat}

/-- The implementation for an integer type of `size` bytes. -/
@[reducible] def TreeHash.ofUint (size : Nat) (toNat : T → Nat) : TreeHash c T where
  treeHashType := .basic
  treeHashPackedEncoding value := some (c.uintPackedEncoding size (toNat value))
  treeHashPackingFactor := some (c.uintPackingFactor size)
  treeHashRoot value := some (c.uintRoot size (toNat value))

instance : TreeHash c UInt8 := .ofUint c 1 UInt8.toNat

instance : TreeHash c UInt64 := .ofUint c 8 UInt64.toNat

abbrev U256 := BitVec 256

instance : TreeHash c U256 := .ofUint c 32 BitVec.toNat

instance : TreeHash c H256 where
  treeHashType := .vector
  treeHashPackedEncoding value := some value.1
  treeHashPackingFactor := some 1
  treeHashRoot value := some (c.h256Root value)

/-! ## the helpers -/

def bytesPerChunk : Nat := 32

/-- `usize::div_ceil`. -/
def divCeil (n d : Nat) : Nat := (n + d - 1) / d

/-- `vec_tree_hash_root`. -/
def vecTreeHashRoot [TreeHash c T] (N : Nat) (vec : List T) : Option H256 :=
  match treeHashType c T with
  | .basic => do
      let factor ← treeHashPackingFactor c T
      let writes ← vec.mapM (treeHashPackedEncoding c)
      c.merkleHasher (divCeil N factor) writes
  | .container | .list | .vector => do
      let writes ← vec.mapM fun item => (treeHashRoot c item).map H256.asBytes
      c.merkleHasher N writes

/-- `bitfield_bytes_tree_hash_root`. -/
def bitfieldBytesTreeHashRoot (N : Nat) (bytes : List UInt8) : Option H256 :=
  let byteSize := (N + 7) / 8
  let leafCount := divCeil byteSize bytesPerChunk
  c.merkleHasher leafCount [bytes]

/-! ## the base types -/

/-- `base_types::List`. -/
structure BaseList (T : Type) (N : Nat) where
  data : List T
  length_le : data.length ≤ N

/-- `base_types::FixedArray`. -/
structure FixedArray (T : Type) (N : Nat) where
  data : List T
  length_eq : data.length = N

/-- `base_types::ByteList`. -/
structure ByteList (N : Nat) where
  list : BaseList UInt8 N

/-- `base_types::BytesFixed`. -/
structure BytesFixed (N : Nat) where
  array : FixedArray UInt8 N

/-- `as_raw_slice`: the bytes with all their bits. -/
def Inner.asRawSlice (self : Inner) : List UInt8 := pack (self.bits ++ self.dead)

instance [TreeHash c T] : TreeHash c (BaseList T N) where
  treeHashType := .list
  treeHashPackedEncoding _ := none
  treeHashPackingFactor := none
  treeHashRoot self :=
    (vecTreeHashRoot c N self.data).map fun root => c.mixInLength root self.data.length

instance [TreeHash c T] : TreeHash c (FixedArray T N) where
  treeHashType := .vector
  treeHashPackedEncoding _ := none
  treeHashPackingFactor := none
  treeHashRoot self := vecTreeHashRoot c N self.data

instance : TreeHash c (ByteList N) where
  treeHashType := treeHashType c (BaseList UInt8 N)
  treeHashPackedEncoding self := treeHashPackedEncoding c self.list
  treeHashPackingFactor := treeHashPackingFactor c (BaseList UInt8 N)
  treeHashRoot self := treeHashRoot c self.list

instance : TreeHash c (BytesFixed N) where
  treeHashType := treeHashType c (FixedArray UInt8 N)
  treeHashPackedEncoding self := treeHashPackedEncoding c self.array
  treeHashPackingFactor := treeHashPackingFactor c (FixedArray UInt8 N)
  treeHashRoot self := treeHashRoot c self.array

instance : TreeHash c (Bitvector N) where
  treeHashType := .vector
  treeHashPackedEncoding _ := none
  treeHashPackingFactor := none
  treeHashRoot self := bitfieldBytesTreeHashRoot c N self.asBytes

instance : TreeHash c (Bitlist N) where
  treeHashType := .list
  treeHashPackedEncoding _ := none
  treeHashPackingFactor := none
  treeHashRoot self :=
    (bitfieldBytesTreeHashRoot c N self.inner.asRawSlice).map fun root =>
      c.mixInLength root self.inner.bits.length

/-- A field of a struct. -/
structure AnyField where
  T : Type
  [treeHash : TreeHash c T]
  value : T

variable {c}

def AnyField.of [TreeHash c T] (value : T) : AnyField c := ⟨T, value⟩

def AnyField.root (field : AnyField c) : Option H256 :=
  have := field.treeHash
  treeHashRoot c field.value

variable (c)

/-- A struct with `#[derive(TreeHash)]`: its fields, in their order. -/
class DeriveTreeHash (T : Type) where
  fields : T → List (AnyField c)

open DeriveTreeHash

instance [DeriveTreeHash c T] : TreeHash c T where
  treeHashType := .container
  treeHashPackedEncoding _ := none
  treeHashPackingFactor := none
  treeHashRoot self := ((fields self).mapM (AnyField.root (c := c))).map c.containerRoot

/-! ## the SSZ types of the base types -/

/-- What the values of a type are in SSZ. -/
class SszType (T : Type) where
  ty : Ty
  val : T → ty.Val

open SszType

@[reducible] def SszType.ofUint (size : Nat) (toNat : T → Nat)
    (hlt : ∀ value, toNat value < 256 ^ size) : SszType T :=
  ⟨.uint size, fun value => ⟨toNat value, hlt value⟩⟩

instance : SszType UInt8 := .ofUint 1 UInt8.toNat UInt8.toNat_lt

instance : SszType UInt64 := .ofUint 8 UInt64.toNat UInt64.toNat_lt

instance : SszType U256 := .ofUint 32 BitVec.toNat BitVec.isLt

instance [SszType T] : SszType (BaseList T N) :=
  ⟨.list (ty T) N, fun self => ⟨self.data.map val, by simpa using self.length_le⟩⟩

instance [SszType T] : SszType (FixedArray T N) :=
  ⟨.vector (ty T) N, fun self => ⟨self.data.map val, by simpa using self.length_eq⟩⟩

instance : SszType (ByteList N) := ⟨.list (.uint 1) N, fun self => val self.list⟩

instance : SszType (BytesFixed N) := ⟨.vector (.uint 1) N, fun self => val self.array⟩

instance : SszType (Bitvector N) := ⟨.bitvector N, fun self => ⟨self.inner.bits, self.length_eq⟩⟩

instance : SszType (Bitlist N) := ⟨.bitlist N, fun self => ⟨self.inner.bits, self.length_le⟩⟩

/-- An `H256` is a vector of 32 bytes. -/
instance : SszType H256 :=
  ⟨.vector (.uint 1) 32, fun self => ⟨self.1.map val, by simpa using self.2⟩⟩

/-! ## roots of the base types -/

variable (hash : Chunk → Chunk → Chunk)

/-- The roots of a type are those of SSZ, and basic types, and no others, are packed as in SSZ. -/
class Merkleizes (T : Type) [TreeHash c T] [SszType T] : Prop where
  root_eq : ∀ value : T, treeHashRoot c value = some (hashTreeRoot hash (ty T) (val value))
  basic : ∀ size, (ty T).size? = some size → size ∣ 32 ∧ treeHashType c T = .basic ∧
    treeHashPackingFactor c T = some (32 / size) ∧
    ∀ value : T, treeHashPackedEncoding c value = some (serialize (ty T) (val value))
  composite : (ty T).size? = none → treeHashType c T ≠ .basic

open Merkleizes

variable {c} [prescribed : Prescribed hash c]

theorem mapM_eq_some_map {α β : Type} {f : α → Option β} {g : α → β} (h : ∀ a, f a = some (g a))
    (l : List α) : l.mapM f = some (l.map g) := by
  induction l with
  | nil => rfl
  | cons a l ih => simp [List.mapM_cons, h, ih]

/-- As many chunks are made room for as SSZ prescribes for packed elements. -/
theorem divCeil_packing {size : Nat} (hdvd : size ∣ 32) (n : Nat) :
    divCeil n (32 / size) = (n * size + 31) / 32 := by
  obtain ⟨k, hk⟩ := hdvd
  obtain ⟨j, rfl⟩ : ∃ j, k = j + 1 := Nat.exists_eq_succ_of_ne_zero (by rintro rfl; omega)
  have hpos : 0 < size := Nat.pos_of_ne_zero (by rintro rfl; omega)
  have hsize : size * j + size = 32 := by rw [hk, Nat.mul_succ]
  rw [hk, Nat.mul_div_cancel_left _ hpos, divCeil, ← Nat.div_div_eq_div_mul]
  congr 1
  symm
  apply Nat.div_eq_of_lt_le
  · rw [show n + (j + 1) - 1 = n + j by omega, Nat.add_mul, Nat.mul_comm j]
    omega
  · rw [show n + (j + 1) - 1 + 1 = n + j + 1 by omega, Nat.succ_mul, Nat.add_mul, Nat.mul_comm j]
    omega

/-- **Elements**: with room for them, `vec_tree_hash_root` is the SSZ root of the elements. -/
theorem vecTreeHashRoot_eq [TreeHash c T] [SszType T] [merkleizes : Merkleizes c hash T]
    {vec : List T} (h : vec.length ≤ N) : vecTreeHashRoot c N vec =
      some (merkleize hash (leaves (ty T) (hashTreeRoot hash (ty T)) (vec.map val))
        (chunkCount (ty T) N)) := by
  cases hsize : (ty T).size? with
  | some size =>
      obtain ⟨hdvd, htype, hfactor, hpacked⟩ := merkleizes.basic size hsize
      let writes := vec.map fun item => serialize (ty T) (val item)
      have hwrites : vec.mapM (treeHashPackedEncoding c) = some writes :=
        mapM_eq_some_map hpacked vec
      have hlength : writes.flatten.length = vec.length * size := by
        rw [length_flatten_of_length, List.length_map]
        intro bytes hbytes
        obtain ⟨item, -, rfl⟩ := List.mem_map.mp hbytes
        exact length_serialize hsize (val item)
      simp only [vecTreeHashRoot, htype, hfactor, hwrites, Option.bind_eq_bind, Option.bind_some]
      rw [divCeil_packing hdvd, prescribed.merkleHasher]
      · simp only [leaves, chunkCount, hsize, List.flatMap_def, List.map_map]
        rfl
      · rw [hlength]
        have := Nat.mul_le_mul_right size h
        omega
  | none =>
      let roots := vec.map fun item => hashTreeRoot hash (ty T) (val item)
      have hwrites : (vec.mapM fun item => (treeHashRoot c item).map H256.asBytes) =
          some (roots.map (·.1)) := by
        rw [List.map_map]
        refine mapM_eq_some_map ?_ vec
        intro item
        rw [merkleizes.root_eq]
        rfl
      have hroot : vecTreeHashRoot c N vec = c.merkleHasher N (roots.map (·.1)) := by
        unfold vecTreeHashRoot
        cases hT : treeHashType c T with
        | basic => exact absurd hT (merkleizes.composite hsize)
        | _ => simp only [hwrites, Option.bind_eq_bind, Option.bind_some]
      rw [hroot, prescribed.merkleHasher, toChunks_flatten]
      · simp only [leaves, chunkCount, hsize, List.map_map]
        rfl
      · rw [length_flatten_of_length (k := 32) (by simp +contextual), List.length_map,
          List.length_map, Nat.mul_comm]
        exact Nat.mul_le_mul_left 32 h

/-- **Bitfields**: the root of packed bits is that of SSZ. -/
theorem bitfieldBytesTreeHashRoot_eq {bits : List Bool} (h : bits.length ≤ N) :
    bitfieldBytesTreeHashRoot c N (encode bits) =
      some (merkleize hash (toChunks (encode bits)) ((N + 255) / 256)) := by
  have hcount : divCeil ((N + 7) / 8) bytesPerChunk = (N + 255) / 256 := by
    simp only [divCeil, bytesPerChunk]
    omega
  have hlength : (encode bits).length = (bits.length + 7) / 8 := by
    rw [encode_eq_pack, length_pack]
  rw [bitfieldBytesTreeHashRoot, hcount, prescribed.merkleHasher]
  · simp
  · simp only [List.flatten_cons, List.flatten_nil, List.append_nil, hlength]
    omega

/-- The bytes of a bit vector pack its bits exactly if there is no stray bit behind them. -/
theorem Inner.asRawSlice_eq_iff (inner : Inner) :
    inner.asRawSlice = encode inner.bits ↔ inner.Clean := by
  have hpadding : padding (inner.bits ++ inner.dead).length = 0 := by
    rw [List.length_append, inner.length_dead]
    simp only [padding]
    omega
  rw [asRawSlice, encode_eq_pack, eq_pack_iff, unpack_pack, hpadding, List.replicate_zero,
    List.append_nil, List.append_cancel_left_eq, List.eq_replicate_iff]
  exact and_iff_right inner.length_dead

/-! ## the implementations -/

theorem merkleizes_ofUint {size : Nat} (hdvd : size ∣ 32) (toNat : T → Nat)
    (hlt : ∀ value, toNat value < 256 ^ size) :
    @Merkleizes c hash T (.ofUint c size toNat) (.ofUint size toNat hlt) := by
  refine @Merkleizes.mk c hash T (.ofUint c size toNat) (.ofUint size toNat hlt) ?_ ?_ ?_
  · intro value
    exact congrArg some (prescribed.uintRoot size (toNat value))
  · intro size' h
    cases h
    refine ⟨hdvd, rfl, congrArg some (prescribed.uintPackingFactor size), ?_⟩
    intro value
    exact congrArg some (prescribed.uintPackedEncoding size (toNat value))
  · intro h
    contradiction

instance : Merkleizes c hash UInt8 := merkleizes_ofUint hash (by decide) _ _

instance : Merkleizes c hash UInt64 := merkleizes_ofUint hash (by decide) _ _

instance : Merkleizes c hash U256 := merkleizes_ofUint hash (by decide) _ _

/-- The SSZ encoding of bytes is these bytes. -/
theorem flatMap_serialize_bytes (bytes : List UInt8) :
    (bytes.map val).flatMap (serialize (ty UInt8)) = bytes := by
  induction bytes with
  | nil => rfl
  | cons byte bytes ih =>
      have hbyte : serialize (ty UInt8) (val byte) = [byte] := by
        show [UInt8.ofNat (byte.toNat % 256)] = [byte]
        rw [Nat.mod_eq_of_lt byte.toNat_lt, UInt8.ofNat_toNat]
      rw [List.map_cons, List.flatMap_cons, ih, hbyte, List.singleton_append]

instance : Merkleizes c hash H256 where
  root_eq value := by
    have hroot : hashTreeRoot hash (ty H256) (val value) = value := by
      show merkleize hash (toChunks ((value.1.map val).flatMap (serialize (ty UInt8)))) 1 = value
      rw [flatMap_serialize_bytes, toChunks_of_length value.2, merkleize_singleton]
    rw [hroot]
    exact congrArg some (prescribed.h256Root value)
  basic size h := by contradiction
  composite _ := by simp [treeHashType]

instance [TreeHash c T] [SszType T] [Merkleizes c hash T] : Merkleizes c hash (BaseList T N) where
  root_eq self := by
    have hlength : (self.data.map val).length = self.data.length := List.length_map _
    show (vecTreeHashRoot c N self.data).map _ =
      some (Ssz.mixInLength hash _ (self.data.map val).length)
    rw [vecTreeHashRoot_eq hash self.length_le, Option.map_some, prescribed.mixInLength, hlength]
    rfl
  basic size h := by contradiction
  composite _ := by simp [treeHashType]

instance [TreeHash c T] [SszType T] [Merkleizes c hash T] : Merkleizes c hash (FixedArray T N) where
  root_eq self := vecTreeHashRoot_eq hash (Nat.le_of_eq self.length_eq)
  basic size h := by contradiction
  composite _ := by simp [treeHashType]

instance : Merkleizes c hash (ByteList N) where
  root_eq self := Merkleizes.root_eq self.list
  basic size h := by contradiction
  composite _ := by simp [treeHashType]

instance : Merkleizes c hash (BytesFixed N) where
  root_eq self := Merkleizes.root_eq self.array
  basic size h := by contradiction
  composite _ := by simp [treeHashType]

instance : Merkleizes c hash (Bitvector N) where
  root_eq self := by
    have hbytes : self.asBytes = encode self.inner.bits := (encode_eq_pack _).symm
    show bitfieldBytesTreeHashRoot c N self.asBytes = _
    rw [hbytes]
    exact bitfieldBytesTreeHashRoot_eq hash (Nat.le_of_eq self.length_eq)
  basic size h := by contradiction
  composite _ := by simp [treeHashType]

instance : Merkleizes c hash (Bitlist N) where
  root_eq self := by
    show (bitfieldBytesTreeHashRoot c N self.inner.asRawSlice).map _ = _
    rw [self.inner.asRawSlice_eq_iff.mpr self.clean,
      bitfieldBytesTreeHashRoot_eq hash self.length_le, Option.map_some,
      prescribed.mixInLength]
    rfl
  basic size h := by contradiction
  composite _ := by simp [treeHashType]

/-- The fields hold the values of a container, one after the other, and have their roots. -/
inductive FieldsOf : List (AnyField c) → (types : Fields) → types.Val → Prop
  | nil : FieldsOf [] .nil ()
  | cons {T : Type} [TreeHash c T] [SszType T] [Merkleizes c hash T] {field : T}
      {rest : List (AnyField c)} {types : Fields} {values : types.Val} :
      FieldsOf rest types values →
      FieldsOf (.of field :: rest) (.cons (ty T) types) (val field, values)

omit prescribed in
theorem FieldsOf.roots_eq {l : List (AnyField c)} {types : Fields} {values : types.Val}
    (h : FieldsOf hash l types values) :
    l.mapM AnyField.root = some (types.roots hash values) := by
  induction h with
  | nil => rfl
  | @cons T _ _ _ field rest types values _ ih =>
      have hroot : AnyField.root (.of field : AnyField c) =
          some (hashTreeRoot hash (ty T) (val field)) := by
        show treeHashRoot c field = _
        exact Merkleizes.root_eq field
      simp [List.mapM_cons, hroot, ih, Fields.roots]

/-- **Structs**: the derived root is that of the container whose values the fields hold. -/
theorem merkleizes_derive [DeriveTreeHash c T] {types : Fields} {toVal : T → types.Val}
    (h : ∀ self : T, FieldsOf (c := c) hash (fields self) types (toVal self)) :
    @Merkleizes c hash T _ ⟨.container types, toVal⟩ := by
  refine @Merkleizes.mk c hash T _ ⟨.container types, toVal⟩ ?_ ?_ ?_
  · intro self
    show ((fields self).mapM (AnyField.root (c := c))).map c.containerRoot =
      some (merkleize hash (types.roots hash (toVal self)) types.length)
    rw [(h self).roots_eq, Option.map_some, prescribed.containerRoot, Fields.length_roots]
  · intro size hsize
    contradiction
  · intro _
    simp [treeHashType]

end GearBridges.EthereumCommon
