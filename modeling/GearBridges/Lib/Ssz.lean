import GearBridges.Lib.BitBytes
import GearBridges.Lib.CompleteTree
import Mathlib.Data.Nat.Log

/-!
# Lib.Ssz

The types of SSZ, the values of each type, and `hash_tree_root`, for any hash of two chunks:

* `toChunks` — bytes as chunks, the last one filled up with zeros;
* `merkleize` — the root of chunks in a tree that has room for a number of them;
* `Ty`, `Ty.Val` — types and values, which are within their limits;
* `hashTreeRoot` — the root of a value of a type.
-/

namespace Ssz

open BitBytes CompleteTree Digits

/-! ## chunks -/

/-- 32 bytes. -/
abbrev Chunk := { bytes : List UInt8 // bytes.length = 32 }

/-- At most 32 bytes, and zeros behind them. -/
def Chunk.ofBytes (bytes : List UInt8) : Chunk :=
  ⟨(bytes ++ List.replicate (32 - bytes.length) 0).take 32, by simp; omega⟩

def zeroChunk : Chunk := .ofBytes []

/-- The chunks of some bytes. -/
def toChunks (bytes : List UInt8) : List Chunk := (chunks 32 bytes).map .ofBytes

theorem Chunk.ofBytes_val (chunk : Chunk) : Chunk.ofBytes chunk.1 = chunk := by
  apply Subtype.ext
  simp [Chunk.ofBytes, chunk.2]

/-- Chunks written one after the other are read as the same chunks. -/
theorem toChunks_flatten (l : List Chunk) : toChunks (l.map (·.1)).flatten = l := by
  rw [toChunks, chunks_flatten (by decide) (by simp +contextual), List.map_map]
  conv_rhs => rw [← List.map_id l]
  apply List.map_congr_left
  intro chunk _
  exact Chunk.ofBytes_val chunk

theorem toChunks_of_length {bytes : List UInt8} (h : bytes.length = 32) :
    toChunks bytes = [⟨bytes, h⟩] := by
  simpa using toChunks_flatten [⟨bytes, h⟩]

/-- Groups of one length, one after the other. -/
theorem length_flatten_of_length {α : Type} {k : Nat} {groups : List (List α)}
    (h : ∀ g ∈ groups, g.length = k) : groups.flatten.length = groups.length * k := by
  rw [List.length_flatten, List.map_congr_left h, List.map_const', List.sum_replicate_nat]

/-- The lowest `n` bytes of a number, the least significant one first. -/
def toBytesLE (n x : Nat) : List UInt8 := (toBytesBE n x).reverse

@[simp] theorem length_toBytesLE (n x : Nat) : (toBytesLE n x).length = n := by
  simp [toBytesLE]

/-! ## roots of chunks -/

variable (hash : Chunk → Chunk → Chunk)

/-- The complete tree over some chunks, with zeros in place of those that are not there. -/
def padded : (depth : Nat) → List Chunk → Tree Chunk depth
  | 0, l => .leaf (l.headD zeroChunk)
  | depth + 1, l => .node (padded depth (l.take (2 ^ depth))) (padded depth (l.drop (2 ^ depth)))

/-- `merkleize(chunks, limit)`: the root of the tree with room for `limit` chunks. -/
def merkleize (l : List Chunk) (limit : Nat) : Chunk := (padded (Nat.clog 2 limit) l).root hash

theorem merkleize_singleton (chunk : Chunk) : merkleize hash [chunk] 1 = chunk := by
  rw [merkleize, Nat.clog_one_right]
  rfl

/-- `mix_in_length(root, length)`. -/
def mixInLength (root : Chunk) (length : Nat) : Chunk :=
  hash root (.ofBytes (toBytesLE 32 length))

/-! ## types and values -/

mutual
/-- The types; `uint` has its size in bytes. -/
inductive Ty where
  | uint (size : Nat)
  | bitvector (length : Nat)
  | bitlist (limit : Nat)
  | vector (elem : Ty) (length : Nat)
  | list (elem : Ty) (limit : Nat)
  | container (fields : Fields)

inductive Fields where
  | nil
  | cons (field : Ty) (rest : Fields)
end

/-- The container with the given fields. -/
def Fields.ofList : List Ty → Fields
  | [] => .nil
  | field :: rest => .cons field (ofList rest)

mutual
/-- The values of a type. -/
def Ty.Val : Ty → Type
  | .uint size => { n : Nat // n < 256 ^ size }
  | .bitvector length => { bits : List Bool // bits.length = length }
  | .bitlist limit => { bits : List Bool // bits.length ≤ limit }
  | .vector elem length => { values : List elem.Val // values.length = length }
  | .list elem limit => { values : List elem.Val // values.length ≤ limit }
  | .container fields => fields.Val

/-- The values of fields: a value for each. -/
def Fields.Val : Fields → Type
  | .nil => Unit
  | .cons field rest => field.Val × rest.Val
end

/-- The size of a basic type, in bytes. -/
def Ty.size? : Ty → Option Nat
  | .uint size => some size
  | _ => none

/-- The bytes of a basic value. -/
def serialize : (t : Ty) → t.Val → List UInt8
  | .uint size, value => toBytesLE size value.1
  | _, _ => []

theorem length_serialize {t : Ty} {size : Nat} (h : t.size? = some size) (value : t.Val) :
    (serialize t value).length = size := by
  cases t with
  | uint =>
      cases h
      exact length_toBytesLE _ _
  | _ => contradiction

/-- `chunk_count` of a vector or list of `n` elements. -/
def chunkCount (elem : Ty) (n : Nat) : Nat :=
  match elem.size? with
  | some size => (n * size + 31) / 32
  | none => n

/-- The chunks of some elements: basic ones are packed, others have their root in a chunk. -/
def leaves (elem : Ty) (root : elem.Val → Chunk) (values : List elem.Val) : List Chunk :=
  match elem.size? with
  | some _ => toChunks (values.flatMap (serialize elem))
  | none => values.map root

def Fields.length : Fields → Nat
  | .nil => 0
  | .cons _ rest => rest.length + 1

mutual
/-- `hash_tree_root`. -/
def hashTreeRoot : (t : Ty) → t.Val → Chunk
  | .uint size, value => .ofBytes (toBytesLE size value.1)
  | .bitvector length, bits =>
      merkleize hash (toChunks (encode bits.1)) ((length + 255) / 256)
  | .bitlist limit, bits =>
      mixInLength hash (merkleize hash (toChunks (encode bits.1)) ((limit + 255) / 256))
        bits.1.length
  | .vector elem length, values =>
      merkleize hash (leaves elem (hashTreeRoot elem) values.1) (chunkCount elem length)
  | .list elem limit, values =>
      mixInLength hash
        (merkleize hash (leaves elem (hashTreeRoot elem) values.1) (chunkCount elem limit))
        values.1.length
  | .container fields, values => merkleize hash (fields.roots values) fields.length

/-- The roots of the fields, in their order. -/
def Fields.roots : (fields : Fields) → fields.Val → List Chunk
  | .nil, _ => []
  | .cons field rest, (value, values) => hashTreeRoot field value :: rest.roots values
end

theorem Fields.length_roots : (fields : Fields) → (values : fields.Val) →
    (fields.roots hash values).length = fields.length
  | .nil, _ => rfl
  | .cons _ rest, (_, values) => congrArg (· + 1) (length_roots rest values)

end Ssz
