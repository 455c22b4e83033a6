import Mathlib.Tactic.Ring

/-!
# Lib.CompleteTree

Complete binary trees over any kind of node: the leaf at an index, the siblings of the path from
it to the root, and the root for a given hash of two nodes.
-/

namespace CompleteTree

/-- A complete binary tree of some depth, with a value at each leaf. -/
inductive Tree (H : Type*) : Nat → Type _
  | leaf (value : H) : Tree H 0
  | node {depth : Nat} (left right : Tree H depth) : Tree H (depth + 1)

variable {H : Type*} {depth : Nat}

namespace Tree

/-- The root for a hash of two nodes. -/
def root (hash : H → H → H) : {depth : Nat} → Tree H depth → H
  | _, leaf value => value
  | _, node left right => hash (left.root hash) (right.root hash)

/-- The leaf at an index, counted from the left. -/
def get : {depth : Nat} → Tree H depth → Nat → H
  | _, leaf value, _ => value
  | depth + 1, node left right, index =>
      if index < 2 ^ depth then left.get index else right.get (index - 2 ^ depth)

/-- The siblings of the nodes from a leaf up to the root, that of the leaf first. -/
def siblings (hash : H → H → H) : {depth : Nat} → Tree H depth → Nat → List H
  | _, leaf _, _ => []
  | depth + 1, node left right, index =>
      if index < 2 ^ depth then left.siblings hash index ++ [right.root hash]
      else right.siblings hash (index - 2 ^ depth) ++ [left.root hash]

@[simp] theorem length_siblings (hash : H → H → H) (tree : Tree H depth) (index : Nat) :
    (tree.siblings hash index).length = depth := by
  induction tree generalizing index with
  | leaf value => rfl
  | node left right ihLeft ihRight =>
      rw [siblings]
      split <;> simp [ihLeft, ihRight]

end Tree

/-! ## the bits of an index -/

/-- Below the top level of a tree the index has the same bits in either half. -/
theorem bit_sub_two_pow {index i : Nat} (hle : 2 ^ depth ≤ index) (hi : i < depth) :
    (index - 2 ^ depth) / 2 ^ i % 2 = index / 2 ^ i % 2 := by
  obtain ⟨rest, rfl⟩ := Nat.exists_eq_add_of_le hle
  obtain ⟨k, rfl⟩ := Nat.exists_eq_add_of_lt hi
  have hsplit : 2 ^ (i + k + 1) + rest = rest + 2 ^ k * 2 * 2 ^ i := by
    rw [Nat.add_assoc, Nat.pow_add, Nat.pow_succ]
    ring
  rw [Nat.add_sub_cancel_left, hsplit, Nat.add_mul_div_right _ _ (Nat.two_pow_pos i),
    Nat.add_mul_mod_self_right]

/-- At the top level the bit tells the halves apart. -/
theorem top_bit {index : Nat} (h : index < 2 ^ (depth + 1)) :
    index / 2 ^ depth % 2 = if index < 2 ^ depth then 0 else 1 := by
  rw [Nat.pow_succ] at h
  split
  · next hlt => rw [Nat.div_eq_of_lt hlt]
  · next hge =>
    have hdiv : index / 2 ^ depth = 1 := by
      rw [Nat.div_eq_iff (Nat.two_pow_pos depth)]
      omega
    rw [hdiv]

end CompleteTree
