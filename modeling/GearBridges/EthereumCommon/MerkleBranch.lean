import GearBridges.EthereumCommon.Merkle
import GearBridges.Lib.BinaryMerkle
import GearBridges.Lib.CompleteTree

/-!
# EthereumCommon.MerkleBranch

What `is_valid_merkle_branch` accepts: the path of every leaf of a complete tree, and, as long as
SHA-256 does not collide on what is hashed, one leaf with one branch for a depth, an index and a
root (`isValidMerkleBranch_complete_binding`).  The powers of two are taken in `u32`, which
suffices up to depth 32.
-/

namespace GearBridges.EthereumCommon

open BinaryMerkle CompleteTree

variable {H : Type*}

/-! ## the loop in u32 -/

/-- `2u32.pow(i)`; `none` is an overflow. -/
def pow2U32 (i : Nat) : Option Nat := if 2 ^ i < 2 ^ 32 then some (2 ^ i) else none

/-- The loop of `is_valid_merkle_branch` from level `i` on, as `branchRoot`, with the overflow of
the power as `none`. -/
def branchRootU32 (hash : H → H → H) (index : Nat) :
    (i depth : Nat) → H → List H → Option (Option H)
  | _, 0, value, _ => some (some value)
  | _, _ + 1, _, [] => some none
  | i, depth + 1, value, next :: branch =>
      (pow2U32 i).bind fun power =>
        let value := if index / power % 2 = 0 then hash value next else hash next value
        branchRootU32 hash index (i + 1) depth value branch

/-- `is_valid_merkle_branch`; `none` is an overflow. -/
def isValidMerkleBranchU32 [DecidableEq H] (hash : H → H → H) (leaf : H) (branch : List H)
    (depth index : Nat) (root : H) : Option Bool :=
  (branchRootU32 hash index 0 depth leaf branch).map fun value => decide (value = some root)

/-- No power overflows below level 32. -/
theorem branchRootU32_eq {hash : H → H → H} {index i depth : Nat} (h : i + depth ≤ 32)
    (value : H) (branch : List H) : branchRootU32 hash index i depth value branch =
      some (branchRoot hash index i depth value branch) := by
  induction depth generalizing i value branch with
  | zero => rfl
  | succ depth ih =>
      cases branch with
      | nil => rfl
      | cons next branch =>
          have hpow : 2 ^ i < 2 ^ 32 := Nat.pow_lt_pow_right (by decide) (by omega)
          simp only [branchRootU32, pow2U32, if_pos hpow, Option.bind_some]
          rw [ih (by omega), branchRoot]

/-- Where the loop comes to its end, its result is that of the loop in unbounded numbers. -/
theorem branchRoot_of_branchRootU32 {hash : H → H → H} {index i depth : Nat} {value : H}
    {branch : List H} {result : Option H}
    (h : branchRootU32 hash index i depth value branch = some result) :
    branchRoot hash index i depth value branch = result := by
  induction depth generalizing i value branch with
  | zero => exact Option.some.inj h
  | succ depth ih =>
      cases branch with
      | nil => exact Option.some.inj h
      | cons next branch =>
          obtain ⟨power, hpower, hrest⟩ := Option.bind_eq_some_iff.mp h
          obtain rfl : 2 ^ i = power := by
            unfold pow2U32 at hpower
            split at hpower
            · exact Option.some.inj hpower
            · contradiction
          exact ih hrest

theorem isValidMerkleBranchU32_eq_some_true [DecidableEq H] {hash : H → H → H} {leaf root : H}
    {branch : List H} {depth index : Nat}
    (h : isValidMerkleBranchU32 hash leaf branch depth index root = some true) :
    branchRoot hash index 0 depth leaf branch = some root := by
  obtain ⟨result, hresult, hroot⟩ := Option.map_eq_some_iff.mp h
  rw [branchRoot_of_branchRootU32 hresult]
  exact of_decide_eq_true hroot

/-! ## completeness -/

/-- The loop looks at the bits of the levels it climbs only. -/
theorem branchRoot_congr {hash : H → H → H} {index index' i depth : Nat}
    (h : ∀ j, i ≤ j → j < i + depth → index / 2 ^ j % 2 = index' / 2 ^ j % 2) (value : H)
    (branch : List H) :
    branchRoot hash index i depth value branch = branchRoot hash index' i depth value branch := by
  induction depth generalizing i value branch with
  | zero => rfl
  | succ depth ih =>
      cases branch with
      | nil => rfl
      | cons next branch =>
          rw [branchRoot, branchRoot, h i (Nat.le_refl i) (by omega)]
          exact ih (fun j hle hlt => h j (by omega) (by omega)) _ _

/-- One more level at the top. -/
theorem branchRoot_concat {hash : H → H → H} {index i depth : Nat} {value root : H}
    {branch : List H} (hlength : branch.length = depth)
    (h : branchRoot hash index i depth value branch = some root) (next : H) :
    branchRoot hash index i (depth + 1) value (branch ++ [next]) =
      some (if index / 2 ^ (i + depth) % 2 = 0 then hash root next else hash next root) := by
  induction depth generalizing i value branch with
  | zero =>
      obtain rfl := List.length_eq_zero_iff.mp hlength
      rw [branchRoot, Option.some.injEq] at h
      rw [h]
      rfl
  | succ depth ih =>
      cases branch with
      | nil => contradiction
      | cons first branch =>
          rw [branchRoot] at h
          rw [List.cons_append, branchRoot, ih (Nat.succ.inj hlength) h]
          rw [Nat.add_right_comm, Nat.add_assoc]

/-- The siblings of a leaf lead to the root of its tree. -/
theorem branchRoot_siblings (hash : H → H → H) {depth : Nat} (tree : Tree H depth) {index : Nat}
    (hindex : index < 2 ^ depth) : branchRoot hash index 0 depth (tree.get index)
      (tree.siblings hash index) = some (tree.root hash) := by
  induction tree generalizing index with
  | leaf value => rfl
  | @node depth left right ihLeft ihRight =>
      have htop := top_bit hindex
      rw [CompleteTree.Tree.get, CompleteTree.Tree.siblings]
      by_cases hlt : index < 2 ^ depth
      · rw [if_pos hlt] at htop
        rw [if_pos hlt, if_pos hlt, branchRoot_concat (Tree.length_siblings _ _ _) (ihLeft hlt),
          Nat.zero_add, htop]
        rfl
      · rw [if_neg hlt] at htop
        have hbelow : index - 2 ^ depth < 2 ^ depth := by
          rw [Nat.pow_succ] at hindex
          omega
        have hright := ihRight hbelow
        have hbits : ∀ j, 0 ≤ j → j < 0 + depth →
            (index - 2 ^ depth) / 2 ^ j % 2 = index / 2 ^ j % 2 := by
          intro j _ hj
          exact bit_sub_two_pow (Nat.not_lt.mp hlt) (by omega)
        rw [branchRoot_congr hbits] at hright
        rw [if_neg hlt, if_neg hlt, branchRoot_concat (Tree.length_siblings _ _ _) hright,
          Nat.zero_add, htop]
        rfl

/-! ## binding -/

/-- The pairs of nodes that the loop hashes. -/
def hashedPairs (hash : H → H → H) (index : Nat) : (i depth : Nat) → H → List H → List (H × H)
  | _, 0, _, _ => []
  | _, _ + 1, _, [] => []
  | i, depth + 1, value, next :: branch =>
      let pair := if index / 2 ^ i % 2 = 0 then (value, next) else (next, value)
      pair :: hashedPairs hash index (i + 1) depth (hash pair.1 pair.2) branch

theorem cons_append_cons_subset {α : Type*} {x y : α} (l l' : List α) :
    l ++ l' ⊆ x :: l ++ y :: l' := by
  intro z hz
  simp only [List.mem_append, List.mem_cons] at hz ⊢
  exact hz.imp .inr .inr

/-- Two runs to one root that hash without a collision start from one leaf, along one branch. -/
theorem branchRoot_binding_of_pairs {hash : H → H → H} {index i depth : Nat} {leaf leaf' root : H}
    {branch branch' : List H}
    (h : branchRoot hash index i depth leaf branch = some root)
    (h' : branchRoot hash index i depth leaf' branch' = some root)
    (hfree : CollisionFreeOn (fun p : H × H => hash p.1 p.2)
      (hashedPairs hash index i depth leaf branch ++
        hashedPairs hash index i depth leaf' branch')) :
    leaf = leaf' ∧ branch.take depth = branch'.take depth := by
  induction depth generalizing i leaf leaf' branch branch' with
  | zero =>
      rw [branchRoot, Option.some.injEq] at h h'
      exact ⟨h.trans h'.symm, rfl⟩
  | succ depth ih =>
      cases branch with
      | nil => contradiction
      | cons next branch =>
          cases branch' with
          | nil => contradiction
          | cons next' branch' =>
              rw [branchRoot] at h h'
              rw [hashedPairs, hashedPairs] at hfree
              -- the bit of the level is the same in both runs
              by_cases hbit : index / 2 ^ i % 2 = 0
              · simp only [if_pos hbit] at h h' hfree
                obtain ⟨hvalue, hbranch⟩ := ih h h' (hfree.mono (cons_append_cons_subset _ _))
                have hpair := hfree (leaf, next) (by simp) (leaf', next') (by simp) hvalue
                rw [Prod.mk.injEq] at hpair
                exact ⟨hpair.1, by simp only [List.take_succ_cons, hpair.2, hbranch]⟩
              · simp only [if_neg hbit] at h h' hfree
                obtain ⟨hvalue, hbranch⟩ := ih h h' (hfree.mono (cons_append_cons_subset _ _))
                have hpair := hfree (next, leaf) (by simp) (next', leaf') (by simp) hvalue
                rw [Prod.mk.injEq] at hpair
                exact ⟨hpair.2, by simp only [List.take_succ_cons, hpair.1, hbranch]⟩

/-- A branch that is too short leads nowhere. -/
theorem branchRoot_eq_none {hash : H → H → H} {index i depth : Nat} {value : H} {branch : List H}
    (h : branch.length < depth) : branchRoot hash index i depth value branch = none := by
  induction depth generalizing i value branch with
  | zero => omega
  | succ depth ih =>
      cases branch with
      | nil => rfl
      | cons next branch =>
          rw [branchRoot]
          exact ih (Nat.lt_of_succ_lt_succ h)

/-- **Merkle branches are complete and binding.**  The path of every leaf is accepted; two
accepted pairs of a leaf and a branch agree, unless two of the pairs hashed for them collide; a
branch shorter than the depth is not accepted; and up to depth 32 nothing overflows. -/
theorem isValidMerkleBranch_complete_binding [DecidableEq H] (hash : H → H → H) :
    (∀ depth, depth ≤ 32 → ∀ (tree : Tree H depth) (index : Nat), index < 2 ^ depth →
      isValidMerkleBranchU32 hash (tree.get index) (tree.siblings hash index) depth index
        (tree.root hash) = some true) ∧
    (∀ depth index root leaf leaf' branch branch',
      isValidMerkleBranchU32 hash leaf branch depth index root = some true →
      isValidMerkleBranchU32 hash leaf' branch' depth index root = some true →
      CollisionFreeOn (fun p : H × H => hash p.1 p.2)
        (hashedPairs hash index 0 depth leaf branch ++
          hashedPairs hash index 0 depth leaf' branch') →
      leaf = leaf' ∧ branch.take depth = branch'.take depth) ∧
    (∀ depth index root leaf (branch : List H), branch.length < depth →
      isValidMerkleBranchU32 hash leaf branch depth index root ≠ some true) ∧
    ∀ depth, depth ≤ 32 → ∀ index root leaf branch,
      (isValidMerkleBranchU32 hash leaf branch depth index root).isSome := by
  refine ⟨?_, ?_, ?_, ?_⟩
  · intro depth hdepth tree index hindex
    rw [isValidMerkleBranchU32, branchRootU32_eq (by omega), branchRoot_siblings hash tree hindex]
    simp
  · intro depth index root leaf leaf' branch branch' h h' hfree
    exact branchRoot_binding_of_pairs (isValidMerkleBranchU32_eq_some_true h)
      (isValidMerkleBranchU32_eq_some_true h') hfree
  · intro depth index root leaf branch hshort h
    have hroot := isValidMerkleBranchU32_eq_some_true h
    rw [branchRoot_eq_none hshort] at hroot
    contradiction
  · intro depth hdepth index root leaf branch
    rw [isValidMerkleBranchU32, branchRootU32_eq (by omega)]
    rfl

/-- A tree with leaves 1, 2, 3 and 4, and the branch of leaf 3 with and without a node at its
end that is not looked at. -/
theorem isValidMerkleBranch_complete_binding_four :
    let hash := fun a b : Nat => 10 * a + b
    isValidMerkleBranchU32 hash 3 [4, 12] 2 2 154 = some true ∧
    ∀ leaf branch, isValidMerkleBranchU32 hash leaf branch 2 2 154 = some true →
      CollisionFreeOn (fun p : Nat × Nat => hash p.1 p.2)
        (hashedPairs hash 2 0 2 leaf branch ++ [(3, 4), (12, 34)]) →
      leaf = 3 ∧ branch.take 2 = [4, 12] := by
  intro hash
  obtain ⟨hcomplete, hbinding, -, -⟩ := isValidMerkleBranch_complete_binding hash
  have h := hcomplete 2 (by decide) (.node (.node (.leaf 1) (.leaf 2)) (.node (.leaf 3) (.leaf 4)))
    2 (by decide)
  refine ⟨h, ?_⟩
  intro leaf branch hbranch hfree
  exact hbinding 2 2 154 leaf 3 branch [4, 12] hbranch h hfree

end GearBridges.EthereumCommon
