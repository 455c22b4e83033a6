import GearBridges.EthereumCommon.Network
import Mathlib.Algebra.Group.Nat.Defs
import Mathlib.Data.List.Basic
import Mathlib.Logic.Function.Basic

/-!
# EthereumCommon.Merkle

Merkle branches into a beacon state.  The hash of two nodes is a parameter; a
branch is binding when that hash is collision-free
(`isValidMerkleBranch_binding`).
-/

namespace GearBridges.EthereumCommon

variable {H : Type*}

/-! ## branches -/

/-- The loop of `is_valid_merkle_branch` from level `i` on, for `depth` more
levels; `none`: the branch is too short. -/
def branchRoot (hash : H → H → H) (index : Nat) : (i depth : Nat) → H → List H → Option H
  | _, 0, value, _ => some value
  | _, _ + 1, _, [] => none
  | i, depth + 1, value, next :: branch =>
      let value := if index / 2 ^ i % 2 = 0 then hash value next else hash next value
      branchRoot hash index (i + 1) depth value branch

/-- `is_valid_merkle_branch`. -/
def isValidMerkleBranch [DecidableEq H] (hash : H → H → H) (leaf : H) (branch : List H)
    (depth index : Nat) (root : H) : Bool :=
  decide (branchRoot hash index 0 depth leaf branch = some root)

/-- A collision-free hash: equal hashes have equal inputs. -/
def CollisionFree (hash : H → H → H) : Prop := Function.Injective2 hash

theorem branchRoot_binding {hash : H → H → H} (hinj : CollisionFree hash) {index : Nat} :
    ∀ {i depth : Nat} {leaf leaf' root : H} {branch branch' : List H},
      branchRoot hash index i depth leaf branch = some root →
      branchRoot hash index i depth leaf' branch' = some root → leaf = leaf' := by
  intro i depth
  induction depth generalizing i with
  | zero =>
      intro leaf leaf' root branch branch' h h'
      simp only [branchRoot, Option.some.injEq] at h h'
      rw [h, h']
  | succ depth ih =>
      intro leaf leaf' root branch branch' h h'
      cases branch with
      | nil => simp [branchRoot] at h
      | cons next branch =>
          cases branch' with
          | nil => simp [branchRoot] at h'
          | cons next' branch' =>
              simp only [branchRoot] at h h'
              have hvalue := ih h h'
              split at hvalue
              · exact (hinj hvalue).1
              · exact (hinj hvalue).2

/-- For a depth, an index and a root there is one leaf. -/
theorem isValidMerkleBranch_binding [DecidableEq H] {hash : H → H → H}
    (hinj : CollisionFree hash) {leaf leaf' root : H} {branch branch' : List H}
    {depth index : Nat} (h : isValidMerkleBranch hash leaf branch depth index root = true)
    (h' : isValidMerkleBranch hash leaf' branch' depth index root = true) : leaf = leaf' :=
  branchRoot_binding hinj (of_decide_eq_true h) (of_decide_eq_true h')

/-! ## generalized indices -/

/-- `depth_index_current`. -/
def depthIndexCurrent (network : Network) (slot : Slot) : Nat × Nat :=
  if network.epochElectra ≤ calculateEpoch slot then (6, 22) else (5, 22)

/-- `depth_index_next`. -/
def depthIndexNext (network : Network) (slot : Slot) : Nat × Nat :=
  if network.epochElectra ≤ calculateEpoch slot then (6, 23) else (5, 23)

/-- `depth_index_finality`. -/
def depthIndexFinality (network : Network) (slot : Slot) : Nat × Nat :=
  if network.epochElectra ≤ calculateEpoch slot then (7, 41) else (6, 41)

end GearBridges.EthereumCommon
