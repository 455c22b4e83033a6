import Mathlib.Algebra.Group.Nat.Defs
import Mathlib.Data.List.Basic

/-!
# Lib.Keccak

Keccak-256 as the EVM computes it: the sponge over Keccak-f[1600] with rate
136 bytes and the original `0x01 … 0x80` padding.  A lane is a natural number
below `2 ^ 64` and the state is the list of the 25 lanes, five rows of five;
all arithmetic is on `Nat`, so the kernel evaluates a digest directly.
-/

namespace Keccak

/-- Rotate a 64-bit lane to the left. -/
def rotateLane (x n : Nat) : Nat := ((x <<< n) ||| (x >>> (64 - n))) % 2 ^ 64

/-- The round constants of the `ι` step. -/
def roundConstants : List Nat :=
  [0x0000000000000001, 0x0000000000008082, 0x800000000000808A, 0x8000000080008000,
   0x000000000000808B, 0x0000000080000001, 0x8000000080008081, 0x8000000000008009,
   0x000000000000008A, 0x0000000000000088, 0x0000000080008009, 0x000000008000000A,
   0x000000008000808B, 0x800000000000008B, 0x8000000000008089, 0x8000000000008003,
   0x8000000000008002, 0x8000000000000080, 0x000000000000800A, 0x800000008000000A,
   0x8000000080008081, 0x8000000000008080, 0x0000000080000001, 0x8000000080008008]

/-- The rotation offsets of the `ρ` step, by position. -/
def rotationOffsets : List Nat :=
  [0, 1, 62, 28, 27, 36, 44, 6, 55, 20, 3, 10, 43, 25, 39, 41, 45, 15, 21, 8, 18, 2, 61, 56, 14]

/-- Where the `π` step takes each position from. -/
def piSource : List Nat :=
  [0, 6, 12, 18, 24, 3, 9, 10, 16, 22, 1, 7, 13, 19, 20, 4, 5, 11, 17, 23, 2, 8, 14, 15, 21]

/-- Lanewise exclusive or. -/
def xorLanes : List Nat → List Nat → List Nat := List.zipWith (· ^^^ ·)

/-- The first `n` rows of five lanes. -/
def rows : Nat → List Nat → List (List Nat)
  | 0, _ => []
  | n + 1, a => a.take 5 :: rows n (a.drop 5)

/-- What `θ` adds to every row, from the column parities. -/
def thetaMask : List Nat → List Nat
  | [c₀, c₁, c₂, c₃, c₄] =>
      [c₄ ^^^ rotateLane c₁ 1, c₀ ^^^ rotateLane c₂ 1, c₁ ^^^ rotateLane c₃ 1,
        c₂ ^^^ rotateLane c₄ 1, c₃ ^^^ rotateLane c₀ 1]
  | c => c

/-- The `θ` step. -/
def theta (a : List Nat) : List Nat :=
  (rows 5 a).flatMap (xorLanes (thetaMask ((rows 5 a).foldr xorLanes (List.replicate 5 0))))

/-- The `ρ` and `π` steps. -/
def rhoPi (a : List Nat) : List Nat :=
  piSource.map ((List.zipWith rotateLane a rotationOffsets).getD · 0)

/-- Complement of a lane. -/
def notLane (x : Nat) : Nat := 2 ^ 64 - 1 - x

/-- The `χ` step on one row. -/
def chiRow : List Nat → List Nat
  | [a₀, a₁, a₂, a₃, a₄] =>
      [a₀ ^^^ (notLane a₁ &&& a₂), a₁ ^^^ (notLane a₂ &&& a₃), a₂ ^^^ (notLane a₃ &&& a₄),
        a₃ ^^^ (notLane a₄ &&& a₀), a₄ ^^^ (notLane a₀ &&& a₁)]
  | a => a

/-- The `χ` step. -/
def chi (a : List Nat) : List Nat := (rows 5 a).flatMap chiRow

/-- The `ι` step. -/
def iota (constant : Nat) : List Nat → List Nat
  | [] => []
  | l :: ls => (l ^^^ constant) :: ls

/-- One round of Keccak-f[1600]. -/
def keccakRound (a : List Nat) (constant : Nat) : List Nat := iota constant (chi (rhoPi (theta a)))

/-- The permutation Keccak-f[1600]. -/
def permute (a : List Nat) : List Nat := roundConstants.foldl keccakRound a

/-- Number of bytes absorbed per permutation. -/
def rate : Nat := 136

/-- The first `n` little-endian lanes of a byte string. -/
def lanesOfBytes (bs : List UInt8) : Nat → List Nat
  | 0 => []
  | n + 1 => (bs.take 8).foldr (fun b acc => b.toNat + 256 * acc) 0 :: lanesOfBytes (bs.drop 8) n

/-- The little-endian bytes of a lane. -/
def bytesOfLane (l : Nat) : List UInt8 :=
  (List.range 8).map fun i => UInt8.ofNat (l >>> (8 * i))

/-- Absorb `n` blocks of the padded message. -/
def absorb : Nat → List UInt8 → List Nat → List Nat
  | 0, _, a => a
  | n + 1, bs, a =>
      absorb n (bs.drop rate)
        (permute (xorLanes a (lanesOfBytes (bs.take rate) 17 ++ List.replicate 8 0)))

/-- Pad a message to a multiple of the rate. -/
def padMessage (bs : List UInt8) : List UInt8 :=
  if rate - bs.length % rate = 1 then bs ++ [0x81]
  else bs ++ 0x01 :: List.replicate (rate - bs.length % rate - 2) 0 ++ [0x80]

/-- Squeeze the digest out of a state. -/
def squeeze (a : List Nat) : List UInt8 :=
  bytesOfLane (a.getD 0 0) ++ bytesOfLane (a.getD 1 0) ++ bytesOfLane (a.getD 2 0) ++
    bytesOfLane (a.getD 3 0)

/-- A digest has 32 bytes. -/
theorem length_squeeze (a : List Nat) : (squeeze a).length = 32 := by
  simp [squeeze, bytesOfLane]

/-- Keccak-256. -/
def keccak256 (bs : List UInt8) : { digest : List UInt8 // digest.length = 32 } :=
  ⟨squeeze (absorb (bs.length / rate + 1) (padMessage bs) (List.replicate 25 0)), length_squeeze _⟩

end Keccak
