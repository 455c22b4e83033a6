import GearBridges.Lib.Digits

/-!
# Lib.Sha256

SHA-256 as FIPS 180-4 defines it, of messages that are whole bytes.
-/

namespace Sha256

open Digits

abbrev Word := BitVec 32

/-- The constants `K`. -/
def constants : List Word :=
  [0x428a2f98, 0x71374491, 0xb5c0fbcf, 0xe9b5dba5, 0x3956c25b, 0x59f111f1, 0x923f82a4, 0xab1c5ed5,
   0xd807aa98, 0x12835b01, 0x243185be, 0x550c7dc3, 0x72be5d74, 0x80deb1fe, 0x9bdc06a7, 0xc19bf174,
   0xe49b69c1, 0xefbe4786, 0x0fc19dc6, 0x240ca1cc, 0x2de92c6f, 0x4a7484aa, 0x5cb0a9dc, 0x76f988da,
   0x983e5152, 0xa831c66d, 0xb00327c8, 0xbf597fc7, 0xc6e00bf3, 0xd5a79147, 0x06ca6351, 0x14292967,
   0x27b70a85, 0x2e1b2138, 0x4d2c6dfc, 0x53380d13, 0x650a7354, 0x766a0abb, 0x81c2c92e, 0x92722c85,
   0xa2bfe8a1, 0xa81a664b, 0xc24b8b70, 0xc76c51a3, 0xd192e819, 0xd6990624, 0xf40e3585, 0x106aa070,
   0x19a4c116, 0x1e376c08, 0x2748774c, 0x34b0bcb5, 0x391c0cb3, 0x4ed8aa4a, 0x5b9cca4f, 0x682e6ff3,
   0x748f82ee, 0x78a5636f, 0x84c87814, 0x8cc70208, 0x90befffa, 0xa4506ceb, 0xbef9a3f7, 0xc67178f2]

/-- The initial hash value. -/
def initial : List Word :=
  [0x6a09e667, 0xbb67ae85, 0x3c6ef372, 0xa54ff53a, 0x510e527f, 0x9b05688c, 0x1f83d9ab, 0x5be0cd19]

/-! ## compression -/

/-- The words of a block, extended to 64. -/
def schedule (block : List Word) : List Word :=
  (List.range 48).foldl (fun w t =>
    let x := w.getD (t + 1) 0
    let y := w.getD (t + 14) 0
    w ++ [(y.rotateRight 17 ^^^ y.rotateRight 19 ^^^ y >>> 10) + w.getD (t + 9) 0 +
      (x.rotateRight 7 ^^^ x.rotateRight 18 ^^^ x >>> 3) + w.getD t 0]) block

/-- A round over the eight working variables, with the sum of its constant and its word. -/
def round (v : List Word) (kw : Word) : List Word :=
  match v with
  | [a, b, c, d, e, f, g, h] =>
      let t1 := h + (e.rotateRight 6 ^^^ e.rotateRight 11 ^^^ e.rotateRight 25) +
        ((e &&& f) ^^^ (~~~e &&& g)) + kw
      let t2 := (a.rotateRight 2 ^^^ a.rotateRight 13 ^^^ a.rotateRight 22) +
        ((a &&& b) ^^^ (a &&& c) ^^^ (b &&& c))
      [t1 + t2, a, b, c, d + t1, e, f, g]
  | _ => v

def compress (h block : List Word) : List Word :=
  List.zipWith (· + ·) h ((List.zipWith (· + ·) constants (schedule block)).foldl round h)

/-! ## the digest -/

/-- A one, zeros, and the length in bits. -/
def pad (message : List UInt8) : List UInt8 :=
  message ++ 0x80 :: List.replicate ((119 - message.length % 64) % 64) 0 ++
    toBytesBE 8 (8 * message.length)

def toWords (block : List UInt8) : List Word :=
  (chunks 4 block).map fun bytes => BitVec.ofNat 32 (ofBytesBE bytes)

def digest (message : List UInt8) : List UInt8 :=
  (((chunks 64 (pad message)).map toWords).foldl compress initial).flatMap fun word =>
    toBytesBE 4 word.toNat

theorem length_round (v : List Word) (kw : Word) : (round v kw).length = v.length := by
  unfold round
  split <;> rfl

theorem length_compress {h : List Word} (block : List Word) :
    (compress h block).length = h.length := by
  have hrounds : ∀ (l v : List Word), (l.foldl round v).length = v.length := by
    intro l
    induction l with
    | nil => intro v; rfl
    | cons kw l ih => intro v; rw [List.foldl_cons, ih, length_round]
  rw [compress, List.length_zipWith, hrounds, Nat.min_self]

theorem length_digest (message : List UInt8) : (digest message).length = 32 := by
  have hblocks : ∀ (l : List (List Word)) (h : List Word),
      (l.foldl compress h).length = h.length := by
    intro l
    induction l with
    | nil => intro h; rfl
    | cons block l ih => intro h; rw [List.foldl_cons, ih, length_compress]
  rw [digest, List.length_flatMap]
  simp only [length_toBytesBE, List.map_const', List.sum_replicate_nat, hblocks]
  rfl

/-- The digest of 64 zeros, from which the roots of empty trees are made. -/
example : digest (List.replicate 64 0) =
    [0xf5, 0xa5, 0xfd, 0x42, 0xd1, 0x6a, 0x20, 0x30, 0x27, 0x98, 0xef, 0x6e,
     0xd3, 0x09, 0x97, 0x9b, 0x43, 0x00, 0x3d, 0x23, 0x20, 0xd9, 0xf0, 0xe8,
     0xea, 0x98, 0x31, 0xa9, 0x27, 0x59, 0xfb, 0x4b] := by
  decide +kernel

end Sha256
