import GearBridges.Lib.Digits

/-!
# Lib.Blake2

BLAKE2 as RFC 7693 defines it, over the word size and the parameters of a variant, without
a key.  The offset counters of the blocks are an argument of `digest`, next to the
blocks: `hash` is the digest under the offsets of the message, and a caller that counts
otherwise is compared with it.
-/

namespace Blake2

open Digits

/-- Parameters of a variant over words of `w` bits. -/
structure Variant (w : Nat) where
  rounds : Nat
  r1 : Nat
  r2 : Nat
  r3 : Nat
  r4 : Nat
  iv : List (BitVec w)

/-- `SIGMA`. -/
def sigma : List (List Nat) :=
  [[0, 1, 2, 3, 4, 5, 6, 7, 8, 9, 10, 11, 12, 13, 14, 15],
   [14, 10, 4, 8, 9, 15, 13, 6, 1, 12, 0, 2, 11, 7, 5, 3],
   [11, 8, 12, 0, 5, 2, 15, 13, 10, 14, 3, 6, 7, 1, 9, 4],
   [7, 9, 3, 1, 13, 12, 11, 14, 2, 6, 5, 10, 4, 0, 15, 8],
   [9, 0, 5, 7, 2, 4, 10, 15, 14, 1, 11, 12, 6, 8, 3, 13],
   [2, 12, 6, 10, 0, 11, 8, 3, 4, 13, 7, 5, 15, 14, 1, 9],
   [12, 5, 1, 15, 14, 13, 4, 10, 0, 7, 6, 3, 9, 2, 8, 11],
   [13, 11, 7, 14, 12, 1, 3, 9, 5, 0, 15, 4, 8, 6, 2, 10],
   [6, 15, 14, 9, 11, 3, 0, 8, 12, 2, 13, 7, 1, 4, 10, 5],
   [10, 2, 8, 4, 7, 6, 1, 5, 15, 11, 9, 14, 3, 12, 13, 0]]

variable {w : Nat} (V : Variant w)

/-! ## compression -/

/-- `G`. -/
def mix (v : List (BitVec w)) (a b c d : Nat) (x y : BitVec w) : List (BitVec w) :=
  let v := v.set a (v.getD a 0 + v.getD b 0 + x)
  let v := v.set d ((v.getD d 0 ^^^ v.getD a 0).rotateRight V.r1)
  let v := v.set c (v.getD c 0 + v.getD d 0)
  let v := v.set b ((v.getD b 0 ^^^ v.getD c 0).rotateRight V.r2)
  let v := v.set a (v.getD a 0 + v.getD b 0 + y)
  let v := v.set d ((v.getD d 0 ^^^ v.getD a 0).rotateRight V.r3)
  let v := v.set c (v.getD c 0 + v.getD d 0)
  v.set b ((v.getD b 0 ^^^ v.getD c 0).rotateRight V.r4)

/-- The indices each call of `G` in a round works on, columns before diagonals. -/
def lanes : List (Nat × Nat × Nat × Nat) :=
  [(0, 4, 8, 12), (1, 5, 9, 13), (2, 6, 10, 14), (3, 7, 11, 15),
   (0, 5, 10, 15), (1, 6, 11, 12), (2, 7, 8, 13), (3, 4, 9, 14)]

/-- Round `i`: the `k`-th call of `G` mixes in the words `s[2 * k]` and `s[2 * k + 1]`. -/
def round (m v : List (BitVec w)) (i : Nat) : List (BitVec w) :=
  let s := sigma.getD (i % 10) []
  lanes.zipIdx.foldl (fun v ((a, b, c, d), k) =>
    mix V v a b c d (m.getD (s.getD (2 * k) 0) 0) (m.getD (s.getD (2 * k + 1) 0) 0)) v

/-- The work vector before the rounds. -/
def workVector (h : List (BitVec w)) (t : Nat) (f : Bool) : List (BitVec w) :=
  let v := h ++ V.iv
  let v := v.set 12 (v.getD 12 0 ^^^ BitVec.ofNat w t)
  let v := v.set 13 (v.getD 13 0 ^^^ BitVec.ofNat w (t >>> w))
  if f then v.set 14 (v.getD 14 0 ^^^ BitVec.allOnes w) else v

/-- `F`. -/
def compress (h m : List (BitVec w)) (t : Nat) (f : Bool) : List (BitVec w) :=
  let v := (List.range V.rounds).foldl (round V m) (workVector V h t f)
  (List.range 8).map fun i => h.getD i 0 ^^^ v.getD i 0 ^^^ v.getD (i + 8) 0

/-- The blocks with their offset counters; the last one is final. -/
def compressAll (h : List (BitVec w)) : List (List (BitVec w) × Nat) → List (BitVec w)
  | [] => h
  | [(m, t)] => compress V h m t true
  | (m, t) :: block :: rest => compressAll (compress V h m t false) (block :: rest)

/-! ## messages and digests -/

/-- The little-endian word of some bytes. -/
def wordOfBytes (w : Nat) (bytes : List UInt8) : BitVec w :=
  BitVec.ofNat w (Nat.ofDigits 256 (bytes.map UInt8.toNat))

/-- The little-endian bytes of a word. -/
def bytesOfWord (x : BitVec w) : List UInt8 :=
  (List.range (w / 8)).map fun i => UInt8.ofNat (x.toNat >>> (8 * i))

def blockBytes (w : Nat) : Nat := 16 * (w / 8)

/-- Number of data blocks of so many bytes: at least one. -/
def blockCount (w bytes : Nat) : Nat := max 1 ((bytes + blockBytes w - 1) / blockBytes w)

/-- Zeros up to the end of the last block. -/
def pad (w : Nat) (message : List UInt8) : List UInt8 :=
  message ++ List.replicate (blockCount w message.length * blockBytes w - message.length) 0

/-- The words of a block of bytes. -/
def blockWords (w : Nat) (block : List UInt8) : List (BitVec w) :=
  (chunks (w / 8) block).map (wordOfBytes w)

/-- The data blocks of a message. -/
def dataBlocks (w : Nat) (message : List UInt8) : List (List (BitVec w)) :=
  (chunks (blockBytes w) (pad w message)).map (blockWords w)

/-- Offset counters of so many blocks: the bytes so far, the last one given. -/
def offsets (w blocks last : Nat) : List Nat :=
  ((List.range (blocks - 1)).map fun i => (i + 1) * blockBytes w) ++ [last]

/-- The initial hash value of an unkeyed digest of `nn` bytes. -/
def initial (nn : Nat) : List (BitVec w) :=
  V.iv.set 0 (V.iv.getD 0 0 ^^^ BitVec.ofNat w 0x01010000 ^^^ BitVec.ofNat w nn)

/-- The first `nn` bytes of the hash value after all blocks. -/
def digest (nn : Nat) (blocks : List (List (BitVec w))) (ts : List Nat) : List UInt8 :=
  ((compressAll V (initial V nn) (blocks.zip ts)).flatMap bytesOfWord).take nn

/-- The unkeyed hash. -/
def hash (nn : Nat) (message : List UInt8) : List UInt8 :=
  digest V nn (dataBlocks w message) (offsets w (blockCount w message.length) message.length)

/-- Shifting by whole bytes reads the digits of a number. -/
theorem map_shiftRight_ofDigits (bytes : List UInt8) :
    ((List.range bytes.length).map fun i =>
      UInt8.ofNat (Nat.ofDigits 256 (bytes.map UInt8.toNat) >>> (8 * i))) = bytes := by
  induction bytes with
  | nil => rfl
  | cons b bytes ih =>
      have hb := b.toNat_lt
      rw [List.length_cons, List.range_succ_eq_map, List.map_cons, List.map_map, List.map_cons,
        Nat.ofDigits_cons]
      congr 1
      · rw [Nat.mul_zero, Nat.shiftRight_zero]
        apply UInt8.toNat_inj.mp
        rw [UInt8.toNat_ofNat', Nat.add_mul_mod_self_left, Nat.mod_eq_of_lt hb]
      · conv_rhs => rw [← ih]
        apply List.map_congr_left
        intro i _
        have hshift : (b.toNat + 256 * Nat.ofDigits 256 (bytes.map UInt8.toNat)) >>> 8 =
            Nat.ofDigits 256 (bytes.map UInt8.toNat) := by
          rw [Nat.shiftRight_eq_div_pow]
          omega
        rw [Function.comp_apply, Nat.mul_succ, Nat.add_comm (8 * i), Nat.shiftRight_add, hshift]

/-- A word is written as the bytes it was read from. -/
theorem bytesOfWord_wordOfBytes {bytes : List UInt8} (h : 8 * bytes.length = w) :
    bytesOfWord (wordOfBytes w bytes) = bytes := by
  subst h
  have hlt : Nat.ofDigits 256 (bytes.map UInt8.toNat) < 2 ^ (8 * bytes.length) := by
    have := Nat.ofDigits_lt_base_pow_length (b := 256) (by decide) (byte_lt bytes)
    rwa [List.length_map, show 256 = 2 ^ 8 from rfl, ← pow_mul] at this
  rw [bytesOfWord, wordOfBytes, BitVec.toNat_ofNat, Nat.mod_eq_of_lt hlt,
    Nat.mul_div_cancel_left _ (by decide), map_shiftRight_ofDigits]

/-- A block with others after it. -/
theorem compressAll_cons (h m : List (BitVec w)) (t : Nat) {blocks : List (List (BitVec w) × Nat)}
    (hne : blocks ≠ []) :
    compressAll V h ((m, t) :: blocks) = compressAll V (compress V h m t false) blocks := by
  cases blocks with
  | nil => exact absurd rfl hne
  | cons block blocks => rw [compressAll]

/-- The last block is final. -/
theorem compressAll_concat (h : List (BitVec w)) (blocks : List (List (BitVec w) × Nat))
    (m : List (BitVec w)) (t : Nat) :
    compressAll V h (blocks ++ [(m, t)]) =
      compress V (blocks.foldl (fun h block => compress V h block.1 block.2 false) h) m t true := by
  induction blocks generalizing h with
  | nil => rfl
  | cons block blocks ih =>
      rw [List.foldl_cons, ← ih, List.cons_append, compressAll_cons V h _ _ (by simp)]

/-! ## BLAKE2b -/

def blake2b : Variant 64 where
  rounds := 12
  r1 := 32
  r2 := 24
  r3 := 16
  r4 := 63
  iv := [0x6A09E667F3BCC908#64, 0xBB67AE8584CAA73B#64, 0x3C6EF372FE94F82B#64, 0xA54FF53A5F1D36F1#64,
    0x510E527FADE682D1#64, 0x9B05688C2B3E6C1F#64, 0x1F83D9ABFB41BD6B#64, 0x5BE0CD19137E2179#64]

example : hash blake2b 64 [97, 98, 99] =
    [0xba, 0x80, 0xa5, 0x3f, 0x98, 0x1c, 0x4d, 0x0d, 0x6a, 0x27, 0x97, 0xb6, 0x9f, 0x12, 0xf6, 0xe9,
     0x4c, 0x21, 0x2f, 0x14, 0x68, 0x5a, 0xc4, 0xb7, 0x4b, 0x12, 0xbb, 0x6f, 0xdb, 0xff, 0xa2, 0xd1,
     0x7d, 0x87, 0xc5, 0x39, 0x2a, 0xab, 0x79, 0x2d, 0xc2, 0x52, 0xd5, 0xde, 0x45, 0x33, 0xcc, 0x95,
     0x18, 0xd3, 0x8a, 0xa8, 0xdb, 0xf1, 0x92, 0x5a, 0xb9, 0x23, 0x86, 0xed, 0xd4, 0x00, 0x99,
     0x23] := by
  decide +kernel

end Blake2
