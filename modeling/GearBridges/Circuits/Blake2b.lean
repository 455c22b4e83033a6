import Mathlib.Algebra.Group.Nat.Defs
import Mathlib.Data.List.Basic

/-!
# Circuits.Blake2b

The Blake2b-256 circuit of `plonky2_blake2b256`, as the function of bytes it computes.
The block count is fixed by the message targets while the length is a target of its
own, so the circuit also hashes inputs that are no Blake2b input; the calling side is
responsible for the length.

The block loop is written over an arbitrary compression function (`Compression`), of
which `blake2b` is the one of the circuit.
-/

namespace GearBridges.Plonky2Blake2b256

def blockBytes : Nat := 128

/-- Compression function of the block loop: a block, the offset counter and the
final-block flag. -/
structure Compression where
  State : Type
  Digest : Type
  initial : State
  compress : State → List UInt8 → Nat → Bool → State
  digest : State → Digest

variable (C : Compression)

/-- The blocks from the `i`-th on, `rest` of them before the final one. -/
def compressBlocks : (rest i : Nat) → List UInt8 → Nat → C.State → C.State
  | 0, _, message, length, h => C.compress h (message.take blockBytes) length true
  | rest + 1, i, message, length, h =>
      compressBlocks rest (i + 1) (message.drop blockBytes) length
        (C.compress h (message.take blockBytes) ((i + 1) * blockBytes) false)

/-- Number of blocks of so many bytes: at least one. -/
def blockCount (bytes : Nat) : Nat := max 1 ((bytes + blockBytes - 1) / blockBytes)

/-- Zeros up to the end of the last block. -/
def padMessage (message : List UInt8) : List UInt8 :=
  message ++ List.replicate (blockCount message.length * blockBytes - message.length) 0

/-- `blake2_circuit_from_message_targets_and_length_target`. -/
def blake2CircuitFromMessageAndLength (message : List UInt8) (length : Nat) : C.Digest :=
  C.digest (compressBlocks C (blockCount message.length - 1) 0 (padMessage message) length C.initial)

/-- `blake2_circuit_from_targets`: the length is that of the message. -/
def blake2Circuit (message : List UInt8) : C.Digest :=
  blake2CircuitFromMessageAndLength C message message.length

theorem blockCount_pos (bytes : Nat) : 0 < blockCount bytes :=
  Nat.lt_of_lt_of_le Nat.one_pos (Nat.le_max_left _ _)

theorem le_blockCount_mul (bytes : Nat) : bytes ≤ blockCount bytes * blockBytes := by
  unfold blockCount blockBytes
  omega

theorem blockCount_mul {n : Nat} (hn : 0 < n) : blockCount (n * blockBytes) = n := by
  unfold blockCount blockBytes
  omega

@[simp] theorem length_padMessage (message : List UInt8) :
    (padMessage message).length = blockCount message.length * blockBytes := by
  have := le_blockCount_mul message.length
  unfold padMessage
  rw [List.length_append, List.length_replicate]
  omega

/-- Whole blocks are not padded. -/
theorem padMessage_of_length {message : List UInt8} {n : Nat} (hn : 0 < n)
    (h : message.length = n * blockBytes) : padMessage message = message := by
  unfold padMessage
  rw [h, blockCount_mul hn, Nat.sub_self, List.replicate_zero, List.append_nil]

/-- Padding first changes nothing. -/
theorem blake2CircuitFromMessageAndLength_padMessage (message : List UInt8) (length : Nat) :
    blake2CircuitFromMessageAndLength C (padMessage message) length =
      blake2CircuitFromMessageAndLength C message length := by
  have hcount : blockCount (padMessage message).length = blockCount message.length := by
    rw [length_padMessage, blockCount_mul (blockCount_pos _)]
  unfold blake2CircuitFromMessageAndLength
  rw [hcount, padMessage_of_length (blockCount_pos _) (length_padMessage message)]

/-- No other whole blocks and no other length hash to the digest of a message.  The offset
counter of the last block is one word. -/
def SecondPreimageFree (message : List UInt8) : Prop :=
  ∀ (other : List UInt8) (n length : Nat), 0 < n → other.length = n * blockBytes →
    length < 2 ^ 64 → blake2CircuitFromMessageAndLength C other length = blake2Circuit C message →
    other = padMessage message ∧ length = message.length

/-! ## a compression that keeps its input -/

/-- The blocks so far and the last offset. -/
abbrev freeCompression : Compression where
  State := List UInt8 × Nat
  Digest := List UInt8 × Nat
  initial := ([], 0)
  compress h block t _ := (h.1 ++ block, t)
  digest h := h

theorem compressBlocks_free (rest i length : Nat) (message : List UInt8) (h : List UInt8 × Nat)
    (hlen : message.length = (rest + 1) * blockBytes) :
    compressBlocks freeCompression rest i message length h = (h.1 ++ message, length) := by
  induction rest generalizing i message h with
  | zero =>
      rw [Nat.zero_add, Nat.one_mul] at hlen
      simp only [compressBlocks, List.take_of_length_le (Nat.le_of_eq hlen)]
  | succ rest ih =>
      have hdrop : (message.drop blockBytes).length = (rest + 1) * blockBytes := by
        rw [List.length_drop, hlen, Nat.succ_mul (rest + 1), Nat.add_sub_cancel]
      simp only [compressBlocks]
      rw [ih _ _ _ hdrop, List.append_assoc, List.take_append_drop]

theorem free_eq (message : List UInt8) (length : Nat) :
    blake2CircuitFromMessageAndLength freeCompression message length =
      (padMessage message, length) := by
  have hlen : (padMessage message).length =
      (blockCount message.length - 1 + 1) * blockBytes := by
    rw [length_padMessage, Nat.sub_add_cancel (blockCount_pos _)]
  unfold blake2CircuitFromMessageAndLength
  rw [compressBlocks_free _ _ _ _ _ hlen]
  rfl

theorem secondPreimageFree_free (message : List UInt8) :
    SecondPreimageFree freeCompression message := by
  intro other n length hn hlen _ h
  rw [blake2Circuit, free_eq, free_eq, padMessage_of_length hn hlen, Prod.mk.injEq] at h
  exact h

/-! ## the compression function -/

abbrev Word := BitVec 64

def iv : List Word :=
  [0x6A09E667F3BCC908#64, 0xBB67AE8584CAA73B#64, 0x3C6EF372FE94F82B#64, 0xA54FF53A5F1D36F1#64,
   0x510E527FADE682D1#64, 0x9B05688C2B3E6C1F#64, 0x1F83D9ABFB41BD6B#64, 0x5BE0CD19137E2179#64]

def sigma : List (List Nat) :=
  [[0, 1, 2, 3, 4, 5, 6, 7, 8, 9, 10, 11, 12, 13, 14, 15],
   [14, 10, 4, 8, 9, 15, 13, 6, 1, 12, 0, 2, 11, 7, 5, 3],
   [11, 8, 12, 0, 5, 2, 15, 13, 10, 14, 3, 6, 7, 1, 9, 4],
   [7, 9, 3, 1, 13, 12, 11, 14, 2, 6, 5, 10, 4, 0, 15, 8],
   [9, 0, 5, 7, 2, 4, 10, 15, 14, 1, 11, 12, 6, 8, 3, 13],
   [2, 12, 6, 10, 0, 11, 8, 3, 4, 13, 7, 5, 15, 14, 1, 9],
   [12, 5, 1, 15, 14, 13, 4, 10, 0, 7, 6, 3, 9, 2, 8, 11],
   [13, 11, 7, 14, 12, 1, 3, 9, 5, 0, 15, 4, 8, 6, 2, 10],
   [6, 15, 14, 9, 11, 3, 0, 8, 12, 2, 13, 7, 1, 4, 10, 5],
   [10, 2, 8, 4, 7, 6, 1, 5, 15, 11, 9, 14, 3, 12, 13, 0],
   [0, 1, 2, 3, 4, 5, 6, 7, 8, 9, 10, 11, 12, 13, 14, 15],
   [14, 10, 4, 8, 9, 15, 13, 6, 1, 12, 0, 2, 11, 7, 5, 3]]

/-- `G`. -/
def mixG (v : List Word) (a b c d : Nat) (x y : Word) : List Word :=
  let v := v.set a (v.getD a 0 + v.getD b 0 + x)
  let v := v.set d ((v.getD d 0 ^^^ v.getD a 0).rotateRight 32)
  let v := v.set c (v.getD c 0 + v.getD d 0)
  let v := v.set b ((v.getD b 0 ^^^ v.getD c 0).rotateRight 24)
  let v := v.set a (v.getD a 0 + v.getD b 0 + y)
  let v := v.set d ((v.getD d 0 ^^^ v.getD a 0).rotateRight 16)
  let v := v.set c (v.getD c 0 + v.getD d 0)
  v.set b ((v.getD b 0 ^^^ v.getD c 0).rotateRight 63)

/-- One round of `F`. -/
def mixRound (m : List Word) (v : List Word) (s : List Nat) : List Word :=
  let word i := m.getD (s.getD i 0) 0
  let v := mixG v 0 4 8 12 (word 0) (word 1)
  let v := mixG v 1 5 9 13 (word 2) (word 3)
  let v := mixG v 2 6 10 14 (word 4) (word 5)
  let v := mixG v 3 7 11 15 (word 6) (word 7)
  let v := mixG v 0 5 10 15 (word 8) (word 9)
  let v := mixG v 1 6 11 12 (word 10) (word 11)
  let v := mixG v 2 7 8 13 (word 12) (word 13)
  mixG v 3 4 9 14 (word 14) (word 15)

/-- `F`.  The high word of the offset is zero. -/
def compressWords (h m : List Word) (t : Nat) (f : Bool) : List Word :=
  let v := h ++ iv
  let v := v.set 12 (v.getD 12 0 ^^^ BitVec.ofNat 64 t)
  let v := if f then v.set 14 (~~~v.getD 14 0) else v
  let v := sigma.foldl (mixRound m) v
  (List.range 8).map fun i => h.getD i 0 ^^^ v.getD i 0 ^^^ v.getD (i + 8) 0

/-- The first `n` little-endian words of a byte string. -/
def wordsOfBytes (bytes : List UInt8) : Nat → List Word
  | 0 => []
  | n + 1 => BitVec.ofNat 64 ((bytes.take 8).foldr (fun b acc => b.toNat + 256 * acc) 0) ::
      wordsOfBytes (bytes.drop 8) n

/-- The little-endian bytes of a word. -/
def bytesOfWord (w : Word) : List UInt8 :=
  (List.range 8).map fun i => UInt8.ofNat (w.toNat >>> (8 * i))

/-- Blake2b with a 32-byte digest and no key. -/
abbrev blake2b : Compression where
  State := List Word
  Digest := List UInt8
  initial := iv.set 0 (iv.getD 0 0 ^^^ 0x01010000#64 ^^^ 32#64)
  compress h block t f := compressWords h (wordsOfBytes block 16) t f
  digest h := (h.take 4).flatMap bytesOfWord

example : blake2Circuit blake2b [] =
    [0x0e, 0x57, 0x51, 0xc0, 0x26, 0xe5, 0x43, 0xb2, 0xe8, 0xab, 0x2e, 0xb0, 0x60, 0x99, 0xda, 0xa1,
     0xd1, 0xe5, 0xdf, 0x47, 0x77, 0x8f, 0x77, 0x87, 0xfa, 0xab, 0x45, 0xcd, 0xf1, 0x2f, 0xe3,
     0xa8] := by
  decide +kernel

end GearBridges.Plonky2Blake2b256
