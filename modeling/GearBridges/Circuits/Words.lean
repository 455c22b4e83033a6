import Mathlib.Data.List.GetD
import Mathlib.Data.Set.Functor
import GearBridges.Circuits.ArithmeticU32
import GearBridges.Circuits.Blake2b
import GearBridges.Prover.Limbs

/-!
# Circuits.Words

The word gadgets of `plonky2_blake2b256`.  A word is 64 bits in a mixed order: its bytes
little-endian, the bits of a byte most significant first.  A gadget with internal wires
is the set of outputs some assignment of them allows; on the bits of words every gadget
has one output, the bits of the result, apart from the decomposition of a target
(`splitTargetToWordTargets_eq`), which two words may pass.
-/

namespace GearBridges.Plonky2Blake2b256

open Goldilocks Digits Prover Plonky2U32

attribute [local instance] Set.monad

/-- Bits of a word, byte by byte. -/
abbrev WordTargets := List Bool

def wordBits : Nat := 64

/-- `word_to_bits_le`. -/
def wordToBitsLe (w : Word) : WordTargets := arrayToBits (bytesOfWord w)

/-- `word_array_to_word_targets`. -/
def wordArrayToWordTargets (arr : List Word) : List WordTargets := arr.map wordToBitsLe

/-! ## bitwise gadgets -/

def notWord (w : WordTargets) : WordTargets := w.map not

/-- `xor`, from the conjunctions and negations of the builder. -/
def xor (a b : Bool) : Bool :=
  let c := !(!a && !b)
  let d := !(a && b)
  c && d

def xorWords (a b : WordTargets) : WordTargets := a.zipWith xor b

def tripleXorWords (a b c : WordTargets) : WordTargets := xorWords (xorWords a b) c

def rrightWord (inp : WordTargets) (amount : Nat) : WordTargets :=
  let inp := (chunks 8 inp).reverse.flatten
  let inp := inp.rotateRight amount
  (chunks 8 inp).reverse.flatten

/-! ## arithmetic gadgets -/

/-- `CircuitBuilder::split_le`: boolean targets that recombine to the target. -/
def splitLe (x : F) (n : Nat) : Set (List Bool) := {bits | bits.length = n ∧ leSum bits = x}

def splitWord (w : WordTargets) : List Bool × List Bool :=
  ((chunks 8 w).flatMap List.reverse).splitAt (wordBits / 2)

def collectWord (l h : List Bool) : WordTargets := (chunks 8 (l ++ h)).flatMap List.reverse

def addWordsWrapping (a b : WordTargets) : Set WordTargets := do
  let (aL, aH) := splitWord a
  let (bL, bH) := splitWord b
  let (resL, carry) ← addU32 (leSum aL) (leSum bL)
  let (resH, _) ← addU32sWithCarry [leSum aH, leSum bH] carry
  let resL ← splitLe resL (wordBits / 2)
  let resH ← splitLe resH (wordBits / 2)
  return collectWord resL resH

def tripleAddWordsWrapping (a b c : WordTargets) : Set WordTargets := do
  let aB ← addWordsWrapping a b
  addWordsWrapping aB c

def splitTargetToWordTargets (target : F) : Set WordTargets := do
  let bits ← splitLe target wordBits
  return (chunks 8 bits).flatMap List.reverse

/-! ## the order of the bits -/

theorem map_range_64 (f : Nat → Bool) :
    (List.range 64).map f =
      ((List.range 8).map fun i => (List.range 8).map fun j => f (8 * i + j)).flatten :=
  rfl

/-- The bytes of 64 bits given by position. -/
theorem chunks_map_range (f : Nat → Bool) :
    chunks 8 ((List.range 64).map f) =
      (List.range 8).map fun i => (List.range 8).map fun j => f (8 * i + j) := by
  rw [map_range_64]
  apply chunks_flatten (by decide)
  intro g hg
  obtain ⟨i, _, rfl⟩ := List.mem_map.mp hg
  rw [List.length_map, List.length_range]

/-- 64 bits given byte by byte. -/
theorem map_range_64_congr {f : Nat → Bool} {g : Nat → Nat → Bool}
    (h : ∀ i < 8, ∀ j < 8, f (8 * i + j) = g i j) :
    ((List.range 8).map fun i => (List.range 8).map fun j => g i j).flatten =
      (List.range 64).map f := by
  rw [map_range_64]
  congr 1
  apply List.map_congr_left
  intro i hi
  apply List.map_congr_left
  intro j hj
  exact (h i (List.mem_range.mp hi) j (List.mem_range.mp hj)).symm

/-- The bits of each byte in reverse order. -/
theorem flatMap_reverse_chunks (f : Nat → Bool) :
    (chunks 8 ((List.range 64).map f)).flatMap List.reverse =
      (List.range 64).map fun k => f (8 * (k / 8) + (7 - k % 8)) := by
  rw [chunks_map_range, List.flatMap_def, List.map_map]
  apply map_range_64_congr (g := fun i j => f (8 * i + (7 - j)))
  intro i hi j hj
  congr 1
  omega

/-- The bytes in reverse order. -/
theorem flatten_reverse_chunks (f : Nat → Bool) :
    (chunks 8 ((List.range 64).map f)).reverse.flatten =
      (List.range 64).map fun k => f (8 * (7 - k / 8) + k % 8) := by
  rw [chunks_map_range]
  apply map_range_64_congr (g := fun i j => f (8 * (7 - i) + j))
  intro i hi j hj
  congr 1
  omega

theorem byteToBits_ofNat (n : Nat) :
    byteToBits (UInt8.ofNat n) = (List.range 8).map fun j => n.testBit (7 - j) := by
  unfold byteToBits
  apply List.map_congr_left
  intro j hj
  have hj := List.mem_range.mp hj
  have hbit : (n % 2 ^ 8).testBit (7 - j) = n.testBit (7 - j) := by
    rw [Nat.testBit_mod_two_pow, decide_eq_true (by omega), Bool.true_and]
  rw [UInt8.toNat_ofNat', ← hbit, Nat.testBit_eq_decide_div_mod_eq, Nat.shiftRight_eq_div_pow]
  rfl

/-- A word bit by bit. -/
theorem wordToBitsLe_eq (w : Word) :
    wordToBitsLe w = (List.range 64).map fun k => w.toNat.testBit (8 * (k / 8) + (7 - k % 8)) := by
  rw [wordToBitsLe, arrayToBits, bytesOfWord, List.map_map]
  simp only [Function.comp_def, byteToBits_ofNat, Nat.testBit_shiftRight]
  apply map_range_64_congr
  intro i hi j hj
  congr 1
  omega

@[simp] theorem length_wordToBitsLe (w : Word) : (wordToBitsLe w).length = 64 := by
  rw [wordToBitsLe_eq, List.length_map, List.length_range]

/-- The lowest `n` bits of a number, lowest first. -/
def bitsLe (n x : Nat) : List Bool := (List.range n).map x.testBit

@[simp] theorem length_bitsLe (n x : Nat) : (bitsLe n x).length = n := by
  rw [bitsLe, List.length_map, List.length_range]

theorem bitsLe_succ (n x : Nat) : bitsLe (n + 1) x = bitsLe n x ++ [x.testBit n] := by
  rw [bitsLe, List.range_succ, List.map_append, List.map_singleton, bitsLe]

theorem bitsLe_add (m n x : Nat) : bitsLe (m + n) x = bitsLe m x ++ bitsLe n (x / 2 ^ m) := by
  rw [bitsLe, List.range_add, List.map_append, List.map_map, bitsLe, bitsLe]
  congr 1
  apply List.map_congr_left
  intro i _
  rw [Nat.testBit_div_two_pow, Function.comp_apply, Nat.add_comm]

theorem bitsLe_congr {n x y : Nat} (h : x % 2 ^ n = y % 2 ^ n) : bitsLe n x = bitsLe n y := by
  apply List.map_congr_left
  intro i hi
  have hbit : ∀ z : Nat, z.testBit i = (z % 2 ^ n).testBit i := by
    intro z
    rw [Nat.testBit_mod_two_pow, decide_eq_true (List.mem_range.mp hi), Bool.true_and]
  rw [hbit x, hbit y, h]

/-- Reversing the bits of each byte turns the lowest bits first ... -/
theorem flatMap_reverse_wordToBitsLe (w : Word) :
    (chunks 8 (wordToBitsLe w)).flatMap List.reverse = bitsLe 64 w.toNat := by
  rw [wordToBitsLe_eq, flatMap_reverse_chunks, bitsLe]
  apply List.map_congr_left
  intro k hk
  have hk := List.mem_range.mp hk
  congr 1
  omega

/-- ... and back. -/
theorem flatMap_reverse_bitsLe (w : Word) :
    (chunks 8 (bitsLe 64 w.toNat)).flatMap List.reverse = wordToBitsLe w := by
  rw [bitsLe, flatMap_reverse_chunks, wordToBitsLe_eq]

/-! ## bitwise gadgets on words -/

theorem notWord_wordToBitsLe (w : Word) : notWord (wordToBitsLe w) = wordToBitsLe (~~~w) := by
  rw [notWord, wordToBitsLe_eq, wordToBitsLe_eq, List.map_map]
  apply List.map_congr_left
  intro k hk
  have hk := List.mem_range.mp hk
  rw [Function.comp_apply, BitVec.testBit_toNat, BitVec.testBit_toNat, BitVec.getLsbD_not,
    decide_eq_true (by omega), Bool.true_and]

theorem xor_eq (a b : Bool) : xor a b = (a ^^ b) := by
  cases a <;> cases b <;> rfl

theorem xorWords_wordToBitsLe (a b : Word) :
    xorWords (wordToBitsLe a) (wordToBitsLe b) = wordToBitsLe (a ^^^ b) := by
  rw [xorWords, wordToBitsLe_eq, wordToBitsLe_eq, wordToBitsLe_eq, List.zipWith_map,
    List.zipWith_self]
  apply List.map_congr_left
  intro k _
  rw [xor_eq, BitVec.toNat_xor, Nat.testBit_xor]

theorem tripleXorWords_wordToBitsLe (a b c : Word) :
    tripleXorWords (wordToBitsLe a) (wordToBitsLe b) (wordToBitsLe c) =
      wordToBitsLe (a ^^^ b ^^^ c) := by
  rw [tripleXorWords, xorWords_wordToBitsLe, xorWords_wordToBitsLe]

/-- A rotated list of 64 bits given by position. -/
theorem rotateRight_map_range (f : Nat → Bool) {n : Nat} (hn : n < 64) :
    ((List.range 64).map f).rotateRight n = (List.range 64).map fun k => f ((k + (64 - n)) % 64) := by
  unfold List.rotateRight
  simp only [List.length_map, List.length_range, Nat.mod_eq_of_lt hn]
  rw [if_neg (by decide)]
  apply List.ext_getElem
  · simp
  · intro k h1 h2
    rw [List.length_map, List.length_range] at h2
    rw [List.getElem_append, List.getElem_map, List.getElem_range]
    split
    · next h =>
        rw [List.length_drop, List.length_map, List.length_range] at h
        rw [List.getElem_drop, List.getElem_map, List.getElem_range]
        congr 1
        omega
    · next h =>
        rw [List.length_drop, List.length_map, List.length_range] at h
        rw [List.getElem_take, List.getElem_map, List.getElem_range]
        congr 1
        simp only [List.length_drop, List.length_map, List.length_range]
        omega

theorem rrightWord_wordToBitsLe (w : Word) {n : Nat} (hn : n < 64) :
    rrightWord (wordToBitsLe w) n = wordToBitsLe (w.rotateRight n) := by
  unfold rrightWord
  simp only
  rw [wordToBitsLe_eq, flatten_reverse_chunks, rotateRight_map_range _ hn, flatten_reverse_chunks,
    wordToBitsLe_eq]
  apply List.map_congr_left
  intro k hk
  have hk := List.mem_range.mp hk
  rw [BitVec.testBit_toNat, BitVec.testBit_toNat, BitVec.getLsbD_rotateRight_of_lt hn]
  by_cases hlow : 8 * (k / 8) + (7 - k % 8) < 64 - n
  · rw [decide_eq_true hlow, cond_true]
    congr 1
    omega
  · rw [decide_eq_false hlow, cond_false, decide_eq_true (by omega), Bool.true_and]
    congr 1
    omega

/-! ## arithmetic gadgets on words -/

theorem leSum_bitsLe (n x : Nat) : leSum (bitsLe n x) = ((x % 2 ^ n : Nat) : F) := by
  induction n with
  | zero => rw [pow_zero, Nat.mod_one]; rfl
  | succ n ih =>
      have hmod : x % 2 ^ (n + 1) = 2 ^ n * (x.testBit n).toNat + x % 2 ^ n := by
        rw [Nat.pow_succ, Nat.mod_mul, Nat.add_comm, Nat.toNat_testBit]
      rw [bitsLe_succ, leSum_concat, ih, length_bitsLe, hmod]
      push_cast
      rfl

/-- Bits write a number. -/
theorem exists_bitsLe (bits : List Bool) : ∃ x < 2 ^ bits.length, bitsLe bits.length x = bits := by
  refine ⟨(BitVec.ofBoolListLE bits).toNat, BitVec.isLt _, ?_⟩
  apply List.ext_getElem
  · rw [length_bitsLe]
  · intro i h1 h2
    simp only [bitsLe, List.getElem_map, List.getElem_range]
    rw [BitVec.testBit_toNat, BitVec.getLsbD_ofBoolListLE, List.getD_eq_getElem _ _ h2]

theorem mem_splitLe {x : F} {n : Nat} {bits : List Bool} :
    bits ∈ splitLe x n ↔ ∃ v : Nat, v < 2 ^ n ∧ (v : F) = x ∧ bits = bitsLe n v := by
  constructor
  · rintro ⟨rfl, hsum⟩
    obtain ⟨v, hv, hbits⟩ := exists_bitsLe bits
    refine ⟨v, hv, ?_, hbits.symm⟩
    rw [← hsum, ← hbits, leSum_bitsLe, Nat.mod_eq_of_lt hv]
  · rintro ⟨v, hv, hx, rfl⟩
    exact ⟨length_bitsLe n v, by rw [leSum_bitsLe, Nat.mod_eq_of_lt hv, hx]⟩

/-- A number has one decomposition into fewer bits than the modulus has. -/
theorem splitLe_natCast {n v : Nat} (hn : n < 64) (hv : v < 2 ^ n) :
    splitLe (v : F) n = {bitsLe n v} := by
  have hmod : 2 ^ n < modulus := by
    have hpow := Nat.pow_le_pow_right (show 0 < 2 by decide) (Nat.le_of_lt_succ hn)
    exact Nat.lt_of_le_of_lt hpow (by decide)
  ext bits
  rw [mem_splitLe, Set.mem_singleton_iff]
  constructor
  · rintro ⟨u, hu, heq, rfl⟩
    rw [(natCast_inj (Nat.lt_trans hu hmod) (Nat.lt_trans hv hmod)).mp heq]
  · intro hbits
    exact ⟨v, hv, rfl, hbits⟩

theorem splitWord_wordToBitsLe (w : Word) :
    splitWord (wordToBitsLe w) = (bitsLe 32 w.toNat, bitsLe 32 (w.toNat / 2 ^ 32)) := by
  rw [splitWord, flatMap_reverse_wordToBitsLe, List.splitAt_eq, bitsLe_add 32 32, wordBits,
    List.take_left' (length_bitsLe _ _), List.drop_left' (length_bitsLe _ _)]

theorem collectWord_bitsLe (w : Word) :
    collectWord (bitsLe 32 w.toNat) (bitsLe 32 (w.toNat / 2 ^ 32)) = wordToBitsLe w := by
  rw [collectWord, ← bitsLe_add, flatMap_reverse_bitsLe]

theorem addWordsWrapping_wordToBitsLe (a b : Word) :
    addWordsWrapping (wordToBitsLe a) (wordToBitsLe b) = pure (wordToBitsLe (a + b)) := by
  have ha := a.isLt
  have hb := b.isLt
  have hlow : bitsLe 32 ((a.toNat % 2 ^ 32 + b.toNat % 2 ^ 32) % 2 ^ 32) =
      bitsLe 32 (a + b).toNat := by
    apply bitsLe_congr
    rw [BitVec.toNat_add]
    omega
  have hhigh : bitsLe 32 ((a.toNat / 2 ^ 32 % 2 ^ 32 + b.toNat / 2 ^ 32 % 2 ^ 32 +
      (a.toNat % 2 ^ 32 + b.toNat % 2 ^ 32) / 2 ^ 32) % 2 ^ 32) =
      bitsLe 32 ((a + b).toNat / 2 ^ 32) := by
    apply bitsLe_congr
    rw [BitVec.toNat_add]
    omega
  unfold addWordsWrapping
  simp only [splitWord_wordToBitsLe, leSum_bitsLe]
  rw [addU32_natCast (Nat.mod_lt _ (by decide)) (Nat.mod_lt _ (by decide)), ← Set.pure_def, pure_bind]
  simp only
  rw [addU32sWithCarry_natCast (Nat.mod_lt _ (by decide)) (Nat.mod_lt _ (by decide)) (by omega),
    ← Set.pure_def, pure_bind]
  simp only [wordBits]
  rw [splitLe_natCast (by decide) (Nat.mod_lt _ (by decide)), ← Set.pure_def, pure_bind,
    splitLe_natCast (by decide) (Nat.mod_lt _ (by decide)), ← Set.pure_def, pure_bind]
  rw [hlow, hhigh, collectWord_bitsLe]

theorem tripleAddWordsWrapping_wordToBitsLe (a b c : Word) :
    tripleAddWordsWrapping (wordToBitsLe a) (wordToBitsLe b) (wordToBitsLe c) =
      pure (wordToBitsLe (a + b + c)) := by
  rw [tripleAddWordsWrapping, addWordsWrapping_wordToBitsLe, pure_bind, addWordsWrapping_wordToBitsLe]

/-- The words a target may be decomposed into. -/
theorem splitTargetToWordTargets_eq (target : F) :
    splitTargetToWordTargets target =
      {bits | ∃ w : Word, (w.toNat : F) = target ∧ bits = wordToBitsLe w} := by
  ext bits
  simp only [splitTargetToWordTargets, Set.bind_def, Set.pure_def, Set.mem_iUnion, mem_splitLe,
    Set.mem_singleton_iff, exists_prop, Set.mem_ofPred_eq]
  constructor
  · rintro ⟨_, ⟨v, hv, hx, rfl⟩, rfl⟩
    have hword : (BitVec.ofNat 64 v).toNat = v := by rw [BitVec.toNat_ofNat]; exact Nat.mod_eq_of_lt hv
    refine ⟨BitVec.ofNat 64 v, ?_, ?_⟩
    · rw [hword, hx]
    · rw [← flatMap_reverse_bitsLe, hword, wordBits]
  · rintro ⟨w, hw, rfl⟩
    exact ⟨_, ⟨w.toNat, w.isLt, hw, rfl⟩, (flatMap_reverse_bitsLe w).symm⟩

end GearBridges.Plonky2Blake2b256
