import GearBridges.Circuits.Words
import GearBridges.Lib.Blake2

/-!
# Circuits.Blake2bCircuit

The Blake2b-256 circuit of `plonky2_blake2b256` as a relation: the digests some assignment
of the internal wires allows for message bits and a length target.

All wires follow from the message but the words the offset counters are decomposed into.
`split_le` into 64 bits asks for a number congruent to the counter modulo the order of the
field, and a counter below `2 ^ 32 - 1` has two of them.  The digests are therefore those of
RFC 7693 over every choice of the counters (`mem_blake2CircuitFromMessageTargetsAndLengthTarget`).
-/

namespace GearBridges.Plonky2Blake2b256

open Goldilocks Digits Prover

attribute [local instance] Set.monad

/-! ## the circuit -/

def r1 : Nat := 32
def r2 : Nat := 24
def r3 : Nat := 16
def r4 : Nat := 63

def blockBits : Nat := blockBytes * 8
def hashBytes : Nat := 32
def hashBits : Nat := hashBytes * 8
def keyBytes : Nat := 0

/-- A word of an array; all indices of the source are within it. -/
def wordAt (v : List WordTargets) (i : Nat) : WordTargets := v.getD i (wordToBitsLe 0)

/-- `G`. -/
def circuitG (v : List WordTargets) (a b c d : Nat) (x y : WordTargets) :
    Set (List WordTargets) := do
  let v := v.set a (← tripleAddWordsWrapping (wordAt v a) (wordAt v b) x)
  let v := v.set d (rrightWord (xorWords (wordAt v d) (wordAt v a)) r1)
  let v := v.set c (← addWordsWrapping (wordAt v c) (wordAt v d))
  let v := v.set b (rrightWord (xorWords (wordAt v b) (wordAt v c)) r2)
  let v := v.set a (← tripleAddWordsWrapping (wordAt v a) (wordAt v b) y)
  let v := v.set d (rrightWord (xorWords (wordAt v d) (wordAt v a)) r3)
  let v := v.set c (← addWordsWrapping (wordAt v c) (wordAt v d))
  return v.set b (rrightWord (xorWords (wordAt v b) (wordAt v c)) r4)

/-- One iteration of the loop of `F`. -/
def circuitRound (m v : List WordTargets) (s : List Nat) : Set (List WordTargets) := do
  let word i := wordAt m (s.getD i 0)
  let v ← circuitG v 0 4 8 12 (word 0) (word 1)
  let v ← circuitG v 1 5 9 13 (word 2) (word 3)
  let v ← circuitG v 2 6 10 14 (word 4) (word 5)
  let v ← circuitG v 3 7 11 15 (word 6) (word 7)
  let v ← circuitG v 0 5 10 15 (word 8) (word 9)
  let v ← circuitG v 1 6 11 12 (word 10) (word 11)
  let v ← circuitG v 2 7 8 13 (word 12) (word 13)
  circuitG v 3 4 9 14 (word 14) (word 15)

/-- The vector of `F` before the rounds. -/
def circuitV (iv h : List WordTargets) (offsetLowWord : WordTargets) (f : Bool) :
    List WordTargets :=
  let v := h ++ iv
  let offsetHighWord := wordAt (wordArrayToWordTargets [0]) 0
  let v := v.set 12 (xorWords (wordAt v 12) offsetLowWord)
  let v := v.set 13 (xorWords (wordAt v 13) offsetHighWord)
  if f then v.set 14 (notWord (wordAt v 14)) else v

/-- `F`. -/
def circuitF (iv h m : List WordTargets) (t : F) (f : Bool) : Set (List WordTargets) := do
  let offsetLowWord ← splitTargetToWordTargets t
  let v ← sigma.foldlM (circuitRound m) (circuitV iv h offsetLowWord f)
  return (List.range 8).map fun i => tripleXorWords (wordAt h i) (wordAt v i) (wordAt v (i + 8))

/-- `blake2_circuit_from_message_targets_and_length_target`. -/
def blake2CircuitFromMessageTargetsAndLengthTarget (message : List Bool) (length : F) :
    Set (List Bool) := do
  guard (message.length % 8 = 0)
  let dd := message.length / blockBits + if message.length % blockBits ≠ 0 then 1 else 0
  let dd := max dd 1
  let message := message ++ List.replicate (dd * blockBits - message.length) false
  let messageBlocks := (chunks blockBits message).map (chunks wordBits)
  guard (messageBlocks.length = dd)
  let initialHValue := iv.set 0 (iv.getD 0 0 ^^^ 0x01010000#64 ^^^ BitVec.ofNat 64 (keyBytes <<< 8) ^^^
    BitVec.ofNat 64 hashBytes)
  let h := wordArrayToWordTargets initialHValue
  let iv := wordArrayToWordTargets iv
  let h ← (List.range (dd - 1)).foldlM (fun h i =>
    circuitF iv h (messageBlocks.getD i []) (((i + 1) * blockBytes : Nat) : F) false) h
  let h ← circuitF iv h (messageBlocks.getD (dd - 1) []) length true
  return h.flatten.take hashBits

/-- `blake2_circuit_from_targets`. -/
def blake2CircuitFromTargets (message : List Bool) : Set (List Bool) := do
  guard (message.length % 8 = 0)
  blake2CircuitFromMessageTargetsAndLengthTarget message ((message.length / 8 : Nat) : F)

/-! ## rounds on words -/

@[simp] theorem wordAt_map (v : List Word) (i : Nat) :
    wordAt (v.map wordToBitsLe) i = wordToBitsLe (v.getD i 0) := by
  rw [wordAt, List.getD_map]

theorem circuitG_wordToBitsLe (v : List Word) (a b c d : Nat) (x y : Word) :
    circuitG (v.map wordToBitsLe) a b c d (wordToBitsLe x) (wordToBitsLe y) =
      pure ((mixG v a b c d x y).map wordToBitsLe) := by
  unfold circuitG r1 r2 r3 r4
  simp only [wordAt_map, tripleAddWordsWrapping_wordToBitsLe, addWordsWrapping_wordToBitsLe, pure_bind,
    ← List.map_set, xorWords_wordToBitsLe, rrightWord_wordToBitsLe _ (show 32 < 64 by decide),
    rrightWord_wordToBitsLe _ (show 24 < 64 by decide),
    rrightWord_wordToBitsLe _ (show 16 < 64 by decide),
    rrightWord_wordToBitsLe _ (show 63 < 64 by decide)]
  rfl

theorem circuitRound_wordToBitsLe (m v : List Word) (s : List Nat) :
    circuitRound (m.map wordToBitsLe) (v.map wordToBitsLe) s =
      pure ((mixRound m v s).map wordToBitsLe) := by
  unfold circuitRound
  simp only [wordAt_map, circuitG_wordToBitsLe, pure_bind]
  rfl

theorem foldlM_circuitRound (m v : List Word) (rows : List (List Nat)) :
    rows.foldlM (circuitRound (m.map wordToBitsLe)) (v.map wordToBitsLe) =
      pure ((rows.foldl (mixRound m) v).map wordToBitsLe) := by
  induction rows generalizing v with
  | nil => rfl
  | cons s rows ih => rw [List.foldlM_cons, circuitRound_wordToBitsLe, pure_bind, ih, List.foldl_cons]

theorem mixG_eq (v : List Word) (a b c d : Nat) (x y : Word) :
    mixG v a b c d x y = Blake2.mix Blake2.blake2b v a b c d x y := rfl

theorem mixRound_eq (m v : List Word) (i : Nat) :
    mixRound m v (Blake2.sigma.getD (i % 10) []) = Blake2.round Blake2.blake2b m v i := by
  simp only [mixRound, Blake2.round, Blake2.lanes, List.zipIdx_cons, List.zipIdx_nil, List.foldl_cons,
    List.foldl_nil, mixG_eq]

/-- The rows of the circuit are those of the rounds. -/
theorem foldl_sigma (m v : List Word) :
    sigma.foldl (mixRound m) v =
      (List.range Blake2.blake2b.rounds).foldl (Blake2.round Blake2.blake2b m) v := by
  have hrows : sigma =
      (List.range Blake2.blake2b.rounds).map fun i => Blake2.sigma.getD (i % 10) [] := rfl
  rw [hrows, List.foldl_map]
  simp only [mixRound_eq]

theorem circuitV_wordToBitsLe (h : List Word) (w : Word) (f : Bool) :
    circuitV (iv.map wordToBitsLe) (h.map wordToBitsLe) (wordToBitsLe w) f =
      (Blake2.workVector Blake2.blake2b h w.toNat f).map wordToBitsLe := by
  have hhigh : BitVec.ofNat 64 (w.toNat >>> 64) = 0 := by
    rw [Nat.shiftRight_eq_div_pow, Nat.div_eq_of_lt w.isLt]
    rfl
  unfold circuitV Blake2.workVector
  rw [hhigh, BitVec.ofNat_toNat, BitVec.setWidth_eq]
  cases f with
  | false =>
      simp only [wordArrayToWordTargets, ← List.map_append, wordAt_map, xorWords_wordToBitsLe,
        ← List.map_set]
      rfl
  | true =>
      simp only [wordArrayToWordTargets, ← List.map_append, wordAt_map, xorWords_wordToBitsLe,
        ← List.map_set, notWord_wordToBitsLe, BitVec.xor_allOnes]
      rfl

theorem mem_bind {α β : Type} {s : Set α} {f : α → Set β} {b : β} :
    b ∈ s >>= f ↔ ∃ a ∈ s, b ∈ f a := by
  simp only [Set.bind_def, Set.mem_iUnion, exists_prop]

theorem guard_bind {β : Type} {p : Prop} [Decidable p] (h : p) (f : Unit → Set β) :
    (guard p >>= f) = f () := by
  rw [guard, if_pos h, pure_bind]

/-- A number a target may be decomposed into. -/
def Represents (t : Nat) (target : F) : Prop := t < 2 ^ 64 ∧ (t : F) = target

/-- The compression of the circuit is that of the RFC over the numbers its counter is
decomposed into. -/
theorem mem_circuitF {h m : List Word} {target : F} {f : Bool} {out : List WordTargets} :
    out ∈ circuitF (iv.map wordToBitsLe) (h.map wordToBitsLe) (m.map wordToBitsLe) target f ↔
      ∃ t, Represents t target ∧ out = (Blake2.compress Blake2.blake2b h m t f).map wordToBitsLe := by
  have hword : ∀ w : Word, (sigma.foldlM (circuitRound (m.map wordToBitsLe))
      (circuitV (iv.map wordToBitsLe) (h.map wordToBitsLe) (wordToBitsLe w) f) >>= fun v =>
        pure ((List.range 8).map fun i =>
          tripleXorWords (wordAt (h.map wordToBitsLe) i) (wordAt v i) (wordAt v (i + 8)))) =
      pure ((Blake2.compress Blake2.blake2b h m w.toNat f).map wordToBitsLe) := by
    intro w
    rw [circuitV_wordToBitsLe, foldlM_circuitRound, pure_bind, foldl_sigma, Blake2.compress,
      List.map_map]
    simp only [wordAt_map, tripleXorWords_wordToBitsLe]
    rfl
  rw [circuitF, mem_bind, splitTargetToWordTargets_eq]
  constructor
  · rintro ⟨_, ⟨w, hw, rfl⟩, hout⟩
    rw [hword, Set.pure_def, Set.mem_singleton_iff] at hout
    exact ⟨w.toNat, ⟨w.isLt, hw⟩, hout⟩
  · rintro ⟨t, ⟨ht, htarget⟩, rfl⟩
    have hofNat : (BitVec.ofNat 64 t).toNat = t := by rw [BitVec.toNat_ofNat, Nat.mod_eq_of_lt ht]
    refine ⟨wordToBitsLe (BitVec.ofNat 64 t), ⟨_, by rw [hofNat, htarget], rfl⟩, ?_⟩
    rw [hword, hofNat, Set.pure_def, Set.mem_singleton_iff]

/-! ## the block loop -/

/-- The counter targets of so many blocks, the last one given. -/
def counterTargets (blocks : Nat) (length : F) : List F :=
  ((List.range (blocks - 1)).map fun i => (((i + 1) * blockBytes : Nat) : F)) ++ [length]

theorem forall₂_concat {α β : Type} {r : α → β → Prop} {l : List α} {xs : List β} {x : β} :
    List.Forall₂ r l (xs ++ [x]) ↔ ∃ ts t, l = ts ++ [t] ∧ List.Forall₂ r ts xs ∧ r t x := by
  constructor
  · intro h
    have hlast := List.forall₂_drop_append l xs [x] h
    obtain ⟨t, rest, ht, hrest, hdrop⟩ := List.forall₂_cons_right_iff.mp hlast
    refine ⟨l.take xs.length, t, ?_, List.forall₂_take_append l xs [x] h, ht⟩
    cases hrest
    rw [← hdrop, List.take_append_drop]
  · rintro ⟨ts, t, rfl, hts, ht⟩
    exact List.rel_append hts (List.Forall₂.cons ht List.Forall₂.nil)

/-- One more block with its counter. -/
theorem zip_take_concat {blocks : List (List Word)} {n : Nat} (hn : n < blocks.length) {ts : List Nat}
    (hts : ts.length = n) (t : Nat) :
    (blocks.take (n + 1)).zip (ts ++ [t]) = (blocks.take n).zip ts ++ [(blocks.getD n [], t)] := by
  rw [List.take_succ_eq_append_getElem hn,
    List.zip_append (by rw [hts, List.length_take_of_le (Nat.le_of_lt hn)]),
    List.getD_eq_getElem _ _ hn]
  rfl

theorem length_of_represents {n : Nat} {ts : List Nat} {f : Nat → F}
    (h : List.Forall₂ Represents ts ((List.range n).map f)) : ts.length = n := by
  rw [h.length_eq, List.length_map, List.length_range]

/-- The blocks before the final one. -/
theorem mem_foldlM_circuitF {blocks : List (List Word)} {n : Nat} (hn : n ≤ blocks.length)
    {h : List Word} {out : List WordTargets} :
    out ∈ (List.range n).foldlM (fun h i => circuitF (iv.map wordToBitsLe) h
        ((blocks.map (List.map wordToBitsLe)).getD i []) (((i + 1) * blockBytes : Nat) : F) false)
        (h.map wordToBitsLe) ↔
      ∃ ts, List.Forall₂ Represents ts
          ((List.range n).map fun i => (((i + 1) * blockBytes : Nat) : F)) ∧
        out = (((blocks.take n).zip ts).foldl (fun h block =>
          Blake2.compress Blake2.blake2b h block.1 block.2 false) h).map wordToBitsLe := by
  induction n generalizing out with
  | zero =>
      rw [List.range_zero, List.foldlM_nil, Set.pure_def, Set.mem_singleton_iff, List.map_nil]
      constructor
      · intro hout
        exact ⟨[], List.Forall₂.nil, hout⟩
      · rintro ⟨ts, hts, hout⟩
        cases hts
        exact hout
  | succ n ih =>
      have hblock : (blocks.map (List.map wordToBitsLe)).getD n [] =
          (blocks.getD n []).map wordToBitsLe := List.getD_map blocks [] _
      rw [List.range_succ, List.foldlM_append, mem_bind, List.map_append, List.map_singleton]
      simp only [List.foldlM_cons, List.foldlM_nil, bind_pure, ih (Nat.le_of_succ_le hn), hblock]
      constructor
      · rintro ⟨_, ⟨ts, hts, rfl⟩, hout⟩
        obtain ⟨t, ht, rfl⟩ := mem_circuitF.mp hout
        refine ⟨ts ++ [t], forall₂_concat.mpr ⟨ts, t, rfl, hts, ht⟩, ?_⟩
        rw [zip_take_concat hn (length_of_represents hts), List.foldl_append]
        rfl
      · rintro ⟨_, hall, rfl⟩
        obtain ⟨ts, t, rfl, hts, ht⟩ := forall₂_concat.mp hall
        refine ⟨_, ⟨ts, hts, rfl⟩, mem_circuitF.mpr ⟨t, ht, ?_⟩⟩
        rw [zip_take_concat hn (length_of_represents hts), List.foldl_append]
        rfl

/-! ## the message and the digest -/

/-- The groups of bits of groups of bytes. -/
theorem chunks_arrayToBits_groups {n k : Nat} (hk : 0 < k) {data : List UInt8}
    (h : data.length = n * k) :
    chunks (8 * k) (arrayToBits data) = (chunks k data).map arrayToBits := by
  obtain ⟨_, hg, hflat⟩ := chunks_spec hk h
  conv_lhs => rw [← hflat, arrayToBits_flatten]
  apply chunks_flatten (by omega)
  intro bits hbits
  obtain ⟨g, hmem, rfl⟩ := List.mem_map.mp hbits
  rw [length_arrayToBits, hg g hmem]

theorem wordToBitsLe_wordOfBytes {bytes : List UInt8} (h : bytes.length = 8) :
    wordToBitsLe (Blake2.wordOfBytes 64 bytes) = arrayToBits bytes := by
  have hbytes : bytesOfWord (Blake2.wordOfBytes 64 bytes) = bytes :=
    Blake2.bytesOfWord_wordOfBytes (by rw [h])
  rw [wordToBitsLe, hbytes]

theorem pad_eq (message : List UInt8) : Blake2.pad 64 message = padMessage message := rfl

theorem messageBlocks_eq (message : List UInt8) :
    (chunks blockBits (arrayToBits (padMessage message))).map (chunks wordBits) =
      (Blake2.dataBlocks 64 message).map (List.map wordToBitsLe) := by
  obtain ⟨_, hg, _⟩ := chunks_spec (k := blockBytes) (by decide) (length_padMessage message)
  rw [show blockBits = 8 * blockBytes from rfl,
    chunks_arrayToBits_groups (by decide) (length_padMessage message), Blake2.dataBlocks, pad_eq,
    List.map_map, List.map_map]
  apply List.map_congr_left
  intro block hblock
  have hlen : block.length = 16 * 8 := hg block hblock
  obtain ⟨_, hwords, _⟩ := chunks_spec (by decide) hlen
  rw [Function.comp_apply, Function.comp_apply, Blake2.blockWords, show wordBits = 8 * 8 from rfl,
    chunks_arrayToBits_groups (by decide) hlen, List.map_map]
  apply List.map_congr_left
  intro bytes hbytes
  rw [Function.comp_apply, wordToBitsLe_wordOfBytes (hwords bytes hbytes)]

theorem take_flatten_wordToBitsLe (h : List Word) (n : Nat) :
    (h.map wordToBitsLe).flatten.take (8 * n) =
      arrayToBits ((h.flatMap Blake2.bytesOfWord).take n) := by
  have hflat : (h.map wordToBitsLe).flatten = arrayToBits (h.flatMap Blake2.bytesOfWord) := by
    rw [List.flatMap_def, arrayToBits_flatten, List.map_map]
    rfl
  rw [hflat, take_arrayToBits]

theorem blockCount_eq (message : List UInt8) :
    max ((arrayToBits message).length / blockBits +
      if (arrayToBits message).length % blockBits ≠ 0 then 1 else 0) 1 = blockCount message.length := by
  rw [length_arrayToBits]
  unfold blockBits blockCount blockBytes
  split <;> omega

theorem append_zeros_eq (message : List UInt8) :
    arrayToBits message ++ List.replicate
      (blockCount message.length * blockBits - (arrayToBits message).length) false =
      arrayToBits (padMessage message) := by
  rw [padMessage, arrayToBits_append, arrayToBits_zeros, length_arrayToBits, Nat.mul_sub]
  congr 3
  unfold blockBits
  ring

theorem length_dataBlocks (message : List UInt8) :
    (Blake2.dataBlocks 64 message).length = blockCount message.length := by
  rw [Blake2.dataBlocks, List.length_map, pad_eq]
  exact (chunks_spec (k := blockBytes) (by decide) (length_padMessage message)).1

/-- The digest of the RFC with the last block apart. -/
theorem arrayToBits_digest {blocks : List (List Word)} {n : Nat} (hcount : blocks.length = n + 1)
    {ts : List Nat} (hts : ts.length = n) (t : Nat) :
    arrayToBits (Blake2.digest Blake2.blake2b 32 blocks (ts ++ [t])) =
      ((Blake2.compress Blake2.blake2b (((blocks.take n).zip ts).foldl
        (fun h block => Blake2.compress Blake2.blake2b h block.1 block.2 false)
        (Blake2.initial Blake2.blake2b 32)) (blocks.getD n []) t true).map
          wordToBitsLe).flatten.take hashBits := by
  have hzip := zip_take_concat (show n < blocks.length by omega) hts t
  rw [List.take_of_length_le (Nat.le_of_eq hcount)] at hzip
  rw [Blake2.digest, hzip, Blake2.compressAll_concat, show hashBits = 8 * 32 from rfl,
    take_flatten_wordToBitsLe]

theorem initialHValue_eq :
    iv.set 0 (iv.getD 0 0 ^^^ 0x01010000#64 ^^^ BitVec.ofNat 64 (keyBytes <<< 8) ^^^
      BitVec.ofNat 64 hashBytes) = Blake2.initial Blake2.blake2b 32 := by
  decide

/-- The digests of the circuit are those of the RFC over all the numbers its counters may be
decomposed into. -/
theorem mem_blake2CircuitFromMessageTargetsAndLengthTarget {message : List UInt8} {length : F}
    {digest : List Bool} :
    digest ∈ blake2CircuitFromMessageTargetsAndLengthTarget (arrayToBits message) length ↔
      ∃ ts, List.Forall₂ Represents ts (counterTargets (blockCount message.length) length) ∧
        digest = arrayToBits (Blake2.digest Blake2.blake2b 32 (Blake2.dataBlocks 64 message) ts) := by
  have hbytes : (arrayToBits message).length % 8 = 0 := by
    rw [length_arrayToBits, Nat.mul_mod_right]
  have hlen : ((Blake2.dataBlocks 64 message).map (List.map wordToBitsLe)).length =
      blockCount message.length := by
    rw [List.length_map, length_dataBlocks]
  unfold blake2CircuitFromMessageTargetsAndLengthTarget
  rw [guard_bind hbytes]
  simp only [blockCount_eq, append_zeros_eq, messageBlocks_eq]
  rw [guard_bind hlen, mem_bind]
  simp only [wordArrayToWordTargets, initialHValue_eq]
  obtain ⟨n, hn⟩ : ∃ n, blockCount message.length = n + 1 :=
    ⟨_, (Nat.sub_add_cancel (blockCount_pos message.length)).symm⟩
  have hcount : (Blake2.dataBlocks 64 message).length = n + 1 := by rw [length_dataBlocks, hn]
  have hlast : n ≤ (Blake2.dataBlocks 64 message).length := by omega
  have hblock : ((Blake2.dataBlocks 64 message).map (List.map wordToBitsLe)).getD n [] =
      ((Blake2.dataBlocks 64 message).getD n []).map wordToBitsLe := List.getD_map _ [] _
  rw [hn, Nat.add_sub_cancel, counterTargets, Nat.add_sub_cancel]
  constructor
  · rintro ⟨_, hloop, hout⟩
    obtain ⟨ts, hts, rfl⟩ := (mem_foldlM_circuitF hlast).mp hloop
    rw [mem_bind, hblock] at hout
    obtain ⟨_, hfinal, hout⟩ := hout
    obtain ⟨t, ht, rfl⟩ := mem_circuitF.mp hfinal
    refine ⟨ts ++ [t], forall₂_concat.mpr ⟨ts, t, rfl, hts, ht⟩, ?_⟩
    rw [arrayToBits_digest hcount (length_of_represents hts) t]
    exact hout
  · rintro ⟨_, hall, rfl⟩
    obtain ⟨ts, t, rfl, hts, ht⟩ := forall₂_concat.mp hall
    refine ⟨_, (mem_foldlM_circuitF hlast).mpr ⟨ts, hts, rfl⟩, ?_⟩
    rw [mem_bind, hblock]
    exact ⟨_, mem_circuitF.mpr ⟨t, ht, rfl⟩, arrayToBits_digest hcount (length_of_represents hts) t⟩

/-! ## counters with two decompositions -/

/-- A number below `2 ^ 64` that is congruent to an offset: the offset, or the second one a
small offset has. -/
def SameTarget (t offset : Nat) : Prop :=
  t = offset ∨ offset < 2 ^ 32 - 1 ∧ t = offset + modulus

theorem represents_natCast {t offset : Nat} (h : offset < modulus) :
    Represents t (offset : F) ↔ SameTarget t offset := by
  rw [Represents, ZMod.natCast_eq_natCast_iff', Nat.mod_eq_of_lt h, SameTarget]
  unfold modulus at h ⊢
  omega

theorem forall₂_represents {ts offsets : List Nat} (h : ∀ offset ∈ offsets, offset < modulus) :
    List.Forall₂ Represents ts (offsets.map Nat.cast) ↔ List.Forall₂ SameTarget ts offsets := by
  rw [List.forall₂_map_right_iff]
  induction offsets generalizing ts with
  | nil => rw [List.forall₂_nil_right_iff, List.forall₂_nil_right_iff]
  | cons offset offsets ih =>
      have hrest : ∀ ts, List.Forall₂ (fun t offset => Represents t (Nat.cast offset)) ts offsets ↔
          List.Forall₂ SameTarget ts offsets :=
        fun ts => ih fun x hx => h x (List.mem_cons_of_mem _ hx)
      simp only [List.forall₂_cons_right_iff, represents_natCast (h offset List.mem_cons_self), hrest]

/-- No choice of the second decomposition of a counter changes the digest. -/
def CountersImmaterial (message : List UInt8) (last : Nat) : Prop :=
  ∀ ts, List.Forall₂ SameTarget ts (Blake2.offsets 64 (blockCount message.length) last) →
    Blake2.digest Blake2.blake2b 32 (Blake2.dataBlocks 64 message) ts =
      Blake2.digest Blake2.blake2b 32 (Blake2.dataBlocks 64 message)
        (Blake2.offsets 64 (blockCount message.length) last)

/-- Large counters have one decomposition. -/
theorem countersImmaterial_of_le {message : List UInt8} {last : Nat}
    (h : ∀ offset ∈ Blake2.offsets 64 (blockCount message.length) last, 2 ^ 32 - 1 ≤ offset) :
    CountersImmaterial message last := by
  intro ts hts
  congr 1
  generalize Blake2.offsets 64 (blockCount message.length) last = offsets at h hts
  induction hts with
  | nil => rfl
  | cons ht _ ih =>
      have hfirst := h _ List.mem_cons_self
      rw [ih fun x hx => h x (List.mem_cons_of_mem _ hx)]
      congr 1
      unfold SameTarget at ht
      omega

theorem counterTargets_eq (blocks : Nat) (length : F) :
    counterTargets blocks length = (Blake2.offsets 64 blocks length.val).map Nat.cast := by
  rw [counterTargets, Blake2.offsets, List.map_append, List.map_map, List.map_singleton,
    ZMod.natCast_zmod_val]
  rfl

theorem lt_modulus_of_mem_offsets {bytes last : Nat} (hbytes : 8 * bytes < 2 ^ 64)
    (hlast : last < modulus) :
    ∀ offset ∈ Blake2.offsets 64 (blockCount bytes) last, offset < modulus := by
  intro offset h
  rw [Blake2.offsets, List.mem_append, List.mem_singleton, List.mem_map] at h
  cases h with
  | inl h =>
      obtain ⟨i, hi, rfl⟩ := h
      rw [List.mem_range] at hi
      unfold blockCount blockBytes at hi
      unfold Blake2.blockBytes modulus
      omega
  | inr h => rwa [h]

theorem eq_singleton_iff_countersImmaterial {message : List UInt8} (hsize : 8 * message.length < 2 ^ 64)
    (length : F) :
    blake2CircuitFromMessageTargetsAndLengthTarget (arrayToBits message) length =
        {arrayToBits (Blake2.digest Blake2.blake2b 32 (Blake2.dataBlocks 64 message)
          (Blake2.offsets 64 (blockCount message.length) length.val))} ↔
      CountersImmaterial message length.val := by
  have hoffsets := lt_modulus_of_mem_offsets hsize (ZMod.val_lt length)
  have hmem : ∀ digest,
      digest ∈ blake2CircuitFromMessageTargetsAndLengthTarget (arrayToBits message) length ↔
      ∃ ts, List.Forall₂ SameTarget ts (Blake2.offsets 64 (blockCount message.length) length.val) ∧
        digest = arrayToBits (Blake2.digest Blake2.blake2b 32 (Blake2.dataBlocks 64 message) ts) := by
    intro digest
    rw [mem_blake2CircuitFromMessageTargetsAndLengthTarget, counterTargets_eq]
    simp only [forall₂_represents hoffsets]
  rw [Set.eq_singleton_iff_unique_mem]
  constructor
  · rintro ⟨_, hunique⟩ ts hts
    exact arrayToBits_injective (hunique _ ((hmem _).mpr ⟨ts, hts, rfl⟩))
  · intro h
    refine ⟨(hmem _).mpr ⟨_, List.forall₂_same.mpr fun _ _ => Or.inl rfl, rfl⟩, ?_⟩
    intro digest hdigest
    obtain ⟨ts, hts, rfl⟩ := (hmem digest).mp hdigest
    rw [h ts hts]

/-! ## RFC 7693 -/

/-- The bytes of bits, as the digest is read from the public inputs. -/
def bytesOfBits (bits : List Bool) : List UInt8 :=
  (chunks 8 bits).map fun byte => UInt8.ofNat (ofBE 2 (byte.map Bool.toNat))

theorem byteToBits_ofBE {byte : List Bool} (h : byte.length = 8) :
    byteToBits (UInt8.ofNat (ofBE 2 (byte.map Bool.toNat))) = byte := by
  have hdigits : ∀ l : List Bool, ∀ d ∈ l.map Bool.toNat, d < 2 := by
    intro l d hd
    obtain ⟨bit, _, rfl⟩ := List.mem_map.mp hd
    exact Bool.toNat_lt bit
  have hlt := ofBE_lt (by decide) (hdigits byte)
  rw [List.length_map, h] at hlt
  have hvalue := ofBE_byteToBits (UInt8.ofNat (ofBE 2 (byte.map Bool.toNat)))
  rw [UInt8.toNat_ofNat_of_lt' hlt] at hvalue
  have hinj : Function.Injective Bool.toNat := by decide
  have hmap := ofBE_inj (by decide) (by simp [h]) (hdigits _) (hdigits _) hvalue
  exact List.map_injective_iff.mpr hinj hmap

theorem arrayToBits_bytesOfBits {bits : List Bool} (h : bits.length % 8 = 0) :
    arrayToBits (bytesOfBits bits) = bits := by
  have hlen : bits.length = bits.length / 8 * 8 := (Nat.div_mul_cancel (Nat.dvd_of_mod_eq_zero h)).symm
  obtain ⟨_, hg, hflat⟩ := chunks_spec (by decide) hlen
  conv_rhs => rw [← hflat]
  rw [arrayToBits, bytesOfBits, List.map_map]
  congr 1
  conv_rhs => rw [← List.map_id (chunks 8 bits)]
  apply List.map_congr_left
  intro byte hbyte
  exact byteToBits_ofBE (hg byte hbyte)

theorem length_bytesOfBits {bits : List Bool} (h : bits.length % 8 = 0) :
    8 * (bytesOfBits bits).length = bits.length := by
  rw [← length_arrayToBits, arrayToBits_bytesOfBits h]

/-- The circuit has the digest of the RFC as its only one exactly when the choice of the
counters does not matter, whether the length is that of the message or any other target. -/
theorem blake2CircuitFromTargets_eq_hash_iff {bits : List Bool} (hbytes : bits.length % 8 = 0)
    (hsize : bits.length < 2 ^ 64) :
    (blake2CircuitFromTargets bits = {arrayToBits (Blake2.hash Blake2.blake2b 32 (bytesOfBits bits))} ↔
      CountersImmaterial (bytesOfBits bits) (bits.length / 8)) ∧
    ∀ length : F,
      blake2CircuitFromMessageTargetsAndLengthTarget bits length =
          {arrayToBits (Blake2.digest Blake2.blake2b 32 (Blake2.dataBlocks 64 (bytesOfBits bits))
            (Blake2.offsets 64 (blockCount (bits.length / 8)) length.val))} ↔
        CountersImmaterial (bytesOfBits bits) length.val := by
  have hlen := length_bytesOfBits hbytes
  have hdiv : bits.length / 8 = (bytesOfBits bits).length := by omega
  have hmain := @eq_singleton_iff_countersImmaterial (bytesOfBits bits) (by omega)
  rw [arrayToBits_bytesOfBits hbytes, ← hdiv] at hmain
  refine ⟨?_, hmain⟩
  have hval : (((bits.length / 8 : Nat) : F)).val = bits.length / 8 :=
    val_natCast (by unfold modulus; omega)
  have hlength := hmain ((bits.length / 8 : Nat) : F)
  rw [hval] at hlength
  rw [blake2CircuitFromTargets, guard_bind hbytes, Blake2.hash, ← hdiv]
  exact hlength

theorem bytesOfBits_arrayToBits (message : List UInt8) :
    bytesOfBits (arrayToBits message) = message := by
  have hlen : (arrayToBits message).length % 8 = 0 := by
    rw [length_arrayToBits]
    omega
  exact arrayToBits_injective (arrayToBits_bytesOfBits hlen)

/-- A message of two blocks, the second one not full. -/
def twoBlocks : List UInt8 := List.replicate 200 7

@[simp] theorem length_twoBlocks : twoBlocks.length = 200 := List.length_replicate

/-- The counter of the first block has a second decomposition, and the choice matters. -/
theorem not_countersImmaterial_twoBlocks : ¬ CountersImmaterial twoBlocks 200 := by
  intro h
  have hts : List.Forall₂ SameTarget [128 + modulus, 200]
      (Blake2.offsets 64 (blockCount twoBlocks.length) 200) := by
    rw [length_twoBlocks]
    exact .cons (.inr ⟨by decide, rfl⟩) (.cons (.inl rfl) .nil)
  exact absurd (h _ hts) (by decide +kernel)

/-- A full block and a length above the counters with two decompositions have one digest; two
blocks have several. -/
theorem blake2CircuitFromTargets_eq_hash_iff_blocks :
    blake2CircuitFromMessageTargetsAndLengthTarget (arrayToBits (List.replicate 128 7))
        ((2 ^ 32 - 1 : Nat) : F) =
      {arrayToBits (Blake2.digest Blake2.blake2b 32
        (Blake2.dataBlocks 64 (bytesOfBits (arrayToBits (List.replicate 128 7))))
        (Blake2.offsets 64 (blockCount ((arrayToBits (List.replicate 128 7)).length / 8))
          ((2 ^ 32 - 1 : Nat) : F).val))} ∧
    blake2CircuitFromTargets (arrayToBits twoBlocks) ≠
      {arrayToBits (Blake2.hash Blake2.blake2b 32 (bytesOfBits (arrayToBits twoBlocks)))} := by
  constructor
  · have hlen : (arrayToBits (List.replicate 128 7)).length = 1024 := by
      rw [length_arrayToBits, List.length_replicate]
    apply ((@blake2CircuitFromTargets_eq_hash_iff (arrayToBits (List.replicate 128 7)) (by rw [hlen])
      (by rw [hlen]; decide)).2 _).mpr
    rw [val_natCast (by decide), bytesOfBits_arrayToBits]
    apply countersImmaterial_of_le
    rw [List.length_replicate]
    decide
  · have hlen : (arrayToBits twoBlocks).length = 1600 := by
      rw [length_arrayToBits, length_twoBlocks]
    intro h
    have hsame := (@blake2CircuitFromTargets_eq_hash_iff (arrayToBits twoBlocks) (by rw [hlen])
      (by rw [hlen]; decide)).1.mp h
    rw [hlen, bytesOfBits_arrayToBits] at hsame
    exact not_countersImmaterial_twoBlocks hsame

/-- The length of the empty message is decomposed as the modulus. -/
theorem empty_second_digest :
    arrayToBits (Blake2.digest Blake2.blake2b 32 (Blake2.dataBlocks 64 []) [modulus]) ∈
        blake2CircuitFromTargets [] ∧
      arrayToBits (Blake2.digest Blake2.blake2b 32 (Blake2.dataBlocks 64 []) [modulus]) ≠
        arrayToBits (Blake2.hash Blake2.blake2b 32 []) := by
  constructor
  · rw [blake2CircuitFromTargets, guard_bind (show [].length % 8 = 0 from rfl)]
    apply (@mem_blake2CircuitFromMessageTargetsAndLengthTarget [] _ _).mpr
    refine ⟨[modulus], List.Forall₂.cons ⟨by decide, ?_⟩ List.Forall₂.nil, rfl⟩
    rw [ZMod.natCast_self]
    rfl
  · decide +kernel

/-! ## the circuit as a function of bytes -/

/-- Mixing in a zero word changes nothing. -/
theorem set_getD_xor_zero (v : List Word) (i : Nat) : v.set i (v.getD i 0 ^^^ 0#64) = v := by
  rw [BitVec.xor_zero]
  by_cases h : i < v.length
  · rw [List.getD_eq_getElem _ _ h, List.set_getElem_self]
  · rw [List.set_eq_of_length_le (Nat.le_of_not_lt h)]

theorem compressWords_eq (h m : List Word) {t : Nat} (ht : t < 2 ^ 64) (f : Bool) :
    compressWords h m t f = Blake2.compress Blake2.blake2b h m t f := by
  have hhigh : BitVec.ofNat 64 (t >>> 64) = 0#64 := by
    rw [Nat.shiftRight_eq_div_pow, Nat.div_eq_of_lt ht]
  have hv : Blake2.workVector Blake2.blake2b h t f =
      (let v := h ++ iv
       let v := v.set 12 (v.getD 12 0 ^^^ BitVec.ofNat 64 t)
       if f then v.set 14 (~~~v.getD 14 0) else v) := by
    unfold Blake2.workVector
    simp only [hhigh, set_getD_xor_zero, BitVec.xor_allOnes]
    rfl
  rw [Blake2.compress, hv, ← foldl_sigma]
  rfl

theorem wordsOfBytes_eq {n : Nat} {bytes : List UInt8} (h : bytes.length = n * 8) :
    wordsOfBytes bytes n = Blake2.blockWords 64 bytes := by
  induction n generalizing bytes with
  | zero =>
      rw [Nat.zero_mul, List.length_eq_zero_iff] at h
      subst h
      rfl
  | succ n ih =>
      have hdrop : (bytes.drop 8).length = n * 8 := by rw [List.length_drop, h]; omega
      have hwords : Blake2.blockWords 64 bytes =
          Blake2.wordOfBytes 64 (bytes.take 8) :: Blake2.blockWords 64 (bytes.drop 8) := by
        rw [Blake2.blockWords, chunks_eq_cons (k := 64 / 8) (by decide) h, List.map_cons]
        rfl
      rw [wordsOfBytes, ih hdrop, hwords, Blake2.wordOfBytes, Nat.ofDigits_eq_foldr, List.foldr_map]
      rfl

theorem compress_eq {n : Nat} {message : List UInt8} (hlen : message.length = (n + 1) * blockBytes)
    (h : List Word) {t : Nat} (ht : t < 2 ^ 64) (f : Bool) :
    blake2b.compress h (message.take blockBytes) t f =
      Blake2.compress Blake2.blake2b h (Blake2.blockWords 64 (message.take blockBytes)) t f := by
  have hblock : (message.take blockBytes).length = 16 * 8 := by
    rw [List.length_take, hlen]
    unfold blockBytes
    omega
  rw [← wordsOfBytes_eq hblock, ← compressWords_eq _ _ ht]

theorem map_offsets_succ (rest i bytes : Nat) :
    ((List.range (rest + 1)).map fun k => (i + k + 1) * bytes) =
      (i + 1) * bytes :: (List.range rest).map fun k => (i + 1 + k + 1) * bytes := by
  rw [List.range_succ_eq_map, List.map_cons, List.map_map]
  congr 1
  apply List.map_congr_left
  intro k _
  rw [Function.comp_apply, Nat.succ_eq_add_one, Nat.add_right_comm i 1 k, Nat.add_assoc i k 1]

theorem compressBlocks_eq {rest i length : Nat} {message : List UInt8} {h : List Word}
    (hlen : message.length = (rest + 1) * blockBytes) (hlength : length < 2 ^ 64)
    (hoffset : (i + rest) * blockBytes < 2 ^ 64) :
    compressBlocks blake2b rest i message length h =
      Blake2.compressAll Blake2.blake2b h (((chunks blockBytes message).map (Blake2.blockWords 64)).zip
        (((List.range rest).map fun k => (i + k + 1) * blockBytes) ++ [length])) := by
  induction rest generalizing i message h with
  | zero =>
      have hdrop : message.drop blockBytes = [] := by
        rw [List.drop_eq_nil_iff, hlen, Nat.zero_add, Nat.one_mul]
      rw [chunks_eq_cons (by decide) hlen, hdrop, compressBlocks, compress_eq hlen h hlength]
      rfl
  | succ rest ih =>
      have hdrop : (message.drop blockBytes).length = (rest + 1) * blockBytes := by
        rw [List.length_drop, hlen, Nat.succ_mul (rest + 1), Nat.add_sub_cancel]
      have hfirst : (i + 1) * blockBytes < 2 ^ 64 := by
        unfold blockBytes at hoffset ⊢
        omega
      have hne : ((chunks blockBytes (message.drop blockBytes)).map (Blake2.blockWords 64)).zip
            (((List.range rest).map fun k => (i + 1 + k + 1) * blockBytes) ++ [length]) ≠ [] := by
        rw [chunks_eq_cons (by decide) hdrop]
        cases rest <;> simp [List.range_succ_eq_map]
      rw [compressBlocks, compress_eq hlen h hfirst, ih hdrop (by rwa [Nat.add_assoc, Nat.add_comm 1]),
        chunks_eq_cons (by decide) hlen, List.map_cons, map_offsets_succ, List.cons_append,
        List.zip_cons_cons, Blake2.compressAll_cons _ _ _ _ hne]

theorem take_flatMap_bytesOfWord (h : List Word) (n : Nat) :
    (h.flatMap Blake2.bytesOfWord).take (8 * n) = (h.take n).flatMap bytesOfWord := by
  induction h generalizing n with
  | nil => rw [List.flatMap_nil, List.take_nil, List.take_nil, List.flatMap_nil]
  | cons w h ih =>
      cases n with
      | zero => rfl
      | succ n =>
          have hlen : 8 * (n + 1) = (Blake2.bytesOfWord w).length + 8 * n := by
            rw [Blake2.bytesOfWord, List.length_map, List.length_range, Nat.mul_succ, Nat.add_comm]
          rw [List.flatMap_cons, hlen, List.take_length_add_append, ih, List.take_succ_cons,
            List.flatMap_cons]
          rfl

/-- The function of bytes is the RFC for every length a word holds. -/
theorem blake2CircuitFromMessageAndLength_eq_digest {message : List UInt8} {length : Nat}
    (hsize : 8 * message.length < 2 ^ 64) (hlength : length < 2 ^ 64) :
    blake2CircuitFromMessageAndLength blake2b message length =
      Blake2.digest Blake2.blake2b 32 (Blake2.dataBlocks 64 message)
        (Blake2.offsets 64 (blockCount message.length) length) := by
  have hlen : (padMessage message).length = (blockCount message.length - 1 + 1) * blockBytes := by
    rw [length_padMessage, Nat.sub_add_cancel (blockCount_pos _)]
  have hoffset : (0 + (blockCount message.length - 1)) * blockBytes < 2 ^ 64 := by
    unfold blockCount blockBytes
    omega
  have hoffsets : Blake2.offsets 64 (blockCount message.length) length =
      ((List.range (blockCount message.length - 1)).map fun k => (0 + k + 1) * blockBytes) ++
        [length] := by
    simp only [Nat.zero_add]
    rfl
  rw [blake2CircuitFromMessageAndLength, compressBlocks_eq hlen hlength hoffset, hoffsets,
    Blake2.digest, show 32 = 8 * 4 from rfl, take_flatMap_bytesOfWord]
  rfl

end GearBridges.Plonky2Blake2b256
