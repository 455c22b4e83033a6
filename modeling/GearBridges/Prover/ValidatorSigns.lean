import GearBridges.Lib.CyclicRecursion
import GearBridges.Prover.GenericBlake2
import GearBridges.Prover.Targets
import Mathlib.Data.Finset.Max
import Mathlib.Data.Fintype.Card

/-!
# Prover.ValidatorSigns

The circuits that prove a quorum of validator signatures, as relations on their public
inputs.  Every layer of the cyclic recursion is taken to be a proof of the same
circuit.  What a valid signature is comes in as a parameter.

* `ValidatorSetHash`, `IndexedValidatorSign`, `SignComposition`, `ValidatorSignsChain` —
  the circuits;
* `signComposition_iff` — a composed proof is a set of indices, each with its own
  `IndexedValidatorSign`.
-/

namespace GearBridges.Prover

open Goldilocks Plonky2Blake2b256 CyclicRecursion

def ed25519PublicKeySize : Nat := 32
def maxValidatorCount : Nat := 6
def grandpaVoteLength : Nat := 53

abbrev PublicKey := { key : List UInt8 // key.length = ed25519PublicKeySize }
abbrev GrandpaMessage := { message : List UInt8 // message.length = grandpaVoteLength }
abbrev PaddedValidatorSet := Fin maxValidatorCount → PublicKey

def zeroKey : PublicKey := ⟨List.replicate ed25519PublicKeySize 0, List.length_replicate⟩

/-- What an array of keys is padded with. -/
instance : OfNat PublicKey 0 := ⟨zeroKey⟩

/-! ## ValidatorSetHash -/

structure ValidatorSetHashTarget (C : Compression) where
  hash : C.Digest
  validatorSet : PaddedValidatorSet
  validatorSetLength : F

/-- `PaddedValidatorSetTarget::parse`: the first bytes of the hashed data. -/
def parseValidatorSet (data : { bytes : List UInt8 // bytes.length = maxDataBytes }) :
    PaddedValidatorSet := fun i =>
  ⟨(data.val.drop (i * ed25519PublicKeySize)).take ed25519PublicKeySize, by
    have hi := i.isLt
    have hdata := data.property
    unfold maxValidatorCount at hi
    unfold maxDataBytes maxBlockCount blockBytes at hdata
    rw [List.length_take, List.length_drop, hdata]
    unfold ed25519PublicKeySize
    omega⟩

/-- `ValidatorSetHash::prove`. -/
def ValidatorSetHash (C : Compression) (pis : ValidatorSetHashTarget C) : Prop :=
  ∃ hasher : GenericBlake2Target C, GenericBlake2 C hasher ∧
    (ed25519PublicKeySize : F) * pis.validatorSetLength = hasher.length ∧
    pis.hash = hasher.hash ∧ pis.validatorSet = parseValidatorSet hasher.data

/-! ## IndexedValidatorSign -/

structure IndexedValidatorSignTarget (C : Compression) where
  validatorSetHash : C.Digest
  validatorCount : F
  validatorIdx : F
  message : GrandpaMessage

section

variable (C : Compression) (Valid : PublicKey → GrandpaMessage → Prop)

/-- `IndexedValidatorSign::prove`. -/
def IndexedValidatorSign (pis : IndexedValidatorSignTarget C) : Prop :=
  ∃ (set : ValidatorSetHashTarget C) (publicKey : PublicKey), ValidatorSetHash C set ∧
    ArrayTarget.randomRead (List.ofFn set.validatorSet) pis.validatorIdx = some publicKey ∧
    Valid publicKey pis.message ∧
    pis.validatorSetHash = set.hash ∧ pis.validatorCount = set.validatorSetLength

/-! ## SignComposition -/

/-- Public inputs of a layer, without its verifier data. -/
structure SignCompositionTarget where
  validatorSetHash : C.Digest
  validatorCount : F
  message : GrandpaMessage
  latestValidatorIdx : F
  signCount : F

/-- The constraints of one layer.  In the first one `condition` is false and the inner
public inputs are those of a dummy proof, that is, anything. -/
def SignCompositionTarget.build {C : Compression} (condition : Bool)
    (inner : SignCompositionTarget C) (sign : IndexedValidatorSignTarget C)
    (outer : SignCompositionTarget C) : Prop :=
  let latestValidatorIdx := if condition then inner.latestValidatorIdx else -1
  let signCount := if condition then inner.signCount else 0
  let validatorCount := if condition then inner.validatorCount else sign.validatorCount
  sign.message = inner.message ∧ sign.validatorSetHash = inner.validatorSetHash ∧
    sign.validatorCount = validatorCount ∧
    rangeCheck (sign.validatorIdx - latestValidatorIdx - 1) 32 ∧
    outer = ⟨inner.validatorSetHash, validatorCount, inner.message, sign.validatorIdx, signCount + 1⟩

/-- A layer of `SignComposition` with its `IndexedValidatorSign` proof. -/
def signLayer (condition : Bool) (inner outer : SignCompositionTarget C) : Prop :=
  ∃ sign, IndexedValidatorSign C Valid sign ∧ inner.build condition sign outer

/-- Proofs of the cyclic circuit. -/
def SignComposition : SignCompositionTarget C → Prop := Layers (signLayer C Valid)

/-! ## ValidatorSignsChain -/

/-- What `ValidatorSignsChain::prove` asserts of the composed proof for its own public
inputs: more than two thirds of the validators. -/
def SignCompositionTarget.exposes {C : Compression} (composed : SignCompositionTarget C)
    (validatorSetHash : C.Digest) (message : GrandpaMessage) : Prop :=
  rangeCheck (3 * composed.signCount - 2 * composed.validatorCount - 1) 32 ∧
    validatorSetHash = composed.validatorSetHash ∧ message = composed.message

/-- `ValidatorSignsChain::prove`. -/
def ValidatorSignsChain (validatorSetHash : C.Digest) (message : GrandpaMessage) : Prop :=
  ∃ composed : SignCompositionTarget C, SignComposition C Valid composed ∧
    composed.exposes validatorSetHash message

end

variable {C : Compression} {Valid : PublicKey → GrandpaMessage → Prop}

/-! ## indices -/

/-- The range check of a random read keeps the index inside the array. -/
theorem randomRead_iff {set : PaddedValidatorSet} {index : F} {key : PublicKey} :
    ArrayTarget.randomRead (List.ofFn set) index = some key ↔
      ∃ i : Fin maxValidatorCount, index = (i.val : F) ∧ key = set i := by
  have hlen : (List.ofFn set).length = 6 := List.length_ofFn
  have hread : ∀ i : Fin maxValidatorCount,
      ArrayTarget.randomRead (List.ofFn set) (i.val : F) = some (set i) := by
    intro i
    rw [ArrayTarget.randomRead_of_lt (by omega) (by rw [hlen]; exact i.isLt), List.getElem?_ofFn,
      dif_pos i.isLt]
  constructor
  · intro h
    have hindex : ((index.val : Nat) : F) = index := ZMod.natCast_zmod_val index
    -- the padding makes eight elements, and the range check leaves the first six of them
    have hlt := ArrayTarget.lt_of_randomRead (by omega) (by rw [hlen]; decide +kernel) h
    rw [hlen] at hlt
    have hkey := hread ⟨index.val, hlt⟩
    rw [hindex, h] at hkey
    exact ⟨_, hindex.symm, Option.some.inj hkey⟩
  · rintro ⟨i, rfl, rfl⟩
    exact hread i

/-- Indices below another one are what the ordering check lets through. -/
theorem rangeCheck_index {i j : Nat} (hi : i < maxValidatorCount) (hj : j < maxValidatorCount) :
    rangeCheck ((i : F) - (j : F) - 1) 32 ↔ j < i := by
  unfold maxValidatorCount at hi hj
  have heq : (i : F) - (j : F) - 1 = (i : F) - ((j + 1 : Nat) : F) := by
    rw [Nat.cast_succ, sub_add_eq_sub_sub]
  rw [heq, rangeCheck_sub (by omega) (by omega)]
  omega

/-- The signature of the validator at an index, for a set and a message. -/
def SignsAt (C : Compression) (Valid : PublicKey → GrandpaMessage → Prop) (hash : C.Digest)
    (count : F) (message : GrandpaMessage) (i : Fin maxValidatorCount) : Prop :=
  IndexedValidatorSign C Valid ⟨hash, count, (i.val : F), message⟩

theorem IndexedValidatorSign.index {pis : IndexedValidatorSignTarget C}
    (h : IndexedValidatorSign C Valid pis) : ∃ i : Fin maxValidatorCount,
      pis.validatorIdx = (i.val : F) ∧
      SignsAt C Valid pis.validatorSetHash pis.validatorCount pis.message i := by
  have h' := h
  obtain ⟨set, key, _, hread, _⟩ := h'
  obtain ⟨i, hi, _⟩ := randomRead_iff.mp hread
  refine ⟨i, hi, ?_⟩
  unfold SignsAt
  rw [← hi]
  exact h

/-- The indices of the layers of a composed proof, the last of them and their number. -/
structure Composes (Valid : PublicKey → GrandpaMessage → Prop) (pis : SignCompositionTarget C)
    (s : Finset (Fin maxValidatorCount)) (last : Fin maxValidatorCount) : Prop where
  signs : ∀ i ∈ s, SignsAt C Valid pis.validatorSetHash pis.validatorCount pis.message i
  mem : last ∈ s
  le_last : ∀ i ∈ s, i ≤ last
  latest : pis.latestValidatorIdx = (last.val : F)
  count : pis.signCount = (s.card : F)

/-- Distinct indices: each layer adds one above all before it. -/
theorem SignComposition.composes {pis : SignCompositionTarget C}
    (h : SignComposition C Valid pis) : ∃ s last, Composes Valid pis s last := by
  induction h with
  | @layer condition inner outer hlayer _ ih =>
      obtain ⟨sign, hsign, hbuild⟩ := hlayer
      obtain ⟨i, hidx, hsigns⟩ := hsign.index
      obtain ⟨hmessage, hhash, hcount, hrange, rfl⟩ := hbuild
      cases condition with
      | false =>
          refine ⟨{i}, i, ?_, by simp, by simp, hidx, by simp⟩
          simp only [Finset.mem_singleton, forall_eq]
          rw [hmessage, hhash] at hsigns
          exact hsigns
      | true =>
          obtain ⟨s, last, hs⟩ := ih rfl
          simp only [if_true] at hcount hrange ⊢
          rw [hidx, hs.latest, rangeCheck_index i.isLt last.isLt] at hrange
          rw [hmessage, hhash, hcount] at hsigns
          have hnew : i ∉ s := fun hi => absurd (hs.le_last i hi) (not_le.mpr hrange)
          refine ⟨insert i s, i, ?_, Finset.mem_insert_self i s, ?_, hidx, ?_⟩
          · intro j hj
            rcases Finset.mem_insert.mp hj with rfl | hj
            · exact hsigns
            · exact hs.signs j hj
          · intro j hj
            rcases Finset.mem_insert.mp hj with rfl | hj
            · exact le_refl j
            · exact le_of_lt (lt_of_le_of_lt (hs.le_last j hj) hrange)
          · rw [Finset.card_insert_of_notMem hnew, Nat.cast_succ, hs.count]

/-- Every non-empty set of signing indices is composed, in increasing order. -/
theorem signComposition_of_signs {hash : C.Digest} {count : F} {message : GrandpaMessage}
    (s : Finset (Fin maxValidatorCount)) (hne : s.Nonempty)
    (hs : ∀ i ∈ s, SignsAt C Valid hash count message i) :
    ∃ last ∈ s, (∀ i ∈ s, i ≤ last) ∧
      SignComposition C Valid ⟨hash, count, message, (last.val : F), (s.card : F)⟩ := by
  induction s using Finset.induction_on_max with
  | empty => simp at hne
  | insert i s hlt ih =>
      have hi := hs i (Finset.mem_insert_self i s)
      have hnew : i ∉ s := fun h => lt_irrefl i (hlt i h)
      refine ⟨i, Finset.mem_insert_self i s, ?_, ?_⟩
      · intro j hj
        rcases Finset.mem_insert.mp hj with rfl | hj
        · exact le_refl j
        · exact le_of_lt (hlt j hj)
      · rw [Finset.card_insert_of_notMem hnew, Nat.cast_succ]
        by_cases hempty : s.Nonempty
        · obtain ⟨last, hlast, _, hinner⟩ :=
            ih hempty fun j hj => hs j (Finset.mem_insert_of_mem hj)
          have hrange := (rangeCheck_index i.isLt last.isLt).mpr (hlt last hlast)
          have hbuild : (⟨hash, count, message, (last.val : F), (s.card : F)⟩ :
              SignCompositionTarget C).build true ⟨hash, count, (i.val : F), message⟩
              ⟨hash, count, message, (i.val : F), (s.card : F) + 1⟩ :=
            ⟨rfl, rfl, rfl, hrange, rfl⟩
          exact .layer ⟨_, hi, hbuild⟩ fun _ => hinner
        · rw [Finset.not_nonempty_iff_eq_empty] at hempty
          subst hempty
          have heq : (i.val : F) - -1 - 1 = (i.val : F) := by
            rw [sub_neg_eq_add, add_sub_cancel_right]
          have hlt := i.isLt
          unfold maxValidatorCount at hlt
          have hrange : rangeCheck ((i.val : F) - -1 - 1) 32 := by
            rw [heq, rangeCheck_natCast (by unfold modulus; omega)]
            omega
          have hbuild : (⟨hash, count, message, 0, 0⟩ : SignCompositionTarget C).build false
              ⟨hash, count, (i.val : F), message⟩ ⟨hash, count, message, (i.val : F), 0 + 1⟩ :=
            ⟨rfl, rfl, rfl, hrange, rfl⟩
          rw [Finset.card_empty, Nat.cast_zero]
          exact .layer ⟨_, hi, hbuild⟩ (by simp)

/-- **What the chain proves**: signatures at distinct indices of the padded set, three
times as many as pass the threshold for the count. -/
theorem validatorSignsChain_iff {hash : C.Digest} {message : GrandpaMessage} :
    ValidatorSignsChain C Valid hash message ↔
      ∃ (count : F) (s : Finset (Fin maxValidatorCount)), s.Nonempty ∧
        (∀ i ∈ s, SignsAt C Valid hash count message i) ∧
        rangeCheck (3 * (s.card : F) - 2 * count - 1) 32 := by
  constructor
  · intro ⟨composed, hcomposed, hrange, hhash, hmessage⟩
    obtain ⟨s, last, hs⟩ := hcomposed.composes
    subst hhash hmessage
    rw [hs.count] at hrange
    exact ⟨composed.validatorCount, s, ⟨last, hs.mem⟩, hs.signs, hrange⟩
  · intro ⟨count, s, hne, hs, hrange⟩
    obtain ⟨last, _, _, hcomposed⟩ := signComposition_of_signs s hne hs
    exact ⟨_, hcomposed, hrange, rfl, rfl⟩

end GearBridges.Prover
