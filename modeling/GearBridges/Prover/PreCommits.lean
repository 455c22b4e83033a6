import GearBridges.Prover.BlockFinality
import Mathlib.Data.List.Sort

/-!
# Prover.PreCommits

What the host puts into a proof of block finality: `BlockFinality::prove` keeps the
pre-commits of validators, cuts them to the threshold and asserts that it has that many;
`ValidatorSignsChain::prove` sorts them by index and composes their proofs one by one.
The circuit wants the indices strictly increasing, and nothing before it drops the second
pre-commit of a validator.  `composable_iff` says when the constraints can be satisfied.
-/

namespace GearBridges.Prover

open Goldilocks Plonky2Blake2b256

def ed25519SignatureSize : Nat := 64

abbrev Signature := { signature : List UInt8 // signature.length = ed25519SignatureSize }

structure PreCommit where
  publicKey : PublicKey
  signature : Signature
deriving DecidableEq

structure ProcessedPreCommit where
  validatorIdx : Nat
  publicKey : PublicKey
  signature : Signature
deriving DecidableEq

/-! ## selection -/

def processedValidatorCount (validatorSet : List PublicKey) : Nat :=
  (2 * validatorSet.length) / 3 + 1

/-- The position of the key in the set; a key outside of it is passed over. -/
def PreCommit.process (validatorSet : List PublicKey) (pc : PreCommit) :
    Option ProcessedPreCommit :=
  (validatorSet.findIdx? (· == pc.publicKey)).map fun validatorIdx =>
    { validatorIdx, publicKey := pc.publicKey, signature := pc.signature }

/-- The selection of `BlockFinality::prove`; `none` when its assertion fails. -/
def processedPreCommits (validatorSet : List PublicKey) (preCommits : List PreCommit) :
    Option (List ProcessedPreCommit) :=
  let processed := (preCommits.filterMap (PreCommit.process validatorSet)).take
    (processedValidatorCount validatorSet)
  if processed.length = processedValidatorCount validatorSet then some processed else none

/-- The stable sort of `ValidatorSignsChain::prove`. -/
def sortPreCommits (preCommits : List ProcessedPreCommit) : List ProcessedPreCommit :=
  preCommits.insertionSort fun a b => a.validatorIdx ≤ b.validatorIdx

/-- Validators that pre-commits stand for, in their order. -/
def indices (preCommits : List ProcessedPreCommit) : List Nat := preCommits.map (·.validatorIdx)

/-- The entries of validators, up to the threshold. -/
def firstPreCommits (validatorSet : List PublicKey) (preCommits : List PreCommit) :
    List PreCommit :=
  (preCommits.filter fun pc => pc.publicKey ∈ validatorSet).take
    (processedValidatorCount validatorSet)

/-- A pre-commit with the position of its key. -/
def PreCommit.located (validatorSet : List PublicKey) (pc : PreCommit) : ProcessedPreCommit :=
  ⟨validatorSet.idxOf pc.publicKey, pc.publicKey, pc.signature⟩

theorem process_eq (V : List PublicKey) (pc : PreCommit) :
    pc.process V = if pc.publicKey ∈ V then some (pc.located V) else none := by
  unfold PreCommit.process
  split
  · next hmem =>
    have hidx : V.findIdx? (· == pc.publicKey) = some (V.idxOf pc.publicKey) := by
      rw [List.findIdx?_eq_some_iff_findIdx_eq]
      exact ⟨List.idxOf_lt_length_of_mem hmem, rfl⟩
    rw [hidx]
    rfl
  · next hmem =>
    have hnone : V.findIdx? (· == pc.publicKey) = none := by
      rw [List.findIdx?_eq_none_iff]
      intro key hkey
      simp only [beq_eq_false_iff_ne]
      intro h
      exact hmem (h ▸ hkey)
    rw [hnone]
    rfl

theorem filterMap_process (V : List PublicKey) (preCommits : List PreCommit) :
    preCommits.filterMap (PreCommit.process V) =
      (preCommits.filter fun pc => pc.publicKey ∈ V).map (PreCommit.located V) := by
  induction preCommits with
  | nil => rfl
  | cons pc rest ih =>
      rw [List.filterMap_cons, process_eq]
      by_cases hmem : pc.publicKey ∈ V
      · simp only [hmem, if_true, decide_true, List.filter_cons, List.map_cons, ih]
      · simp only [hmem, if_false, decide_false, List.filter_cons, ih, Bool.false_eq_true]

/-- The assertion is about the number of entries, not of validators. -/
theorem processedPreCommits_eq (V : List PublicKey) (preCommits : List PreCommit) :
    processedPreCommits V preCommits =
      if (firstPreCommits V preCommits).length = processedValidatorCount V then
        some ((firstPreCommits V preCommits).map (PreCommit.located V))
      else none := by
  unfold processedPreCommits firstPreCommits
  simp only [filterMap_process, ← List.map_take, List.length_map]

theorem idxOf_lt {V : List PublicKey} {preCommits : List PreCommit} {pc : PreCommit}
    (h : pc ∈ firstPreCommits V preCommits) : V.idxOf pc.publicKey < V.length := by
  have hmem := (List.mem_filter.mp (List.mem_of_mem_take h)).2
  rw [decide_eq_true_iff] at hmem
  exact List.idxOf_lt_length_of_mem hmem

/-- One index is one key. -/
theorem nodup_indices_iff (V : List PublicKey) (preCommits : List PreCommit) :
    (indices ((firstPreCommits V preCommits).map (PreCommit.located V))).Nodup ↔
      ((firstPreCommits V preCommits).map (·.publicKey)).Nodup := by
  have hmap : indices ((firstPreCommits V preCommits).map (PreCommit.located V)) =
      ((firstPreCommits V preCommits).map (·.publicKey)).map (V.idxOf ·) := by
    simp only [indices, List.map_map]
    rfl
  rw [hmap]
  constructor
  · exact List.Nodup.of_map _
  · apply List.Nodup.map_on
    intro a ha b hb heq
    obtain ⟨pc, hpc, rfl⟩ := List.mem_map.mp ha
    obtain ⟨pc', hpc', rfl⟩ := List.mem_map.mp hb
    have h := List.getElem_idxOf (idxOf_lt hpc)
    have h' := List.getElem_idxOf (idxOf_lt hpc')
    simp only [heq] at h
    exact h.symm.trans h'

/-! ## sorting -/

theorem perm_sortPreCommits (l : List ProcessedPreCommit) : (sortPreCommits l).Perm l :=
  List.perm_insertionSort _ l

theorem sorted_sortPreCommits (l : List ProcessedPreCommit) :
    (indices (sortPreCommits l)).Pairwise (· ≤ ·) := by
  have : Std.Total fun a b : ProcessedPreCommit => a.validatorIdx ≤ b.validatorIdx :=
    ⟨fun a b => Nat.le_total _ _⟩
  have : IsTrans ProcessedPreCommit fun a b => a.validatorIdx ≤ b.validatorIdx :=
    ⟨fun _ _ _ => Nat.le_trans⟩
  rw [indices, List.pairwise_map]
  exact List.pairwise_insertionSort _ l

/-- Sorting keeps duplicates, so the indices rise strictly only if there are none. -/
theorem increasing_sortPreCommits (l : List ProcessedPreCommit) :
    (indices (sortPreCommits l)).Pairwise (· < ·) ↔ (indices l).Nodup := by
  have hperm : (indices (sortPreCommits l)).Perm (indices l) := (perm_sortPreCommits l).map _
  rw [← hperm.nodup_iff]
  constructor
  · intro h
    exact h.imp Nat.ne_of_lt
  · intro h
    exact (h.and (sorted_sortPreCommits l)).imp fun h => Nat.lt_of_le_of_ne h.2 h.1

/-! ## composition -/

section

variable {C : Compression}

/-- The public inputs that `prove_initial` feeds a dummy proof with. -/
def SignCompositionTarget.initial (hash : C.Digest) (message : GrandpaMessage) :
    SignCompositionTarget C :=
  ⟨hash, 0, message, 0, 0⟩

/-- `prove_recursive` for every remaining inner proof. -/
def recursiveProofs :
    List (IndexedValidatorSignTarget C) → SignCompositionTarget C → SignCompositionTarget C → Prop
  | [], inner, composed => composed = inner
  | sign :: signs, inner, composed =>
      ∃ outer, inner.build true sign outer ∧ recursiveProofs signs outer composed

/-- `prove_initial` for the first inner proof, which has to be there, and
`prove_recursive` for the others. -/
def composedProof (hash : C.Digest) (message : GrandpaMessage) :
    List (IndexedValidatorSignTarget C) → SignCompositionTarget C → Prop
  | [], _ => False
  | sign :: signs, composed =>
      ∃ outer, (SignCompositionTarget.initial hash message).build false sign outer ∧
        recursiveProofs signs outer composed

/-- Public inputs of the proof of `IndexedValidatorSign` for an index. -/
def innerProof (hash : C.Digest) (count : F) (message : GrandpaMessage) (validatorIdx : Nat) :
    IndexedValidatorSignTarget C :=
  ⟨hash, count, (validatorIdx : F), message⟩

variable {hash : C.Digest} {count : F} {message : GrandpaMessage}

/-- The ordering check of every layer is that its index is above the one before. -/
theorem recursiveProofs_iff {last : Nat} (hlast : last < maxValidatorCount) {idxs : List Nat}
    (hidxs : ∀ i ∈ idxs, i < maxValidatorCount) (n : Nat) (composed : SignCompositionTarget C) :
    recursiveProofs (idxs.map (innerProof hash count message))
        ⟨hash, count, message, (last : F), (n : F)⟩ composed ↔
      (last :: idxs).IsChain (· < ·) ∧
        composed = ⟨hash, count, message, ((idxs.getLastD last : Nat) : F),
          ((n + idxs.length : Nat) : F)⟩ := by
  induction idxs generalizing last n with
  | nil => simp [recursiveProofs]
  | cons i idxs ih =>
      have hi := hidxs i List.mem_cons_self
      have hrest := fun j hj => hidxs j (List.mem_cons_of_mem i hj)
      have hlayer (outer : SignCompositionTarget C) :
          SignCompositionTarget.build true ⟨hash, count, message, (last : F), (n : F)⟩
            (innerProof hash count message i) outer ↔
          last < i ∧ outer = ⟨hash, count, message, (i : F), ((n + 1 : Nat) : F)⟩ := by
        simp only [SignCompositionTarget.build, innerProof, if_true, rangeCheck_index hi hlast, true_and,
          Nat.cast_succ]
      simp only [List.map_cons, recursiveProofs, hlayer, List.isChain_cons_cons,
        List.getLastD_cons, List.length_cons]
      constructor
      · intro ⟨outer, ⟨hlt, houter⟩, hproofs⟩
        subst houter
        obtain ⟨hchain, hcomposed⟩ := (ih hi hrest (n + 1)).mp hproofs
        rw [Nat.add_right_comm] at hcomposed
        exact ⟨⟨hlt, hchain⟩, hcomposed⟩
      · intro ⟨⟨hlt, hchain⟩, hcomposed⟩
        refine ⟨_, ⟨hlt, rfl⟩, (ih hi hrest (n + 1)).mpr ⟨hchain, ?_⟩⟩
        rw [Nat.add_right_comm]
        exact hcomposed

/-- What the composed layers and the threshold ask for. -/
theorem composedProof_exposes_iff {V : List PublicKey} (hV : V.length ≤ maxValidatorCount)
    {preCommits : List ProcessedPreCommit} (hidx : ∀ i ∈ indices preCommits, i < V.length)
    (hlen : preCommits.length ≤ maxValidatorCount) :
    (∃ composed, composedProof hash message
        ((indices preCommits).map (innerProof hash (V.length : F) message)) composed ∧
        composed.exposes hash message) ↔
      (indices preCommits).Pairwise (· < ·) ∧ 2 * V.length < 3 * preCommits.length := by
  have hlength : preCommits.length = (indices preCommits).length := (List.length_map _).symm
  rw [hlength] at hlen ⊢
  have hmax : ∀ i ∈ indices preCommits, i < maxValidatorCount :=
    fun i hi => Nat.lt_of_lt_of_le (hidx i hi) hV
  generalize indices preCommits = idxs at *
  cases idxs with
  | nil => simp [composedProof]
  | cons i idxs =>
      have hi := hmax i List.mem_cons_self
      have hrest := fun j hj => hmax j (List.mem_cons_of_mem i hj)
      -- the first layer compares with minus one
      have hfirst (outer : SignCompositionTarget C) :
          (SignCompositionTarget.initial hash message).build false
            (innerProof hash (V.length : F) message i) outer ↔
          outer = ⟨hash, (V.length : F), message, (i : F), ((1 : Nat) : F)⟩ := by
        have hrange : rangeCheck ((i : F) - -1 - 1) 32 := by
          unfold maxValidatorCount at hi
          rw [sub_neg_eq_add, add_sub_cancel_right, rangeCheck_natCast (by unfold modulus; omega)]
          omega
        simp only [SignCompositionTarget.build, SignCompositionTarget.initial, innerProof,
          Bool.false_eq_true, if_false, hrange, true_and, Nat.cast_one, zero_add]
      simp only [List.map_cons, composedProof, hfirst, exists_eq_left,
        recursiveProofs_iff hi hrest, SignCompositionTarget.exposes]
      have hsize : 1 + idxs.length = (i :: idxs).length := by
        rw [List.length_cons, Nat.add_comm]
      rw [← List.isChain_iff_pairwise, hsize]
      constructor
      · intro ⟨composed, ⟨hchain, hcomposed⟩, hrange, _, _⟩
        subst hcomposed
        exact ⟨hchain, (rangeCheck_threshold hlen hV).mp hrange⟩
      · intro ⟨hchain, hthreshold⟩
        exact ⟨_, ⟨hchain, rfl⟩, (rangeCheck_threshold hlen hV).mpr hthreshold, rfl, rfl⟩

end

/-! ## proofs from justifications -/

/-- The sorted selection and what the circuits ask of it. -/
structure Composable (C : Compression) (V : List PublicKey) (message : GrandpaMessage)
    (preCommits : List ProcessedPreCommit) : Prop where
  increasing : (indices preCommits).Pairwise (· < ·)
  threshold : 2 * V.length < 3 * preCommits.length
  satisfiable : ∃ composed : SignCompositionTarget C,
    composedProof (blake2Circuit C (keyBytes V)) message ((indices preCommits).map
      (innerProof (blake2Circuit C (keyBytes V)) (V.length : F) message)) composed ∧
    composed.exposes (blake2Circuit C (keyBytes V)) message

/-- The pre-commits contain valid ones of more than two thirds of the validators. -/
def Justifies (verify : PublicKey → Signature → GrandpaMessage → Prop) (V : List PublicKey)
    (message : GrandpaMessage) (preCommits : List PreCommit) : Prop :=
  ∃ keys : Finset PublicKey, 2 * V.length < 3 * keys.card ∧ ∀ key ∈ keys, key ∈ V ∧
    ∃ pc ∈ preCommits, pc.publicKey = key ∧ verify key pc.signature message

variable {verify : PublicKey → Signature → GrandpaMessage → Prop} {V : List PublicKey}
  {message : GrandpaMessage} {preCommits : List PreCommit}

/-- The assertion holds for a justification. -/
theorem Justifies.length_firstPreCommits (h : Justifies verify V message preCommits) :
    (firstPreCommits V preCommits).length = processedValidatorCount V := by
  obtain ⟨keys, hcard, hkeys⟩ := h
  let entries := preCommits.filter fun pc => pc.publicKey ∈ V
  have hsub : keys ⊆ (entries.map (·.publicKey)).toFinset := by
    intro key hkey
    obtain ⟨hmem, pc, hpc, hpublicKey, _⟩ := hkeys key hkey
    rw [List.mem_toFinset, List.mem_map]
    refine ⟨pc, ?_, hpublicKey⟩
    rw [List.mem_filter, decide_eq_true_iff, hpublicKey]
    exact ⟨hpc, hmem⟩
  have hle : keys.card ≤ entries.length := by
    calc keys.card ≤ (entries.map (·.publicKey)).toFinset.card := Finset.card_le_card hsub
      _ ≤ (entries.map (·.publicKey)).length := List.toFinset_card_le _
      _ = entries.length := List.length_map _
  have hcount : processedValidatorCount V ≤ entries.length := by
    unfold processedValidatorCount
    omega
  rw [firstPreCommits, List.length_take]
  exact Nat.min_eq_left hcount

/-- **A finality proof can be built** from a justification exactly when the first entries
of validators, up to the threshold, are of different validators. -/
theorem composable_iff (C : Compression) (hmax : V.length ≤ maxValidatorCount)
    (h : Justifies verify V message preCommits) :
    (∃ selected, (processedPreCommits V preCommits).map sortPreCommits = some selected ∧
      Composable C V message selected) ↔
    ((firstPreCommits V preCommits).map (·.publicKey)).Nodup := by
  have hlen := h.length_firstPreCommits
  rw [processedPreCommits_eq, if_pos hlen, ← nodup_indices_iff]
  generalize hprocessed : (firstPreCommits V preCommits).map (PreCommit.located V) = processed
  have hperm := perm_sortPreCommits processed
  have hsize : (sortPreCommits processed).length = processedValidatorCount V := by
    rw [hperm.length_eq, ← hprocessed, List.length_map, hlen]
  have hidx : ∀ i ∈ indices (sortPreCommits processed), i < V.length := by
    intro i hi
    obtain ⟨p, hp, rfl⟩ := List.mem_map.mp hi
    rw [hperm.mem_iff, ← hprocessed] at hp
    obtain ⟨pc, hpc, rfl⟩ := List.mem_map.mp hp
    exact idxOf_lt hpc
  have hthreshold : 2 * V.length < 3 * (sortPreCommits processed).length := by
    rw [hsize, processedValidatorCount]
    omega
  have hfits : (sortPreCommits processed).length ≤ maxValidatorCount := by
    rw [hsize, processedValidatorCount]
    unfold maxValidatorCount at hmax ⊢
    omega
  rw [← increasing_sortPreCommits]
  constructor
  · intro ⟨selected, hselected, hcomposable⟩
    rw [Option.map_some, Option.some.injEq] at hselected
    rw [hselected]
    exact hcomposable.increasing
  · intro hincreasing
    refine ⟨_, rfl, hincreasing, hthreshold, ?_⟩
    exact (composedProof_exposes_iff hmax hidx hfits).mpr ⟨hincreasing, hthreshold⟩

/-- Two validators, both with a valid pre-commit. -/
def twoKeys : List PublicKey := [sampleKey, foreignKey]

def sampleSignature : Signature := ⟨List.replicate ed25519SignatureSize 1, List.length_replicate⟩

def preCommitOf (key : PublicKey) : PreCommit := ⟨key, sampleSignature⟩

theorem justifies_twoKeys {preCommits : List PreCommit}
    (h : ∀ key ∈ twoKeys, preCommitOf key ∈ preCommits) :
    Justifies (fun _ _ _ => True) twoKeys sampleVote preCommits := by
  refine ⟨{sampleKey, foreignKey}, by decide, ?_⟩
  intro key hkey
  rw [Finset.mem_insert, Finset.mem_singleton] at hkey
  have hmem : key ∈ twoKeys := by simpa [twoKeys] using hkey
  exact ⟨hmem, _, h key hmem, rfl, trivial⟩

/-- One pre-commit of each. -/
theorem composable_twoKeys : ∃ selected,
    (processedPreCommits twoKeys [preCommitOf foreignKey, preCommitOf sampleKey]).map
      sortPreCommits = some selected ∧
    Composable freeCompression twoKeys sampleVote selected :=
  (@composable_iff (fun _ _ _ => True) _ _ _ freeCompression (by decide)
    (justifies_twoKeys (by decide))).mpr (by decide)

/-- The first validator pre-commits twice: the second is cut off, and no proof can be
built from the two entries of the first. -/
theorem not_composable_equivocation :
    let preCommits := [preCommitOf sampleKey, preCommitOf sampleKey, preCommitOf foreignKey]
    twoKeys.Nodup ∧ Justifies (fun _ _ _ => True) twoKeys sampleVote preCommits ∧
    ∀ selected, (processedPreCommits twoKeys preCommits).map sortPreCommits = some selected →
      ¬ (indices selected).Pairwise (· < ·) := by
  refine ⟨by decide, justifies_twoKeys (by decide), ?_⟩
  intro selected h
  have hselected : (processedPreCommits twoKeys [preCommitOf sampleKey, preCommitOf sampleKey,
      preCommitOf foreignKey]).map sortPreCommits =
      some [⟨0, sampleKey, sampleSignature⟩, ⟨0, sampleKey, sampleSignature⟩] := by decide
  rw [hselected, Option.some.injEq] at h
  subst h
  decide

end GearBridges.Prover
