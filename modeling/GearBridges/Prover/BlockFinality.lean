import GearBridges.Prover.ValidatorSigns
import Mathlib.Algebra.BigOperators.Fin

/-!
# Prover.BlockFinality

What a proof of block finality says about the validator set whose hash it exposes.  The
index of a signature is only checked against the padded set, and the padded set only up
to the last hashed block against the hash: with at most four validators the last two
slots hold whatever the prover puts there, and the slots in between hold the zero key.
`validatorSignsChain_quorum_iff` says exactly when this does not matter.
-/

namespace GearBridges.Prover

open Goldilocks Plonky2Blake2b256

/-! ## the keys of the padded set -/

/-- Concatenated public keys. -/
def keyBytes (V : List PublicKey) : List UInt8 := (V.map Subtype.val).flatten

/-- The keys a prover can have at a slot of the padded set of `V`: its own key, the zero
key up to the end of the hashed blocks, any key after them. -/
def Admits (V : List PublicKey) (i : Fin maxValidatorCount) (key : PublicKey) : Prop :=
  match V[i.val]? with
  | some validator => key = validator
  | none =>
      i.val * ed25519PublicKeySize < blockCount (keyBytes V).length * blockBytes → key = zeroKey

theorem length_keyBytes (V : List PublicKey) :
    (keyBytes V).length = V.length * ed25519PublicKeySize := by
  induction V with
  | nil => simp [keyBytes]
  | cons k V ih =>
      simp only [keyBytes, List.map_cons, List.flatten_cons, List.length_append,
        List.length_cons] at ih ⊢
      rw [ih, k.property, Nat.succ_mul, Nat.add_comm]

theorem length_keyBytes_le {V : List PublicKey} (hV : V.length ≤ maxValidatorCount) :
    (keyBytes V).length ≤ maxDataBytes := by
  rw [length_keyBytes]
  unfold maxValidatorCount at hV
  unfold ed25519PublicKeySize maxDataBytes maxBlockCount blockBytes
  omega

theorem keyBytes_slice {V : List PublicKey} {i : Nat} {key : PublicKey} (h : V[i]? = some key)
    (tail : List UInt8) :
    ((keyBytes V ++ tail).drop (i * ed25519PublicKeySize)).take ed25519PublicKeySize = key.val := by
  induction V generalizing i with
  | nil => simp at h
  | cons k V ih =>
      have hcons : keyBytes (k :: V) ++ tail = k.val ++ (keyBytes V ++ tail) := by
        simp [keyBytes]
      rw [hcons]
      cases i with
      | zero =>
          rw [List.getElem?_cons_zero, Option.some.injEq] at h
          subst h
          rw [Nat.zero_mul, List.drop_zero, List.take_append_of_le_length (by rw [k.property]),
            List.take_of_length_le (by rw [k.property])]
      | succ i =>
          rw [List.getElem?_cons_succ] at h
          have hoffset : (i + 1) * ed25519PublicKeySize =
              k.val.length + i * ed25519PublicKeySize := by
            rw [k.property, Nat.succ_mul, Nat.add_comm]
          rw [hoffset, List.drop_length_add_append]
          exact ih h

theorem zeros_slice {n d k : Nat} (h : d + k ≤ n) (tail : List UInt8) :
    ((List.replicate n (0 : UInt8) ++ tail).drop d).take k = List.replicate k 0 := by
  rw [List.drop_append_of_le_length (by rw [List.length_replicate]; omega), List.drop_replicate,
    List.take_append_of_le_length (by rw [List.length_replicate]; omega), List.take_replicate,
    Nat.min_eq_left (by omega)]

/-- The keys read from data with the right hash. -/
theorem admits_parseValidatorSet {V : List PublicKey}
    {data : { bytes : List UInt8 // bytes.length = maxDataBytes }}
    (h : padMessage (keyBytes V) <+: data.val) (i : Fin maxValidatorCount) :
    Admits V i (parseValidatorSet data i) := by
  obtain ⟨rest, hrest⟩ := h
  unfold Admits
  cases hV : V[i.val]? with
  | some validator =>
      apply Subtype.ext
      simp only [parseValidatorSet, ← hrest, padMessage, List.append_assoc]
      exact keyBytes_slice hV _
  | none =>
      intro hlt
      have hlen := length_keyBytes V
      have hi : V.length ≤ i.val := List.getElem?_eq_none_iff.mp hV
      have hi' : (keyBytes V).length ≤ i.val * ed25519PublicKeySize := by
        rw [hlen]
        exact Nat.mul_le_mul_right _ hi
      apply Subtype.ext
      simp only [parseValidatorSet, ← hrest, padMessage, List.append_assoc]
      have hoffset : i.val * ed25519PublicKeySize =
          (keyBytes V).length + (i.val * ed25519PublicKeySize - (keyBytes V).length) := by omega
      rw [hoffset, List.drop_length_add_append]
      -- blocks end at a multiple of the key size
      refine zeros_slice ?_ rest
      unfold ed25519PublicKeySize blockBytes at *
      omega

/-- Every admitted key can be put there. -/
theorem exists_parseValidatorSet {V : List PublicKey} (hV : V.length ≤ maxValidatorCount)
    {i : Fin maxValidatorCount} {key : PublicKey} (h : Admits V i key) :
    ∃ data : { bytes : List UInt8 // bytes.length = maxDataBytes },
      padMessage (keyBytes V) <+: data.val ∧ parseValidatorSet data i = key := by
  have hcount := blockCount_le (length_keyBytes_le hV)
  have hpad := length_padMessage (keyBytes V)
  have hi := i.isLt
  unfold maxValidatorCount at hi
  by_cases hlt : i.val * ed25519PublicKeySize < (padMessage (keyBytes V)).length
  · -- inside the hashed blocks the key is determined
    let zeros := List.replicate (maxDataBytes - (padMessage (keyBytes V)).length) (0 : UInt8)
    have hsize : (padMessage (keyBytes V) ++ zeros).length = maxDataBytes := by
      rw [List.length_append, List.length_replicate, hpad]
      unfold maxDataBytes
      have := Nat.mul_le_mul_right blockBytes hcount
      omega
    refine ⟨⟨_, hsize⟩, List.prefix_append _ _, ?_⟩
    have hread : Admits V i (parseValidatorSet ⟨_, hsize⟩ i) :=
      admits_parseValidatorSet (List.prefix_append _ _) i
    unfold Admits at h hread
    cases hV : V[i.val]? with
    | some validator =>
        rw [hV] at h hread
        exact hread.trans h.symm
    | none =>
        rw [hV] at h hread
        rw [hpad] at hlt
        exact (hread hlt).trans (h hlt).symm
  · -- behind them there is room for the key
    have hle : (padMessage (keyBytes V)).length ≤ i.val * ed25519PublicKeySize := Nat.not_lt.mp hlt
    obtain ⟨before, hblocks, hbefore⟩ : ∃ before, padMessage (keyBytes V) <+: before ∧
        before.length = i.val * ed25519PublicKeySize := by
      refine ⟨_, List.prefix_append _ (List.replicate
        (i.val * ed25519PublicKeySize - (padMessage (keyBytes V)).length) 0), ?_⟩
      rw [List.length_append, List.length_replicate]
      omega
    let zeros := List.replicate (maxDataBytes - (i.val + 1) * ed25519PublicKeySize) (0 : UInt8)
    have hsize : (before ++ (key.val ++ zeros)).length = maxDataBytes := by
      rw [List.length_append, List.length_append, List.length_replicate, hbefore, key.property]
      unfold ed25519PublicKeySize maxDataBytes maxBlockCount blockBytes
      omega
    refine ⟨⟨_, hsize⟩, ?_, Subtype.ext ?_⟩
    · exact hblocks.trans (List.prefix_append _ _)
    · simp only [parseValidatorSet]
      rw [← hbefore, List.drop_left, List.take_append_of_le_length (by rw [key.property]),
        List.take_of_length_le (by rw [key.property])]

/-! ## signatures at a slot -/

section

variable {C : Compression} {Valid : PublicKey → GrandpaMessage → Prop} {V : List PublicKey}
  {message : GrandpaMessage}

/-- Some key a prover can have at the slot has a valid signature. -/
def Usable (V : List PublicKey) (Valid : PublicKey → GrandpaMessage → Prop)
    (message : GrandpaMessage) (i : Fin maxValidatorCount) : Prop :=
  ∃ key, Admits V i key ∧ Valid key message

theorem signsAt_of_usable (hV : V.length ≤ maxValidatorCount) {i : Fin maxValidatorCount}
    (h : Usable V Valid message i) :
    SignsAt C Valid (blake2Circuit C (keyBytes V)) (V.length : F) message i := by
  obtain ⟨key, hadmits, hvalid⟩ := h
  obtain ⟨data, hblocks, hkey⟩ := exists_parseValidatorSet hV hadmits
  refine ⟨⟨_, parseValidatorSet data, _⟩, key,
    ⟨_, genericBlake2_of_blocks C (length_keyBytes_le hV) hblocks, ?_, rfl, rfl⟩,
    randomRead_iff.mpr ⟨i, rfl, hkey.symm⟩, hvalid, rfl, rfl⟩
  rw [length_keyBytes, Nat.cast_mul, mul_comm]

theorem SignsAt.usable (hfree : SecondPreimageFree C (keyBytes V)) {count : F}
    {i : Fin maxValidatorCount}
    (h : SignsAt C Valid (blake2Circuit C (keyBytes V)) count message i) :
    count = (V.length : F) ∧ Usable V Valid message i := by
  obtain ⟨set, key, ⟨hasher, hhasher, hlength, hhash, hset⟩, hread, hvalid, hdigest, hcount⟩ := h
  obtain ⟨hdata, hblocks⟩ := hhasher.of_hash_eq hfree (hhash.symm.trans hdigest.symm)
  constructor
  · rw [hdata, length_keyBytes, Nat.cast_mul, mul_comm (V.length : F)] at hlength
    have hcoprime : Nat.Coprime ed25519PublicKeySize modulus := by decide
    exact hcount.trans (natCast_mul_cancel hcoprime hlength)
  · obtain ⟨j, hj, hkey⟩ := randomRead_iff.mp hread
    have hij : i = j := by
      have hi := i.isLt
      have hj' := j.isLt
      unfold maxValidatorCount at hi hj'
      exact Fin.ext ((natCast_inj (by unfold modulus; omega) (by unfold modulus; omega)).mp hj)
    subst hij
    rw [hset] at hkey
    refine ⟨key, ?_, hvalid⟩
    rw [hkey]
    exact admits_parseValidatorSet hblocks i

/-! ## the quorum -/

/-- More than two thirds of the validators have a valid signature on the message. -/
def Quorum (V : List PublicKey) (Valid : PublicKey → GrandpaMessage → Prop)
    (message : GrandpaMessage) : Prop :=
  ∃ s : Finset (Fin V.length), (∀ i ∈ s, Valid (V.get i) message) ∧ 2 * V.length < 3 * s.card

open Classical in
/-- The validators with a valid signature. -/
noncomputable def signers (V : List PublicKey) (Valid : PublicKey → GrandpaMessage → Prop)
    (message : GrandpaMessage) : Finset (Fin V.length) :=
  Finset.univ.filter fun i => Valid (V.get i) message

open Classical in
/-- The slots behind the validators that a prover can sign for. -/
noncomputable def spareSlots (V : List PublicKey) (Valid : PublicKey → GrandpaMessage → Prop)
    (message : GrandpaMessage) : Finset (Fin maxValidatorCount) :=
  Finset.univ.filter fun i => V.length ≤ i.val ∧ Usable V Valid message i

theorem quorum_iff : Quorum V Valid message ↔ 2 * V.length < 3 * (signers V Valid message).card := by
  constructor
  · intro ⟨s, hs, hcard⟩
    have hsub : s ⊆ signers V Valid message := by
      intro i hi
      simp only [signers, Finset.mem_filter, Finset.mem_univ, true_and]
      exact hs i hi
    have := Finset.card_le_card hsub
    omega
  · intro h
    refine ⟨signers V Valid message, ?_, h⟩
    intro i hi
    simpa [signers] using hi

theorem usable_iff_of_lt {i : Fin maxValidatorCount} (hi : i.val < V.length) :
    Usable V Valid message i ↔ Valid (V.get ⟨i.val, hi⟩) message := by
  unfold Usable Admits
  rw [List.getElem?_eq_getElem hi]
  simp

open Classical in
/-- The slots a prover can sign for are those of the signers and the spare ones. -/
theorem card_usable (hV : V.length ≤ maxValidatorCount) :
    (Finset.univ.filter (Usable V Valid message)).card =
      (signers V Valid message).card + (spareSlots V Valid message).card := by
  have hdisjoint : Disjoint ((signers V Valid message).map (Fin.castLEEmb hV))
      (spareSlots V Valid message) := by
    rw [Finset.disjoint_left]
    intro i hi hspare
    obtain ⟨j, _, rfl⟩ := Finset.mem_map.mp hi
    simp only [spareSlots, Finset.mem_filter, Finset.mem_univ, true_and] at hspare
    have hj := j.isLt
    have hle : V.length ≤ j.val := hspare.1
    omega
  have hunion : Finset.univ.filter (Usable V Valid message) =
      (signers V Valid message).map (Fin.castLEEmb hV) ∪ spareSlots V Valid message := by
    ext i
    simp only [Finset.mem_filter, Finset.mem_univ, true_and, Finset.mem_union, Finset.mem_map,
      signers, spareSlots]
    by_cases hi : i.val < V.length
    · rw [usable_iff_of_lt hi]
      constructor
      · intro h
        exact .inl ⟨⟨i.val, hi⟩, h, rfl⟩
      · rintro (⟨j, hj, rfl⟩ | h)
        · exact hj
        · omega
    · constructor
      · intro h
        exact .inr ⟨by omega, h⟩
      · rintro (⟨j, _, rfl⟩ | h)
        · exact absurd j.isLt hi
        · exact h.2
  rw [hunion, Finset.card_union_of_disjoint hdisjoint, Finset.card_map]

theorem rangeCheck_threshold {k n : Nat} (hk : k ≤ maxValidatorCount) (hn : n ≤ maxValidatorCount) :
    rangeCheck (3 * (k : F) - 2 * (n : F) - 1) 32 ↔ 2 * n < 3 * k := by
  unfold maxValidatorCount at hk hn
  have heq : 3 * (k : F) - 2 * (n : F) - 1 = ((3 * k : Nat) : F) - ((2 * n + 1 : Nat) : F) := by
    push_cast
    rw [sub_add_eq_sub_sub]
  rw [heq, rangeCheck_sub (by omega) (by omega)]
  omega

/-- With enough slots to sign for, the chain is proven. -/
theorem validatorSignsChain_of_card (hV : V.length ≤ maxValidatorCount)
    (h : 2 * V.length < 3 * ((signers V Valid message).card + (spareSlots V Valid message).card)) :
    ValidatorSignsChain C Valid (blake2Circuit C (keyBytes V)) message := by
  classical
  rw [← card_usable hV] at h
  refine validatorSignsChain_iff.mpr
    ⟨V.length, Finset.univ.filter (Usable V Valid message), ?_, ?_, ?_⟩
  · rw [← Finset.card_pos]
    omega
  · intro i hi
    exact signsAt_of_usable hV (Finset.mem_filter.mp hi).2
  · exact (rangeCheck_threshold (Finset.card_le_univ _ |>.trans (by simp)) hV).mpr h

/-- A proven chain had enough slots to sign for. -/
theorem ValidatorSignsChain.card (hV : V.length ≤ maxValidatorCount)
    (hfree : SecondPreimageFree C (keyBytes V))
    (h : ValidatorSignsChain C Valid (blake2Circuit C (keyBytes V)) message) :
    2 * V.length < 3 * ((signers V Valid message).card + (spareSlots V Valid message).card) := by
  classical
  obtain ⟨count, s, ⟨i, hi⟩, hs, hrange⟩ := validatorSignsChain_iff.mp h
  have hcount := ((hs i hi).usable hfree).1
  subst hcount
  have hle : s.card ≤ maxValidatorCount := Finset.card_le_univ s |>.trans (by simp)
  have hthreshold := (rangeCheck_threshold hle hV).mp hrange
  have hsub : s ⊆ Finset.univ.filter (Usable V Valid message) := by
    intro j hj
    rw [Finset.mem_filter]
    exact ⟨Finset.mem_univ j, ((hs j hj).usable hfree).2⟩
  have hcard := Finset.card_le_card hsub
  rw [card_usable hV] at hcard
  omega

/-- **Block-finality soundness** holds exactly when the spare slots do not decide: the
signers are a quorum without them, or are none even with them. -/
theorem validatorSignsChain_quorum_iff (hV : V.length ≤ maxValidatorCount)
    (hfree : SecondPreimageFree C (keyBytes V)) :
    (ValidatorSignsChain C Valid (blake2Circuit C (keyBytes V)) message →
      Quorum V Valid message) ↔
    (2 * V.length < 3 * (signers V Valid message).card ∨
      3 * ((signers V Valid message).card + (spareSlots V Valid message).card) ≤ 2 * V.length) := by
  rw [quorum_iff]
  constructor
  · intro h
    by_cases hcard : 2 * V.length <
        3 * ((signers V Valid message).card + (spareSlots V Valid message).card)
    · exact .inl (h (validatorSignsChain_of_card hV hcard))
    · exact .inr (Nat.not_lt.mp hcard)
  · intro h hchain
    have hcard := hchain.card hV hfree
    omega

end

/-! ## one validator -/

def sampleKey : PublicKey := ⟨List.replicate ed25519PublicKeySize 1, List.length_replicate⟩
def foreignKey : PublicKey := ⟨List.replicate ed25519PublicKeySize 2, List.length_replicate⟩
def sampleVote : GrandpaMessage := ⟨List.replicate grandpaVoteLength 1, List.length_replicate⟩

/-- The validator signs. -/
theorem validatorSignsChain_quorum_iff_sample :
    SecondPreimageFree freeCompression (keyBytes [sampleKey]) ∧
    (ValidatorSignsChain freeCompression (fun key _ => key = sampleKey)
      (blake2Circuit freeCompression (keyBytes [sampleKey])) sampleVote →
      Quorum [sampleKey] (fun key _ => key = sampleKey) sampleVote) := by
  have hfree := secondPreimageFree_free (keyBytes [sampleKey])
  refine ⟨hfree, (validatorSignsChain_quorum_iff (by decide) hfree).mpr (.inl ?_)⟩
  have hsigners : signers [sampleKey] (fun key _ => key = sampleKey) sampleVote = Finset.univ := by
    ext i
    simp [signers]
  rw [hsigners]
  decide

/-- The validator does not sign, but a key of the prover's own in the fifth slot does:
a quorum of the one validator is proven all the same, whatever the hash. -/
theorem foreign_quorum :
    (1 ≤ [sampleKey].length ∧ [sampleKey].length ≤ maxValidatorCount) ∧
    (∀ C : Compression, ValidatorSignsChain C (fun key _ => key = foreignKey)
      (blake2Circuit C (keyBytes [sampleKey])) sampleVote) ∧
    ¬ Quorum [sampleKey] (fun key _ => key = foreignKey) sampleVote := by
  refine ⟨by decide, ?_, ?_⟩
  · intro C
    have hspare : (⟨4, by decide⟩ : Fin maxValidatorCount) ∈
        spareSlots [sampleKey] (fun key _ => key = foreignKey) sampleVote := by
      simp only [spareSlots, Finset.mem_filter, Finset.mem_univ, true_and]
      refine ⟨by decide, foreignKey, ?_, rfl⟩
      -- slot 4 starts where the only block ends
      intro hlt
      exact absurd hlt (by decide)
    have hcard := Finset.card_pos.mpr ⟨_, hspare⟩
    have hlength : [sampleKey].length = 1 := rfl
    exact validatorSignsChain_of_card (by decide) (by omega)
  · intro ⟨s, hs, hcard⟩
    have hempty : s = ∅ := by
      rw [Finset.eq_empty_iff_forall_notMem]
      intro i hi
      have hkey : [sampleKey].get i = sampleKey := by
        have := i.isLt
        simp
      exact absurd (hkey.symm.trans (hs i hi)) (by decide)
    simp [hempty] at hcard

end GearBridges.Prover
