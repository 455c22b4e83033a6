import GearBridges.Prover.CyclicProofs
import GearBridges.Prover.Targets

/-!
# Prover.StorageAddress

The operations of `StorageAddressTarget` as functions of their targets.  An address
stands for a list of nibbles (`ofNibbles`): the nibbles padded with zeros, and their
number.  The operations keep this form; `append` is satisfiable as long as the nibbles
fit (`addresses_are_lists`).
-/

namespace GearBridges.Prover

open Goldilocks

deriving instance DecidableEq for StorageAddressTarget

namespace StorageAddressTarget

/-! ## the operations -/

/-- `from_half_byte_targets_safe`: what stands at or after `length` becomes zero. -/
def fromHalfByteTargetsSafe (targets : List F) (length : F) : Option StorageAddressTarget := do
  let targets ← targets.zipIdx.mapM fun (uncheckedTarget, idx) => do
    let validHalfByte ← listLe ((idx + 1 : Nat) : F) length
    return if validHalfByte then uncheckedTarget else 0
  return ⟨targets, length⟩

/-- `from_single_nibble_target`. -/
def fromSingleNibbleTarget (nibble : F) : StorageAddressTarget :=
  ⟨nibble :: List.replicate (maxStorageAddressLengthInNibbles - 1) 0, 1⟩

/-- `HalfByteTarget::constant`; it panics for a value that is no nibble. -/
def halfByteConstant (value : UInt8) : Option F := do
  guard (value < 16)
  return ((value.toNat : Nat) : F)

/-- `constant`; it panics for an address that is too long. -/
def constant (nibbles : List UInt8) : Option StorageAddressTarget := do
  guard (nibbles.length ≤ maxStorageAddressLengthInNibbles)
  let paddedAddress ← (nibbles ++
    List.replicate (maxStorageAddressLengthInNibbles - nibbles.length) 0).mapM halfByteConstant
  return ⟨paddedAddress, (nibbles.length : F)⟩

/-- The nibble `append` puts at a position, read from one of the two addresses. -/
def appendedNibbleAt (self append : StorageAddressTarget) (i : Nat) : Option F := do
  let selfReadIdx : F := (i : F)
  let appendedReadIdxValid ← listLe self.length selfReadIdx
  let appendedReadIdx := if appendedReadIdxValid then selfReadIdx - self.length else 0
  let appendedNibble ← ArrayTarget.randomRead append.paddedAddress appendedReadIdx
  let selectNibbleFromAppended ← listLe self.length selfReadIdx
  return if selectNibbleFromAppended then appendedNibble else self.paddedAddress.getD i 0

/-- `append`. -/
def append (self append : StorageAddressTarget) : Option StorageAddressTarget := do
  let finalLength := self.length + append.length
  guard (rangeCheck ((maxStorageAddressLengthInNibbles : F) - finalLength) 32)
  let addressTargets ←
    (List.range maxStorageAddressLengthInNibbles).mapM (appendedNibbleAt self append)
  return ⟨addressTargets, finalLength⟩

/-! ## what an address stands for -/

/-- Nibbles padded with zeros to the full length. -/
def pad (nibbles : List F) : List F :=
  nibbles ++ List.replicate (maxStorageAddressLengthInNibbles - nibbles.length) 0

/-- The address of a list of nibbles. -/
def ofNibbles (nibbles : List F) : StorageAddressTarget := ⟨pad nibbles, (nibbles.length : F)⟩

theorem getD_pad (nibbles : List F) (i : Nat) : (pad nibbles).getD i 0 = nibbles.getD i 0 :=
  getD_append_replicate nibbles _ i 0

theorem length_pad {nibbles : List F} (h : nibbles.length ≤ maxStorageAddressLengthInNibbles) :
    (pad nibbles).length = maxStorageAddressLengthInNibbles := by
  unfold pad
  rw [List.length_append, List.length_replicate]
  omega

/-- A full array is the padding of nibbles it has at every position. -/
theorem eq_pad {targets nibbles : List F} (hlen : targets.length = maxStorageAddressLengthInNibbles)
    (hn : nibbles.length ≤ maxStorageAddressLengthInNibbles)
    (h : ∀ i < maxStorageAddressLengthInNibbles, targets.getD i 0 = nibbles.getD i 0) :
    targets = pad nibbles := by
  apply List.ext_getElem (by rw [hlen, length_pad hn])
  intro i hi hi'
  have hat := h i (by omega)
  rwa [← getD_pad nibbles, List.getD_eq_getElem _ _ hi, List.getD_eq_getElem _ _ hi'] at hat

@[simp] theorem ofNibbles_nil : ofNibbles [] = empty := by
  simp [ofNibbles, pad, empty]

theorem fromSingleNibbleTarget_eq (nibble : F) :
    fromSingleNibbleTarget nibble = ofNibbles [nibble] := by
  simp [fromSingleNibbleTarget, ofNibbles, pad]

/-! ## the operations on nibbles -/

/-- `from_half_byte_targets_safe` takes the first nibbles. -/
theorem fromHalfByteTargetsSafe_eq {targets : List F}
    (hlen : targets.length = maxStorageAddressLengthInNibbles) {n : Nat}
    (hn : n ≤ maxStorageAddressLengthInNibbles) :
    fromHalfByteTargetsSafe targets (n : F) = some (ofNibbles (targets.take n)) := by
  have hmax : maxStorageAddressLengthInNibbles = 64 := rfl
  have hstep : ∀ x ∈ targets.zipIdx, (do
      let validHalfByte ← listLe ((x.2 + 1 : Nat) : F) (n : F)
      return if validHalfByte then x.1 else 0 : Option F) =
        some (if x.2 < n then x.1 else 0) := by
    intro x hx
    have hidx := List.snd_lt_of_mem_zipIdx hx
    rw [listLe_natCast (by omega) (by omega)]
    simp
  unfold fromHalfByteTargetsSafe
  rw [mapM_eq_some_map hstep]
  have hpad : targets.zipIdx.map (fun x => if x.2 < n then x.1 else 0) = pad (targets.take n) := by
    apply eq_pad (by simp [hlen]) (by simp; omega)
    intro i hi
    by_cases h : i < n
    · simp [List.getD_eq_getElem?_getD, h, hlen, hi]
    · simp [List.getD_eq_getElem?_getD, h, hlen, hi]
  have htake : (targets.take n).length = n := by
    rw [List.length_take, hlen]
    omega
  simp [hpad, ofNibbles, htake]

theorem randomRead_pad {m : List F} (hm : m.length ≤ maxStorageAddressLengthInNibbles) {i : Nat}
    (hi : i < maxStorageAddressLengthInNibbles) :
    ArrayTarget.randomRead (pad m) (i : F) = some (m.getD i 0) := by
  have hmax : maxStorageAddressLengthInNibbles = 64 := rfl
  have hlen : (pad m).length = 64 := length_pad hm
  have hpower : (pad m).length.nextPowerOfTwo = (pad m).length := by
    rw [hlen]
    decide +kernel
  rw [ArrayTarget.randomRead_natCast hpower (by omega) (by omega) (by omega),
    List.getElem?_eq_getElem (by omega), ← getD_pad, List.getD_eq_getElem]

theorem appendedNibbleAt_eq {l m : List F}
    (h : l.length + m.length ≤ maxStorageAddressLengthInNibbles) {i : Nat}
    (hi : i < maxStorageAddressLengthInNibbles) :
    appendedNibbleAt (ofNibbles l) (ofNibbles m) i = some ((l ++ m).getD i 0) := by
  have hmax : maxStorageAddressLengthInNibbles = 64 := rfl
  simp only [appendedNibbleAt, ofNibbles, getD_pad]
  rw [listLe_natCast (by omega) (by omega)]
  by_cases hle : l.length ≤ i
  · have hsub : (i : F) - (l.length : F) = ((i - l.length : Nat) : F) := (Nat.cast_sub hle).symm
    have hread := randomRead_pad (m := m) (by omega) (i := i - l.length) (by omega)
    rw [List.getD_append_right _ _ _ _ hle]
    simp only [hle, decide_true, Option.bind_eq_bind, Option.bind_some, if_true, hsub, hread,
      Option.pure_def]
  · have hread := randomRead_pad (m := m) (by omega) (i := 0) (by omega)
    rw [Nat.cast_zero] at hread
    rw [List.getD_append _ _ _ _ (by omega)]
    simp only [hle, decide_false, Option.bind_eq_bind, Option.bind_some, Bool.false_eq_true,
      if_false, hread, Option.pure_def]

/-- The check of the length. -/
theorem rangeCheck_append {l m : List F} (hl : l.length ≤ maxStorageAddressLengthInNibbles)
    (hm : m.length ≤ maxStorageAddressLengthInNibbles) :
    rangeCheck ((maxStorageAddressLengthInNibbles : F) -
        ((ofNibbles l).length + (ofNibbles m).length)) 32 ↔
      l.length + m.length ≤ maxStorageAddressLengthInNibbles := by
  have hmax : maxStorageAddressLengthInNibbles = 64 := rfl
  simp only [ofNibbles]
  rw [← Nat.cast_add]
  exact rangeCheck_sub (by omega) (by omega)

/-- **Appending concatenates the nibbles** when they fit. -/
theorem append_eq {l m : List F} (h : l.length + m.length ≤ maxStorageAddressLengthInNibbles) :
    (ofNibbles l).append (ofNibbles m) = some (ofNibbles (l ++ m)) := by
  have hpad : (List.range maxStorageAddressLengthInNibbles).map ((l ++ m).getD · 0) =
      pad (l ++ m) := by
    apply eq_pad (by simp) (by rw [List.length_append]; omega)
    intro i hi
    simp [List.getD_eq_getElem?_getD, hi]
  unfold append
  rw [guard_bind_of ((rangeCheck_append (by omega) (by omega)).mpr h),
    mapM_eq_some_map fun i hi => appendedNibbleAt_eq h (List.mem_range.mp hi), hpad]
  simp [ofNibbles]

/-- **What `append` computes**, for nibbles of either length. -/
theorem append_ofNibbles {l m : List F} (hl : l.length ≤ maxStorageAddressLengthInNibbles)
    (hm : m.length ≤ maxStorageAddressLengthInNibbles) :
    (ofNibbles l).append (ofNibbles m) =
      if l.length + m.length ≤ maxStorageAddressLengthInNibbles then some (ofNibbles (l ++ m))
      else none := by
  split
  · rename_i hfit
    exact append_eq hfit
  · rename_i hfit
    unfold append
    exact guard_bind_of_not (mt (rangeCheck_append hl hm).mp hfit)

/-- What is appended fitted. -/
theorem append_eq_some {l m : List F} (hl : l.length ≤ maxStorageAddressLengthInNibbles)
    (hm : m.length ≤ maxStorageAddressLengthInNibbles) {result : StorageAddressTarget}
    (h : (ofNibbles l).append (ofNibbles m) = some result) :
    l.length + m.length ≤ maxStorageAddressLengthInNibbles ∧ result = ofNibbles (l ++ m) := by
  rw [append_ofNibbles hl hm, Option.ite_none_right_eq_some, Option.some.injEq] at h
  exact ⟨h.1, h.2.symm⟩

/-! ## addresses a prover makes up -/

/-- The nibbles an address stands for, whatever stands behind them. -/
def nibbles (address : StorageAddressTarget) : List F :=
  address.paddedAddress.take address.length.val

@[simp] theorem nibbles_ofNibbles {l : List F} (hl : l.length ≤ maxStorageAddressLengthInNibbles) :
    (ofNibbles l).nibbles = l := by
  have hmax : maxStorageAddressLengthInNibbles = 64 := rfl
  have hv : ((l.length : Nat) : F).val = l.length := val_natCast (by unfold modulus; omega)
  simp only [nibbles, ofNibbles, hv, pad]
  exact List.take_left

/-- **Only the nibbles are appended to**: the length is checked, and what stands behind it
is not read. -/
theorem append_nibbles {self result : StorageAddressTarget} {m : List F}
    (hself : self.paddedAddress.length = maxStorageAddressLengthInNibbles)
    (hm : m.length ≤ maxStorageAddressLengthInNibbles)
    (h : self.append (ofNibbles m) = some result) :
    self.nibbles.length ≤ maxStorageAddressLengthInNibbles ∧
      (ofNibbles self.nibbles).append (ofNibbles m) = some result := by
  have hmax : maxStorageAddressLengthInNibbles = 64 := rfl
  obtain ⟨padded, length⟩ := self
  obtain ⟨k, hk, rfl⟩ : ∃ k : Nat, k < modulus ∧ length = (k : F) :=
    ⟨_, ZMod.val_lt length, (ZMod.natCast_zmod_val length).symm⟩
  simp only [nibbles, val_natCast hk] at hself ⊢
  unfold append at h
  rw [guard_bind_eq_some] at h
  obtain ⟨hlength, h⟩ := h
  -- every nibble compares its position with the length
  have hrange : rangeCheck (k : F) 32 := by
    by_contra hrange
    have hzero : appendedNibbleAt ⟨padded, (k : F)⟩ (ofNibbles m) 0 = none := by
      simp only [appendedNibbleAt, listLe_of_not_rangeCheck hrange]
      rfl
    have hmem : 0 ∈ List.range maxStorageAddressLengthInNibbles := List.mem_range.mpr (by omega)
    rw [mapM_eq_none hmem hzero] at h
    cases h
  rw [rangeCheck_natCast hk] at hrange
  simp only [ofNibbles] at hlength
  rw [← Nat.cast_add, rangeCheck_sub_of_lt (by omega) (by omega)] at hlength
  have htake : (padded.take k).length = k := by
    rw [List.length_take]
    omega
  have hnibble : ∀ i ∈ List.range maxStorageAddressLengthInNibbles,
      appendedNibbleAt (ofNibbles (padded.take k)) (ofNibbles m) i =
        appendedNibbleAt ⟨padded, (k : F)⟩ (ofNibbles m) i := by
    intro i hi
    rw [List.mem_range] at hi
    simp only [appendedNibbleAt, ofNibbles, htake, listLe_natCast (show k < 2 ^ 32 by omega)
      (show i < 2 ^ 32 by omega), Option.bind_eq_bind, Option.bind_some, decide_eq_true_iff]
    by_cases hle : k ≤ i
    · simp only [hle, if_true]
    · have hget : (pad (padded.take k)).getD i 0 = padded.getD i 0 := by
        rw [getD_pad, List.getD_eq_getElem?_getD, List.getElem?_take_of_lt (by omega),
          ← List.getD_eq_getElem?_getD]
      simp only [hle, if_false, hget]
  refine ⟨by omega, ?_⟩
  have hguard := (rangeCheck_append (show (padded.take k).length ≤ _ by omega) hm).mpr (by omega)
  unfold append
  rw [guard_bind_of hguard, mapM_congr hnibble, ← h]
  simp only [ofNibbles, htake]

/-! ## addresses the circuits build -/

/-- An address made by the operations. -/
inductive Built : StorageAddressTarget → Prop
  | empty : Built empty
  | constant {nibbles : List UInt8} {address : StorageAddressTarget} :
      constant nibbles = some address → Built address
  | single (nibble : F) : Built (fromSingleNibbleTarget nibble)
  | halfBytes {targets : List F} {n : Nat} {address : StorageAddressTarget} :
      targets.length = maxStorageAddressLengthInNibbles → n ≤ maxStorageAddressLengthInNibbles →
        fromHalfByteTargetsSafe targets (n : F) = some address → Built address
  | append {self append address : StorageAddressTarget} : Built self → Built append →
      self.append append = some address → Built address

/-- The invariant of `StorageAddressTarget`: all the data after `length` is zeroed. -/
structure ZeroPadded (address : StorageAddressTarget) : Prop where
  length_le : address.length.val ≤ maxStorageAddressLengthInNibbles
  length_padded : address.paddedAddress.length = maxStorageAddressLengthInNibbles
  zeroed : ∀ i, address.length.val ≤ i → address.paddedAddress.getD i 0 = 0

theorem val_length_ofNibbles {l : List F} (hl : l.length ≤ maxStorageAddressLengthInNibbles) :
    (ofNibbles l).length.val = l.length := by
  have hmax : maxStorageAddressLengthInNibbles = 64 := rfl
  exact val_natCast (by unfold modulus; omega)

theorem zeroPadded_ofNibbles {l : List F} (hl : l.length ≤ maxStorageAddressLengthInNibbles) :
    ZeroPadded (ofNibbles l) where
  length_le := by rwa [val_length_ofNibbles hl]
  length_padded := length_pad hl
  zeroed i hi := by
    rw [val_length_ofNibbles hl] at hi
    exact (getD_pad l i).trans (List.getD_eq_default _ _ hi)

theorem constant_eq_some {nibbles : List UInt8} {address : StorageAddressTarget}
    (h : constant nibbles = some address) :
    nibbles.length ≤ maxStorageAddressLengthInNibbles ∧
      address = ofNibbles (nibbles.map fun nibble => ((nibble.toNat : Nat) : F)) := by
  unfold constant at h
  rw [guard_bind_eq_some] at h
  obtain ⟨hlen, h⟩ := h
  refine ⟨hlen, ?_⟩
  by_cases hsmall : ∀ nibble ∈ nibbles ++
      List.replicate (maxStorageAddressLengthInNibbles - nibbles.length) 0, nibble < 16
  · have hstep : ∀ nibble ∈ nibbles ++
        List.replicate (maxStorageAddressLengthInNibbles - nibbles.length) 0,
          halfByteConstant nibble = some ((nibble.toNat : Nat) : F) :=
      fun nibble hmem => guard_bind_of (hsmall nibble hmem)
    rw [mapM_eq_some_map hstep] at h
    simpa [ofNibbles, pad] using h.symm
  · push Not at hsmall
    obtain ⟨nibble, hmem, hlarge⟩ := hsmall
    have hnone : halfByteConstant nibble = none := guard_bind_of_not hlarge
    rw [mapM_eq_none hmem hnone] at h
    cases h

/-- An address that was built stands for a list of nibbles. -/
theorem exists_ofNibbles {address : StorageAddressTarget} (h : Built address) :
    ∃ l : List F, l.length ≤ maxStorageAddressLengthInNibbles ∧ address = ofNibbles l := by
  induction h with
  | empty => exact ⟨[], Nat.zero_le _, ofNibbles_nil.symm⟩
  | constant h =>
      obtain ⟨hlen, heq⟩ := constant_eq_some h
      exact ⟨_, by rwa [List.length_map], heq⟩
  | single nibble => exact ⟨[nibble], Nat.one_le_ofNat, fromSingleNibbleTarget_eq nibble⟩
  | @halfBytes targets n _ hlen hn h =>
      rw [fromHalfByteTargetsSafe_eq hlen hn, Option.some.injEq] at h
      exact ⟨targets.take n, by rw [List.length_take, hlen]; exact Nat.min_le_right _ _, h.symm⟩
  | append _ _ h ihSelf ihAppend =>
      obtain ⟨l, hl, rfl⟩ := ihSelf
      obtain ⟨m, hm, rfl⟩ := ihAppend
      obtain ⟨hfit, heq⟩ := append_eq_some hl hm h
      exact ⟨l ++ m, by rwa [List.length_append], heq⟩

/-- **Addresses are bounded lists of nibbles**: what is built is padded with zeros, addresses are
appended exactly if the nibbles fit, and then as lists, and the first nibbles of an array are
those that are taken of it. -/
theorem addresses_are_lists {a b : StorageAddressTarget} (ha : Built a) (hb : Built b)
    {targets : List F} (htargets : targets.length = maxStorageAddressLengthInNibbles) {n : Nat}
    (hn : n ≤ maxStorageAddressLengthInNibbles) :
    ZeroPadded a ∧
    ((∃ address, a.append b = some address) ↔
      a.length.val + b.length.val ≤ maxStorageAddressLengthInNibbles) ∧
    (∀ address, a.append b = some address → address.nibbles = a.nibbles ++ b.nibbles ∧
      address.length.val = a.length.val + b.length.val) ∧
    ∃ address, fromHalfByteTargetsSafe targets (n : F) = some address ∧
      address.nibbles = targets.take n ∧ address.length.val = n := by
  obtain ⟨l, hl, rfl⟩ := exists_ofNibbles ha
  obtain ⟨m, hm, rfl⟩ := exists_ofNibbles hb
  refine ⟨zeroPadded_ofNibbles hl, ?_, ?_, ?_⟩
  · rw [append_ofNibbles hl hm, val_length_ofNibbles hl, val_length_ofNibbles hm]
    split <;> simp_all
  · intro address h
    obtain ⟨hfit, rfl⟩ := append_eq_some hl hm h
    rw [← List.length_append] at hfit
    rw [nibbles_ofNibbles hfit, nibbles_ofNibbles hl, nibbles_ofNibbles hm,
      val_length_ofNibbles hfit, val_length_ofNibbles hl, val_length_ofNibbles hm,
      List.length_append]
    exact ⟨rfl, rfl⟩
  · have htake : (targets.take n).length = n := by
      rw [List.length_take, htargets, Nat.min_eq_left hn]
    have hfit : (targets.take n).length ≤ maxStorageAddressLengthInNibbles := htake.symm ▸ hn
    refine ⟨_, fromHalfByteTargetsSafe_eq htargets hn, nibbles_ofNibbles hfit, ?_⟩
    rw [val_length_ofNibbles hfit, htake]

/-- A nibble and a full address do not fit. -/
theorem addresses_are_lists_overflow :
    ¬ ∃ address, (fromSingleNibbleTarget 1).append
      (ofNibbles (List.replicate maxStorageAddressLengthInNibbles 10)) = some address := by
  have hlen : (List.replicate maxStorageAddressLengthInNibbles (10 : F)).length =
      maxStorageAddressLengthInNibbles := List.length_replicate
  have hfull : Built (ofNibbles (List.replicate maxStorageAddressLengthInNibbles 10)) :=
    .halfBytes hlen (Nat.le_refl _) (fromHalfByteTargetsSafe_eq hlen (Nat.le_refl _))
  obtain ⟨-, hiff, -⟩ := addresses_are_lists (.single 1) hfull hlen
    (Nat.le_refl maxStorageAddressLengthInNibbles)
  rw [hiff]
  decide +kernel

end StorageAddressTarget

end GearBridges.Prover
