import Mathlib.Data.List.GetD
import GearBridges.Lib.Gadgets

/-!
# Prover.Targets

Comparison of targets, bytes and arrays of targets.  An array has no padding in the uses
here, and then a read is satisfiable exactly inside its bounds.
-/

namespace GearBridges.Prover

open Goldilocks

/-! ## comparison -/

/-- `list_le_circuit` of `plonky2_u32` for one limb of 32 bits; it range checks its inputs. -/
def listLe (a b : F) : Option Bool := do
  guard (rangeCheck a 32)
  guard (rangeCheck b 32)
  return decide (a.val ≤ b.val)

theorem listLe_natCast {a b : Nat} (ha : a < 2 ^ 32) (hb : b < 2 ^ 32) :
    listLe (a : F) (b : F) = some (decide (a ≤ b)) := by
  have hva : (a : F).val = a := val_natCast (by unfold modulus; omega)
  have hvb : (b : F).val = b := val_natCast (by unfold modulus; omega)
  have hra : rangeCheck (a : F) 32 := by rwa [rangeCheck, hva]
  have hrb : rangeCheck (b : F) 32 := by rwa [rangeCheck, hvb]
  rw [listLe, guard_bind_of hra, guard_bind_of hrb, hva, hvb]
  rfl

theorem listLe_of_not_rangeCheck {a : F} (ha : ¬ rangeCheck a 32) (b : F) : listLe a b = none :=
  guard_bind_of_not ha

/-! ## bytes -/

/-- `ByteTarget::as_bit_targets`, as the byte with these bits. -/
def asByte (x : F) : Option UInt8 := do
  guard (rangeCheck x 8)
  return UInt8.ofNat x.val

@[simp] theorem asByte_natCast (b : UInt8) : asByte ((b.toNat : Nat) : F) = some b := by
  have hb := b.toNat_lt
  have hv : ((b.toNat : Nat) : F).val = b.toNat := val_natCast (by unfold modulus; omega)
  have hr : rangeCheck ((b.toNat : Nat) : F) 8 := by rwa [rangeCheck, hv]
  rw [asByte, guard_bind_of hr, hv, UInt8.ofNat_toNat]
  rfl

/-! ## padding -/

/-- Padding with the default element does not change what is read. -/
theorem getD_append_replicate {α : Type} (l : List α) (n i : Nat) (d : α) :
    (l ++ List.replicate n d).getD i d = l.getD i d := by
  by_cases h : i < l.length
  · rw [List.getD_append _ _ _ _ h]
  · rw [List.getD_append_right _ _ _ _ (Nat.le_of_not_lt h),
      List.getD_eq_default l _ (Nat.le_of_not_lt h), List.getD_eq_getElem?_getD,
      List.getElem?_getD_replicate_default_eq]

/-! ## reading at a variable index -/

section

variable {α : Type} [OfNat α 0]

/-- `ArrayTarget::random_read`: `random_access` into the elements padded with zeros to a
power of two, after a range check of the index. -/
def ArrayTarget.randomRead (l : List α) (index : F) : Option α := do
  guard (rangeCheck (((l.length - 1 : Nat) : F) - index) 32)
  (l ++ List.replicate (l.length.nextPowerOfTwo - l.length) 0)[index.val]?

/-- `ArrayTarget::random_read_array`. -/
def ArrayTarget.randomReadArray (n : Nat) (l : List α) (index : F) : Option (List α) :=
  (List.range n).mapM fun offset : Nat => ArrayTarget.randomRead l (index + (offset : F))

/-- A read inside the bounds. -/
theorem ArrayTarget.randomRead_of_lt {l : List α} (hlen : l.length ≤ 2 ^ 32) {i : Nat}
    (hi : i < l.length) : ArrayTarget.randomRead l (i : F) = l[i]? := by
  have hv : (i : F).val = i := val_natCast (by unfold modulus; omega)
  have hr : rangeCheck (((l.length - 1 : Nat) : F) - (i : F)) 32 :=
    (rangeCheck_sub (by omega) (by omega)).mpr (by omega)
  unfold randomRead
  rw [guard_bind_of hr, hv, List.getElem?_append_left hi]

/-- Without padding the index has to be one of the array. -/
theorem ArrayTarget.randomRead_natCast {l : List α} (hl : l.length.nextPowerOfTwo = l.length)
    (hpos : 0 < l.length) (hlen : l.length ≤ 2 ^ 32) {i : Nat} (hi : i < 2 ^ 32) :
    ArrayTarget.randomRead l (i : F) = l[i]? := by
  by_cases h : i < l.length
  · exact randomRead_of_lt hlen h
  · have hr : ¬ rangeCheck (((l.length - 1 : Nat) : F) - (i : F)) 32 := by
      rw [rangeCheck_sub (by omega) hi]
      omega
    unfold randomRead
    rw [hl, guard_bind_of_not hr, List.getElem?_eq_none (by omega)]

/-- What is read is inside the bounds, also when the array is padded. -/
theorem ArrayTarget.lt_of_randomRead {l : List α} (hpos : 0 < l.length)
    (hlen : l.length.nextPowerOfTwo ≤ 2 ^ 32) {index : F} {x : α}
    (h : ArrayTarget.randomRead l index = some x) : index.val < l.length := by
  have hindex : ((index.val : Nat) : F) = index := ZMod.natCast_zmod_val index
  unfold randomRead at h
  rw [guard_bind_eq_some] at h
  obtain ⟨hr, hread⟩ := h
  obtain ⟨hin, -⟩ := List.getElem?_eq_some_iff.mp hread
  rw [List.length_append, List.length_replicate] at hin
  by_contra hout
  rw [← hindex, rangeCheck_sub (by omega) (by omega)] at hr
  omega

/-- An array read inside the bounds. -/
theorem ArrayTarget.randomReadArray_natCast {l : List α} (hlen : l.length ≤ 2 ^ 16) {i n : Nat}
    (h : i + n ≤ l.length) :
    ArrayTarget.randomReadArray n l (i : F) = some ((l.drop i).take n) := by
  have hstep : ∀ offset ∈ List.range n, ArrayTarget.randomRead l ((i : F) + (offset : F)) =
      some (l.getD (i + offset) 0) := by
    intro offset hoffset
    rw [List.mem_range] at hoffset
    rw [← Nat.cast_add, randomRead_of_lt (by omega) (by omega), List.getElem?_eq_getElem (by omega),
      List.getD_eq_getElem]
  rw [randomReadArray, mapM_eq_some_map hstep]
  congr 1
  apply List.ext_getElem
  · simp only [List.length_map, List.length_range, List.length_take, List.length_drop]
    omega
  · intro j hj _
    rw [List.length_map, List.length_range] at hj
    simp only [List.getElem_map, List.getElem_range, List.getElem_take, List.getElem_drop]
    exact List.getD_eq_getElem _ _ (by omega)

/-- No field element above the length is an index. -/
theorem ArrayTarget.randomRead_of_le {l : List α} (hl : l.length.nextPowerOfTwo = l.length) {index : F}
    (h : l.length ≤ index.val) :
    ArrayTarget.randomRead l index = none := by
  unfold randomRead
  rw [hl, Nat.sub_self, List.replicate_zero, List.append_nil, List.getElem?_eq_none h]
  by_cases hr : rangeCheck (((l.length - 1 : Nat) : F) - index) 32
  · exact guard_bind_of hr
  · exact guard_bind_of_not hr

end

end GearBridges.Prover
