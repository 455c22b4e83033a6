import GearBridges.Circuits.ComparisonGate
import GearBridges.Circuits.U32Gadgets

/-!
# Circuits.BigUint

The big integers of `plonky2_ecdsa` on limbs of 32 bits, lowest first.  A gadget is the set of
outputs its rows leave open; on operands with limbs in range that is one list of limbs, the
limbs of the result (`biguintOf`), or none.

Nothing checks the last borrow of a difference, so that it is taken modulo the power of
`2 ^ 32` of its length, and the quotient of a division has as many limbs as the lengths of
the operands say, whatever the divisor.
-/

namespace GearBridges.Plonky2Ecdsa

open Goldilocks DigitOrder Outcomes Plonky2U32

attribute [local instance] Set.monad

/-- Limbs, lowest first. -/
abbrev BigUintTarget := List F

/-! ## the gadgets -/

/-- `constant_biguint`. -/
def constantBiguint (value : Nat) : BigUintTarget :=
  (Nat.digits (2 ^ 32) value).map fun limb => ((limb : Nat) : F)

def zeroBiguint : BigUintTarget := constantBiguint 0

/-- `add_virtual_biguint_target`. -/
def addVirtualBiguintTarget (numLimbs : Nat) : Set BigUintTarget := {limbs | limbs.length = numLimbs}

/-- `connect_biguint`. -/
def connectBiguint (lhs rhs : BigUintTarget) : Prop :=
  let minLimbs := min lhs.length rhs.length
  (∀ i < minLimbs, lhs.getD i 0 = rhs.getD i 0) ∧ (∀ x ∈ lhs.drop minLimbs, x = 0) ∧
    ∀ x ∈ rhs.drop minLimbs, x = 0

instance (lhs rhs : BigUintTarget) : Decidable (connectBiguint lhs rhs) :=
  inferInstanceAs (Decidable (_ ∧ _ ∧ _))

/-- `pad_biguints`. -/
def padBiguints (a b : BigUintTarget) : BigUintTarget × BigUintTarget :=
  if a.length > b.length then (a, b ++ List.replicate (a.length - b.length) 0)
  else (a ++ List.replicate (b.length - a.length) 0, b)

/-- `cmp_biguint`. -/
def cmpBiguint (a b : BigUintTarget) : Set F :=
  let padded := padBiguints a b
  listLeU32Circuit padded.1 padded.2

/-- One iteration of `add_biguint`, on the carry and the limbs so far. -/
def addStep (a b : BigUintTarget) (state : F × BigUintTarget) (i : Nat) : Set (F × BigUintTarget) := do
  let aLimb := a.getD i 0
  let bLimb := b.getD i 0
  let r ← addManyU32 [state.1, aLimb, bLimb]
  return (r.2, state.2 ++ [r.1])

/-- `add_biguint`. -/
def addBiguint (a b : BigUintTarget) : Set BigUintTarget := do
  let numLimbs := max a.length b.length
  let state ← (List.range numLimbs).foldlM (addStep a b) (0, [])
  return state.2 ++ [state.1]

/-- One iteration of `sub_biguint`, on the borrow and the limbs so far. -/
def subStep (a b : BigUintTarget) (state : F × BigUintTarget) (i : Nat) : Set (F × BigUintTarget) := do
  let r ← subU32 (a.getD i 0) (b.getD i 0) state.1
  return (r.2, state.2 ++ [r.1])

/-- `sub_biguint`. -/
def subBiguint (a b : BigUintTarget) : Set BigUintTarget := do
  let padded := padBiguints a b
  let numLimbs := padded.1.length
  let state ← (List.range numLimbs).foldlM (subStep padded.1 padded.2) (0, [])
  return state.2

/-- One iteration of the two nested loops of `mul_biguint`. -/
def mulStep (a b : BigUintTarget) (toAdd : List (List F)) (ij : Nat × Nat) : Set (List (List F)) := do
  let r ← mulU32 (a.getD ij.1 0) (b.getD ij.2 0)
  let toAdd := toAdd.modify (ij.1 + ij.2) (· ++ [r.1])
  return toAdd.modify (ij.1 + ij.2 + 1) (· ++ [r.2])

/-- One iteration of the last loop of `mul_biguint`. -/
def columnStep (state : F × BigUintTarget) (summands : List F) : Set (F × BigUintTarget) := do
  let r ← addU32sWithCarry summands state.1
  return (r.2, state.2 ++ [r.1])

/-- `mul_biguint`. -/
def mulBiguint (a b : BigUintTarget) : Set BigUintTarget := do
  let totalLimbs := a.length + b.length
  let toAdd ← ((List.range a.length).product (List.range b.length)).foldlM (mulStep a b)
    (List.replicate totalLimbs [])
  let state ← toAdd.foldlM columnStep (0, [])
  return state.2 ++ [state.1]

/-- `mul_biguint_by_bool`. -/
def mulBiguintByBool (a : BigUintTarget) (b : F) : BigUintTarget := a.map (· * b)

/-- `div_rem_biguint`. -/
def divRemBiguint (a b : BigUintTarget) : Set (BigUintTarget × BigUintTarget) := do
  let divNumLimbs := if b.length > a.length + 1 then 0 else a.length + 1 - b.length
  let div ← addVirtualBiguintTarget divNumLimbs
  let rem ← addVirtualBiguintTarget b.length
  guard (rangeCheckU32Circuit div)
  guard (rangeCheckU32Circuit rem)
  let divB ← mulBiguint div b
  let divBPlusRem ← addBiguint divB rem
  guard (connectBiguint a divBPlusRem)
  let cmpRemB ← cmpBiguint b rem
  guard (cmpRemB = 0)
  return (div, rem)

/-! ## limbs and numbers -/

/-- The number of the limbs. -/
def value (limbs : BigUintTarget) : Nat := Nat.ofDigits (2 ^ 32) (limbs.map ZMod.val)

/-- The limbs of a number. -/
def biguintOf (numLimbs v : Nat) : BigUintTarget :=
  (splitToLimbs (2 ^ 32) numLimbs v).map fun limb => ((limb : Nat) : F)

@[simp] theorem length_biguintOf (numLimbs v : Nat) : (biguintOf numLimbs v).length = numLimbs := by
  rw [biguintOf, List.length_map, length_splitToLimbs]

theorem splitToLimbs_lt_modulus (numLimbs v : Nat) :
    ∀ n ∈ splitToLimbs (2 ^ 32) numLimbs v, n < modulus := fun n hn =>
  Nat.lt_trans (splitToLimbs_lt (by decide) n hn) (by decide)

theorem rangeCheck_biguintOf (numLimbs v : Nat) : rangeCheckU32Circuit (biguintOf numLimbs v) := by
  intro x hx
  obtain ⟨n, hn, rfl⟩ := List.mem_map.mp hx
  rw [rangeCheck_natCast (splitToLimbs_lt_modulus _ _ n hn)]
  exact splitToLimbs_lt (by decide) n hn

theorem value_biguintOf (numLimbs v : Nat) :
    value (biguintOf numLimbs v) = v % (2 ^ 32) ^ numLimbs := by
  rw [value, biguintOf, map_val_natCast (splitToLimbs_lt_modulus _ _), ofDigits_splitToLimbs]

theorem value_lt {limbs : BigUintTarget} (h : rangeCheckU32Circuit limbs) :
    value limbs < (2 ^ 32) ^ limbs.length := by
  rw [value, ← @List.length_map _ _ limbs ZMod.val]
  apply Nat.ofDigits_lt_base_pow_length (by decide)
  intro n hn
  obtain ⟨x, hx, rfl⟩ := List.mem_map.mp hn
  exact h x hx

/-- Limbs in range are the limbs of their number. -/
theorem eq_biguintOf {limbs : BigUintTarget} (h : rangeCheckU32Circuit limbs) {numLimbs v : Nat}
    (hlength : limbs.length = numLimbs) (hvalue : value limbs = v % (2 ^ 32) ^ numLimbs) :
    limbs = biguintOf numLimbs v := by
  have hmap : limbs.map ZMod.val = (biguintOf numLimbs v).map ZMod.val := by
    apply Nat.ofDigits_inj_of_len_eq (show 1 < 2 ^ 32 by decide)
    · rw [List.length_map, List.length_map, hlength, length_biguintOf]
    · intro n hn
      obtain ⟨x, hx, rfl⟩ := List.mem_map.mp hn
      exact h x hx
    · intro n hn
      obtain ⟨x, hx, rfl⟩ := List.mem_map.mp hn
      exact rangeCheck_biguintOf numLimbs v x hx
    · exact hvalue.trans (value_biguintOf numLimbs v).symm
  exact List.map_injective_iff.mpr (ZMod.val_injective modulus) hmap

theorem value_append (a b : BigUintTarget) :
    value (a ++ b) = value a + (2 ^ 32) ^ a.length * value b := by
  rw [value, List.map_append, Nat.ofDigits_append, List.length_map, value, value]

theorem value_singleton (x : F) : value [x] = x.val := by
  rw [value, List.map_singleton, Nat.ofDigits_singleton]

theorem value_replicate_zero (n : Nat) : value (List.replicate n 0) = 0 := by
  induction n with
  | zero => rfl
  | succ n ih =>
      rw [List.replicate_succ, ← List.singleton_append, value_append, value_singleton, ih,
        Nat.mul_zero, Nat.add_zero, ZMod.val_zero]

/-- A limb, zero past the end. -/
def limbVal (limbs : BigUintTarget) (i : Nat) : Nat := (limbs.getD i 0).val

theorem limbVal_lt {limbs : BigUintTarget} (h : rangeCheckU32Circuit limbs) (i : Nat) :
    limbVal limbs i < 2 ^ 32 := by
  rw [limbVal]
  by_cases hi : i < limbs.length
  · rw [List.getD_eq_getElem _ _ hi]
    exact h _ (List.getElem_mem hi)
  · rw [List.getD_eq_default _ _ (by omega)]
    decide

theorem natCast_limbVal (limbs : BigUintTarget) (i : Nat) : ((limbVal limbs i : Nat) : F) = limbs.getD i 0 :=
  ZMod.natCast_zmod_val _

/-- The number by the limbs up to any length above that of the list. -/
theorem value_eq_valueBelow {limbs : BigUintTarget} {n : Nat} (hn : limbs.length ≤ n) :
    value limbs = valueBelow (2 ^ 32) (limbVal limbs) n := by
  have hlist : (List.range n).map (fun i => limbs.getD i 0) =
      limbs ++ List.replicate (n - limbs.length) 0 := by
    apply List.ext_getElem
    · rw [List.length_map, List.length_range, List.length_append, List.length_replicate]
      omega
    · intro i h1 h2
      rw [List.getElem_map, List.getElem_range, List.getElem_append]
      split
      · next hi => rw [List.getD_eq_getElem _ _ hi]
      · next hi => rw [List.getD_eq_default _ _ (by omega), List.getElem_replicate]
  have hvalue : value (limbs ++ List.replicate (n - limbs.length) 0) = value limbs := by
    rw [value_append, value_replicate_zero, Nat.mul_zero, Nat.add_zero]
  rw [← hvalue, ← hlist, value, List.map_map]
  rfl

/-! ## sums -/

section
variable {a b : BigUintTarget}

/-- What the loop of a sum keeps: the limbs and the carry make the sum of the limbs added. -/
structure AddInv (a b : BigUintTarget) (i : Nat) (state : F × BigUintTarget) : Prop where
  length : state.2.length = i
  range : rangeCheckU32Circuit state.2
  carry : state.1.val ≤ 1
  sum : value state.2 + (2 ^ 32) ^ i * state.1.val =
    valueBelow (2 ^ 32) (limbVal a) i + valueBelow (2 ^ 32) (limbVal b) i

theorem addStep_eq (ha : rangeCheckU32Circuit a) (hb : rangeCheckU32Circuit b) {i : Nat}
    {state : F × BigUintTarget} (hcarry : state.1.val ≤ 1) :
    addStep a b state i =
      {((((limbVal a i + limbVal b i + state.1.val) / 2 ^ 32 : Nat) : F),
        state.2 ++ [(((limbVal a i + limbVal b i + state.1.val) % 2 ^ 32 : Nat) : F)])} := by
  rw [addStep, ← natCast_limbVal, ← natCast_limbVal, ← ZMod.natCast_zmod_val state.1]
  rw [addManyU32_natCast (limbVal_lt ha i) (limbVal_lt hb i) (by omega), singleton_bind,
    ZMod.natCast_zmod_val]
  rfl

theorem rangeCheck_append_singleton {limbs : BigUintTarget} {n : Nat} (h : rangeCheckU32Circuit limbs)
    (hn : n < 2 ^ 32) : rangeCheckU32Circuit (limbs ++ [((n : Nat) : F)]) := by
  intro x hx
  rcases List.mem_append.mp hx with hx | hx
  · exact h x hx
  · rw [List.mem_singleton.mp hx, rangeCheck_natCast (Nat.lt_trans hn (by decide))]
    exact hn

/-- One more limb with a carry. -/
theorem carry_sum {p low carry x y c : Nat} (h : low + p * carry = x + y) :
    low + p * ((c + carry) % 2 ^ 32) + p * 2 ^ 32 * ((c + carry) / 2 ^ 32) = x + y + p * c := by
  have hsplit : (c + carry) % 2 ^ 32 + 2 ^ 32 * ((c + carry) / 2 ^ 32) = c + carry :=
    Nat.mod_add_div _ _
  calc low + p * ((c + carry) % 2 ^ 32) + p * 2 ^ 32 * ((c + carry) / 2 ^ 32)
      = low + p * ((c + carry) % 2 ^ 32 + 2 ^ 32 * ((c + carry) / 2 ^ 32)) := by ring
    _ = low + p * carry + p * c := by rw [hsplit]; ring
    _ = x + y + p * c := by rw [h]

theorem addInv_step (ha : rangeCheckU32Circuit a) (hb : rangeCheckU32Circuit b) {i : Nat}
    {state : F × BigUintTarget} (h : AddInv a b i state) :
    AddInv a b (i + 1) ((((limbVal a i + limbVal b i + state.1.val) / 2 ^ 32 : Nat) : F),
      state.2 ++ [(((limbVal a i + limbVal b i + state.1.val) % 2 ^ 32 : Nat) : F)]) := by
  have hmodulus : modulus = 18446744069414584321 := rfl
  have hcarry := h.carry
  have hlimbA := limbVal_lt ha i
  have hlimbB := limbVal_lt hb i
  refine ⟨?_, rangeCheck_append_singleton h.range (Nat.mod_lt _ (by decide)), ?_, ?_⟩
  · rw [List.length_append, h.length, List.length_singleton]
  · rw [val_natCast (by omega)]
    omega
  · rw [value_append, value_singleton, h.length, val_natCast (by omega), val_natCast (by omega),
      valueBelow_succ, valueBelow_succ, pow_succ (2 ^ 32) i, carry_sum h.sum]
    ring

/-- `add_biguint` is the sum, on one limb more than the longer operand has. -/
theorem addBiguint_eq (ha : rangeCheckU32Circuit a) (hb : rangeCheckU32Circuit b) :
    addBiguint a b = {biguintOf (max a.length b.length + 1) (value a + value b)} := by
  have hstart : AddInv a b 0 (0, []) :=
    ⟨rfl, fun x hx => absurd hx List.not_mem_nil, by decide, rfl⟩
  have hfinish : ∀ state, AddInv a b (max a.length b.length) state →
      state.2 ++ [state.1] = biguintOf (max a.length b.length + 1) (value a + value b) := by
    intro state h
    have hvalue : value (state.2 ++ [state.1]) = value a + value b := by
      rw [value_append, value_singleton, h.length, h.sum,
        ← value_eq_valueBelow (Nat.le_max_left _ _), ← value_eq_valueBelow (Nat.le_max_right _ _)]
    have hrange : rangeCheckU32Circuit (state.2 ++ [state.1]) := by
      have hcarry := h.carry
      rw [← ZMod.natCast_zmod_val state.1]
      exact rangeCheck_append_singleton h.range (by omega)
    have hlength : (state.2 ++ [state.1]).length = max a.length b.length + 1 := by
      rw [List.length_append, h.length, List.length_singleton]
    apply eq_biguintOf hrange hlength
    rw [← hvalue, ← hlength, Nat.mod_eq_of_lt (value_lt hrange)]
  ext r
  rw [addBiguint, mem_bind, Set.mem_singleton_iff]
  constructor
  · rintro ⟨state, hstate, hr⟩
    rw [mem_pure.mp hr]
    apply hfinish
    refine forall_mem_foldlM_range (AddInv a b) hstart ?_ state hstate
    intro i _ s hs t ht
    rw [addStep_eq ha hb hs.carry] at ht
    rw [Set.mem_singleton_iff.mp ht]
    exact addInv_step ha hb hs
  · rintro rfl
    obtain ⟨state, hstate, h⟩ := exists_mem_foldlM_range (f := addStep a b)
      (n := max a.length b.length) (AddInv a b) hstart fun i _ s hs =>
        ⟨_, by rw [addStep_eq ha hb hs.carry]; rfl, addInv_step ha hb hs⟩
    exact ⟨state, hstate, mem_pure.mpr (hfinish state h).symm⟩

end

/-- A sum fits one limb more than the longer operand has. -/
theorem add_lt_pow {a b : BigUintTarget} (ha : rangeCheckU32Circuit a) (hb : rangeCheckU32Circuit b) :
    value a + value b < (2 ^ 32) ^ (max a.length b.length + 1) := by
  have hltA : value a < (2 ^ 32) ^ max a.length b.length :=
    Nat.lt_of_lt_of_le (value_lt ha) (Nat.pow_le_pow_right (by decide) (Nat.le_max_left _ _))
  have hltB : value b < (2 ^ 32) ^ max a.length b.length :=
    Nat.lt_of_lt_of_le (value_lt hb) (Nat.pow_le_pow_right (by decide) (Nat.le_max_right _ _))
  rw [pow_succ (2 ^ 32)]
  omega

/-- A product fits one limb more than both operands have. -/
theorem mul_lt_pow {a b : BigUintTarget} (ha : rangeCheckU32Circuit a) (hb : rangeCheckU32Circuit b) :
    value a * value b < (2 ^ 32) ^ (a.length + b.length + 1) :=
  calc value a * value b < (2 ^ 32) ^ a.length * (2 ^ 32) ^ b.length :=
        Nat.mul_lt_mul'' (value_lt ha) (value_lt hb)
    _ = (2 ^ 32) ^ (a.length + b.length) := (pow_add _ _ _).symm
    _ ≤ (2 ^ 32) ^ (a.length + b.length + 1) := Nat.pow_le_pow_right (by decide) (Nat.le_succ _)

/-! ## padding and comparison -/

section
variable {a b : BigUintTarget}

theorem padBiguints_eq (a b : BigUintTarget) :
    padBiguints a b = (a ++ List.replicate (max a.length b.length - a.length) 0,
      b ++ List.replicate (max a.length b.length - b.length) 0) := by
  unfold padBiguints
  split
  · next h =>
      rw [Nat.max_eq_left (Nat.le_of_lt h), Nat.sub_self, List.replicate_zero, List.append_nil]
  · next h =>
      rw [Nat.max_eq_right (Nat.le_of_not_lt h), Nat.sub_self, List.replicate_zero, List.append_nil]

theorem rangeCheck_append_zeros (h : rangeCheckU32Circuit a) (n : Nat) :
    rangeCheckU32Circuit (a ++ List.replicate n 0) := by
  intro x hx
  rcases List.mem_append.mp hx with hx | hx
  · exact h x hx
  · rw [List.eq_of_mem_replicate hx]
    decide

theorem value_append_zeros (a : BigUintTarget) (n : Nat) :
    value (a ++ List.replicate n 0) = value a := by
  rw [value_append, value_replicate_zero, Nat.mul_zero, Nat.add_zero]

/-- `cmp_biguint` compares the numbers. -/
theorem cmpBiguint_eq (ha : rangeCheckU32Circuit a) (hb : rangeCheckU32Circuit b) :
    cmpBiguint a b = {if value a ≤ value b then 1 else 0} := by
  ext r
  simp only [cmpBiguint, padBiguints_eq]
  rw [mem_listLeU32Circuit, Set.mem_singleton_iff]
  have hlength : (a ++ List.replicate (max a.length b.length - a.length) 0).length =
      (b ++ List.replicate (max a.length b.length - b.length) 0).length := by
    rw [List.length_append, List.length_append, List.length_replicate, List.length_replicate]
    omega
  have hvalueA := value_append_zeros a (max a.length b.length - a.length)
  have hvalueB := value_append_zeros b (max a.length b.length - b.length)
  rw [value] at hvalueA hvalueB
  rw [hvalueA, hvalueB]
  exact ⟨fun h => h.2.2.2,
    fun h => ⟨hlength, rangeCheck_append_zeros ha _, rangeCheck_append_zeros hb _, h⟩⟩

/-! ## differences -/

/-- What the loop of a difference keeps. -/
structure SubInv (a b : BigUintTarget) (i : Nat) (state : F × BigUintTarget) : Prop where
  length : state.2.length = i
  range : rangeCheckU32Circuit state.2
  borrow : state.1.val ≤ 1
  sum : value state.2 + valueBelow (2 ^ 32) (limbVal b) i =
    valueBelow (2 ^ 32) (limbVal a) i + (2 ^ 32) ^ i * state.1.val

/-- The difference and the borrow of a limb. -/
theorem subStep_eq (ha : rangeCheckU32Circuit a) (hb : rangeCheckU32Circuit b) {i : Nat}
    {state : F × BigUintTarget} (hborrow : state.1.val ≤ 1) :
    subStep a b state i =
      {(((if limbVal a i < limbVal b i + state.1.val then 1 else 0 : Nat) : F),
        state.2 ++
          [(U32SubtractionGate.wrappingDiff (limbVal a i) (limbVal b i) state.1.val : F)])} := by
  rw [subStep, ← natCast_limbVal, ← natCast_limbVal, ← ZMod.natCast_zmod_val state.1,
    subU32_natCast (limbVal_lt ha i) (limbVal_lt hb i) hborrow, singleton_bind,
    ZMod.natCast_zmod_val, Nat.cast_ite, Nat.cast_one, Nat.cast_zero]
  rfl

theorem wrappingDiff_sum {x y c : Nat} (hy : y < 2 ^ 32) (hc : c ≤ 1) :
    U32SubtractionGate.wrappingDiff x y c + y + c = x + 2 ^ 32 * if x < y + c then 1 else 0 := by
  unfold U32SubtractionGate.wrappingDiff
  split <;> omega

theorem subInv_step (ha : rangeCheckU32Circuit a) (hb : rangeCheckU32Circuit b) {i : Nat}
    {state : F × BigUintTarget} (h : SubInv a b i state) :
    SubInv a b (i + 1) (((if limbVal a i < limbVal b i + state.1.val then 1 else 0 : Nat) : F),
      state.2 ++
        [(U32SubtractionGate.wrappingDiff (limbVal a i) (limbVal b i) state.1.val : F)]) := by
  have hmodulus : modulus = 18446744069414584321 := rfl
  have hlt := U32SubtractionGate.wrappingDiff_lt (y := limbVal b i) (b := state.1.val)
    (limbVal_lt ha i)
  have hbit : (if limbVal a i < limbVal b i + state.1.val then 1 else 0) ≤ 1 := by split <;> omega
  refine ⟨?_, rangeCheck_append_singleton h.range hlt, ?_, ?_⟩
  · rw [List.length_append, h.length, List.length_singleton]
  · rw [val_natCast (by omega)]
    exact hbit
  · have hdiff := @wrappingDiff_sum (limbVal a i) _ _ (limbVal_lt hb i) h.borrow
    have hsum := h.sum
    rw [value_append, value_singleton, h.length, val_natCast (by omega), val_natCast (by omega),
      valueBelow_succ, valueBelow_succ, pow_succ (2 ^ 32) i]
    generalize (if limbVal a i < limbVal b i + state.1.val then 1 else 0) = bit at *
    generalize U32SubtractionGate.wrappingDiff (limbVal a i) (limbVal b i) state.1.val = diff at *
    generalize (2 ^ 32) ^ i = p at *
    calc value state.2 + p * diff + (valueBelow (2 ^ 32) (limbVal b) i + p * limbVal b i)
        = value state.2 + valueBelow (2 ^ 32) (limbVal b) i + p * (diff + limbVal b i) := by ring
      _ = valueBelow (2 ^ 32) (limbVal a) i + p * (diff + limbVal b i + state.1.val) := by
          rw [hsum]
          ring
      _ = valueBelow (2 ^ 32) (limbVal a) i + p * limbVal a i + p * 2 ^ 32 * bit := by
          rw [hdiff]
          ring

/-- `sub_biguint` is the difference modulo the power of `2 ^ 32` of its length: the last borrow
is dropped. -/
theorem subBiguint_eq (ha : rangeCheckU32Circuit a) (hb : rangeCheckU32Circuit b) :
    subBiguint a b = {biguintOf (max a.length b.length)
      (value a + (2 ^ 32) ^ max a.length b.length - value b)} := by
  set n := max a.length b.length with hn
  set a' := a ++ List.replicate (n - a.length) 0 with ha'
  set b' := b ++ List.replicate (n - b.length) 0 with hb'
  have hrangeA : rangeCheckU32Circuit a' := rangeCheck_append_zeros ha _
  have hrangeB : rangeCheckU32Circuit b' := rangeCheck_append_zeros hb _
  have hlengthA : a'.length = n := by
    rw [ha', List.length_append, List.length_replicate]
    omega
  have hlengthB : b'.length = n := by
    rw [hb', List.length_append, List.length_replicate]
    omega
  have hvalueA : value a' = value a := value_append_zeros a _
  have hvalueB : value b' = value b := value_append_zeros b _
  have hstart : SubInv a' b' 0 (0, []) :=
    ⟨rfl, fun x hx => absurd hx List.not_mem_nil, by decide, rfl⟩
  have hfinish : ∀ state, SubInv a' b' n state →
      state.2 = biguintOf n (value a + (2 ^ 32) ^ n - value b) := by
    intro state h
    have hsum := h.sum
    rw [← value_eq_valueBelow (Nat.le_of_eq hlengthA), ← value_eq_valueBelow (Nat.le_of_eq hlengthB),
      hvalueA, hvalueB] at hsum
    have hlt := value_lt h.range
    rw [h.length] at hlt
    have hltB := value_lt hrangeB
    rw [hlengthB, hvalueB] at hltB
    apply eq_biguintOf h.range h.length
    have hborrow := h.borrow
    have hcases : state.1.val = 0 ∨ state.1.val = 1 := by omega
    generalize (2 ^ 32) ^ n = p at *
    rcases hcases with h0 | h1
    · rw [h0, Nat.mul_zero, Nat.add_zero] at hsum
      rw [show value a + p - value b = value state.2 + p by omega, Nat.add_mod_right,
        Nat.mod_eq_of_lt hlt]
    · rw [h1, Nat.mul_one] at hsum
      rw [show value a + p - value b = value state.2 by omega, Nat.mod_eq_of_lt hlt]
  ext r
  simp only [subBiguint, padBiguints_eq]
  rw [mem_bind, Set.mem_singleton_iff, ← hn, ← ha', ← hb', hlengthA]
  constructor
  · rintro ⟨state, hstate, hr⟩
    rw [mem_pure.mp hr]
    apply hfinish
    refine forall_mem_foldlM_range (SubInv a' b') hstart ?_ state hstate
    intro i _ s hs t ht
    rw [subStep_eq hrangeA hrangeB hs.borrow] at ht
    rw [Set.mem_singleton_iff.mp ht]
    exact subInv_step hrangeA hrangeB hs
  · rintro rfl
    obtain ⟨state, hstate, h⟩ := exists_mem_foldlM_range (f := subStep a' b') (n := n)
      (SubInv a' b') hstart fun i _ s hs =>
        ⟨_, by rw [subStep_eq hrangeA hrangeB hs.borrow]; rfl, subInv_step hrangeA hrangeB hs⟩
    exact ⟨state, hstate, mem_pure.mpr (hfinish state h).symm⟩

end

/-! ## products -/

/-- The sum of the values in a column. -/
def columnSum (col : List F) : Nat := (col.map ZMod.val).sum

/-- The number of the columns. -/
def columnsValue (cols : List (List F)) : Nat := Nat.ofDigits (2 ^ 32) (cols.map columnSum)

theorem columnSum_append (col : List F) (x : F) : columnSum (col ++ [x]) = columnSum col + x.val := by
  rw [columnSum, List.map_append, List.sum_append, List.map_singleton, List.sum_singleton, columnSum]

theorem columnSum_lt {col : List F} (h : ∀ x ∈ col, rangeCheck x 32) :
    columnSum col ≤ col.length * (2 ^ 32 - 1) := by
  induction col with
  | nil => exact Nat.zero_le _
  | cons x col ih =>
      have hx : x.val < 2 ^ 32 := h x List.mem_cons_self
      have ih := ih fun y hy => h y (List.mem_cons_of_mem x hy)
      rw [columnSum, List.map_cons, List.sum_cons, List.length_cons, Nat.succ_mul]
      rw [columnSum] at ih
      omega

/-- A value added to a column counts by the position of the column. -/
theorem columnsValue_modify {cols : List (List F)} {k : Nat} (hk : k < cols.length) (x : F) :
    columnsValue (cols.modify k (· ++ [x])) = columnsValue cols + (2 ^ 32) ^ k * x.val := by
  induction cols generalizing k with
  | nil => exact absurd hk (Nat.not_lt_zero k)
  | cons col cols ih =>
      cases k with
      | zero =>
          rw [List.modify_zero_cons, columnsValue, List.map_cons, Nat.ofDigits_cons, columnSum_append,
            columnsValue, List.map_cons, Nat.ofDigits_cons]
          ring
      | succ k =>
          have ih := ih (Nat.lt_of_succ_lt_succ hk)
          rw [columnsValue] at ih
          rw [List.modify_succ_cons, columnsValue, List.map_cons, Nat.ofDigits_cons, ih,
            columnsValue, columnsValue, List.map_cons, Nat.ofDigits_cons]
          ring

theorem columnsValue_replicate_nil (n : Nat) : columnsValue (List.replicate n []) = 0 := by
  induction n with
  | zero => rfl
  | succ n ih =>
      rw [columnsValue] at ih
      rw [List.replicate_succ, columnsValue, List.map_cons, Nat.ofDigits_cons, ih]
      rfl

section
variable {a b : BigUintTarget}

/-- The products of the pairs of limbs, at their positions. -/
def productSum (a b : BigUintTarget) (done : List (Nat × Nat)) : Nat :=
  (done.map fun ij => limbVal a ij.1 * limbVal b ij.2 * (2 ^ 32) ^ (ij.1 + ij.2)).sum

theorem productSum_append (done : List (Nat × Nat)) (ij : Nat × Nat) :
    productSum a b (done ++ [ij]) =
      productSum a b done + limbVal a ij.1 * limbVal b ij.2 * (2 ^ 32) ^ (ij.1 + ij.2) := by
  rw [productSum, List.map_append, List.sum_append, List.map_singleton, List.sum_singleton,
    productSum]

/-- One row of the products. -/
theorem productSum_row (i n : Nat) :
    productSum a b ((List.range n).map fun j => (i, j)) =
      limbVal a i * (2 ^ 32) ^ i * valueBelow (2 ^ 32) (limbVal b) n := by
  induction n with
  | zero => exact (Nat.mul_zero _).symm
  | succ n ih =>
      rw [List.range_succ, List.map_append, List.map_singleton, productSum_append, ih,
        valueBelow_succ, pow_add]
      ring

/-- All pairs make the product. -/
theorem productSum_product (m n : Nat) :
    productSum a b ((List.range m).product (List.range n)) =
      valueBelow (2 ^ 32) (limbVal a) m * valueBelow (2 ^ 32) (limbVal b) n := by
  induction m with
  | zero => exact (Nat.zero_mul _).symm
  | succ m ih =>
      have hsplit : (List.range (m + 1)).product (List.range n) =
          (List.range m).product (List.range n) ++ (List.range n).map fun j => (m, j) := by
        rw [List.product, List.range_succ, List.flatMap_append, List.flatMap_singleton]
        rfl
      have hrow := @productSum_row a b m n
      rw [productSum] at ih hrow ⊢
      rw [hsplit, List.map_append, List.sum_append, ih, hrow, valueBelow_succ]
      ring

/-- The pairs whose low half goes to a column, and those whose high half does. -/
def columnCount (done : List (Nat × Nat)) (k : Nat) : Nat :=
  done.countP (fun ij => ij.1 + ij.2 = k) + done.countP (fun ij => ij.1 + ij.2 + 1 = k)

/-- Of the pairs on one antidiagonal there are no more than either operand has limbs. -/
theorem countP_antidiagonal_le (m n k : Nat) (f : Nat → Nat) (hf : Function.Injective f) :
    ((List.range m).product (List.range n)).countP (fun ij => f (ij.1 + ij.2) = k) ≤ min m n := by
  rw [List.countP_eq_length_filter]
  set l := ((List.range m).product (List.range n)).filter fun ij => f (ij.1 + ij.2) = k
  have hnodup : l.Nodup := (List.nodup_range.product List.nodup_range).filter _
  have hmem : ∀ ij ∈ l, ij.1 < m ∧ ij.2 < n ∧ f (ij.1 + ij.2) = k := by
    intro ij hij
    obtain ⟨hpair, hsum⟩ := List.mem_filter.mp hij
    obtain ⟨hi, hj⟩ := List.pair_mem_product.mp hpair
    exact ⟨List.mem_range.mp hi, List.mem_range.mp hj, of_decide_eq_true hsum⟩
  have hsame : ∀ x ∈ l, ∀ y ∈ l, x.1 + x.2 = y.1 + y.2 := fun x hx y hy =>
    hf ((hmem x hx).2.2.trans (hmem y hy).2.2.symm)
  apply Nat.le_min.mpr
  constructor
  · have hfst : (l.map Prod.fst).Nodup := hnodup.map_on fun x hx y hy h =>
      Prod.ext h (by have := hsame x hx y hy; omega)
    have hsub : l.map Prod.fst ⊆ List.range m := by
      intro i hi
      obtain ⟨ij, hij, rfl⟩ := List.mem_map.mp hi
      exact List.mem_range.mpr (hmem ij hij).1
    have hle := (hfst.subperm hsub).length_le
    rwa [List.length_map, List.length_range] at hle
  · have hsnd : (l.map Prod.snd).Nodup := hnodup.map_on fun x hx y hy h =>
      Prod.ext (by have := hsame x hx y hy; omega) h
    have hsub : l.map Prod.snd ⊆ List.range n := by
      intro j hj
      obtain ⟨ij, hij, rfl⟩ := List.mem_map.mp hj
      exact List.mem_range.mpr (hmem ij hij).2.1
    have hle := (hsnd.subperm hsub).length_le
    rwa [List.length_map, List.length_range] at hle

theorem columnCount_product_le (m n k : Nat) :
    columnCount ((List.range m).product (List.range n)) k ≤ 2 * min m n := by
  have hlow := countP_antidiagonal_le m n k id Function.injective_id
  have hhigh := countP_antidiagonal_le m n k Nat.succ Nat.succ_injective
  rw [columnCount, Nat.two_mul]
  exact Nat.add_le_add hlow hhigh

/-- What the nested loops of a product keep. -/
structure MulInv (a b : BigUintTarget) (done : List (Nat × Nat)) (cols : List (List F)) : Prop where
  length : cols.length = a.length + b.length
  range : ∀ col ∈ cols, ∀ x ∈ col, rangeCheck x 32
  sum : columnsValue cols = productSum a b done
  count : ∀ k < cols.length, (cols.getD k []).length = columnCount done k

theorem mulStep_eq (ha : rangeCheckU32Circuit a) (hb : rangeCheckU32Circuit b) (cols : List (List F))
    (ij : Nat × Nat) :
    mulStep a b cols ij =
      {(cols.modify (ij.1 + ij.2)
          (· ++ [((limbVal a ij.1 * limbVal b ij.2 % 2 ^ 32 : Nat) : F)])).modify (ij.1 + ij.2 + 1)
        (· ++ [((limbVal a ij.1 * limbVal b ij.2 / 2 ^ 32 : Nat) : F)])} := by
  rw [mulStep, ← natCast_limbVal, ← natCast_limbVal,
    mulU32_natCast (limbVal_lt ha _) (limbVal_lt hb _), singleton_bind]
  rfl

/-- A value pushed on a column. -/
theorem range_modify {cols : List (List F)} (h : ∀ col ∈ cols, ∀ x ∈ col, rangeCheck x 32) {n : Nat}
    (hn : n < 2 ^ 32) (k : Nat) :
    ∀ col ∈ cols.modify k (· ++ [((n : Nat) : F)]), ∀ x ∈ col, rangeCheck x 32 := by
  intro col hcol
  obtain ⟨i, hi, rfl⟩ := List.mem_iff_getElem.mp hcol
  rw [List.length_modify] at hi
  rw [List.getElem_modify]
  split
  · exact rangeCheck_append_singleton (h _ (List.getElem_mem hi)) hn
  · exact h _ (List.getElem_mem hi)

theorem length_getD_modify {cols : List (List F)} {i k : Nat} (hk : k < cols.length) (x : F) :
    ((cols.modify i (· ++ [x])).getD k []).length =
      (cols.getD k []).length + if i = k then 1 else 0 := by
  rw [List.getD_eq_getElem _ _ (by rwa [List.length_modify]), List.getD_eq_getElem _ _ hk,
    List.getElem_modify]
  split
  · rw [List.length_append, List.length_singleton]
  · rfl

theorem mulInv_step (ha : rangeCheckU32Circuit a) (hb : rangeCheckU32Circuit b)
    {done : List (Nat × Nat)} {cols : List (List F)} (h : MulInv a b done cols) {ij : Nat × Nat}
    (hi : ij.1 < a.length) (hj : ij.2 < b.length) :
    MulInv a b (done ++ [ij]) ((cols.modify (ij.1 + ij.2)
        (· ++ [((limbVal a ij.1 * limbVal b ij.2 % 2 ^ 32 : Nat) : F)])).modify (ij.1 + ij.2 + 1)
      (· ++ [((limbVal a ij.1 * limbVal b ij.2 / 2 ^ 32 : Nat) : F)])) := by
  have hlength := h.length
  have hprod : limbVal a ij.1 * limbVal b ij.2 ≤ (2 ^ 32 - 1) * (2 ^ 32 - 1) :=
    Nat.mul_le_mul (Nat.le_pred_of_lt (limbVal_lt ha _)) (Nat.le_pred_of_lt (limbVal_lt hb _))
  have hlow : limbVal a ij.1 * limbVal b ij.2 % 2 ^ 32 < 2 ^ 32 := Nat.mod_lt _ (by decide)
  have hhigh : limbVal a ij.1 * limbVal b ij.2 / 2 ^ 32 < 2 ^ 32 := by omega
  have hmodulus : modulus = 18446744069414584321 := rfl
  refine ⟨?_, range_modify (range_modify h.range hlow _) hhigh _, ?_, ?_⟩
  · rw [List.length_modify, List.length_modify, hlength]
  · rw [columnsValue_modify (by rw [List.length_modify]; omega), columnsValue_modify (by omega), h.sum,
      val_natCast (by omega), val_natCast (by omega), productSum_append,
      pow_succ (2 ^ 32) (ij.1 + ij.2)]
    have hsplit := Nat.mod_add_div (limbVal a ij.1 * limbVal b ij.2) (2 ^ 32)
    generalize limbVal a ij.1 * limbVal b ij.2 = p at *
    generalize (2 ^ 32) ^ (ij.1 + ij.2) = q
    calc productSum a b done + q * (p % 2 ^ 32) + q * 2 ^ 32 * (p / 2 ^ 32)
        = productSum a b done + (p % 2 ^ 32 + 2 ^ 32 * (p / 2 ^ 32)) * q := by ring
      _ = productSum a b done + p * q := by rw [hsplit]
  · intro k hk
    rw [List.length_modify, List.length_modify] at hk
    rw [length_getD_modify (by rwa [List.length_modify]), length_getD_modify hk, h.count k hk,
      columnCount, columnCount, List.countP_append, List.countP_append, List.countP_singleton,
      List.countP_singleton]
    simp only [decide_eq_true_eq]
    omega

/-- What the loop over the columns keeps. -/
structure ColumnInv (done : List (List F)) (state : F × BigUintTarget) : Prop where
  length : state.2.length = done.length
  range : rangeCheckU32Circuit state.2
  carry : state.1.val < 2 ^ 4
  sum : value state.2 + (2 ^ 32) ^ done.length * state.1.val = columnsValue done

theorem map_natCast_val (col : List F) : (col.map ZMod.val).map (fun n => ((n : Nat) : F)) = col := by
  rw [List.map_map]
  exact (List.map_congr_left fun x _ => ZMod.natCast_zmod_val x).trans (List.map_id col)

/-- The step of a column whose sum is below the modulus. -/
theorem mem_columnStep {col : List F} (hcol : ∀ x ∈ col, rangeCheck x 32) {state : F × BigUintTarget}
    (hcarry : state.1.val < 2 ^ 4) (hs : columnSum col + state.1.val < modulus)
    {t : F × BigUintTarget} :
    t ∈ columnStep state col ↔ columnSum col + state.1.val < 2 ^ 36 ∧
      t = ((((columnSum col + state.1.val) / 2 ^ 32 : Nat) : F),
        state.2 ++ [(((columnSum col + state.1.val) % 2 ^ 32 : Nat) : F)]) := by
  have hl : ∀ n ∈ col.map ZMod.val, n < 2 ^ 32 := by
    intro n hn
    obtain ⟨x, hx, rfl⟩ := List.mem_map.mp hn
    exact hcol x hx
  have h := fun r => @mem_addU32sWithCarry (col.map ZMod.val) state.1.val hl
    (Nat.lt_trans hcarry (by decide)) hs r
  simp only [map_natCast_val, ZMod.natCast_zmod_val] at h
  rw [columnStep, mem_bind]
  simp only [h, mem_pure]
  constructor
  · rintro ⟨r, ⟨hfit, rfl⟩, rfl⟩
    exact ⟨hfit, rfl⟩
  · rintro ⟨hfit, rfl⟩
    exact ⟨_, ⟨hfit, rfl⟩, rfl⟩

theorem columnsValue_append (done : List (List F)) (col : List F) :
    columnsValue (done ++ [col]) = columnsValue done + (2 ^ 32) ^ done.length * columnSum col := by
  rw [columnsValue, List.map_append, Nat.ofDigits_append, List.length_map, List.map_singleton,
    Nat.ofDigits_singleton, columnsValue]

theorem columnInv_step {done : List (List F)} {col : List F} {state : F × BigUintTarget}
    (h : ColumnInv done state) (hfit : columnSum col + state.1.val < 2 ^ 36) :
    ColumnInv (done ++ [col]) ((((columnSum col + state.1.val) / 2 ^ 32 : Nat) : F),
      state.2 ++ [(((columnSum col + state.1.val) % 2 ^ 32 : Nat) : F)]) := by
  have hmodulus : modulus = 18446744069414584321 := rfl
  refine ⟨?_, rangeCheck_append_singleton h.range (Nat.mod_lt _ (by decide)), ?_, ?_⟩
  · rw [List.length_append, List.length_append, h.length, List.length_singleton,
      List.length_singleton]
  · rw [val_natCast (by omega)]
    omega
  · have hsum := carry_sum (c := columnSum col) (y := 0) h.sum
    rw [value_append, value_singleton, h.length, val_natCast (by omega), val_natCast (by omega),
      List.length_append, List.length_singleton, pow_succ (2 ^ 32) done.length, hsum, Nat.add_zero,
      columnsValue_append]
    rfl

/-- Columns that are no longer than so many values. -/
def ShortColumns (bound : Nat) (cols : List (List F)) : Prop :=
  ∀ col ∈ cols, (∀ x ∈ col, rangeCheck x 32) ∧ col.length ≤ bound

theorem columnSum_lt_modulus {bound : Nat} (hbound : bound < 2 ^ 31) {cols : List (List F)}
    (h : ShortColumns bound cols) {col : List F} (hcol : col ∈ cols) {c : Nat} (hc : c < 2 ^ 4) :
    columnSum col + c < modulus := by
  have hmodulus : modulus = 18446744069414584321 := rfl
  have hsum := columnSum_lt (h col hcol).1
  have hmul : col.length * (2 ^ 32 - 1) ≤ 2 ^ 31 * (2 ^ 32 - 1) :=
    Nat.mul_le_mul_right _ (by have := (h col hcol).2; omega)
  omega

/-- The products leave short columns. -/
theorem shortColumns_of_mulInv {cols : List (List F)}
    (h : MulInv a b ((List.range a.length).product (List.range b.length)) cols) :
    ShortColumns (2 * min a.length b.length) cols := by
  intro col hcol
  refine ⟨h.range col hcol, ?_⟩
  obtain ⟨k, hk, rfl⟩ := List.mem_iff_getElem.mp hcol
  have hcount := h.count k hk
  rw [List.getD_eq_getElem _ _ hk] at hcount
  rw [hcount]
  exact columnCount_product_le _ _ k

theorem columnInv_start : ColumnInv [] (0, []) :=
  ⟨rfl, fun x hx => absurd hx List.not_mem_nil, by decide, rfl⟩

/-- The limbs after the last column are those of the product. -/
theorem eq_of_columnInv {cols : List (List F)}
    (hcols : MulInv a b ((List.range a.length).product (List.range b.length)) cols)
    {state : F × BigUintTarget} (h : ColumnInv cols state) :
    state.2 ++ [state.1] = biguintOf (a.length + b.length + 1) (value a * value b) := by
  have hvalue : value (state.2 ++ [state.1]) = value a * value b := by
    rw [value_append, value_singleton, h.length, h.sum, hcols.sum, productSum_product,
      ← value_eq_valueBelow (Nat.le_refl _), ← value_eq_valueBelow (Nat.le_refl _)]
  have hrange : rangeCheckU32Circuit (state.2 ++ [state.1]) := by
    have hcarry := h.carry
    rw [← ZMod.natCast_zmod_val state.1]
    exact rangeCheck_append_singleton h.range (by omega)
  have hlength : (state.2 ++ [state.1]).length = a.length + b.length + 1 := by
    rw [List.length_append, h.length, List.length_singleton, hcols.length]
  apply eq_biguintOf hrange hlength
  rw [← hvalue, ← hlength, Nat.mod_eq_of_lt (value_lt hrange)]

theorem mulInv_start : MulInv a b [] (List.replicate (a.length + b.length) []) := by
  refine ⟨List.length_replicate, ?_, columnsValue_replicate_nil _, ?_⟩
  · intro col hcol x hx
    rw [List.eq_of_mem_replicate hcol] at hx
    cases hx
  · intro k hk
    rw [List.getD_eq_getElem _ _ hk, List.getElem_replicate]
    rfl

theorem lt_of_product_eq_append {m n : Nat} {done : List (Nat × Nat)} {ij : Nat × Nat}
    {rest : List (Nat × Nat)} (h : (List.range m).product (List.range n) = done ++ ij :: rest) :
    ij.1 < m ∧ ij.2 < n := by
  have hmem : ij ∈ (List.range m).product (List.range n) := by
    rw [h]
    exact List.mem_append_right _ List.mem_cons_self
  obtain ⟨hi, hj⟩ := List.pair_mem_product.mp hmem
  exact ⟨List.mem_range.mp hi, List.mem_range.mp hj⟩

/-- What `mul_biguint` leaves open is the product at most, on a limb more than both operands
have together. -/
theorem eq_of_mem_mulBiguint (ha : rangeCheckU32Circuit a) (hb : rangeCheckU32Circuit b)
    (hlength : min a.length b.length < 2 ^ 30) {r : BigUintTarget} (h : r ∈ mulBiguint a b) :
    r = biguintOf (a.length + b.length + 1) (value a * value b) := by
  rw [mulBiguint, mem_bind] at h
  obtain ⟨cols, hcols, h⟩ := h
  rw [mem_bind] at h
  obtain ⟨state, hstate, hr⟩ := h
  have hcols : MulInv a b ((List.range a.length).product (List.range b.length)) cols := by
    refine forall_mem_foldlM (MulInv a b) mulInv_start ?_ cols hcols
    intro done ij rest hl s hs t ht
    obtain ⟨hi, hj⟩ := lt_of_product_eq_append hl
    rw [mulStep_eq ha hb] at ht
    rw [Set.mem_singleton_iff.mp ht]
    exact mulInv_step ha hb hs hi hj
  have hshort := shortColumns_of_mulInv hcols
  have hstate : ColumnInv cols state := by
    refine forall_mem_foldlM ColumnInv columnInv_start ?_ state hstate
    intro done col rest hl s hs t ht
    have hcol : col ∈ cols := by
      rw [hl]
      exact List.mem_append_right _ List.mem_cons_self
    obtain ⟨hfit, rfl⟩ := (mem_columnStep (hshort col hcol).1 hs.carry
      (columnSum_lt_modulus (by omega) hshort hcol hs.carry)).mp ht
    exact columnInv_step hs hfit
  rw [mem_pure.mp hr]
  exact eq_of_columnInv hcols hstate

/-- With at most eight limbs on one side every column fits the gate, and the product is left. -/
theorem mulBiguint_eq (ha : rangeCheckU32Circuit a) (hb : rangeCheckU32Circuit b)
    (hlength : min a.length b.length ≤ 8) :
    mulBiguint a b = {biguintOf (a.length + b.length + 1) (value a * value b)} := by
  ext r
  rw [Set.mem_singleton_iff]
  constructor
  · exact eq_of_mem_mulBiguint ha hb (by omega)
  · rintro rfl
    obtain ⟨cols, hcols, hmul⟩ := exists_mem_foldlM (f := mulStep a b)
      (l := (List.range a.length).product (List.range b.length)) (MulInv a b) mulInv_start
      fun done ij rest hl s hs => by
        obtain ⟨hi, hj⟩ := lt_of_product_eq_append hl
        exact ⟨_, by rw [mulStep_eq ha hb]; rfl, mulInv_step ha hb hs hi hj⟩
    have hshort := shortColumns_of_mulInv hmul
    obtain ⟨state, hstate, hcolumn⟩ := exists_mem_foldlM (f := columnStep) (l := cols) ColumnInv
      columnInv_start fun done col rest hl s hs => by
        have hcol : col ∈ cols := by
          rw [hl]
          exact List.mem_append_right _ List.mem_cons_self
        have hsum := columnSum_lt (hshort col hcol).1
        have hcount : col.length * (2 ^ 32 - 1) ≤ 16 * (2 ^ 32 - 1) :=
          Nat.mul_le_mul_right _ (by have := (hshort col hcol).2; omega)
        have hcarry := hs.carry
        have hfit : columnSum col + s.1.val < 2 ^ 36 := by omega
        exact ⟨_, (mem_columnStep (hshort col hcol).1 hs.carry
          (columnSum_lt_modulus (by omega) hshort hcol hs.carry)).mpr ⟨hfit, rfl⟩,
          columnInv_step hs hfit⟩
    rw [mulBiguint, mem_bind]
    refine ⟨cols, hcols, ?_⟩
    rw [mem_bind]
    exact ⟨state, hstate, mem_pure.mpr (eq_of_columnInv hmul hcolumn).symm⟩

end

/-! ## constants, connections and factors -/

theorem rangeCheck_constantBiguint (v : Nat) : rangeCheckU32Circuit (constantBiguint v) := by
  intro x hx
  obtain ⟨n, hn, rfl⟩ := List.mem_map.mp hx
  have hlt : n < 2 ^ 32 := Nat.digits_lt_base (by decide) hn
  rw [rangeCheck_natCast (Nat.lt_trans hlt (by decide))]
  exact hlt

theorem value_constantBiguint (v : Nat) : value (constantBiguint v) = v := by
  rw [value, constantBiguint, map_val_natCast, Nat.ofDigits_digits]
  intro n hn
  exact Nat.lt_trans (Nat.digits_lt_base (by decide) hn) (by decide)

section
variable {a b : BigUintTarget}

theorem value_eq_zero_iff : value a = 0 ↔ ∀ x ∈ a, x = 0 := by
  induction a with
  | nil => exact ⟨fun _ x hx => absurd hx List.not_mem_nil, fun _ => rfl⟩
  | cons x a ih =>
      rw [← List.singleton_append, value_append, value_singleton, List.length_singleton, pow_one,
        Nat.add_eq_zero_iff, Nat.mul_eq_zero, ih, List.singleton_append, List.forall_mem_cons,
        ZMod.val_eq_zero]
      exact and_congr_right fun _ => or_iff_right (by decide)

/-- Connected limbs make the same number, and limbs in range of the same number are
connected. -/
theorem connectBiguint_iff (ha : rangeCheckU32Circuit a) (hb : rangeCheckU32Circuit b) :
    connectBiguint a b ↔ value a = value b := by
  set n := min a.length b.length with hn
  have hsplitA : value a = value (a.take n) + (2 ^ 32) ^ n * value (a.drop n) := by
    conv_lhs => rw [← List.take_append_drop n a]
    rw [value_append, List.length_take, Nat.min_eq_left (Nat.min_le_left _ _)]
  have hsplitB : value b = value (b.take n) + (2 ^ 32) ^ n * value (b.drop n) := by
    conv_lhs => rw [← List.take_append_drop n b]
    rw [value_append, List.length_take, Nat.min_eq_left (Nat.min_le_right _ _)]
  have htake : (∀ i < n, a.getD i 0 = b.getD i 0) ↔ a.take n = b.take n := by
    constructor
    · intro h
      apply List.ext_getElem
      · rw [List.length_take, List.length_take]
        omega
      · intro i h1 h2
        rw [List.length_take] at h1 h2
        rw [List.getElem_take, List.getElem_take, ← List.getD_eq_getElem _ 0 (by omega),
          ← List.getD_eq_getElem _ 0 (by omega)]
        exact h i (by omega)
    · intro h i hi
      have hget : (a.take n).getD i 0 = (b.take n).getD i 0 := by rw [h]
      rwa [List.getD_eq_getElem _ _ (by rw [List.length_take]; omega),
        List.getD_eq_getElem _ _ (by rw [List.length_take]; omega), List.getElem_take,
        List.getElem_take, ← List.getD_eq_getElem _ 0 (by omega),
        ← List.getD_eq_getElem _ 0 (by omega)] at hget
  have hshort : a.drop n = [] ∨ b.drop n = [] := by
    rcases Nat.le_total a.length b.length with h | h
    · exact Or.inl (List.drop_eq_nil_of_le (by omega))
    · exact Or.inr (List.drop_eq_nil_of_le (by omega))
  have hrangeA : rangeCheckU32Circuit (a.take n) := fun x hx => ha x (List.mem_of_mem_take hx)
  have hrangeB : rangeCheckU32Circuit (b.take n) := fun x hx => hb x (List.mem_of_mem_take hx)
  have hltA := value_lt hrangeA
  have hltB := value_lt hrangeB
  rw [List.length_take, Nat.min_eq_left (by omega)] at hltA hltB
  have hunfold : connectBiguint a b ↔
      a.take n = b.take n ∧ value (a.drop n) = 0 ∧ value (b.drop n) = 0 := by
    rw [value_eq_zero_iff, value_eq_zero_iff, ← htake]
    rfl
  rw [hunfold, hsplitA, hsplitB]
  constructor
  · rintro ⟨h, h0, h1⟩
    rw [h, h0, h1]
  · intro h
    have hpos : 0 < (2 ^ 32) ^ n := Nat.pow_pos (by decide)
    have hzero : value (a.drop n) = value (b.drop n) := by
      have hdiv := congrArg (· / (2 ^ 32) ^ n) h
      simpa only [Nat.add_mul_div_left _ _ hpos, Nat.div_eq_of_lt hltA, Nat.div_eq_of_lt hltB,
        Nat.zero_add] using hdiv
    have hlow : value (a.take n) = value (b.take n) := by
      rw [hzero] at h
      exact Nat.add_right_cancel h
    have hboth : value (a.drop n) = 0 ∧ value (b.drop n) = 0 := by
      rcases hshort with h0 | h0
      · rw [← hzero, h0]
        exact ⟨rfl, rfl⟩
      · rw [hzero, h0]
        exact ⟨rfl, rfl⟩
    refine ⟨?_, hboth⟩
    have htakeA : a.take n = biguintOf n (value (b.take n)) := eq_biguintOf hrangeA
      (by rw [List.length_take]; omega) (by rw [hlow, Nat.mod_eq_of_lt hltB])
    have htakeB : b.take n = biguintOf n (value (b.take n)) := eq_biguintOf hrangeB
      (by rw [List.length_take]; omega) (by rw [Nat.mod_eq_of_lt hltB])
    rw [htakeA, ← htakeB]

theorem mulBiguintByBool_eq (a : BigUintTarget) (bit : Bool) :
    mulBiguintByBool a (bit.toNat : F) = if bit then a else List.replicate a.length 0 := by
  cases bit with
  | false =>
      rw [mulBiguintByBool, Bool.toNat_false, Nat.cast_zero, if_neg (by decide)]
      simp only [mul_zero]
      exact List.map_const'
  | true =>
      rw [mulBiguintByBool, Bool.toNat_true, Nat.cast_one, if_pos rfl]
      simp only [mul_one, List.map_id']

/-! ## quotients -/

/-- The limbs `div_rem_biguint` gives the quotient. -/
def divNumLimbs (a b : BigUintTarget) : Nat :=
  if b.length > a.length + 1 then 0 else a.length + 1 - b.length

/-- `div_rem_biguint` is division with remainder: it is satisfiable when the divisor is not zero
and the quotient fits the limbs the lengths leave for it. -/
theorem mem_divRemBiguint (ha : rangeCheckU32Circuit a) (hb : rangeCheckU32Circuit b)
    (hlength : min (divNumLimbs a b) b.length ≤ 8) {r : BigUintTarget × BigUintTarget} :
    r ∈ divRemBiguint a b ↔ 0 < value b ∧ value a / value b < (2 ^ 32) ^ divNumLimbs a b ∧
      r = (biguintOf (divNumLimbs a b) (value a / value b),
        biguintOf b.length (value a % value b)) := by
  simp only [divRemBiguint, mem_bind, exists_mem_guard, mem_pure]
  constructor
  · rintro ⟨div, hdivLength, rem, hremLength, hdiv, hrem, divB, hdivB, sum, hsum, hconnect, cmp, hcmp,
      hzero, rfl⟩
    have hdivLength : div.length = divNumLimbs a b := hdivLength
    have hremLength : rem.length = b.length := hremLength
    rw [mulBiguint_eq hdiv hb (by rwa [hdivLength]), Set.mem_singleton_iff] at hdivB
    have hdivBRange : rangeCheckU32Circuit divB := by rw [hdivB]; exact rangeCheck_biguintOf _ _
    have hproduct : value divB = value div * value b := by
      rw [hdivB, value_biguintOf, Nat.mod_eq_of_lt (mul_lt_pow hdiv hb)]
    rw [addBiguint_eq hdivBRange hrem, Set.mem_singleton_iff] at hsum
    have hsumRange : rangeCheckU32Circuit sum := by rw [hsum]; exact rangeCheck_biguintOf _ _
    have hsumValue : value sum = value divB + value rem := by
      rw [hsum, value_biguintOf, Nat.mod_eq_of_lt (add_lt_pow hdivBRange hrem)]
    rw [connectBiguint_iff ha hsumRange, hsumValue, hproduct] at hconnect
    rw [cmpBiguint_eq hb hrem, Set.mem_singleton_iff] at hcmp
    have hlt : value rem < value b := by
      by_contra hle
      rw [hcmp, if_pos (Nat.le_of_not_lt hle)] at hzero
      exact absurd hzero (by decide)
    have hquotient : value a / value b = value div := by
      rw [hconnect, Nat.mul_comm, Nat.mul_add_div (by omega), Nat.div_eq_of_lt hlt, Nat.add_zero]
    have hremainder : value a % value b = value rem := by
      rw [hconnect, Nat.mul_comm, Nat.mul_add_mod, Nat.mod_eq_of_lt hlt]
    have hdivLt := value_lt hdiv
    have hremLt := value_lt hrem
    rw [hdivLength] at hdivLt
    rw [hremLength] at hremLt
    refine ⟨by omega, by rwa [hquotient], Prod.ext ?_ ?_⟩
    · exact eq_biguintOf hdiv hdivLength (by rw [hquotient, Nat.mod_eq_of_lt hdivLt])
    · exact eq_biguintOf hrem hremLength (by rw [hremainder, Nat.mod_eq_of_lt hremLt])
  · rintro ⟨hpos, hfit, rfl⟩
    have hdiv := rangeCheck_biguintOf (divNumLimbs a b) (value a / value b)
    have hrem := rangeCheck_biguintOf b.length (value a % value b)
    have hdivValue := value_biguintOf (divNumLimbs a b) (value a / value b)
    have hremValue := value_biguintOf b.length (value a % value b)
    rw [Nat.mod_eq_of_lt hfit] at hdivValue
    rw [Nat.mod_eq_of_lt (Nat.lt_trans (Nat.mod_lt _ hpos) (value_lt hb))] at hremValue
    set div := biguintOf (divNumLimbs a b) (value a / value b)
    set rem := biguintOf b.length (value a % value b)
    have hdivLength : div.length = divNumLimbs a b := length_biguintOf _ _
    let divB := biguintOf (div.length + b.length + 1) (value div * value b)
    refine ⟨div, hdivLength, rem, length_biguintOf _ _, hdiv, hrem, divB, ?_,
      biguintOf (max divB.length rem.length + 1) (value divB + value rem), ?_, ?_,
      if value b ≤ value rem then 1 else 0, ?_, ?_, rfl⟩
    · rw [mulBiguint_eq hdiv hb (by rwa [hdivLength])]
      rfl
    · rw [addBiguint_eq (rangeCheck_biguintOf _ _) hrem]
      rfl
    · rw [connectBiguint_iff ha (rangeCheck_biguintOf _ _), value_biguintOf,
        Nat.mod_eq_of_lt (add_lt_pow (rangeCheck_biguintOf _ _) hrem), value_biguintOf,
        Nat.mod_eq_of_lt (mul_lt_pow hdiv hb), hdivValue, hremValue, Nat.mul_comm, Nat.div_add_mod]
    · rw [cmpBiguint_eq hb hrem]
      rfl
    · rw [hremValue, if_neg (Nat.not_le.mpr (Nat.mod_lt _ hpos))]

/-- Seven by two. -/
theorem mem_divRemBiguint_seven :
    (biguintOf 1 3, biguintOf 1 1) ∈ divRemBiguint (biguintOf 1 7) (biguintOf 1 2) := by
  rw [mem_divRemBiguint (rangeCheck_biguintOf 1 7) (rangeCheck_biguintOf 1 2)
    (by rw [length_biguintOf, divNumLimbs, length_biguintOf, length_biguintOf]; decide),
    divNumLimbs, length_biguintOf, length_biguintOf, value_biguintOf, value_biguintOf]
  exact ⟨by decide, by decide, rfl⟩

end

end GearBridges.Plonky2Ecdsa
