import Mathlib.FieldTheory.Finite.Basic
import GearBridges.Circuits.Ed25519
import GearBridges.Circuits.NonNative
import GearBridges.Lib.PowMod

/-!
# Circuits.NonNativeGenerators

The generators that fill the wires of `Circuits.NonNative` for an honest prover.  They reduce
the operands before they compute, while the rows speak of the operands as they are, so that a
prover who follows them gets through for some operands only: a sum needs reduced ones
(`acceptedAdd_iff`), a difference operands from the same multiple of the order
(`acceptedSub_iff`).  What they compute is reduced except for one sum, the order itself, and
there the next sum fails (`acceptedAdd_acceptedAdd_iff`).
-/

namespace GearBridges.Plonky2Ed25519

open Goldilocks Outcomes Plonky2U32 Plonky2Ecdsa PowMod

attribute [local instance] Set.monad

variable (ff : PrimeField)

/-- `set_biguint_target`, which panics for a value beyond the limbs. -/
def setBiguintTarget (numLimbs v : Nat) : Option BigUintTarget :=
  if v < (2 ^ 32) ^ numLimbs then some (biguintOf numLimbs v) else none

/-- `from_noncanonical_biguint` of the wires, and `to_canonical_biguint`. -/
def canonical (a : NonNativeTarget) : Nat := value a % ff.order

/-- `NonNativeAdditionGenerator`. -/
def additionGenerator (a b : NonNativeTarget) : Option (NonNativeTarget × F) := do
  let sum := canonical ff a + canonical ff b
  let sumReduced := if sum > ff.order then sum - ff.order else sum
  let limbs ← setBiguintTarget ff.numLimbs sumReduced
  return (limbs, if sum > ff.order then 1 else 0)

/-- `NonNativeMultipleAddsGenerator`.  The first digit of an overflow of zero does not exist. -/
def multipleAddsGenerator (summands : List NonNativeTarget) : Option (NonNativeTarget × F) := do
  let sum := (summands.map (canonical ff)).sum
  let overflow := sum / ff.order
  guard (overflow ≠ 0)
  let limbs ← setBiguintTarget ff.numLimbs (sum % ff.order)
  return (limbs, ((overflow % 2 ^ 64 % 2 ^ 32 : Nat) : F))

/-- `NonNativeSubtractionGenerator`. -/
def subtractionGenerator (a b : NonNativeTarget) : Option (NonNativeTarget × F) := do
  let diff := if canonical ff a ≥ canonical ff b then canonical ff a - canonical ff b
    else ff.order + canonical ff a - canonical ff b
  let limbs ← setBiguintTarget ff.numLimbs diff
  return (limbs, if canonical ff a ≥ canonical ff b then 0 else 1)

/-- `NonNativeMultiplicationGenerator`. -/
def multiplicationGenerator (a b : NonNativeTarget) : Option (NonNativeTarget × BigUintTarget) := do
  let prod := canonical ff a * canonical ff b
  let limbs ← setBiguintTarget ff.numLimbs (prod % ff.order)
  let overflow ← setBiguintTarget (overflowLimbs ff a b) (prod / ff.order)
  return (limbs, overflow)

/-- `try_inverse`: a power, and nothing for zero. -/
def tryInverse (x : Nat) : Option Nat := if x = 0 then none else some (powMod ff.order x ff.bits (ff.order - 2))

/-- `NonNativeInverseGenerator`. -/
def inverseGenerator (x : NonNativeTarget) : Option (BigUintTarget × BigUintTarget) := do
  let inv ← tryInverse ff (canonical ff x)
  let div ← setBiguintTarget x.length (canonical ff x * inv / ff.order)
  let limbs ← setBiguintTarget x.length inv
  return (limbs, div)

/-- The rows accept what the generator fills in. -/
def AcceptedAdd (a b : NonNativeTarget) : Prop :=
  ∃ wires, additionGenerator ff a b = some wires ∧ () ∈ addRows ff a b wires.1 wires.2

def AcceptedSub (a b : NonNativeTarget) : Prop :=
  ∃ wires, subtractionGenerator ff a b = some wires ∧ () ∈ subRows ff a b wires.1 wires.2

/-- A single summand has neither a generator nor rows. -/
def AcceptedAddMany (toAdd : List NonNativeTarget) : Prop :=
  toAdd.length = 1 ∨ ∃ wires, multipleAddsGenerator ff toAdd = some wires ∧
    () ∈ addManyRows ff toAdd wires.1 wires.2

/-- There are rows for operands with as many limbs as the order between them. -/
def AcceptedMul (a b : NonNativeTarget) : Prop :=
  ff.modulus.length ≤ a.length + b.length ∧ ∃ wires,
    multiplicationGenerator ff a b = some wires ∧ () ∈ mulRows ff a b wires.1 wires.2

def AcceptedInv (x : NonNativeTarget) : Prop :=
  ∃ wires, inverseGenerator ff x = some wires ∧ () ∈ invRows ff x wires.1 wires.2

variable {ff}

/-! ## the wires -/

theorem order_pos : 0 < ff.order := Nat.lt_trans Nat.zero_lt_one ff.one_lt_order

theorem canonical_lt (a : NonNativeTarget) : canonical ff a < ff.order := Nat.mod_lt _ order_pos

theorem canonical_eq_iff (a : NonNativeTarget) : canonical ff a = value a ↔ value a < ff.order := by
  rw [canonical]
  exact ⟨fun h => h ▸ Nat.mod_lt _ order_pos, Nat.mod_eq_of_lt⟩

theorem canonical_add (a : NonNativeTarget) : value a = canonical ff a + ff.order * (value a / ff.order) :=
  (Nat.mod_add_div _ _).symm

theorem setBiguintTarget_of_lt {numLimbs v : Nat} (h : v < (2 ^ 32) ^ numLimbs) :
    setBiguintTarget numLimbs v = some (biguintOf numLimbs v) := if_pos h

theorem setBiguintTarget_of_le {v : Nat} (h : v ≤ ff.order) :
    setBiguintTarget ff.numLimbs v = some (biguintOf ff.numLimbs v) :=
  setBiguintTarget_of_lt (Nat.lt_of_le_of_lt h order_lt_pow)

theorem value_of_le {v : Nat} (h : v ≤ ff.order) : value (biguintOf ff.numLimbs v) = v := by
  rw [value_biguintOf, Nat.mod_eq_of_lt (Nat.lt_of_le_of_lt h order_lt_pow)]

/-! ## sums and differences -/

section
variable {a b c : NonNativeTarget}

/-- The bit of a comparison as the wire that the generator sets. -/
theorem ite_eq_toNat (p : Prop) [Decidable p] : (if p then 1 else 0 : F) = ((decide p).toNat : F) := by
  by_cases h : p <;> simp [h]

theorem toNat_inj {b c : Bool} (h : (b.toNat : F) = (c.toNat : F)) : b = c := by
  revert h
  cases b <;> cases c <;> decide

/-- The sum that the generator fills in. -/
def sumReduced (ff : PrimeField) (a b : NonNativeTarget) : Nat :=
  if canonical ff a + canonical ff b > ff.order then canonical ff a + canonical ff b - ff.order
  else canonical ff a + canonical ff b

theorem sumReduced_le : sumReduced ff a b ≤ ff.order := by
  have ha := @canonical_lt ff a
  have hb := @canonical_lt ff b
  unfold sumReduced
  split <;> omega

theorem additionGenerator_eq : additionGenerator ff a b = some (biguintOf ff.numLimbs (sumReduced ff a b),
    ((decide (canonical ff a + canonical ff b > ff.order)).toNat : F)) := by
  rw [additionGenerator, ite_eq_toNat]
  show (setBiguintTarget ff.numLimbs (sumReduced ff a b) >>= fun limbs => _) = _
  rw [setBiguintTarget_of_le sumReduced_le]
  rfl

/-- An honest sum needs reduced operands. -/
theorem acceptedAdd_iff (ha : rangeCheckU32Circuit a) (hb : rangeCheckU32Circuit b) :
    AcceptedAdd ff a b ↔ value a < ff.order ∧ value b < ff.order := by
  have hsum : canonical ff a + canonical ff b = sumReduced ff a b +
      (decide (canonical ff a + canonical ff b > ff.order)).toNat * ff.order := by
    unfold sumReduced
    split
    · next h =>
        rw [decide_eq_true h, Bool.toNat_true]
        omega
    · next h =>
        rw [decide_eq_false h, Bool.toNat_false]
        omega
  rw [AcceptedAdd, additionGenerator_eq]
  simp only [Option.some.injEq, exists_eq_left', mem_addRows ha hb, value_of_le sumReduced_le]
  rw [← canonical_eq_iff, ← canonical_eq_iff]
  have hle : canonical ff a ≤ value a := Nat.mod_le _ _
  have hle' : canonical ff b ≤ value b := Nat.mod_le _ _
  constructor
  · rintro ⟨-, -, bit, hbit, hrows⟩
    rw [← toNat_inj hbit, ← hsum] at hrows
    omega
  · rintro ⟨hca, hcb⟩
    exact ⟨rangeCheck_biguintOf _ _, sumReduced_le, _, rfl, by rw [← hsum, hca, hcb]⟩

/-- What the generator fills in is reduced, unless the reduced operands add up to the order. -/
theorem sumReduced_lt_iff : sumReduced ff a b < ff.order ↔ canonical ff a + canonical ff b ≠ ff.order := by
  have ha := @canonical_lt ff a
  have hb := @canonical_lt ff b
  unfold sumReduced
  split <;> omega

/-- An honest prover adds a third operand to a sum unless the first two add up to the order. -/
theorem acceptedAdd_acceptedAdd_iff (ha : rangeCheckU32Circuit a) (hb : rangeCheckU32Circuit b)
    (hc : rangeCheckU32Circuit c) :
    (∃ wires, additionGenerator ff a b = some wires ∧ () ∈ addRows ff a b wires.1 wires.2 ∧
      AcceptedAdd ff wires.1 c) ↔
    value a < ff.order ∧ value b < ff.order ∧ value c < ff.order ∧
      value a + value b ≠ ff.order := by
  have hfirst := @acceptedAdd_iff ff a b ha hb
  rw [AcceptedAdd, additionGenerator_eq] at hfirst
  rw [additionGenerator_eq]
  simp only [Option.some.injEq, exists_eq_left'] at hfirst ⊢
  rw [hfirst, acceptedAdd_iff (rangeCheck_biguintOf _ _) hc, value_of_le sumReduced_le, sumReduced_lt_iff,
    and_assoc]
  refine and_congr_right fun hva => and_congr_right fun hvb => ?_
  rw [(canonical_eq_iff a).mpr hva, (canonical_eq_iff b).mpr hvb, and_comm]

/-- An honest prover has no witness for `(-1 + 1) + 1`. -/
theorem acceptedAdd_acceptedAdd_iff_zero :
    ¬ ∃ wires, additionGenerator ed25519Base (biguintOf 8 (Curve25519.p - 1)) (biguintOf 8 1) = some wires ∧
      () ∈ addRows ed25519Base (biguintOf 8 (Curve25519.p - 1)) (biguintOf 8 1) wires.1 wires.2 ∧
      AcceptedAdd ed25519Base wires.1 (biguintOf 8 1) := by
  rw [acceptedAdd_acceptedAdd_iff (rangeCheck_biguintOf 8 (Curve25519.p - 1)) (rangeCheck_biguintOf 8 1)
    (rangeCheck_biguintOf 8 1), value_biguintOf, value_biguintOf]
  rintro ⟨-, -, -, hne⟩
  exact hne (by decide)

/-- An honest difference needs operands that exceed their residues by the same amount. -/
theorem acceptedSub_iff (ha : rangeCheckU32Circuit a) (hb : rangeCheckU32Circuit b)
    (hlength : a.length ≤ ff.numLimbs) :
    AcceptedSub ff a b ↔ value a / ff.order = value b / ff.order := by
  have hca := @canonical_lt ff a
  have hcb := @canonical_lt ff b
  obtain ⟨diff, bit, hgen, hle, hdiff⟩ : ∃ (diff : Nat) (bit : Bool), subtractionGenerator ff a b =
      some (biguintOf ff.numLimbs diff, (bit.toNat : F)) ∧ diff ≤ ff.order ∧
      canonical ff a + bit.toNat * ff.order = diff + canonical ff b := by
    by_cases h : canonical ff a ≥ canonical ff b
    · refine ⟨canonical ff a - canonical ff b, false, ?_, by omega, by rw [Bool.toNat_false]; omega⟩
      rw [subtractionGenerator, if_pos h, if_pos h, setBiguintTarget_of_le (by omega)]
      simp
    · refine ⟨ff.order + canonical ff a - canonical ff b, true, ?_, by omega, by
        rw [Bool.toNat_true]; omega⟩
      rw [subtractionGenerator, if_neg h, if_neg h, setBiguintTarget_of_le (by omega)]
      simp
  rw [AcceptedSub, hgen]
  simp only [Option.some.injEq, exists_eq_left', mem_subRows ha hb hlength (length_biguintOf _ _),
    value_of_le hle]
  have hva := @canonical_add ff a
  have hvb := @canonical_add ff b
  constructor
  · rintro ⟨-, bit', hbit, hrows⟩
    rw [← toNat_inj hbit] at hrows
    exact Nat.eq_of_mul_eq_mul_left (@order_pos ff) (by omega)
  · intro h
    refine ⟨rangeCheck_biguintOf _ _, bit, rfl, ?_⟩
    rw [h] at hva
    omega

/-- The order of the field minus zero is not accepted. -/
theorem acceptedSub_iff_order : ¬ AcceptedSub ed25519Base (biguintOf 8 Curve25519.p) (biguintOf 8 0) := by
  rw [acceptedSub_iff (rangeCheck_biguintOf 8 Curve25519.p) (rangeCheck_biguintOf 8 0)
    (Nat.le_of_eq (length_biguintOf 8 _)), value_biguintOf, value_biguintOf]
  decide

end

/-! ## sums of many, products and inverses -/

theorem sum_canonical_le (toAdd : List NonNativeTarget) :
    (toAdd.map (canonical ff)).sum ≤ (toAdd.map value).sum := by
  induction toAdd with
  | nil => exact Nat.le_refl _
  | cons a toAdd ih =>
      rw [List.map_cons, List.map_cons, List.sum_cons, List.sum_cons]
      exact Nat.add_le_add (Nat.mod_le _ _) ih

/-- Reducing leaves a sum as it is only when it leaves every summand. -/
theorem sum_canonical_eq_iff (toAdd : List NonNativeTarget) :
    (toAdd.map (canonical ff)).sum = (toAdd.map value).sum ↔ ∀ a ∈ toAdd, value a < ff.order := by
  induction toAdd with
  | nil => simp
  | cons a toAdd ih =>
      have hhead : canonical ff a ≤ value a := Nat.mod_le _ _
      have htail := @sum_canonical_le ff toAdd
      rw [List.map_cons, List.map_cons, List.sum_cons, List.sum_cons, List.forall_mem_cons, ← ih,
        ← canonical_eq_iff]
      omega

theorem sum_canonical_lt (toAdd : List NonNativeTarget) :
    (toAdd.map (canonical ff)).sum ≤ ff.order * toAdd.length := by
  induction toAdd with
  | nil => exact Nat.zero_le _
  | cons a toAdd ih =>
      have hlt := @canonical_lt ff a
      rw [List.map_cons, List.sum_cons, List.length_cons, Nat.mul_add_one]
      omega

/-- An honest sum of many needs reduced summands too, and a total that reaches the order: the
generator reads the first digit of the quotient, and zero has none.  One summand is returned as
it is. -/
theorem acceptedAddMany_iff {toAdd : List NonNativeTarget} (hrange : ∀ a ∈ toAdd, rangeCheckU32Circuit a)
    (hmany : toAdd.length ≠ 1) (hlength : toAdd.length < 2 ^ 32) :
    AcceptedAddMany ff toAdd ↔ (∀ a ∈ toAdd, value a < ff.order) ∧
      ff.order ≤ (toAdd.map value).sum := by
  rw [← sum_canonical_eq_iff]
  have hbound := @sum_canonical_lt ff toAdd
  have hle := @sum_canonical_le ff toAdd
  set sum := (toAdd.map (canonical ff)).sum with hsum
  have hquotient : sum / ff.order < 2 ^ 32 :=
    Nat.lt_of_le_of_lt (Nat.div_le_of_le_mul hbound) hlength
  have hremainder : sum % ff.order ≤ ff.order := Nat.le_of_lt (Nat.mod_lt _ order_pos)
  have hfield : sum / ff.order < Goldilocks.modulus := Nat.lt_trans hquotient (by decide)
  have hgen : multipleAddsGenerator ff toAdd = if sum / ff.order = 0 then none
      else some (biguintOf ff.numLimbs (sum % ff.order), ((sum / ff.order : Nat) : F)) := by
    rw [multipleAddsGenerator, ← hsum, setBiguintTarget_of_le hremainder,
      Nat.mod_eq_of_lt (Nat.lt_trans hquotient (by decide)), Nat.mod_eq_of_lt hquotient]
    by_cases h : sum / ff.order = 0
    · simp [h]
    · simp [h]
  have hzero : sum / ff.order = 0 ↔ sum < ff.order := Nat.div_eq_zero_iff_lt order_pos
  rw [AcceptedAddMany, or_iff_right hmany, hgen]
  by_cases h : sum / ff.order = 0
  · rw [if_pos h]
    have hlt := hzero.mp h
    constructor
    · rintro ⟨_, hnone, _⟩
      exact absurd hnone (by simp)
    · rintro ⟨heq, hreach⟩
      omega
  · rw [if_neg h]
    have hreach := Nat.le_of_not_lt fun hlt => h (hzero.mpr hlt)
    simp only [Option.some.injEq, exists_eq_left', mem_addManyRows hrange, value_of_le hremainder,
      val_natCast hfield, rangeCheck_natCast hfield, Nat.mod_add_div]
    constructor
    · rintro ⟨-, -, -, heq⟩
      exact ⟨heq.symm, by omega⟩
    · rintro ⟨heq, -⟩
      exact ⟨rangeCheck_biguintOf _ _, hquotient, hremainder, heq.symm⟩

/-- One and one are not accepted. -/
theorem acceptedAddMany_iff_two : ¬ AcceptedAddMany ed25519Base [biguintOf 8 1, biguintOf 8 1] := by
  rw [acceptedAddMany_iff (by
    intro a ha
    rw [List.mem_pair.mp ha |>.elim id id]
    exact rangeCheck_biguintOf 8 1) (by decide) (by decide)]
  simp only [List.map_cons, List.map_nil, value_biguintOf]
  decide

theorem tryInverse_mul {x : Nat} (hprime : ff.order.Prime) (hx : 0 < x) (hlt : x < ff.order) :
    ∃ inv, tryInverse ff x = some inv ∧ inv < ff.order ∧ x * inv % ff.order = 1 := by
  have hbits : ff.order - 2 < 2 ^ ff.bits := Nat.lt_of_le_of_lt (Nat.sub_le _ _) ff.order_lt
  refine ⟨x ^ (ff.order - 2) % ff.order, ?_, Nat.mod_lt _ order_pos, ?_⟩
  · rw [tryInverse, if_neg (Nat.ne_of_gt hx), powMod_eq hbits]
  · have hcoprime : Nat.Coprime x ff.order :=
      (Nat.coprime_of_lt_prime (Nat.ne_of_gt hx) hlt hprime).symm
    have hone := Nat.ModEq.pow_totient hcoprime
    rw [Nat.totient_prime hprime, Nat.ModEq, Nat.mod_eq_of_lt hprime.one_lt] at hone
    have hpred : ff.order - 1 = ff.order - 2 + 1 := by
      have := hprime.two_le
      omega
    rw [Nat.mul_mod_mod, Nat.mul_comm, ← pow_succ, ← hpred, hone]

section
variable {a b : NonNativeTarget} (hlimbs : ff.numLimbs ≤ 8)
include hlimbs

/-- An honest product needs operands whose product is that of their residues, and a quotient that
the limbs hold. -/
theorem acceptedMul_iff (ha : rangeCheckU32Circuit a) (hb : rangeCheckU32Circuit b)
    (hlength : min a.length b.length ≤ 8) (hmodulus : ff.modulus.length ≤ a.length + b.length) :
    AcceptedMul ff a b ↔ value a * value b = canonical ff a * canonical ff b ∧
      canonical ff a * canonical ff b / ff.order < (2 ^ 32) ^ overflowLimbs ff a b := by
  set prod := canonical ff a * canonical ff b
  have hremainder : prod % ff.order ≤ ff.order := Nat.le_of_lt (Nat.mod_lt _ order_pos)
  have hgen : multiplicationGenerator ff a b =
      (setBiguintTarget (overflowLimbs ff a b) (prod / ff.order)).map
        fun overflow => (biguintOf ff.numLimbs (prod % ff.order), overflow) := by
    rw [multiplicationGenerator, setBiguintTarget_of_le hremainder]
    cases setBiguintTarget (overflowLimbs ff a b) (prod / ff.order) <;> rfl
  rw [AcceptedMul, and_iff_right hmodulus, hgen]
  by_cases hfit : prod / ff.order < (2 ^ 32) ^ overflowLimbs ff a b
  · rw [setBiguintTarget_of_lt hfit, Option.map_some]
    simp only [Option.some.injEq, exists_eq_left', mem_mulRows ha hb hlength hlimbs,
      value_of_le hremainder, value_biguintOf, Nat.mod_eq_of_lt hfit, Nat.mod_add_div]
    exact ⟨fun h => ⟨h.2.2, hfit⟩, fun h => ⟨rangeCheck_biguintOf _ _, rangeCheck_biguintOf _ _, h.1⟩⟩
  · rw [setBiguintTarget, if_neg hfit]
    constructor
    · rintro ⟨_, hnone, _⟩
      exact absurd hnone (by simp)
    · exact fun h => absurd h.2 hfit

omit hlimbs in
/-- Two times three is accepted. -/
theorem acceptedMul_iff_six : AcceptedMul ed25519Base (biguintOf 8 2) (biguintOf 8 3) := by
  have hlimbs : ed25519Base.numLimbs ≤ 8 := Nat.le_refl 8
  rw [acceptedMul_iff hlimbs (rangeCheck_biguintOf 8 2) (rangeCheck_biguintOf 8 3)
    (by rw [length_biguintOf, length_biguintOf]; decide)
    (Nat.le_trans length_modulus_le (by rw [length_biguintOf, length_biguintOf]; decide)), canonical, canonical, value_biguintOf,
    value_biguintOf]
  refine ⟨by decide, ?_⟩
  exact Nat.pow_pos (by decide)

/-- An honest inverse needs a reduced operand other than zero. -/
theorem acceptedInv_iff (hprime : ff.order.Prime) (ha : rangeCheckU32Circuit a)
    (hlength : a.length = ff.numLimbs) : AcceptedInv ff a ↔ 0 < value a ∧ value a < ff.order := by
  rw [AcceptedInv]
  by_cases hzero : canonical ff a = 0
  · constructor
    · rintro ⟨_, hnone, _⟩
      rw [inverseGenerator, hzero, tryInverse, if_pos rfl] at hnone
      exact absurd hnone (by simp)
    · rintro ⟨hpos, hlt⟩
      rw [(canonical_eq_iff a).mpr hlt] at hzero
      omega
  · have hx := @canonical_lt ff a
    obtain ⟨inv, hinv, hinvLt, hone⟩ := tryInverse_mul hprime (Nat.pos_of_ne_zero hzero) hx
    have hproduct := Nat.mod_add_div (canonical ff a * inv) ff.order
    rw [hone] at hproduct
    have hdivLt : canonical ff a * inv / ff.order < (2 ^ 32) ^ ff.numLimbs :=
      Nat.lt_of_le_of_lt (Nat.div_le_of_le_mul (Nat.mul_le_mul_right inv (Nat.le_of_lt hx)))
        (Nat.lt_trans hinvLt order_lt_pow)
    have hgen : inverseGenerator ff a = some (biguintOf a.length inv,
        biguintOf a.length (canonical ff a * inv / ff.order)) := by
      rw [inverseGenerator, hinv, hlength]
      simp only [Option.bind_eq_bind, Option.bind_some, setBiguintTarget_of_lt hdivLt,
        setBiguintTarget_of_le (Nat.le_of_lt hinvLt)]
      rfl
    have hinvPos : 0 < inv := by
      rcases Nat.eq_zero_or_pos inv with rfl | hpos
      · rw [Nat.mul_zero, Nat.zero_mod] at hone
        exact absurd hone (by decide)
      · exact hpos
    rw [hgen]
    simp only [Option.some.injEq, exists_eq_left', mem_invRows ha (by omega) hlimbs, hlength,
      value_of_le (Nat.le_of_lt hinvLt), value_biguintOf, Nat.mod_eq_of_lt hdivLt]
    rw [Nat.add_comm (ff.order * _), hproduct, Nat.mul_left_inj (Nat.ne_of_gt hinvPos), eq_comm,
      canonical_eq_iff]
    constructor
    · rintro ⟨-, -, hlt⟩
      refine ⟨Nat.pos_of_ne_zero fun h0 => hzero ?_, hlt⟩
      rw [canonical, h0, Nat.zero_mod]
    · exact fun h => ⟨rangeCheck_biguintOf _ _, rangeCheck_biguintOf _ _, h.2⟩

omit hlimbs in
/-- The inverse of two is accepted. -/
theorem acceptedInv_iff_two : AcceptedInv ed25519Base (biguintOf 8 2) := by
  have hlimbs : ed25519Base.numLimbs ≤ 8 := Nat.le_refl 8
  rw [acceptedInv_iff hlimbs Curve25519.prime_p (rangeCheck_biguintOf 8 2) (length_biguintOf 8 2),
    value_biguintOf]
  decide

end

end GearBridges.Plonky2Ed25519
