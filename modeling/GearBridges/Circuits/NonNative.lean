import GearBridges.Circuits.BigUint
import Mathlib.Data.Nat.Digits.Lemmas

/-!
# Circuits.NonNative

Arithmetic of `plonky2_ed25519` in a prime field other than the one of the circuit, on big
integers that stand for their residues.  A gadget is the set of outputs its rows leave open.
They are not reduced: a sum may be the order of the field itself, a difference and a product
may be any representative that fits the limbs.

The generators of a prover reduce the operands first, while the rows speak of the operands
as they are, so that unreduced operands can leave an honest prover without a witness
(`acceptedAdd_iff`, `acceptedMul_iff`).
-/

namespace GearBridges.Plonky2Ed25519

open Goldilocks Outcomes Plonky2U32 Plonky2Ecdsa

attribute [local instance] Set.monad

/-- The constants of a prime field that the gadgets are built from. -/
structure PrimeField where
  order : Nat
  bits : Nat
  one_lt_order : 1 < order
  order_lt : order < 2 ^ bits

abbrev NonNativeTarget := BigUintTarget

/-- `num_nonnative_limbs`. -/
def PrimeField.numLimbs (ff : PrimeField) : Nat := (ff.bits + 31) / 32

/-- `constant_biguint` of the order. -/
def PrimeField.modulus (ff : PrimeField) : BigUintTarget := constantBiguint ff.order

variable (ff : PrimeField)

/-! ## the gadgets -/

/-- `constant_nonnative`. -/
def constantNonnative (x : Nat) : NonNativeTarget := constantBiguint (x % ff.order)

/-- `connect_nonnative`. -/
def connectNonnative (lhs rhs : NonNativeTarget) : Prop := connectBiguint lhs rhs

instance (lhs rhs : NonNativeTarget) : Decidable (connectNonnative lhs rhs) :=
  inferInstanceAs (Decidable (connectBiguint lhs rhs))

/-- `add_virtual_nonnative_target`. -/
def addVirtualNonnativeTarget : Set NonNativeTarget := addVirtualBiguintTarget ff.numLimbs

/-- `assert_bool`. -/
def assertBool (b : F) : Prop := b * b - b = 0

instance (b : F) : Decidable (assertBool b) := inferInstanceAs (Decidable (_ = _))

/-- `not`. -/
def not (b : F) : F := 1 - b

/-- The rows of `add_nonnative` over the wires of its generator. -/
def addRows (a b sum : NonNativeTarget) (overflow : F) : Set Unit := do
  guard (rangeCheckU32Circuit sum)
  guard (assertBool overflow)
  let sumExpected ← addBiguint a b
  let modTimesOverflow := mulBiguintByBool ff.modulus overflow
  let sumActual ← addBiguint sum modTimesOverflow
  guard (connectBiguint sumExpected sumActual)
  let cmp ← cmpBiguint sum ff.modulus
  guard (cmp = 1)

/-- `add_nonnative`. -/
def addNonnative (a b : NonNativeTarget) : Set NonNativeTarget := do
  let sum ← addVirtualNonnativeTarget ff
  let overflow ← (Set.univ : Set F)
  addRows ff a b sum overflow
  return sum

/-- `mul_nonnative_by_bool`. -/
def mulNonnativeByBool (a : NonNativeTarget) (b : F) : NonNativeTarget := mulBiguintByBool a b

/-- The rows of `add_many_nonnative` for other than one summand. -/
def addManyRows (toAdd : List NonNativeTarget) (sum : NonNativeTarget) (overflow : F) : Set Unit := do
  guard (rangeCheckU32Circuit sum)
  guard (rangeCheckU32Circuit [overflow])
  let sumExpected ← toAdd.foldlM addBiguint zeroBiguint
  let modTimesOverflow ← mulBiguint ff.modulus [overflow]
  let sumActual ← addBiguint sum modTimesOverflow
  guard (connectBiguint sumExpected sumActual)
  let cmp ← cmpBiguint sum ff.modulus
  guard (cmp = 1)

/-- `add_many_nonnative`. -/
def addManyNonnative (toAdd : List NonNativeTarget) : Set NonNativeTarget :=
  if toAdd.length = 1 then {toAdd.headD []}
  else do
    let sum ← addVirtualNonnativeTarget ff
    let overflow ← (Set.univ : Set F)
    addManyRows ff toAdd sum overflow
    return sum

/-- The rows of `sub_nonnative`. -/
def subRows (a b diff : NonNativeTarget) (overflow : F) : Set Unit := do
  guard (rangeCheckU32Circuit diff)
  guard (assertBool overflow)
  let diffPlusB ← addBiguint diff b
  let modTimesOverflow := mulBiguintByBool ff.modulus overflow
  let diffPlusBReduced ← subBiguint diffPlusB modTimesOverflow
  guard (connectBiguint a diffPlusBReduced)

/-- `sub_nonnative`. -/
def subNonnative (a b : NonNativeTarget) : Set NonNativeTarget := do
  let diff ← addVirtualNonnativeTarget ff
  let overflow ← (Set.univ : Set F)
  subRows ff a b diff overflow
  return diff

/-- The rows of `mul_nonnative`. -/
def mulRows (a b prod : NonNativeTarget) (overflow : BigUintTarget) : Set Unit := do
  guard (rangeCheckU32Circuit prod)
  guard (rangeCheckU32Circuit overflow)
  let prodExpected ← mulBiguint a b
  let modTimesOverflow ← mulBiguint ff.modulus overflow
  let prodActual ← addBiguint prod modTimesOverflow
  guard (connectBiguint prodExpected prodActual)

/-- The limbs of an overflow. -/
def overflowLimbs (a b : NonNativeTarget) : Nat := a.length + b.length - ff.modulus.length

/-- `mul_nonnative`.  It panics for operands that have fewer limbs between them than the order:
the number of limbs of the overflow would be negative. -/
def mulNonnative (a b : NonNativeTarget) : Set NonNativeTarget := do
  guard (ff.modulus.length ≤ a.length + b.length)
  let prod ← addVirtualNonnativeTarget ff
  let overflow ← addVirtualBiguintTarget (overflowLimbs ff a b)
  mulRows ff a b prod overflow
  return prod

/-- `neg_nonnative`. -/
def negNonnative (x : NonNativeTarget) : Set NonNativeTarget := subNonnative ff (constantBiguint 0) x

/-- The rows of `inv_nonnative`. -/
def invRows (x inv div : BigUintTarget) : Set Unit := do
  guard (rangeCheckU32Circuit inv)
  guard (rangeCheckU32Circuit div)
  let product ← mulBiguint x inv
  let modTimesDiv ← mulBiguint ff.modulus div
  let expectedProduct ← addBiguint modTimesDiv (constantBiguint 1)
  guard (connectBiguint product expectedProduct)

/-- `inv_nonnative`. -/
def invNonnative (x : NonNativeTarget) : Set NonNativeTarget := do
  let inv ← addVirtualBiguintTarget x.length
  let div ← addVirtualBiguintTarget x.length
  invRows ff x inv div
  return inv

/-! ## numbers of the order -/

variable {ff}

theorem order_lt_pow : ff.order < (2 ^ 32) ^ ff.numLimbs := by
  rw [← pow_mul]
  refine Nat.lt_of_lt_of_le ff.order_lt (Nat.pow_le_pow_right (by decide) ?_)
  rw [PrimeField.numLimbs]
  omega

theorem value_modulus : value ff.modulus = ff.order := value_constantBiguint _

theorem rangeCheck_modulus : rangeCheckU32Circuit ff.modulus := rangeCheck_constantBiguint _

theorem length_modulus_le : ff.modulus.length ≤ ff.numLimbs := by
  rw [PrimeField.modulus, constantBiguint, List.length_map]
  exact (Nat.digits_length_le_iff (by decide) _).mpr order_lt_pow

/-- Limbs that fit, in range. -/
structure IsNonnative (ff : PrimeField) (r : NonNativeTarget) : Prop where
  length : r.length = ff.numLimbs
  range : rangeCheckU32Circuit r

theorem IsNonnative.eq {r : NonNativeTarget} (h : IsNonnative ff r) :
    r = biguintOf ff.numLimbs (value r) := by
  have hlt := value_lt h.range
  rw [h.length] at hlt
  exact eq_biguintOf h.range h.length (Nat.mod_eq_of_lt hlt).symm

theorem isNonnative_biguintOf (v : Nat) : IsNonnative ff (biguintOf ff.numLimbs v) :=
  ⟨length_biguintOf _ _, rangeCheck_biguintOf _ _⟩

/-! ## bits -/

theorem assertBool_iff {b : F} : assertBool b ↔ ∃ bit : Bool, b = (bit.toNat : F) := by
  have : Fact Goldilocks.modulus.Prime := ⟨prime_modulus⟩
  rw [assertBool, sub_eq_zero, ← sub_eq_zero, ← mul_sub_one, mul_eq_zero, sub_eq_zero]
  constructor
  · rintro (rfl | rfl)
    · exact ⟨false, by rw [Bool.toNat_false, Nat.cast_zero]⟩
    · exact ⟨true, by rw [Bool.toNat_true, Nat.cast_one]⟩
  · rintro ⟨bit, rfl⟩
    cases bit with
    | false => exact Or.inl (by rw [Bool.toNat_false, Nat.cast_zero])
    | true => exact Or.inr (by rw [Bool.toNat_true, Nat.cast_one])

theorem not_natCast (bit : Bool) : not (bit.toNat : F) = ((!bit).toNat : F) := by
  cases bit <;> simp [not]

theorem rangeCheck_mulBiguintByBool {a : BigUintTarget} (ha : rangeCheckU32Circuit a) (bit : Bool) :
    rangeCheckU32Circuit (mulBiguintByBool a (bit.toNat : F)) := by
  rw [mulBiguintByBool_eq]
  cases bit with
  | true => exact ha
  | false =>
      intro x hx
      rw [List.eq_of_mem_replicate hx]
      decide

theorem value_mulBiguintByBool (a : BigUintTarget) (bit : Bool) :
    value (mulBiguintByBool a (bit.toNat : F)) = bit.toNat * value a := by
  rw [mulBiguintByBool_eq]
  cases bit with
  | true => rw [if_pos rfl, Bool.toNat_true, Nat.one_mul]
  | false => rw [if_neg (by decide), value_replicate_zero, Bool.toNat_false, Nat.zero_mul]

theorem length_mulBiguintByBool (a : BigUintTarget) (b : F) :
    (mulBiguintByBool a b).length = a.length := List.length_map _

/-! ## sums and products in the middle of a gadget -/

section
variable {a b : BigUintTarget} (ha : rangeCheckU32Circuit a) (hb : rangeCheckU32Circuit b)
include ha hb

theorem value_sum : value (biguintOf (max a.length b.length + 1) (value a + value b)) =
    value a + value b := by
  rw [value_biguintOf, Nat.mod_eq_of_lt (add_lt_pow ha hb)]

theorem value_product : value (biguintOf (a.length + b.length + 1) (value a * value b)) =
    value a * value b := by
  rw [value_biguintOf, Nat.mod_eq_of_lt (mul_lt_pow ha hb)]

/-- The rest of a gadget has the sum at hand. -/
theorem exists_mem_addBiguint {p : BigUintTarget → Prop} : (∃ s ∈ addBiguint a b, p s) ↔
    p (biguintOf (max a.length b.length + 1) (value a + value b)) := by
  rw [addBiguint_eq ha hb]
  exact ⟨fun ⟨_, h, hp⟩ => (Set.mem_singleton_iff.mp h) ▸ hp, fun hp => ⟨_, rfl, hp⟩⟩

theorem exists_mem_mulBiguint (hlength : min a.length b.length ≤ 8) {p : BigUintTarget → Prop} :
    (∃ s ∈ mulBiguint a b, p s) ↔ p (biguintOf (a.length + b.length + 1) (value a * value b)) := by
  rw [mulBiguint_eq ha hb hlength]
  exact ⟨fun ⟨_, h, hp⟩ => (Set.mem_singleton_iff.mp h) ▸ hp, fun hp => ⟨_, rfl, hp⟩⟩

theorem exists_mem_subBiguint {p : BigUintTarget → Prop} : (∃ s ∈ subBiguint a b, p s) ↔
    p (biguintOf (max a.length b.length)
      (value a + (2 ^ 32) ^ max a.length b.length - value b)) := by
  rw [subBiguint_eq ha hb]
  exact ⟨fun ⟨_, h, hp⟩ => (Set.mem_singleton_iff.mp h) ▸ hp, fun hp => ⟨_, rfl, hp⟩⟩

theorem exists_mem_cmpBiguint {p : F → Prop} : (∃ s ∈ cmpBiguint a b, p s) ↔
    p (if value a ≤ value b then 1 else 0) := by
  rw [cmpBiguint_eq ha hb]
  exact ⟨fun ⟨_, h, hp⟩ => (Set.mem_singleton_iff.mp h) ▸ hp, fun hp => ⟨_, rfl, hp⟩⟩

end

theorem ite_eq_one_iff {p : Prop} [Decidable p] : (if p then 1 else 0 : F) = 1 ↔ p := by
  split
  · next h => exact ⟨fun _ => h, fun _ => rfl⟩
  · next h => exact ⟨fun h01 => absurd h01 (by decide), fun hp => absurd hp h⟩

/-! ## what the rows accept -/

section
variable {a b r : NonNativeTarget}

/-- The rows of a sum: it is not above the order, and the operands exceed it by the order or by
nothing. -/
theorem mem_addRows (ha : rangeCheckU32Circuit a) (hb : rangeCheckU32Circuit b) {overflow : F} :
    () ∈ addRows ff a b r overflow ↔ rangeCheckU32Circuit r ∧ value r ≤ ff.order ∧
      ∃ bit : Bool, overflow = (bit.toNat : F) ∧ value a + value b = value r + bit.toNat * ff.order := by
  simp only [addRows, mem_bind, exists_mem_guard]
  simp only [mem_guard, assertBool_iff]
  have hrows : ∀ bit : Bool, rangeCheckU32Circuit r → ((∃ s ∈ addBiguint a b,
      ∃ t ∈ addBiguint r (mulBiguintByBool ff.modulus (bit.toNat : F)), connectBiguint s t ∧
        ∃ cmp ∈ cmpBiguint r ff.modulus, cmp = 1) ↔
      value a + value b = value r + bit.toNat * ff.order ∧ value r ≤ ff.order) := by
    intro bit hrange
    have hmod := rangeCheck_mulBiguintByBool (@rangeCheck_modulus ff) bit
    rw [exists_mem_addBiguint ha hb, exists_mem_addBiguint hrange hmod,
      connectBiguint_iff (rangeCheck_biguintOf _ _) (rangeCheck_biguintOf _ _), value_sum ha hb,
      value_sum hrange hmod, value_mulBiguintByBool, value_modulus,
      exists_mem_cmpBiguint hrange rangeCheck_modulus, ite_eq_one_iff, value_modulus]
  constructor
  · rintro ⟨hrange, ⟨bit, rfl⟩, hrest⟩
    obtain ⟨hsum, hle⟩ := (hrows bit hrange).mp hrest
    exact ⟨hrange, hle, bit, rfl, hsum⟩
  · rintro ⟨hrange, hle, bit, rfl, hsum⟩
    exact ⟨hrange, ⟨bit, rfl⟩, (hrows bit hrange).mpr ⟨hsum, hle⟩⟩

theorem mem_addNonnative (ha : rangeCheckU32Circuit a) (hb : rangeCheckU32Circuit b) :
    r ∈ addNonnative ff a b ↔ IsNonnative ff r ∧ value r ≤ ff.order ∧
      ∃ bit : Bool, value a + value b = value r + bit.toNat * ff.order := by
  simp only [addNonnative, mem_bind, mem_pure]
  constructor
  · rintro ⟨sum, hlength, overflow, -, ⟨⟩, hrows, rfl⟩
    obtain ⟨hrange, hle, bit, -, hsum⟩ := (mem_addRows ha hb).mp hrows
    exact ⟨⟨hlength, hrange⟩, hle, bit, hsum⟩
  · rintro ⟨⟨hlength, hrange⟩, hle, bit, hsum⟩
    exact ⟨r, hlength, (bit.toNat : F), trivial, (),
      (mem_addRows ha hb).mpr ⟨hrange, hle, bit, rfl, hsum⟩, rfl⟩

/-- The sum of a list, limb by limb, is one list of limbs. -/
theorem foldlM_addBiguint {acc : BigUintTarget} {l : List NonNativeTarget}
    (hacc : rangeCheckU32Circuit acc) (hl : ∀ a ∈ l, rangeCheckU32Circuit a) :
    ∃ s, l.foldlM addBiguint acc = {s} ∧ rangeCheckU32Circuit s ∧
      value s = value acc + (l.map value).sum := by
  induction l generalizing acc with
  | nil => exact ⟨acc, rfl, hacc, rfl⟩
  | cons a l ih =>
      have ha := hl a List.mem_cons_self
      obtain ⟨s, hs, hrange, hvalue⟩ := ih (rangeCheck_biguintOf _ _) fun b hb =>
        hl b (List.mem_cons_of_mem a hb)
      refine ⟨s, ?_, hrange, ?_⟩
      · rw [List.foldlM_cons, addBiguint_eq hacc ha, singleton_bind, hs]
      · rw [hvalue, value_sum hacc ha, List.map_cons, List.sum_cons, Nat.add_assoc]

theorem mem_addManyRows {toAdd : List NonNativeTarget} (hrange : ∀ a ∈ toAdd, rangeCheckU32Circuit a)
    {overflow : F} : () ∈ addManyRows ff toAdd r overflow ↔ rangeCheckU32Circuit r ∧
      rangeCheck overflow 32 ∧ value r ≤ ff.order ∧
      (toAdd.map value).sum = value r + ff.order * overflow.val := by
  obtain ⟨s, hs, hsRange, hsValue⟩ := @foldlM_addBiguint zeroBiguint _ (rangeCheck_constantBiguint 0) hrange
  rw [zeroBiguint, value_constantBiguint, Nat.zero_add] at hsValue
  simp only [addManyRows, mem_bind, exists_mem_guard, hs, Set.mem_singleton_iff, exists_eq_left]
  simp only [mem_guard]
  rw [show rangeCheckU32Circuit [overflow] ↔ rangeCheck overflow 32 from List.forall_mem_singleton]
  refine and_congr_right fun hr => and_congr_right fun hoverflow => ?_
  have hsingle : rangeCheckU32Circuit [overflow] := List.forall_mem_singleton.mpr hoverflow
  have hshort : min ff.modulus.length [overflow].length ≤ 8 :=
    Nat.le_trans (Nat.min_le_right _ 1) (by decide)
  rw [exists_mem_mulBiguint rangeCheck_modulus hsingle hshort,
    exists_mem_addBiguint hr (rangeCheck_biguintOf _ _), connectBiguint_iff hsRange (rangeCheck_biguintOf _ _),
    value_sum hr (rangeCheck_biguintOf _ _), value_product rangeCheck_modulus hsingle, value_modulus,
    value_singleton, hsValue, exists_mem_cmpBiguint hr rangeCheck_modulus, ite_eq_one_iff, value_modulus,
    and_comm]

/-- A single summand comes back as it is; otherwise any representative of the sum that is not
above the order, with a quotient in one limb. -/
theorem mem_addManyNonnative {toAdd : List NonNativeTarget}
    (hrange : ∀ a ∈ toAdd, rangeCheckU32Circuit a) :
    r ∈ addManyNonnative ff toAdd ↔ toAdd = [r] ∨ (toAdd.length ≠ 1 ∧ IsNonnative ff r ∧
      value r ≤ ff.order ∧ ∃ q < 2 ^ 32, (toAdd.map value).sum = value r + ff.order * q) := by
  rw [addManyNonnative]
  by_cases hone : toAdd.length = 1
  · obtain ⟨a, rfl⟩ := List.length_eq_one_iff.mp hone
    rw [if_pos hone, Set.mem_singleton_iff, List.headD_cons, List.cons.injEq]
    simp [eq_comm]
  · rw [if_neg hone]
    simp only [mem_bind, mem_pure, mem_addManyRows hrange]
    have hne : toAdd ≠ [r] := fun h => hone (h ▸ rfl)
    constructor
    · rintro ⟨sum, hlength, overflow, -, ⟨⟩, ⟨hr, hoverflow, hle, hsum⟩, rfl⟩
      exact .inr ⟨hone, ⟨hlength, hr⟩, hle, overflow.val, hoverflow, hsum⟩
    · rintro (h | ⟨-, hr, hle, q, hq, hsum⟩)
      · exact absurd h hne
      · have hfield : q < Goldilocks.modulus := Nat.lt_trans hq (by decide)
        exact ⟨r, hr.length, (q : F), trivial, (), ⟨hr.range, (rangeCheck_natCast hfield).mpr hq, hle,
          by rw [val_natCast hfield, hsum]⟩, rfl⟩

/-- A difference modulo a power of the base that is far above both sides does not wrap around. -/
theorem sub_mod_eq_iff {p v t s : Nat} (hv : v < p) (ht : t < p) (hs : s < p * 2 ^ 32) :
    (s + p * 2 ^ 32 - t) % (p * 2 ^ 32) = v ↔ v + t = s := by
  by_cases hle : t ≤ s
  · rw [show s + p * 2 ^ 32 - t = s - t + p * 2 ^ 32 by omega, Nat.add_mod_right,
      Nat.mod_eq_of_lt (by omega)]
    omega
  · rw [Nat.mod_eq_of_lt (by omega)]
    omega

/-- The rows of a difference.  The borrow that is dropped would only matter for a first operand
with more limbs. -/
theorem mem_subRows (ha : rangeCheckU32Circuit a) (hb : rangeCheckU32Circuit b)
    (hlength : a.length ≤ ff.numLimbs) (hr : r.length = ff.numLimbs) {overflow : F} :
    () ∈ subRows ff a b r overflow ↔ rangeCheckU32Circuit r ∧
      ∃ bit : Bool, overflow = (bit.toNat : F) ∧ value a + bit.toNat * ff.order = value r + value b := by
  simp only [subRows, mem_bind, exists_mem_guard]
  simp only [mem_guard, assertBool_iff]
  have hrows : ∀ bit : Bool, rangeCheckU32Circuit r → ((∃ s ∈ addBiguint r b,
      ∃ t ∈ subBiguint s (mulBiguintByBool ff.modulus (bit.toNat : F)), connectBiguint a t) ↔
      value a + bit.toNat * ff.order = value r + value b) := by
    intro bit hrange
    have hmod := rangeCheck_mulBiguintByBool (@rangeCheck_modulus ff) bit
    rw [exists_mem_addBiguint hrange hb, exists_mem_subBiguint (rangeCheck_biguintOf _ _) hmod,
      connectBiguint_iff ha (rangeCheck_biguintOf _ _), value_sum hrange hb, value_mulBiguintByBool,
      value_modulus, length_mulBiguintByBool, length_biguintOf, hr, value_biguintOf,
      Nat.max_eq_left (by have := @length_modulus_le ff; omega), pow_succ (2 ^ 32), eq_comm,
      sub_mod_eq_iff]
    · refine Nat.lt_of_lt_of_le (value_lt ha) (Nat.pow_le_pow_right (by decide) ?_)
      omega
    · refine Nat.lt_of_le_of_lt ?_ (Nat.lt_of_lt_of_le (@order_lt_pow ff)
        (Nat.pow_le_pow_right (by decide) (Nat.le_max_left _ _)))
      cases bit <;> simp
    · have hlt := add_lt_pow hrange hb
      rwa [hr, pow_succ (2 ^ 32)] at hlt
  constructor
  · rintro ⟨hrange, ⟨bit, rfl⟩, hrest⟩
    exact ⟨hrange, bit, rfl, (hrows bit hrange).mp hrest⟩
  · rintro ⟨hrange, bit, rfl, hdiff⟩
    exact ⟨hrange, ⟨bit, rfl⟩, (hrows bit hrange).mpr hdiff⟩

theorem mem_subNonnative (ha : rangeCheckU32Circuit a) (hb : rangeCheckU32Circuit b)
    (hlength : a.length ≤ ff.numLimbs) :
    r ∈ subNonnative ff a b ↔ IsNonnative ff r ∧
      ∃ bit : Bool, value a + bit.toNat * ff.order = value r + value b := by
  simp only [subNonnative, mem_bind, mem_pure]
  constructor
  · rintro ⟨diff, hdiff, overflow, -, ⟨⟩, hrows, rfl⟩
    obtain ⟨hrange, bit, -, hsum⟩ := (mem_subRows ha hb hlength hdiff).mp hrows
    exact ⟨⟨hdiff, hrange⟩, bit, hsum⟩
  · rintro ⟨⟨hdiff, hrange⟩, bit, hsum⟩
    exact ⟨r, hdiff, (bit.toNat : F), trivial, (),
      (mem_subRows ha hb hlength hdiff).mpr ⟨hrange, bit, rfl, hsum⟩, rfl⟩

/-- The rows of a product. -/
theorem mem_mulRows (ha : rangeCheckU32Circuit a) (hb : rangeCheckU32Circuit b)
    (hlength : min a.length b.length ≤ 8) (hlimbs : ff.numLimbs ≤ 8) {overflow : BigUintTarget} :
    () ∈ mulRows ff a b r overflow ↔ rangeCheckU32Circuit r ∧ rangeCheckU32Circuit overflow ∧
      value a * value b = value r + ff.order * value overflow := by
  simp only [mulRows, mem_bind, exists_mem_guard]
  simp only [mem_guard]
  refine and_congr_right fun hprod => and_congr_right fun hoverflow => ?_
  have hshort : min ff.modulus.length overflow.length ≤ 8 := by
    have := @length_modulus_le ff
    omega
  rw [exists_mem_mulBiguint ha hb hlength, exists_mem_mulBiguint rangeCheck_modulus hoverflow hshort,
    exists_mem_addBiguint hprod (rangeCheck_biguintOf _ _),
    connectBiguint_iff (rangeCheck_biguintOf _ _) (rangeCheck_biguintOf _ _), value_product ha hb,
    value_sum hprod (rangeCheck_biguintOf _ _), value_product rangeCheck_modulus hoverflow,
    value_modulus]

/-- Any representative of the product that fits the limbs, with a quotient that fits those the
lengths leave for it. -/
theorem mem_mulNonnative (ha : rangeCheckU32Circuit a) (hb : rangeCheckU32Circuit b)
    (hlength : min a.length b.length ≤ 8) (hlimbs : ff.numLimbs ≤ 8) :
    r ∈ mulNonnative ff a b ↔ ff.modulus.length ≤ a.length + b.length ∧ IsNonnative ff r ∧
      ∃ q < (2 ^ 32) ^ overflowLimbs ff a b, value a * value b = value r + ff.order * q := by
  simp only [mulNonnative, mem_bind, exists_mem_guard, mem_pure]
  refine and_congr_right fun _ => ?_
  constructor
  · rintro ⟨prod, hprod, overflow, hoverflow, ⟨⟩, hrows, rfl⟩
    obtain ⟨hrange, hrange', hproduct⟩ := (mem_mulRows ha hb hlength hlimbs).mp hrows
    have hlt := value_lt hrange'
    rw [show overflow.length = overflowLimbs ff a b from hoverflow] at hlt
    exact ⟨⟨hprod, hrange⟩, value overflow, hlt, hproduct⟩
  · rintro ⟨⟨hprod, hrange⟩, q, hq, hproduct⟩
    refine ⟨r, hprod, biguintOf (overflowLimbs ff a b) q, length_biguintOf _ _, (),
      (mem_mulRows ha hb hlength hlimbs).mpr ⟨hrange, rangeCheck_biguintOf _ _, ?_⟩, rfl⟩
    rw [value_biguintOf, Nat.mod_eq_of_lt hq, hproduct]

/-- The rows of an inverse. -/
theorem mem_invRows (ha : rangeCheckU32Circuit a) (hlength : a.length ≤ 8) (hlimbs : ff.numLimbs ≤ 8)
    {div : BigUintTarget} : () ∈ invRows ff a r div ↔ rangeCheckU32Circuit r ∧
      rangeCheckU32Circuit div ∧ value a * value r = ff.order * value div + 1 := by
  simp only [invRows, mem_bind, exists_mem_guard]
  simp only [mem_guard]
  refine and_congr_right fun hinv => and_congr_right fun hdiv => ?_
  have hone := rangeCheck_constantBiguint 1
  have hshort : min ff.modulus.length div.length ≤ 8 := by
    have := @length_modulus_le ff
    omega
  rw [exists_mem_mulBiguint ha hinv (by omega), exists_mem_mulBiguint rangeCheck_modulus hdiv hshort,
    exists_mem_addBiguint (rangeCheck_biguintOf _ _) hone,
    connectBiguint_iff (rangeCheck_biguintOf _ _) (rangeCheck_biguintOf _ _), value_product ha hinv,
    value_sum (rangeCheck_biguintOf _ _) hone, value_product rangeCheck_modulus hdiv, value_modulus,
    value_constantBiguint]

theorem mem_invNonnative (ha : rangeCheckU32Circuit a) (hlength : a.length ≤ 8)
    (hlimbs : ff.numLimbs ≤ 8) :
    r ∈ invNonnative ff a ↔ (r.length = a.length ∧ rangeCheckU32Circuit r) ∧
      ∃ q < (2 ^ 32) ^ a.length, value a * value r = ff.order * q + 1 := by
  simp only [invNonnative, mem_bind, mem_pure]
  constructor
  · rintro ⟨inv, hinv, div, hdiv, ⟨⟩, hrows, rfl⟩
    obtain ⟨hrange, hrange', hproduct⟩ := (mem_invRows ha hlength hlimbs).mp hrows
    have hlt := value_lt hrange'
    rw [show div.length = a.length from hdiv] at hlt
    exact ⟨⟨hinv, hrange⟩, value div, hlt, hproduct⟩
  · rintro ⟨⟨hinv, hrange⟩, q, hq, hproduct⟩
    refine ⟨r, hinv, biguintOf a.length q, length_biguintOf _ _, (),
      (mem_invRows ha hlength hlimbs).mpr ⟨hrange, rangeCheck_biguintOf _ _, ?_⟩, rfl⟩
    rw [value_biguintOf, Nat.mod_eq_of_lt hq, hproduct]

end

end GearBridges.Plonky2Ed25519
