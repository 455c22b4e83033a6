import GearBridges.Circuits.BigUint

/-!
# Circuits.SplitBase

Targets split into limbs of a smaller base.  A row of `split_le_base` asserts that every limb is
a digit and that the limbs sum up to the target, so it accepts a target below the power of the
base and its digits (`mem_splitLeBase`).  The digits to the base 16 of a number in 32-bit limbs are
put together from those to the base 4 (`mem_splitNonnativeTo4BitLimbs`).
-/

namespace GearBridges.Plonky2Ed25519

open Goldilocks Outcomes Plonky2U32 Plonky2Ecdsa

attribute [local instance] Set.monad

/-- The digits of a number as field elements. -/
def digitTargets (base num v : Nat) : List F := (splitToLimbs base num v).map fun n => ((n : Nat) : F)

@[simp] theorem length_digitTargets (base num v : Nat) : (digitTargets base num v).length = num := by
  rw [digitTargets, List.length_map, length_splitToLimbs]

theorem map_val_digitTargets {base : Nat} (hbase : 0 < base) (h : base ≤ modulus) (num v : Nat) :
    (digitTargets base num v).map ZMod.val = splitToLimbs base num v :=
  map_val_natCast fun n hn => Nat.lt_of_lt_of_le (splitToLimbs_lt hbase n hn) h

/-- `split_le_base`, a row of a `BaseSumGate`. -/
def splitLeBase (base numLimbs : Nat) (x : F) : Set (List F) :=
  {limbs | limbs.length = numLimbs ∧ (∀ limb ∈ limbs, rangeProduct base limb = 0) ∧
    reduceWithPowers limbs (base : F) = x}

theorem mem_splitLeBase {base num : Nat} (hbase : 1 < base) (hnum : 0 < num) (h : base ^ num ≤ modulus)
    {x : F} {limbs : List F} :
    limbs ∈ splitLeBase base num x ↔ x.val < base ^ num ∧ limbs = digitTargets base num x.val := by
  have hle : base ≤ modulus := Nat.le_trans (Nat.le_self_pow (Nat.ne_of_gt hnum) base) h
  have hdigits := map_val_digitTargets (Nat.lt_trans Nat.zero_lt_one hbase) hle num x.val
  constructor
  · rintro ⟨rfl, hlimbs, rfl⟩
    have hrange : ∀ y ∈ limbs, y.val < base := fun y hy => (rangeProduct_eq_zero_iff hle).mp (hlimbs y hy)
    have hlt := val_reduceWithPowers_lt hbase h hrange
    refine ⟨hlt, List.map_injective_iff.mpr (ZMod.val_injective modulus) ?_⟩
    rw [hdigits]
    apply Nat.ofDigits_inj_of_len_eq hbase
    · rw [List.length_map, length_splitToLimbs]
    · intro n hn
      obtain ⟨y, hy, rfl⟩ := List.mem_map.mp hn
      exact hrange y hy
    · exact splitToLimbs_lt (Nat.lt_trans Nat.zero_lt_one hbase)
    · have hsum : Nat.ofDigits base (limbs.map ZMod.val) < base ^ limbs.length := by
        have hlt := Nat.ofDigits_lt_base_pow_length hbase (l := limbs.map ZMod.val) fun n hn => by
          obtain ⟨y, hy, rfl⟩ := List.mem_map.mp hn
          exact hrange y hy
        rwa [List.length_map] at hlt
      rw [ofDigits_splitToLimbs, Nat.mod_eq_of_lt hlt, reduceWithPowers_natCast,
        val_natCast (Nat.lt_of_lt_of_le hsum h)]
  · rintro ⟨hlt, rfl⟩
    refine ⟨length_digitTargets _ _ _, fun limb hlimb => ?_, ?_⟩
    · obtain ⟨n, hn, rfl⟩ := List.mem_map.mp hlimb
      have hn := splitToLimbs_lt (Nat.lt_trans Nat.zero_lt_one hbase) n hn
      rwa [rangeProduct_eq_zero_iff hle, val_natCast (Nat.lt_of_lt_of_le hn hle)]
    · rw [digitTargets, reduceWithPowers_splitToLimbs (Nat.lt_trans Nat.zero_lt_one hbase) hle,
        Nat.mod_eq_of_lt hlt, ZMod.natCast_zmod_val]

/-! ## four bits -/

/-- `split_u32_to_4_bit_limbs`. -/
def splitU32To4BitLimbs (val : F) : Set (List F) := do
  let twoBitLimbs ← splitLeBase 4 16 val
  return (List.range 8).map fun i : Nat =>
    twoBitLimbs.getD (2 * i + 1) 0 * ((4 : Nat) : F) + twoBitLimbs.getD (2 * i) 0

/-- `split_nonnative_to_4_bit_limbs`. -/
def splitNonnativeTo4BitLimbs (val : BigUintTarget) : Set (List F) := do
  let limbs ← val.mapM splitU32To4BitLimbs
  return limbs.flatten

/-- Two digits at a time. -/
theorem splitToLimbs_pairs (num v : Nat) : splitToLimbs 16 num v =
    (List.range num).map fun i : Nat =>
      (splitToLimbs 4 (2 * num) v).getD (2 * i + 1) 0 * 4 + (splitToLimbs 4 (2 * num) v).getD (2 * i) 0 := by
  induction num generalizing v with
  | zero => rfl
  | succ num ih =>
      rw [List.range_succ_eq_map, List.map_cons, List.map_map, splitToLimbs, ih,
        show 2 * (num + 1) = 2 * num + 1 + 1 from rfl, splitToLimbs, splitToLimbs, Nat.div_div_eq_div_mul]
      congr 1
      · simp only [List.getD_cons_succ, List.getD_cons_zero, Nat.mul_zero, Nat.zero_add]
        omega

theorem mem_splitU32To4BitLimbs {x : F} {limbs : List F} :
    limbs ∈ splitU32To4BitLimbs x ↔ rangeCheck x 32 ∧ limbs = digitTargets 16 8 x.val := by
  have hpairs : ((List.range 8).map fun i : Nat =>
      (digitTargets 4 16 x.val).getD (2 * i + 1) 0 * ((4 : Nat) : F) +
        (digitTargets 4 16 x.val).getD (2 * i) 0) = digitTargets 16 8 x.val := by
    rw [digitTargets, digitTargets, splitToLimbs_pairs 8, List.map_map]
    apply List.map_congr_left
    intro i _
    have hcast : ∀ k, ((splitToLimbs 4 16 x.val).map fun n => ((n : Nat) : F)).getD k 0 =
        (((splitToLimbs 4 16 x.val).getD k 0 : Nat) : F) := by
      intro k
      rw [← Nat.cast_zero (R := F), List.getD_map]
    rw [hcast, hcast, Function.comp_apply, Nat.cast_add, Nat.cast_mul]
  simp only [splitU32To4BitLimbs, mem_bind, mem_pure, mem_splitLeBase (show 1 < 4 by decide)
    (show 0 < 16 by decide) (show 4 ^ 16 ≤ modulus by decide)]
  rw [rangeCheck, show 2 ^ 32 = 4 ^ 16 by decide]
  constructor
  · rintro ⟨_, ⟨hlt, rfl⟩, rfl⟩
    exact ⟨hlt, hpairs⟩
  · rintro ⟨hlt, rfl⟩
    exact ⟨_, ⟨hlt, rfl⟩, hpairs.symm⟩

/-! ## numbers limb by limb -/

section
variable {base k : Nat} (hpow : base ^ k = 2 ^ 32)
include hpow

/-- The digits of a number come limb by limb. -/
theorem digitTargets_cons {x : F} {val : BigUintTarget} (hx : rangeCheck x 32) :
    digitTargets base (k * (x :: val).length) (value (x :: val)) =
      digitTargets base k x.val ++ digitTargets base (k * val.length) (value val) := by
  have hx : x.val < 2 ^ 32 := hx
  have hvalue : value (x :: val) = x.val + 2 ^ 32 * value val := by
    rw [value, List.map_cons, Nat.ofDigits_cons, value]
  have hhead : value (x :: val) % base ^ k = x.val := by rw [hpow]; omega
  have htail : value (x :: val) / base ^ k = value val := by rw [hpow]; omega
  rw [List.length_cons, Nat.mul_add_one, Nat.add_comm, digitTargets, splitToLimbs_add, List.map_append,
    htail, ← splitToLimbs_mod, hhead]
  rfl

/-- The splits of the limbs are the digits of the number, and check the range of the limbs. -/
theorem mem_mapM_split {split : F → Set (List F)}
    (hsplit : ∀ x limbs, limbs ∈ split x ↔ rangeCheck x 32 ∧ limbs = digitTargets base k x.val)
    {val : BigUintTarget} {limbs : List F} :
    (∃ parts ∈ val.mapM split, limbs = parts.flatten) ↔ rangeCheckU32Circuit val ∧
      limbs = digitTargets base (k * val.length) (value val) := by
  induction val generalizing limbs with
  | nil =>
      rw [List.mapM_nil]
      constructor
      · rintro ⟨_, hrest, rfl⟩
        rw [mem_pure.mp hrest]
        exact ⟨fun x hx => (List.not_mem_nil hx).elim, rfl⟩
      · rintro ⟨-, rfl⟩
        exact ⟨[], mem_pure.mpr rfl, rfl⟩
  | cons x val ih =>
      rw [List.mapM_cons]
      simp only [mem_bind, mem_pure]
      rw [show rangeCheckU32Circuit (x :: val) ↔ rangeCheck x 32 ∧ rangeCheckU32Circuit val from
        List.forall_mem_cons]
      constructor
      · rintro ⟨_, ⟨head, hhead, rest, hrest, rfl⟩, rfl⟩
        obtain ⟨hx, rfl⟩ := (hsplit _ _).mp hhead
        obtain ⟨hval, hflat⟩ := ih.mp ⟨rest, hrest, rfl⟩
        exact ⟨⟨hx, hval⟩, by rw [List.flatten_cons, hflat, digitTargets_cons hpow hx]⟩
      · rintro ⟨⟨hx, hval⟩, rfl⟩
        obtain ⟨rest, hrest, hflat⟩ := ih.mpr ⟨hval, rfl⟩
        refine ⟨_, ⟨_, (hsplit _ _).mpr ⟨hx, rfl⟩, rest, hrest, rfl⟩, ?_⟩
        rw [List.flatten_cons, ← hflat, digitTargets_cons hpow hx]

end

theorem mem_splitNonnativeTo4BitLimbs {val : BigUintTarget} {limbs : List F} :
    limbs ∈ splitNonnativeTo4BitLimbs val ↔ rangeCheckU32Circuit val ∧
      limbs = digitTargets 16 (8 * val.length) (value val) := by
  simp only [splitNonnativeTo4BitLimbs, mem_bind, mem_pure]
  exact mem_mapM_split (by decide) fun _ _ => mem_splitU32To4BitLimbs

/-! ## single digits -/

theorem getD_splitToLimbs {base num v i : Nat} (h : i < num) :
    (splitToLimbs base num v).getD i 0 = v / base ^ i % base := by
  induction num generalizing v i with
  | zero => omega
  | succ num ih =>
      cases i with
      | zero => rw [splitToLimbs, List.getD_cons_zero, pow_zero, Nat.div_one]
      | succ i =>
          rw [splitToLimbs, List.getD_cons_succ, ih (by omega), Nat.div_div_eq_div_mul, ← pow_succ']

theorem splitToLimbs_eq_map (base num v : Nat) :
    splitToLimbs base num v = (List.range num).map fun i => v / base ^ i % base := by
  apply List.ext_getElem
  · rw [length_splitToLimbs, List.length_map, List.length_range]
  · intro i h1 h2
    have hi : i < num := by rwa [length_splitToLimbs] at h1
    rw [List.getElem_map, List.getElem_range, ← getD_splitToLimbs hi, List.getD_eq_getElem _ _ h1]

theorem getD_digitTargets {base num v i : Nat} (h : i < num) :
    (digitTargets base num v).getD i 0 = ((v / base ^ i % base : Nat) : F) := by
  rw [digitTargets, ← Nat.cast_zero (R := F), List.getD_map, getD_splitToLimbs h]

theorem take_digitTargets {base m num : Nat} (h : m ≤ num) (v : Nat) :
    (digitTargets base num v).take m = digitTargets base m (v % base ^ m) := by
  obtain ⟨n, rfl⟩ := Nat.exists_eq_add_of_le h
  rw [digitTargets, splitToLimbs_add, List.map_append, digitTargets, splitToLimbs_mod]
  exact List.take_left' (by rw [List.length_map, length_splitToLimbs])

end GearBridges.Plonky2Ed25519
