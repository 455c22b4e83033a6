import Mathlib.Data.List.GetD
import Mathlib.Data.Nat.Digits.Defs
import Mathlib.Tactic.NormNum.Prime
import Mathlib.Tactic.Ring
import GearBridges.Lib.Goldilocks
import GearBridges.Lib.PowMod

/-!
# Lib.SmallLimbs

Range checks by small limbs, the way gates over a field make them: every limb is a root of
`x (x - 1) ⋯ (x - (b - 1))`, and the limbs recombine to the checked value.  The order of
the Goldilocks field is a prime, so a limb is a root only below `b`
(`rangeProduct_eq_zero_iff`), and the limbs exist when the value is in range
(`exists_limbs_iff`).
-/

namespace Goldilocks

/-- `7` generates the units of the field. -/
theorem prime_modulus : modulus.Prime := by
  apply PowMod.prime_of_factors 7 64 (List.replicate 32 2 ++ [3, 5, 17, 257, 65537])
  · decide
  · decide
  · intro q hq
    rw [List.mem_append, List.mem_replicate] at hq
    rcases hq with ⟨-, rfl⟩ | hq
    · exact Nat.prime_two
    · simp only [List.mem_cons, List.not_mem_nil, or_false] at hq
      rcases hq with rfl | rfl | rfl | rfl | rfl <;> norm_num
  · decide
  · decide +kernel
  · decide +kernel

section
variable {R : Type} [CommRing R]

/-- The product `(x - 0) (x - 1) ⋯` with as many factors as the bound. -/
def rangeProduct (bound : Nat) (x : R) : R := ((List.range bound).map fun i : Nat => x - (i : R)).prod

/-- `reduce_with_powers`: the polynomial with these coefficients at `alpha`. -/
def reduceWithPowers (terms : List R) (alpha : R) : R :=
  terms.foldr (fun term sum => sum * alpha + term) 0

/-- The loop that recombines limbs, from the highest: those below the midpoint make the low
half, the others the high half. -/
def combineLimbs (base : R) (midpoint numLimbs : Nat) (limb : Nat → R) : R × R :=
  (List.range numLimbs).reverse.foldl (fun combined j =>
    if j < midpoint then (base * combined.1 + limb j, combined.2)
    else (combined.1, base * combined.2 + limb j)) (0, 0)

theorem reduceWithPowers_cons (term : R) (terms : List R) (alpha : R) :
    reduceWithPowers (term :: terms) alpha = reduceWithPowers terms alpha * alpha + term := rfl

/-- The loop over the limbs above the midpoint ... -/
theorem foldl_combine_high (base : R) (midpoint : Nat) (limb : Nat → R) (l : List Nat)
    (acc : R × R) (h : ∀ j ∈ l, ¬ j < midpoint) :
    l.reverse.foldl (fun combined j =>
      if j < midpoint then (base * combined.1 + limb j, combined.2)
      else (combined.1, base * combined.2 + limb j)) acc =
      (acc.1, (l.map limb).foldr (fun term sum => sum * base + term) acc.2) := by
  induction l with
  | nil => rfl
  | cons j l ih =>
      rw [List.reverse_cons, List.foldl_append, ih fun k hk => h k (List.mem_cons_of_mem j hk)]
      rw [List.foldl_cons, List.foldl_nil, if_neg (h j List.mem_cons_self), List.map_cons,
        List.foldr_cons, mul_comm base]

/-- ... and over those below it. -/
theorem foldl_combine_low (base : R) (midpoint : Nat) (limb : Nat → R) (l : List Nat)
    (acc : R × R) (h : ∀ j ∈ l, j < midpoint) :
    l.reverse.foldl (fun combined j =>
      if j < midpoint then (base * combined.1 + limb j, combined.2)
      else (combined.1, base * combined.2 + limb j)) acc =
      ((l.map limb).foldr (fun term sum => sum * base + term) acc.1, acc.2) := by
  induction l with
  | nil => rfl
  | cons j l ih =>
      rw [List.reverse_cons, List.foldl_append, ih fun k hk => h k (List.mem_cons_of_mem j hk)]
      rw [List.foldl_cons, List.foldl_nil, if_pos (h j List.mem_cons_self), List.map_cons,
        List.foldr_cons, mul_comm base]

theorem combineLimbs_eq (base : R) (midpoint numHigh : Nat) (limb : Nat → R) :
    combineLimbs base midpoint (midpoint + numHigh) limb =
      (reduceWithPowers ((List.range midpoint).map limb) base,
        reduceWithPowers ((List.range numHigh).map fun j => limb (midpoint + j)) base) := by
  have hlow : ∀ j ∈ List.range midpoint, j < midpoint := fun j hj => List.mem_range.mp hj
  have hhigh : ∀ j ∈ (List.range numHigh).map (midpoint + ·), ¬ j < midpoint := by
    intro j hj
    obtain ⟨k, -, rfl⟩ := List.mem_map.mp hj
    omega
  rw [combineLimbs, List.range_add, List.reverse_append, List.foldl_append,
    foldl_combine_high base midpoint limb _ _ hhigh, foldl_combine_low base midpoint limb _ _ hlow,
    List.map_map]
  rfl

end

/-! ## limbs of the field -/

theorem rangeProduct_eq_zero_iff {bound : Nat} (h : bound ≤ modulus) {x : F} :
    rangeProduct bound x = 0 ↔ x.val < bound := by
  have : Fact modulus.Prime := ⟨prime_modulus⟩
  rw [rangeProduct, List.prod_eq_zero_iff, List.mem_map]
  constructor
  · rintro ⟨i, hi, hx⟩
    have hi := List.mem_range.mp hi
    rw [sub_eq_zero.mp hx, val_natCast (Nat.lt_of_lt_of_le hi h)]
    exact hi
  · intro hx
    exact ⟨x.val, List.mem_range.mpr hx, by rw [ZMod.natCast_zmod_val, sub_self]⟩

/-- A number below the modulus has an inverse. -/
theorem inv_mul_natCast {n : Nat} (hpos : 0 < n) (hlt : n < modulus) : (n : F)⁻¹ * (n : F) = 1 := by
  rw [mul_comm]
  apply ZMod.coe_mul_inv_eq_one
  exact ((prime_modulus.coprime_iff_not_dvd).mpr (Nat.not_dvd_of_pos_of_lt hpos hlt)).symm

/-- Limbs recombine to the number with the values as digits. -/
theorem reduceWithPowers_natCast (base : Nat) (limbs : List F) :
    reduceWithPowers limbs (base : F) =
      ((Nat.ofDigits base (limbs.map ZMod.val) : Nat) : F) := by
  induction limbs with
  | nil => rw [List.map_nil, Nat.ofDigits_nil, Nat.cast_zero]; rfl
  | cons x limbs ih =>
      rw [reduceWithPowers_cons, ih, List.map_cons, Nat.ofDigits_cons, Nat.cast_add, Nat.cast_mul,
        ZMod.natCast_zmod_val]
      ring

/-- `split_to_limbs` of the generators: remainders by the base, lowest first. -/
def splitToLimbs (base : Nat) : Nat → Nat → List Nat
  | 0, _ => []
  | num + 1, val => val % base :: splitToLimbs base num (val / base)

@[simp] theorem length_splitToLimbs (base num val : Nat) :
    (splitToLimbs base num val).length = num := by
  induction num generalizing val with
  | zero => rfl
  | succ num ih => rw [splitToLimbs, List.length_cons, ih]

theorem splitToLimbs_lt {base num val : Nat} (hbase : 0 < base) :
    ∀ limb ∈ splitToLimbs base num val, limb < base := by
  induction num generalizing val with
  | zero => intro limb hlimb; cases hlimb
  | succ num ih =>
      intro limb hlimb
      rcases List.mem_cons.mp hlimb with rfl | hlimb
      · exact Nat.mod_lt val hbase
      · exact ih limb hlimb

theorem ofDigits_splitToLimbs (base num val : Nat) :
    Nat.ofDigits base (splitToLimbs base num val) = val % base ^ num := by
  induction num generalizing val with
  | zero => rw [pow_zero, Nat.mod_one]; rfl
  | succ num ih => rw [splitToLimbs, Nat.ofDigits_cons, ih, pow_succ', Nat.mod_mul]

theorem splitToLimbs_add (base m n val : Nat) :
    splitToLimbs base (m + n) val =
      splitToLimbs base m val ++ splitToLimbs base n (val / base ^ m) := by
  induction m generalizing val with
  | zero => rw [Nat.zero_add, pow_zero, Nat.div_one]; rfl
  | succ m ih =>
      rw [Nat.succ_add, splitToLimbs, ih, splitToLimbs, List.cons_append, Nat.div_div_eq_div_mul,
        ← pow_succ']

/-- The limbs see the number up to as many digits. -/
theorem splitToLimbs_mod (base num val : Nat) :
    splitToLimbs base num (val % base ^ num) = splitToLimbs base num val := by
  induction num generalizing val with
  | zero => rfl
  | succ num ih =>
      rw [splitToLimbs, splitToLimbs, pow_succ', Nat.mod_mul_right_mod, Nat.mod_mul_right_div_self, ih]

/-- The limbs of a number as field elements. -/
theorem map_val_natCast {l : List Nat} (h : ∀ n ∈ l, n < modulus) :
    (l.map fun n => ((n : Nat) : F)).map ZMod.val = l := by
  rw [List.map_map]
  apply (List.map_congr_left fun n hn => ?_).trans (List.map_id l)
  exact val_natCast (h n hn)

theorem reduceWithPowers_splitToLimbs {base : Nat} (hbase : 0 < base) (h : base ≤ modulus)
    (num val : Nat) :
    reduceWithPowers ((splitToLimbs base num val).map fun n => ((n : Nat) : F)) (base : F) =
      ((val % base ^ num : Nat) : F) := by
  rw [reduceWithPowers_natCast, map_val_natCast, ofDigits_splitToLimbs]
  intro n hn
  exact Nat.lt_of_lt_of_le (splitToLimbs_lt hbase n hn) h

/-- Limbs below the base recombine to a number of as many digits. -/
theorem val_reduceWithPowers_lt {base : Nat} (hbase : 1 < base) {limbs : List F}
    (h : base ^ limbs.length ≤ modulus) (hlimbs : ∀ x ∈ limbs, x.val < base) :
    (reduceWithPowers limbs (base : F)).val < base ^ limbs.length := by
  have hlt : Nat.ofDigits base (limbs.map ZMod.val) < base ^ limbs.length := by
    rw [← @List.length_map _ _ limbs ZMod.val]
    apply Nat.ofDigits_lt_base_pow_length hbase
    intro n hn
    obtain ⟨x, hx, rfl⟩ := List.mem_map.mp hn
    exact hlimbs x hx
  rw [reduceWithPowers_natCast, val_natCast (Nat.lt_of_lt_of_le hlt h)]
  exact hlt

/-! ## the range check of a gate -/

section
variable {base num : Nat} {limb : Nat → F}

/-- Limbs that are roots recombine to a number in range ... -/
theorem rangeCheck_limbs (hbase : 1 < base) (h : base ^ num ≤ modulus) (hpos : 0 < num)
    (hlimb : ∀ j < num, rangeProduct base (limb j) = 0) :
    (reduceWithPowers ((List.range num).map limb) (base : F)).val < base ^ num := by
  have hle : base ≤ modulus :=
    Nat.le_trans (Nat.le_self_pow (Nat.pos_iff_ne_zero.mp hpos) base) h
  have hlength : ((List.range num).map limb).length = num := by
    rw [List.length_map, List.length_range]
  have hlt := @val_reduceWithPowers_lt _ hbase ((List.range num).map limb)
    (by rw [hlength]; exact h) (by
      intro x hx
      obtain ⟨j, hj, rfl⟩ := List.mem_map.mp hx
      exact (rangeProduct_eq_zero_iff hle).mp (hlimb j (List.mem_range.mp hj)))
  rwa [hlength] at hlt

/-- ... and the limbs a generator splits a number into are roots that recombine to it. -/
theorem limbs_of_split (hbase : 0 < base) (h : base ≤ modulus) {val : Nat}
    (hlimb : ∀ j < num, limb j = (((splitToLimbs base num val).getD j 0 : Nat) : F)) :
    (∀ j < num, rangeProduct base (limb j) = 0) ∧
      reduceWithPowers ((List.range num).map limb) (base : F) = ((val % base ^ num : Nat) : F) := by
  constructor
  · intro j hj
    have hlength : j < (splitToLimbs base num val).length := by rwa [length_splitToLimbs]
    have hlt : (splitToLimbs base num val).getD j 0 < base := by
      rw [List.getD_eq_getElem _ _ hlength]
      exact splitToLimbs_lt hbase _ (List.getElem_mem hlength)
    rw [hlimb j hj, rangeProduct_eq_zero_iff h, val_natCast (Nat.lt_of_lt_of_le hlt h)]
    exact hlt
  · have hmap : (List.range num).map limb =
        (splitToLimbs base num val).map fun n => ((n : Nat) : F) := by
      apply List.ext_getElem
      · rw [List.length_map, List.length_map, List.length_range, length_splitToLimbs]
      · intro j h1 h2
        rw [List.length_map] at h2
        rw [List.getElem_map, List.getElem_map, List.getElem_range,
          hlimb j (by rwa [length_splitToLimbs] at h2), List.getD_eq_getElem _ _ h2]
    rw [hmap, reduceWithPowers_splitToLimbs hbase h]

end

end Goldilocks
