import Mathlib.NumberTheory.LegendreSymbol.Basic
import Mathlib.Tactic.NormNum.Prime
import GearBridges.Lib.Edwards
import GearBridges.Lib.PowMod

/-!
# Lib.Curve25519

The prime `2^255 - 19` and the twisted Edwards curve over its field.  Primality goes down the
tree of prime factors of `p - 1` with one generator for each prime (`PowMod.Certificate`);
the curve is complete, since `-1` is a square modulo the prime and `d` is not.
-/

namespace Curve25519

open PowMod

def p : Nat := 57896044618658097711785492504343953926634992332820282019728792003956564819949

example : p = 2 ^ 255 - 19 := by decide

instance : NeZero p := ⟨by decide⟩

/-! ## the primes -/

/-- The tree of prime factors of `p - 1`, the leaves left out. -/
def certificates : List Certificate := [
  ⟨2773320623, 5, 32, [2, 2437, 569003]⟩,
  ⟨72106336199, 7, 37, [2, 13, 2773320623]⟩,
  ⟨8574133, 5, 24, [2, 2, 3, 7, 103, 991]⟩,
  ⟨1919519569386763, 2, 51, [2, 3, 7, 19, 47, 47, 127, 8574133]⟩,
  ⟨31757755568855353, 10, 55, [2, 2, 2, 3, 31, 107, 223, 4153, 430751]⟩,
  ⟨75445702479781427272750846543864801, 7, 116, [2, 2, 2, 2, 2, 3, 3, 5, 5, 75707, 72106336199,
    1919519569386763]⟩,
  ⟨74058212732561358302231226437062788676166966415465897661863160754340907, 2, 236,
    [2, 3, 353, 57467, 132049, 1923133, 31757755568855353, 75445702479781427272750846543864801]⟩,
  ⟨p, 2, 255, [2, 2, 3, 65147,
    74058212732561358302231226437062788676166966415465897661863160754340907]⟩]

theorem valid_certificates : ∀ c ∈ certificates, c.Valid := by decide +kernel

theorem valid_certificate {i : Nat} (h : i < certificates.length) : certificates[i].Valid :=
  valid_certificates _ (List.getElem_mem h)

theorem prime_2773320623 : Nat.Prime 2773320623 := by
  refine (valid_certificate (show 0 < certificates.length by decide)).prime ?_
  simp only [certificates, List.getElem_cons_zero, List.mem_cons, List.not_mem_nil, or_false,
    forall_eq_or_imp, forall_eq]
  exact ⟨by norm_num, by norm_num, by norm_num⟩

theorem prime_72106336199 : Nat.Prime 72106336199 := by
  refine (valid_certificate (show 1 < certificates.length by decide)).prime ?_
  simp only [certificates, List.getElem_cons_succ, List.getElem_cons_zero, List.mem_cons,
    List.not_mem_nil, or_false, forall_eq_or_imp, forall_eq]
  exact ⟨by norm_num, by norm_num, prime_2773320623⟩

theorem prime_8574133 : Nat.Prime 8574133 := by
  refine (valid_certificate (show 2 < certificates.length by decide)).prime ?_
  simp only [certificates, List.getElem_cons_succ, List.getElem_cons_zero, List.mem_cons,
    List.not_mem_nil, or_false, forall_eq_or_imp, forall_eq]
  exact ⟨by norm_num, by norm_num, by norm_num, by norm_num, by norm_num, by norm_num⟩

theorem prime_1919519569386763 : Nat.Prime 1919519569386763 := by
  refine (valid_certificate (show 3 < certificates.length by decide)).prime ?_
  simp only [certificates, List.getElem_cons_succ, List.getElem_cons_zero, List.mem_cons,
    List.not_mem_nil, or_false, forall_eq_or_imp, forall_eq]
  exact ⟨by norm_num, by norm_num, by norm_num, by norm_num, by norm_num, by norm_num, by norm_num,
    prime_8574133⟩

theorem prime_31757755568855353 : Nat.Prime 31757755568855353 := by
  refine (valid_certificate (show 4 < certificates.length by decide)).prime ?_
  simp only [certificates, List.getElem_cons_succ, List.getElem_cons_zero, List.mem_cons,
    List.not_mem_nil, or_false, forall_eq_or_imp, forall_eq]
  exact ⟨by norm_num, by norm_num, by norm_num, by norm_num, by norm_num, by norm_num, by norm_num,
    by norm_num, by norm_num⟩

theorem prime_75445702479781427272750846543864801 :
    Nat.Prime 75445702479781427272750846543864801 := by
  refine (valid_certificate (show 5 < certificates.length by decide)).prime ?_
  simp only [certificates, List.getElem_cons_succ, List.getElem_cons_zero, List.mem_cons,
    List.not_mem_nil, or_false, forall_eq_or_imp, forall_eq]
  exact ⟨by norm_num, by norm_num, by norm_num, by norm_num, by norm_num, by norm_num, by norm_num,
    by norm_num, by norm_num, by norm_num, prime_72106336199, prime_1919519569386763⟩

/-- The large factor of `p - 1`. -/
theorem prime_factor :
    Nat.Prime 74058212732561358302231226437062788676166966415465897661863160754340907 := by
  refine (valid_certificate (show 6 < certificates.length by decide)).prime ?_
  simp only [certificates, List.getElem_cons_succ, List.getElem_cons_zero, List.mem_cons,
    List.not_mem_nil, or_false, forall_eq_or_imp, forall_eq]
  exact ⟨by norm_num, by norm_num, by norm_num, by norm_num, by norm_num, by norm_num,
    prime_31757755568855353, prime_75445702479781427272750846543864801⟩

theorem prime_p : p.Prime := by
  refine (valid_certificate (show 7 < certificates.length by decide)).prime ?_
  simp only [certificates, List.getElem_cons_succ, List.getElem_cons_zero, List.mem_cons,
    List.not_mem_nil, or_false, forall_eq_or_imp, forall_eq]
  exact ⟨by norm_num, by norm_num, by norm_num, by norm_num, prime_factor⟩

instance : Fact p.Prime := ⟨prime_p⟩

/-! ## the curve -/

abbrev Base := ZMod p

/-- A square root of `-1`. -/
def root : Nat := 19681161376707505956807079304988542015446066515923890162744021073123829784752

/-- The coefficient `d`, the residue of `-121665 / 121666`. -/
def d : Nat := 37095705934669439343138083508754565189542113879843219016388785533085940283555

example : (d * 121666 + 121665) % p = 0 := by decide

theorem natCast_eq {a b : Nat} (h : a % p = b % p) : (a : Base) = (b : Base) :=
  (ZMod.natCast_eq_natCast_iff' a b p).mpr h

theorem neg_one_eq : (-1 : Base) = (root : Base) * (root : Base) := by
  rw [eq_comm, ← add_eq_zero_iff_eq_neg, ← Nat.cast_mul, ← Nat.cast_one (R := Base), ← Nat.cast_add,
    ZMod.natCast_eq_zero_iff]
  exact Nat.dvd_of_mod_eq_zero (by decide)

theorem natCast_d_ne_zero : (d : Base) ≠ 0 := by
  rw [Ne, ZMod.natCast_eq_zero_iff]
  exact fun h => absurd (Nat.eq_zero_of_dvd_of_lt h (by decide)) (by decide)

theorem not_isSquare_d : ¬ IsSquare (d : Base) := by
  rw [ZMod.euler_criterion p natCast_d_ne_zero,
    @natCast_pow_eq_one_iff p d 255 (p / 2) (by decide) (by decide)]
  decide +kernel

theorem natCast_two_ne_zero : ((2 : Nat) : Base) ≠ 0 := by
  rw [Ne, ZMod.natCast_eq_zero_iff]
  exact fun h => absurd (Nat.eq_zero_of_dvd_of_lt h (by decide)) (by decide)

/-- `-x² + y² = 1 + d x² y²`. -/
def edwards : Edwards.Curve Base where
  a := -1
  d := (d : Base)
  two_ne_zero := fun h => natCast_two_ne_zero (Nat.cast_ofNat.trans h)
  isSquare_a := ⟨root, neg_one_eq⟩
  not_isSquare_d := not_isSquare_d

end Curve25519
