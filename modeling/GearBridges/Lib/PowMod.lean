import Mathlib.NumberTheory.LucasPrimality
import Mathlib.Algebra.BigOperators.Group.List.Lemmas
import Mathlib.Data.Nat.Prime.Basic

/-!
# Lib.PowMod

Powers modulo a number by repeated squaring, small enough for the kernel to evaluate, and
with them primality: a number is prime when an element has order `p - 1`, which the powers
at the quotients of `p - 1` by its prime factors show (`prime_of_factors`).
-/

namespace PowMod

/-- `a ^ n % m` for exponents of at most `fuel` bits. -/
def powMod (m a : Nat) : Nat → Nat → Nat
  | 0, _ => 1 % m
  | fuel + 1, n =>
      let half := powMod m a fuel (n / 2)
      if n % 2 = 0 then half * half % m else half * half % m * a % m

theorem powMod_eq {m a fuel n : Nat} (h : n < 2 ^ fuel) : powMod m a fuel n = a ^ n % m := by
  induction fuel generalizing n with
  | zero =>
      rw [pow_zero, Nat.lt_one_iff] at h
      rw [h, pow_zero, powMod]
  | succ fuel ih =>
      have hhalf : n / 2 < 2 ^ fuel := by
        rw [pow_succ] at h
        omega
      have hsquare : a ^ (n / 2) % m * (a ^ (n / 2) % m) % m = a ^ (2 * (n / 2)) % m := by
        rw [← Nat.mul_mod, ← pow_add, Nat.two_mul]
      simp only [powMod]
      rw [ih hhalf, hsquare]
      split
      · next heven => rw [show 2 * (n / 2) = n by omega]
      · next hodd => rw [Nat.mod_mul_mod, ← pow_succ, show 2 * (n / 2) + 1 = n by omega]

theorem natCast_pow_eq_one_iff {p a fuel n : Nat} (hp : 1 < p) (h : n < 2 ^ fuel) :
    (a : ZMod p) ^ n = 1 ↔ powMod p a fuel n = 1 := by
  rw [powMod_eq h, ← Nat.cast_pow, ← Nat.cast_one, ZMod.natCast_eq_natCast_iff, Nat.ModEq,
    Nat.mod_eq_of_lt hp]

/-- `a` has order `p - 1`. -/
theorem prime_of_factors {p : Nat} (a fuel : Nat) (factors : List Nat) (hp : 1 < p)
    (hfuel : p < 2 ^ fuel) (hprime : ∀ q ∈ factors, q.Prime) (hprod : factors.prod = p - 1)
    (hone : powMod p a fuel (p - 1) = 1)
    (hne : ∀ q ∈ factors, powMod p a fuel ((p - 1) / q) ≠ 1) : p.Prime := by
  apply lucas_primality p (a : ZMod p)
  · rw [natCast_pow_eq_one_iff hp (Nat.lt_of_le_of_lt (Nat.sub_le p 1) hfuel)]
    exact hone
  · intro q hq hdvd
    have hquotient : (p - 1) / q < 2 ^ fuel :=
      Nat.lt_of_le_of_lt (Nat.div_le_self _ _) (Nat.lt_of_le_of_lt (Nat.sub_le p 1) hfuel)
    rw [Ne, natCast_pow_eq_one_iff hp hquotient]
    rw [← hprod, hq.prime.dvd_prod_iff] at hdvd
    obtain ⟨r, hr, hdvd⟩ := hdvd
    rw [(Nat.prime_dvd_prime_iff_eq hq (hprime r hr)).mp hdvd]
    exact hne r hr

/-! ## certificates -/

/-- An element and the prime factors of `p - 1`, with the bits that exponents have. -/
structure Certificate where
  p : Nat
  generator : Nat
  fuel : Nat
  factors : List Nat

/-- What evaluation checks of a certificate; the factors are left to certificates of their own. -/
def Certificate.Valid (c : Certificate) : Prop :=
  1 < c.p ∧ c.p < 2 ^ c.fuel ∧ c.factors.prod = c.p - 1 ∧
    powMod c.p c.generator c.fuel (c.p - 1) = 1 ∧
    ∀ q ∈ c.factors, powMod c.p c.generator c.fuel ((c.p - 1) / q) ≠ 1

instance (c : Certificate) : Decidable c.Valid :=
  inferInstanceAs (Decidable (_ ∧ _ ∧ _ ∧ _ ∧ _))

theorem Certificate.Valid.prime {c : Certificate} (h : c.Valid) (hprime : ∀ q ∈ c.factors, q.Prime) :
    c.p.Prime := by
  obtain ⟨hp, hfuel, hprod, hone, hne⟩ := h
  exact prime_of_factors c.generator c.fuel c.factors hp hfuel hprime hprod hone hne

end PowMod
