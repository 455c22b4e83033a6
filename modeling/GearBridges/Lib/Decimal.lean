import Mathlib.Algebra.Order.Ring.Nat
import Mathlib.Tactic.Ring

/-!
# Lib.Decimal

Numbers written in decimal, without leading zeros.  Two numbers written one behind the other can
be read in more than one way: digits at the end of the first number may as well begin the second
(`append_eq_append_iff`).
-/

namespace Decimal

def decimal (n : Nat) : List Char := Nat.toDigits 10 n

theorem value_decimal (n : Nat) : Nat.ofDigitChars 10 (decimal n) 0 = n :=
  Nat.ofDigitChars_ten_toDigits

theorem decimal_injective : Function.Injective decimal := by
  intro n m h
  rw [← value_decimal n, h, value_decimal]

@[simp] theorem decimal_inj {n m : Nat} : decimal n = decimal m ↔ n = m := decimal_injective.eq_iff

theorem length_decimal_pos (n : Nat) : 0 < (decimal n).length := Nat.length_toDigits_pos

theorem decimal_ne_nil (n : Nat) : decimal n ≠ [] := Nat.toDigits_ne_nil

theorem length_decimal_le_iff {n k : Nat} (hk : 0 < k) : (decimal n).length ≤ k ↔ n < 10 ^ k :=
  Nat.length_toDigits_le_iff (by decide) hk

theorem lt_pow_length (n : Nat) : n < 10 ^ (decimal n).length :=
  (length_decimal_le_iff (length_decimal_pos n)).mp (Nat.le_refl _)

theorem isDigit_of_mem {n : Nat} {c : Char} (h : c ∈ decimal n) : c.isDigit :=
  Nat.isDigit_of_mem_toDigits (by decide) (by decide) h

/-- One more digit. -/
theorem decimal_append_digit {n d : Nat} (hn : 0 < n) (hd : d < 10) :
    decimal n ++ decimal d = decimal (10 * n + d) :=
  Nat.toDigits_append_toDigits (by decide) hn hd

theorem decimal_of_le {n : Nat} (h : 10 ≤ n) :
    decimal n = decimal (n / 10) ++ decimal (n % 10) := by
  rw [decimal_append_digit (Nat.div_pos h (by decide)) (Nat.mod_lt _ (by decide)), Nat.div_add_mod]

/-- A positive number with another one behind it is a number again. -/
theorem decimal_append {n : Nat} (hn : 0 < n) (m : Nat) :
    decimal n ++ decimal m = decimal (n * 10 ^ (decimal m).length + m) := by
  induction m using Nat.strong_induction_on generalizing n with
  | _ m ih =>
      by_cases hm : m < 10
      · have hlength : (decimal m).length = 1 :=
          Nat.le_antisymm ((length_decimal_le_iff (by decide)).mpr hm) (length_decimal_pos m)
        rw [decimal_append_digit hn hm, hlength, pow_one, Nat.mul_comm]
      · have hdigit : m % 10 < 10 := Nat.mod_lt _ (by decide)
        have hlast : (decimal (m % 10)).length = 1 :=
          Nat.le_antisymm ((length_decimal_le_iff (by decide)).mpr hdigit) (length_decimal_pos _)
        have hlength : (decimal m).length = (decimal (m / 10)).length + 1 := by
          rw [decimal_of_le (by omega), List.length_append, hlast]
        have hpos : 0 < n * 10 ^ (decimal (m / 10)).length + m / 10 :=
          Nat.add_pos_left (Nat.mul_pos hn (Nat.pow_pos (by decide))) _
        have hsplit : decimal m = decimal (m / 10) ++ decimal (m % 10) := decimal_of_le (by omega)
        rw [hlength, hsplit, ← List.append_assoc, ih _ (by omega) hn,
          decimal_append_digit hpos hdigit, decimal_inj, pow_succ]
        have hm := Nat.div_add_mod m 10
        calc 10 * (n * 10 ^ (decimal (m / 10)).length + m / 10) + m % 10
            = n * (10 ^ (decimal (m / 10)).length * 10) + (10 * (m / 10) + m % 10) := by ring
          _ = n * (10 ^ (decimal (m / 10)).length * 10) + m := by rw [hm]

/-- What two numbers write, one behind the other. -/
theorem value_append (n m : Nat) :
    Nat.ofDigitChars 10 (decimal n ++ decimal m) 0 = n * 10 ^ (decimal m).length + m := by
  rw [Nat.ofDigitChars_append, Nat.ofDigitChars_eq_ofDigitChars_zero, value_decimal, value_decimal,
    Nat.mul_comm]

/-- The longer number `j` is the shorter one behind some digits, with which `a` goes on after
`b`. -/
structure Moved (a i b j : Nat) : Prop where
  pos : 0 < b
  shorter : (decimal i).length < (decimal j).length
  last : i = j % 10 ^ (decimal i).length
  first : a = b * 10 ^ ((decimal j).length - (decimal i).length) + j / 10 ^ (decimal i).length

theorem Moved.append_eq {a i b j : Nat} (h : Moved a i b j) :
    decimal a ++ decimal i = decimal b ++ decimal j := by
  obtain ⟨hpos, hshorter, hlast, hfirst⟩ := h
  have ha : 0 < a := by
    rw [hfirst]
    exact Nat.add_pos_left (Nat.mul_pos hpos (Nat.pow_pos (by decide))) _
  have hpow : 10 ^ ((decimal j).length - (decimal i).length) * 10 ^ (decimal i).length =
      10 ^ (decimal j).length := by
    rw [← pow_add, Nat.sub_add_cancel (Nat.le_of_lt hshorter)]
  have hj := Nat.div_add_mod j (10 ^ (decimal i).length)
  rw [← hlast] at hj
  rw [decimal_append ha, decimal_append hpos, decimal_inj]
  calc a * 10 ^ (decimal i).length + i
      = b * (10 ^ ((decimal j).length - (decimal i).length) * 10 ^ (decimal i).length) +
          (10 ^ (decimal i).length * (j / 10 ^ (decimal i).length) + i) := by rw [hfirst]; ring
    _ = b * 10 ^ (decimal j).length + j := by rw [hpow, hj]

theorem moved_of_append_eq {a i b j : Nat} (hshorter : (decimal i).length < (decimal j).length)
    (h : decimal a ++ decimal i = decimal b ++ decimal j) : Moved a i b j := by
  have hvalue := congrArg (Nat.ofDigitChars 10 · 0) h
  simp only [value_append] at hvalue
  have hlength := congrArg List.length h
  simp only [List.length_append] at hlength
  have hi := lt_pow_length i
  have hpow : 10 ^ (decimal j).length =
      10 ^ ((decimal j).length - (decimal i).length) * 10 ^ (decimal i).length := by
    rw [← pow_add, Nat.sub_add_cancel (Nat.le_of_lt hshorter)]
  rw [hpow, ← Nat.mul_assoc] at hvalue
  have hfirst : a = b * 10 ^ ((decimal j).length - (decimal i).length) +
      j / 10 ^ (decimal i).length := by
    have hdiv := congrArg (· / 10 ^ (decimal i).length) hvalue
    simpa [Nat.add_comm, Nat.add_mul_div_right, Nat.div_eq_of_lt hi] using hdiv
  have hlast : i = j % 10 ^ (decimal i).length := by
    have hmod := congrArg (· % 10 ^ (decimal i).length) hvalue
    simpa [Nat.add_comm, Nat.mod_eq_of_lt hi] using hmod
  refine ⟨Nat.pos_of_ne_zero ?_, hshorter, hlast, hfirst⟩
  -- behind a zero the digits of `a` would be too few
  rintro rfl
  have hzero : (decimal 0).length = 1 := rfl
  have hsmall : a < 10 ^ ((decimal j).length - (decimal i).length) := by
    rw [hfirst, Nat.zero_mul, Nat.zero_add]
    exact Nat.div_lt_of_lt_mul (by rw [Nat.mul_comm, ← hpow]; exact lt_pow_length j)
  have hle := (length_decimal_le_iff (by omega)).mpr hsmall
  omega

/-- **Reading two numbers**: two pairs are written the same only if they are the same, or if one
comes from the other by moving digits between its numbers. -/
theorem append_eq_append_iff {a i b j : Nat} :
    decimal a ++ decimal i = decimal b ++ decimal j ↔
      (a = b ∧ i = j) ∨ Moved a i b j ∨ Moved b j a i := by
  constructor
  · intro h
    rcases Nat.lt_trichotomy (decimal i).length (decimal j).length with hlt | heq | hgt
    · exact .inr (.inl (moved_of_append_eq hlt h))
    · obtain ⟨hfirst, hlast⟩ := List.append_inj' h heq
      exact .inl ⟨decimal_injective hfirst, decimal_injective hlast⟩
    · exact .inr (.inr (moved_of_append_eq hgt h.symm))
  · rintro (⟨rfl, rfl⟩ | h | h)
    · rfl
    · exact h.append_eq
    · exact h.append_eq.symm

end Decimal
