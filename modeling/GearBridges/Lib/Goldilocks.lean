import Mathlib.Data.ZMod.Basic

/-!
# Lib.Goldilocks

The Goldilocks field and the range checks circuits over it are built from.  A range
check of a difference compares two small numbers (`rangeCheck_sub`): a negative
difference wraps around to the top of the field.
-/

namespace Goldilocks

/-- `2 ^ 64 - 2 ^ 32 + 1`. -/
def modulus : Nat := 18446744069414584321

abbrev F := ZMod modulus

instance : NeZero modulus := ⟨by decide⟩

/-- The literal `2` of the field needs it; as a constant, no definition carries a proof of
its own. -/
instance atLeastTwo_two : Nat.AtLeastTwo 2 := ⟨Nat.le_refl 2⟩

/-- The value has a representation of so many bits. -/
def rangeCheck (x : F) (bits : Nat) : Prop := x.val < 2 ^ bits

instance (x : F) (bits : Nat) : Decidable (rangeCheck x bits) :=
  inferInstanceAs (Decidable (_ < _))

theorem val_natCast {n : Nat} (h : n < modulus) : (n : F).val = n := ZMod.val_cast_of_lt h

theorem natCast_inj {a b : Nat} (ha : a < modulus) (hb : b < modulus) :
    (a : F) = (b : F) ↔ a = b := by
  constructor
  · intro h
    have := congrArg ZMod.val h
    rwa [val_natCast ha, val_natCast hb] at this
  · intro h
    rw [h]

theorem rangeCheck_natCast {n bits : Nat} (h : n < modulus) :
    rangeCheck (n : F) bits ↔ n < 2 ^ bits := by
  unfold rangeCheck
  rw [val_natCast h]

/-- A difference is in range when it is not negative, also for numbers that do not pass the
check themselves. -/
theorem rangeCheck_sub_of_lt {a b : Nat} (ha : a < 2 ^ 32) (hb : b < 2 ^ 63) :
    rangeCheck ((a : F) - (b : F)) 32 ↔ b ≤ a := by
  by_cases h : b ≤ a
  · rw [← Nat.cast_sub h, rangeCheck_natCast (by unfold modulus; omega)]
    exact ⟨fun _ => h, fun _ => by omega⟩
  · have hwrap : (a : F) - (b : F) = ((modulus - (b - a) : Nat) : F) := by
      rw [Nat.cast_sub (by unfold modulus; omega), Nat.cast_sub (by omega), ZMod.natCast_self,
        zero_sub, neg_sub]
    rw [hwrap, rangeCheck_natCast (by unfold modulus; omega)]
    unfold modulus
    omega

/-- A difference of small numbers is in range when it is not negative. -/
theorem rangeCheck_sub {a b : Nat} (ha : a < 2 ^ 32) (hb : b < 2 ^ 32) :
    rangeCheck ((a : F) - (b : F)) 32 ↔ b ≤ a :=
  rangeCheck_sub_of_lt ha (Nat.lt_trans hb (by decide))

/-- A factor prime to the modulus cancels. -/
theorem natCast_mul_cancel {k : Nat} (hk : Nat.Coprime k modulus) {x y : F}
    (h : (k : F) * x = (k : F) * y) : x = y :=
  ((ZMod.isUnit_iff_coprime k modulus).mpr hk).mul_left_cancel h

end Goldilocks
