import Mathlib.Algebra.Field.Basic
import Mathlib.Algebra.Group.Even
import Mathlib.Tactic.FieldSimp
import Mathlib.Tactic.LinearCombination
import Mathlib.Tactic.Ring

/-!
# Lib.Edwards

The group of a complete twisted Edwards curve `a x² + y² = 1 + d x² y²`, where `a` is a
square and `d` is not.  The addition law has no exceptions there, because its denominators do
not vanish (`product_ne`), and its points are a commutative group.

The addition law is stated with quotients; whoever computes it another way has a sum at hand by
`eq_add_of_mul`.
-/

namespace Edwards

/-- The coefficients of a complete curve. -/
structure Curve (K : Type) [Field K] where
  a : K
  d : K
  two_ne_zero : (2 : K) ≠ 0
  isSquare_a : IsSquare a
  not_isSquare_d : ¬ IsSquare d

variable {K : Type} [Field K]

/-- The equation of the curve. -/
def Curve.Contains (C : Curve K) (x y : K) : Prop :=
  C.a * x ^ 2 + y ^ 2 = 1 + C.d * x ^ 2 * y ^ 2

/-- The points of the curve. -/
@[ext]
structure Point (C : Curve K) where
  x : K
  y : K
  on_curve : C.Contains x y

variable {C : Curve K}

/-- What the denominators of a sum differ from one by. -/
def product (P Q : Point C) : K := C.d * P.x * Q.x * P.y * Q.y

theorem product_comm (P Q : Point C) : product P Q = product Q P := by
  rw [product, product]
  ring

/-! ## the denominators -/

/-- The square that the nonsquare `d` would be the quotient of. -/
theorem square_of_product {P Q : Point C} {root e : K} (hroot : C.a = root * root)
    (he : e * e = 1) (h : product P Q = e) :
    C.d * (P.x * P.y * (root * Q.x + Q.y)) ^ 2 = (root * P.x + e * P.y) ^ 2 := by
  have hP := P.on_curve
  have hQ := Q.on_curve
  rw [Curve.Contains, hroot] at hP hQ
  rw [product] at h
  linear_combination
    C.d * P.x ^ 2 * P.y ^ 2 * hQ - hP + (C.d * P.x * Q.x * P.y * Q.y + e + 2 * root * P.x * P.y) * h
      + (1 - P.y ^ 2) * he

theorem mul_square_ne {u v : K} (hu : u ≠ 0) : C.d * u ^ 2 ≠ v ^ 2 := by
  intro h
  refine C.not_isSquare_d ⟨v / u, ?_⟩
  field_simp
  linear_combination h

/-- A denominator of the addition law vanishes for no two points. -/
theorem product_ne (P Q : Point C) {e : K} (he : e * e = 1) : product P Q ≠ e := by
  intro h
  obtain ⟨root, hroot⟩ := C.isSquare_a
  have hne : C.d * P.x * Q.x * P.y * Q.y ≠ 0 := by
    rw [← product, h]
    rintro rfl
    rw [mul_zero] at he
    exact zero_ne_one he
  have hPx : P.x ≠ 0 := fun h0 => hne (by rw [h0]; ring)
  have hPy : P.y ≠ 0 := fun h0 => hne (by rw [h0]; ring)
  have hQy : Q.y ≠ 0 := fun h0 => hne (by rw [h0]; ring)
  -- a root of `a` of either sign gives such a square, and one of the two is not of zero
  have hroots : ∀ r : K, C.a = r * r → r * Q.x + Q.y = 0 := by
    intro r hr
    by_contra hsum
    exact mul_square_ne (mul_ne_zero (mul_ne_zero hPx hPy) hsum) (square_of_product hr he h)
  have hpos := hroots root hroot
  have hneg := hroots (-root) (by rw [hroot]; ring)
  refine hQy ((mul_eq_zero.mp ?_).resolve_left C.two_ne_zero)
  linear_combination hpos + hneg

theorem one_add_product_ne_zero (P Q : Point C) : 1 + product P Q ≠ 0 := by
  intro h
  exact product_ne P Q (e := -1) (by ring) (by linear_combination h)

theorem one_sub_product_ne_zero (P Q : Point C) : 1 - product P Q ≠ 0 := by
  intro h
  exact product_ne P Q (e := 1) (by ring) (by linear_combination -h)

/-! ## the addition law -/

/-- The numerators of a sum. -/
def xNom (P Q : Point C) : K := P.x * Q.y + P.y * Q.x

def yNom (P Q : Point C) : K := P.y * Q.y - C.a * (P.x * Q.x)

/-- The curve has the sums, with the denominators multiplied out. -/
theorem sum_on_curve (P Q : Point C) :
    C.a * (xNom P Q * (1 - product P Q)) ^ 2 + (yNom P Q * (1 + product P Q)) ^ 2 =
      ((1 + product P Q) * (1 - product P Q)) ^ 2 + C.d * (xNom P Q) ^ 2 * (yNom P Q) ^ 2 := by
  obtain ⟨x1, y1, hP⟩ := P
  obtain ⟨x2, y2, hQ⟩ := Q
  obtain ⟨a, d, _, _, _⟩ := C
  simp only [Curve.Contains] at hP hQ
  simp only [xNom, yNom, product]
  linear_combination
    (a ^ 2 * d * x1 ^ 2 * y1 ^ 2 * x2 ^ 4 + 2 * a ^ 2 * x1 ^ 2 * y1 ^ 2 * x2 ^ 2
      - a ^ 2 * x1 ^ 2 * x2 ^ 2 - 2 * a * d * x1 ^ 2 * y1 ^ 2 * x2 ^ 2
      + 2 * a * x1 ^ 2 * y1 ^ 2 * y2 ^ 2 - 2 * a * x1 ^ 2 * y1 ^ 2 - a * x1 ^ 2 * y2 ^ 2
      + a * x1 ^ 2 - a * y1 ^ 2 * x2 ^ 2 + d * x1 ^ 2 * y1 ^ 2 * y2 ^ 4
      - 2 * d * x1 ^ 2 * y1 ^ 2 * y2 ^ 2 + d * x1 ^ 2 * y1 ^ 2 - y1 ^ 2 * y2 ^ 2 + y1 ^ 2 + 1) * hP
    + (-a ^ 2 * d * x1 ^ 4 * y1 ^ 2 * x2 ^ 2 - 2 * a ^ 2 * x1 ^ 4 * y1 ^ 2 + a ^ 2 * x1 ^ 4
      + a * d ^ 2 * x1 ^ 4 * y1 ^ 4 * x2 ^ 2 + 2 * a * d * x1 ^ 4 * y1 ^ 4
      - a * d * x1 ^ 4 * y1 ^ 2 * y2 ^ 2 - a * d * x1 ^ 2 * y1 ^ 4 * x2 ^ 2
      - 2 * a * x1 ^ 2 * y1 ^ 4 + 4 * a * x1 ^ 2 * y1 ^ 2
      + d ^ 3 * x1 ^ 4 * y1 ^ 4 * x2 ^ 2 * y2 ^ 2 + d ^ 2 * x1 ^ 4 * y1 ^ 4 * y2 ^ 2
      - d ^ 2 * x1 ^ 4 * y1 ^ 4 - d * x1 ^ 2 * y1 ^ 4 * y2 ^ 2 - 2 * d * x1 ^ 2 * y1 ^ 2
      + y1 ^ 4) * hQ

theorem contains_sum (P Q : Point C) :
    C.Contains (xNom P Q / (1 + product P Q)) (yNom P Q / (1 - product P Q)) := by
  have hadd := one_add_product_ne_zero P Q
  have hsub := one_sub_product_ne_zero P Q
  rw [Curve.Contains]
  field_simp
  linear_combination sum_on_curve P Q

def Point.add (P Q : Point C) : Point C where
  x := xNom P Q / (1 + product P Q)
  y := yNom P Q / (1 - product P Q)
  on_curve := contains_sum P Q

theorem contains_zero : C.Contains 0 1 := by
  rw [Curve.Contains]
  ring

theorem contains_neg (P : Point C) : C.Contains (-P.x) P.y := by
  have h := P.on_curve
  rw [Curve.Contains] at h ⊢
  linear_combination h

instance : Zero (Point C) := ⟨⟨0, 1, contains_zero⟩⟩

instance : Neg (Point C) := ⟨fun P => ⟨-P.x, P.y, contains_neg P⟩⟩

instance : Add (Point C) := ⟨Point.add⟩

@[simp] theorem zero_x : (0 : Point C).x = 0 := rfl

@[simp] theorem zero_y : (0 : Point C).y = 1 := rfl

@[simp] theorem neg_x (P : Point C) : (-P).x = -P.x := rfl

@[simp] theorem neg_y (P : Point C) : (-P).y = P.y := rfl

theorem add_x (P Q : Point C) : (P + Q).x = xNom P Q / (1 + product P Q) := rfl

theorem add_y (P Q : Point C) : (P + Q).y = yNom P Q / (1 - product P Q) := rfl

theorem add_x_mul (P Q : Point C) : (P + Q).x * (1 + product P Q) = xNom P Q := by
  rw [add_x, div_mul_cancel₀ _ (one_add_product_ne_zero P Q)]

theorem add_y_mul (P Q : Point C) : (P + Q).y * (1 - product P Q) = yNom P Q := by
  rw [add_y, div_mul_cancel₀ _ (one_sub_product_ne_zero P Q)]

/-- Coordinates that solve the addition law are those of the sum. -/
theorem eq_add_of_mul {P Q : Point C} {x y : K} (hx : x * (1 + product P Q) = xNom P Q)
    (hy : y * (1 - product P Q) = yNom P Q) : x = (P + Q).x ∧ y = (P + Q).y := by
  rw [add_x, add_y, eq_div_iff (one_add_product_ne_zero P Q), eq_div_iff (one_sub_product_ne_zero P Q)]
  exact ⟨hx, hy⟩

/-! ## the group -/

theorem add_comm' (P Q : Point C) : P + Q = Q + P := by
  ext
  · rw [add_x, add_x, product_comm, xNom, xNom]
    ring
  · rw [add_y, add_y, product_comm, yNom, yNom]
    ring

theorem zero_add' (P : Point C) : 0 + P = P := by
  ext
  · simp [add_x, xNom, product]
  · simp [add_y, yNom, product]

theorem neg_add_cancel' (P : Point C) : -P + P = 0 := by
  have h := P.on_curve
  rw [Curve.Contains] at h
  obtain ⟨hx, hy⟩ := eq_add_of_mul (P := -P) (Q := P) (x := 0) (y := 1)
    (by simp only [xNom, neg_x, neg_y]; ring)
    (by simp only [yNom, product, neg_x, neg_y]; linear_combination -h)
  ext
  · exact hx.symm
  · exact hy.symm

/-- Associativity with the denominators multiplied out. -/
theorem assoc_x (P Q R : Point C) :
    (xNom P Q * (1 - product P Q) * R.y + yNom P Q * (1 + product P Q) * R.x) *
      ((1 + product Q R) * (1 - product Q R) + C.d * P.x * P.y * xNom Q R * yNom Q R) =
    (P.x * (yNom Q R * (1 + product Q R)) + P.y * (xNom Q R * (1 - product Q R))) *
      ((1 + product P Q) * (1 - product P Q) + C.d * R.x * R.y * xNom P Q * yNom P Q) := by
  obtain ⟨x1, y1, hP⟩ := P
  obtain ⟨x2, y2, hQ⟩ := Q
  obtain ⟨x3, y3, hR⟩ := R
  obtain ⟨a, d, _, _, _⟩ := C
  simp only [Curve.Contains] at hP hQ hR
  simp only [xNom, yNom, product]
  linear_combination
    (d * x2 * y2 * (-a ^ 2 * x1 * x2 ^ 3 * x3 ^ 2 * y3 - a ^ 2 * x1 * x2 ^ 2 * y2 * x3 ^ 3
      + a * d * x1 * x2 ^ 3 * y2 ^ 2 * x3 ^ 2 * y3 + a * x1 * x2 ^ 2 * y2 * x3
      - a * y1 * x2 ^ 3 * x3 * y3 ^ 2 + a * y1 * x2 * y2 ^ 2 * x3 ^ 3
      - d * x1 * x2 ^ 2 * y2 ^ 3 * x3 * y3 ^ 2 + d * y1 * x2 ^ 3 * y2 ^ 2 * x3 * y3 ^ 2
      + d * y1 * x2 ^ 2 * y2 ^ 3 * x3 ^ 2 * y3 + x1 * x2 * y2 ^ 2 * y3 ^ 3 - x1 * x2 * y2 ^ 2 * y3
      + x1 * y2 ^ 3 * x3 * y3 ^ 2 + y1 * x2 ^ 2 * y2 * y3 ^ 3 - y1 * x2 ^ 2 * y2 * y3
      - y1 * x2 * y2 ^ 2 * x3 - y1 * y2 ^ 3 * x3 ^ 2 * y3)) * hP
    + (d * x2 * y2 * (a ^ 2 * x1 ^ 3 * x2 * x3 ^ 2 * y3 - a ^ 2 * x1 ^ 2 * y1 * x2 * x3 ^ 3
      - a * x1 ^ 3 * y2 * x3 * y3 ^ 2 + a * x1 ^ 2 * y1 * x2 * x3 + a * x1 * y1 ^ 2 * y2 * x3 ^ 3
      - a * x1 * x2 * x3 ^ 2 * y3 - x1 ^ 2 * y1 * y2 * y3 ^ 3 + x1 ^ 2 * y1 * y2 * y3
      - x1 * y1 ^ 2 * x2 * y3 ^ 3 + x1 * y1 ^ 2 * x2 * y3 - x1 * y1 ^ 2 * y2 * x3
      + x1 * y2 * x3 * y3 ^ 2 + y1 ^ 3 * x2 * x3 * y3 ^ 2 + y1 ^ 3 * y2 * x3 ^ 2 * y3
      - y1 * x2 * x3 * y3 ^ 2 - y1 * y2 * x3 ^ 2 * y3)) * hQ
    + (d * x2 * y2 * (a ^ 2 * x1 ^ 3 * x2 ^ 2 * y2 * x3 + a ^ 2 * x1 ^ 2 * y1 * x2 ^ 3 * x3
      - a * d * x1 ^ 2 * y1 * x2 ^ 3 * y2 ^ 2 * x3 - a * x1 ^ 3 * x2 * y2 ^ 2 * y3
      + a * x1 * y1 ^ 2 * x2 ^ 3 * y3 - a * x1 * x2 ^ 2 * y2 * x3
      - d * x1 ^ 2 * y1 * x2 ^ 2 * y2 ^ 3 * y3 - d * x1 * y1 ^ 2 * x2 ^ 3 * y2 ^ 2 * y3
      + d * x1 * y1 ^ 2 * x2 ^ 2 * y2 ^ 3 * x3 + x1 ^ 2 * y1 * y2 ^ 3 * y3
      - x1 * y1 ^ 2 * y2 ^ 3 * x3 + x1 * x2 * y2 ^ 2 * y3 - y1 ^ 3 * x2 ^ 2 * y2 * y3
      - y1 ^ 3 * x2 * y2 ^ 2 * x3 + y1 * x2 ^ 2 * y2 * y3 + y1 * x2 * y2 ^ 2 * x3)) * hR

theorem assoc_y (P Q R : Point C) :
    (yNom P Q * (1 + product P Q) * R.y - C.a * (xNom P Q * (1 - product P Q) * R.x)) *
      ((1 + product Q R) * (1 - product Q R) - C.d * P.x * P.y * xNom Q R * yNom Q R) =
    (P.y * (yNom Q R * (1 + product Q R)) - C.a * (P.x * (xNom Q R * (1 - product Q R)))) *
      ((1 + product P Q) * (1 - product P Q) - C.d * R.x * R.y * xNom P Q * yNom P Q) := by
  obtain ⟨x1, y1, hP⟩ := P
  obtain ⟨x2, y2, hQ⟩ := Q
  obtain ⟨x3, y3, hR⟩ := R
  obtain ⟨a, d, _, _, _⟩ := C
  simp only [Curve.Contains] at hP hQ hR
  simp only [xNom, yNom, product]
  linear_combination
    (d * x2 * y2 * (a ^ 2 * x1 * x2 ^ 3 * x3 * y3 ^ 2 - a ^ 2 * x1 * x2 * y2 ^ 2 * x3 ^ 3
      - a ^ 2 * y1 * x2 ^ 3 * x3 ^ 2 * y3 - a ^ 2 * y1 * x2 ^ 2 * y2 * x3 ^ 3
      - a * d * x1 * x2 ^ 3 * y2 ^ 2 * x3 * y3 ^ 2 - a * d * x1 * x2 ^ 2 * y2 ^ 3 * x3 ^ 2 * y3
      + a * d * y1 * x2 ^ 3 * y2 ^ 2 * x3 ^ 2 * y3 - a * x1 * x2 ^ 2 * y2 * y3 ^ 3
      + a * x1 * x2 ^ 2 * y2 * y3 + a * x1 * x2 * y2 ^ 2 * x3 + a * x1 * y2 ^ 3 * x3 ^ 2 * y3
      + a * y1 * x2 ^ 2 * y2 * x3 - d * y1 * x2 ^ 2 * y2 ^ 3 * x3 * y3 ^ 2
      + y1 * x2 * y2 ^ 2 * y3 ^ 3 - y1 * x2 * y2 ^ 2 * y3 + y1 * y2 ^ 3 * x3 * y3 ^ 2)) * hP
    + (d * x2 * y2 * (-a ^ 2 * x1 ^ 3 * x2 * x3 * y3 ^ 2 - a ^ 2 * x1 ^ 3 * y2 * x3 ^ 2 * y3
      + a ^ 2 * x1 ^ 2 * y1 * y2 * x3 ^ 3 + a ^ 2 * x1 * y1 ^ 2 * x2 * x3 ^ 3
      - a * x1 ^ 2 * y1 * x2 * y3 ^ 3 + a * x1 ^ 2 * y1 * x2 * y3 - a * x1 ^ 2 * y1 * y2 * x3
      - a * x1 * y1 ^ 2 * x2 * x3 + a * x1 * x2 * x3 * y3 ^ 2 + a * x1 * y2 * x3 ^ 2 * y3
      + a * y1 ^ 3 * x2 * x3 ^ 2 * y3 - a * y1 * x2 * x3 ^ 2 * y3 + x1 * y1 ^ 2 * y2 * y3 ^ 3
      - x1 * y1 ^ 2 * y2 * y3 - y1 ^ 3 * y2 * x3 * y3 ^ 2 + y1 * y2 * x3 * y3 ^ 2)) * hQ
    + (d * x2 * y2 * (a ^ 2 * x1 ^ 3 * x2 ^ 2 * y2 * y3 + a ^ 2 * x1 ^ 3 * x2 * y2 ^ 2 * x3
      + a ^ 2 * x1 ^ 2 * y1 * x2 ^ 3 * y3 - a ^ 2 * x1 * y1 ^ 2 * x2 ^ 3 * x3
      - a * d * x1 ^ 2 * y1 * x2 ^ 3 * y2 ^ 2 * y3 + a * d * x1 ^ 2 * y1 * x2 ^ 2 * y2 ^ 3 * x3
      + a * d * x1 * y1 ^ 2 * x2 ^ 3 * y2 ^ 2 * x3 - a * x1 ^ 2 * y1 * y2 ^ 3 * x3
      - a * x1 * x2 ^ 2 * y2 * y3 - a * x1 * x2 * y2 ^ 2 * x3 + a * y1 ^ 3 * x2 ^ 2 * y2 * x3
      - a * y1 * x2 ^ 2 * y2 * x3 + d * x1 * y1 ^ 2 * x2 ^ 2 * y2 ^ 3 * y3
      - x1 * y1 ^ 2 * y2 ^ 3 * y3 - y1 ^ 3 * x2 * y2 ^ 2 * y3 + y1 * x2 * y2 ^ 2 * y3)) * hR

section
variable (P Q R : Point C)

theorem denominators_ne_zero :
    (1 + product P Q) * (1 - product P Q) * ((1 + product Q R) * (1 - product Q R)) ≠ 0 :=
  mul_ne_zero (mul_ne_zero (one_add_product_ne_zero P Q) (one_sub_product_ne_zero P Q))
    (mul_ne_zero (one_add_product_ne_zero Q R) (one_sub_product_ne_zero Q R))

theorem add_assoc_x : (P + Q + R).x = (P + (Q + R)).x := by
  rw [add_x (P + Q), add_x P (Q + R), div_eq_div_iff (one_add_product_ne_zero _ _)
    (one_add_product_ne_zero _ _)]
  apply mul_left_cancel₀ (denominators_ne_zero P Q R)
  calc
    _ = ((P + Q).x * (1 + product P Q) * (1 - product P Q) * R.y +
          (P + Q).y * (1 - product P Q) * (1 + product P Q) * R.x) *
        ((1 + product Q R) * (1 - product Q R) + C.d * P.x * P.y *
          ((Q + R).x * (1 + product Q R)) * ((Q + R).y * (1 - product Q R))) := by
      rw [xNom, product.eq_def P (Q + R)]
      ring
    _ = _ := by rw [add_x_mul, add_y_mul, add_x_mul, add_y_mul, assoc_x]
    _ = (P.x * ((Q + R).y * (1 - product Q R) * (1 + product Q R)) +
          P.y * ((Q + R).x * (1 + product Q R) * (1 - product Q R))) *
        ((1 + product P Q) * (1 - product P Q) + C.d * R.x * R.y *
          ((P + Q).x * (1 + product P Q)) * ((P + Q).y * (1 - product P Q))) := by
      rw [add_x_mul, add_y_mul, add_x_mul, add_y_mul]
    _ = _ := by
      rw [xNom, product.eq_def (P + Q) R]
      ring

theorem add_assoc_y : (P + Q + R).y = (P + (Q + R)).y := by
  rw [add_y (P + Q), add_y P (Q + R), div_eq_div_iff (one_sub_product_ne_zero _ _)
    (one_sub_product_ne_zero _ _)]
  apply mul_left_cancel₀ (denominators_ne_zero P Q R)
  calc
    _ = ((P + Q).y * (1 - product P Q) * (1 + product P Q) * R.y -
          C.a * ((P + Q).x * (1 + product P Q) * (1 - product P Q) * R.x)) *
        ((1 + product Q R) * (1 - product Q R) - C.d * P.x * P.y *
          ((Q + R).x * (1 + product Q R)) * ((Q + R).y * (1 - product Q R))) := by
      rw [yNom, product.eq_def P (Q + R)]
      ring
    _ = _ := by rw [add_x_mul, add_y_mul, add_x_mul, add_y_mul, assoc_y]
    _ = (P.y * ((Q + R).y * (1 - product Q R) * (1 + product Q R)) -
          C.a * (P.x * ((Q + R).x * (1 + product Q R) * (1 - product Q R)))) *
        ((1 + product P Q) * (1 - product P Q) - C.d * R.x * R.y *
          ((P + Q).x * (1 + product P Q)) * ((P + Q).y * (1 - product P Q))) := by
      rw [add_x_mul, add_y_mul, add_x_mul, add_y_mul]
    _ = _ := by
      rw [yNom, product.eq_def (P + Q) R]
      ring

end

instance : AddCommGroup (Point C) where
  add_assoc P Q R := Point.ext (add_assoc_x P Q R) (add_assoc_y P Q R)
  zero_add := zero_add'
  add_zero P := by rw [add_comm', zero_add']
  add_comm := add_comm'
  neg_add_cancel := neg_add_cancel'
  nsmul := nsmulRec
  zsmul := zsmulRec

end Edwards
