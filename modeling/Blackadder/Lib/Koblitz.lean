import Mathlib.AlgebraicGeometry.EllipticCurve.Affine.Point
import Mathlib.FieldTheory.Finite.Basic
import Mathlib.Tactic.LinearCombination
import Mathlib.Tactic.FieldSimp

/-!
# The curve `y² + xy = x³ + x² + 1`

Over a field of characteristic two. Squaring the coordinates is a map `τ` of the curve with
`τ² + 2 = τ`, and that counts the points over every extension where it returns to the identity.
-/

open WeierstrassCurve

namespace Koblitz

/-- `y² + xy = x³ + x² + 1`. -/
def curve : Affine (ZMod 2) := ⟨1, 1, 0, 0, 1⟩

instance : curve.IsElliptic := ⟨by
  have hunit : curve.Δ = 1 := by decide
  rw [hunit]
  exact isUnit_one⟩

variable {F : Type*} [Field F] [Algebra (ZMod 2) F] {x y x₁ y₁ x₂ y₂ l : F}

theorem two_zero : (2 : F) = 0 := by
  have h : algebraMap (ZMod 2) F 2 = 0 := by
    rw [show (2 : ZMod 2) = 0 by decide, map_zero]
  rwa [map_ofNat] at h

instance : (curve.baseChange F).IsElliptic :=
  inferInstanceAs (WeierstrassCurve.map curve (algebraMap (ZMod 2) F)).IsElliptic

theorem coefs : (curve.baseChange F).a₁ = 1 ∧ (curve.baseChange F).a₂ = 1 ∧
    (curve.baseChange F).a₃ = 0 ∧ (curve.baseChange F).a₄ = 0 ∧ (curve.baseChange F).a₆ = 1 := by
  simp [curve]

theorem equation_iff :
    (curve.baseChange F).Equation x y ↔ y ^ 2 + x * y = x ^ 3 + x ^ 2 + 1 := by
  obtain ⟨h₁, h₂, h₃, h₄, h₆⟩ := coefs (F := F)
  rw [Affine.equation_iff, h₁, h₂, h₃, h₄, h₆]
  simp

theorem nonsingular_iff :
    (curve.baseChange F).Nonsingular x y ↔ y ^ 2 + x * y = x ^ 3 + x ^ 2 + 1 := by
  rw [← Affine.equation_iff_nonsingular, equation_iff]

theorem negY_eq : (curve.baseChange F).negY x y = x + y := by
  obtain ⟨h₁, _, h₃, _, _⟩ := coefs (F := F)
  rw [Affine.negY, h₁, h₃]
  linear_combination (-(x + y)) * two_zero (F := F)

theorem addX_eq : (curve.baseChange F).addX x₁ x₂ l = l ^ 2 + l + 1 + x₁ + x₂ := by
  obtain ⟨h₁, h₂, _, _, _⟩ := coefs (F := F)
  rw [Affine.addX, h₁, h₂]
  linear_combination (-(1 + x₁ + x₂)) * two_zero (F := F)

theorem addY_eq : (curve.baseChange F).addY x₁ x₂ y₁ l =
    l * (x₁ + (l ^ 2 + l + 1 + x₁ + x₂)) + (l ^ 2 + l + 1 + x₁ + x₂) + y₁ := by
  rw [Affine.addY, Affine.negAddY, negY_eq, addX_eq]
  linear_combination (-l * x₁) * two_zero (F := F)

theorem nonsingular_square (h : (curve.baseChange F).Nonsingular x y) :
    (curve.baseChange F).Nonsingular (x ^ 2) (y ^ 2) := by
  rw [nonsingular_iff] at h ⊢
  have h2 := two_zero (F := F)
  linear_combination (y ^ 2 + x * y + x ^ 3 + x ^ 2 + 1) * h +
    (x ^ 5 + x ^ 3 + x ^ 2 - x * y ^ 3) * h2

theorem tangent_meets (h : (curve.baseChange F).Nonsingular x y) (hx : x ≠ 0) :
    x ^ 2 * (x ^ 2 + ((x + y / x) ^ 2 + (x + y / x) + 1)) = 1 := by
  rw [nonsingular_iff] at h
  obtain ⟨m, rfl⟩ : ∃ m, y = m * x := ⟨y / x, by field_simp⟩
  rw [mul_div_cancel_right₀ m hx]
  linear_combination h + (x ^ 4 + x ^ 3 * m + x ^ 3 + x ^ 2) * two_zero (F := F)

theorem nonsingular_double (h : (curve.baseChange F).Nonsingular x y) (hx : x ≠ 0) :
    (curve.baseChange F).Nonsingular ((x + y / x) ^ 2 + (x + y / x) + 1)
      (x ^ 2 + (x + y / x + 1) * ((x + y / x) ^ 2 + (x + y / x) + 1)) := by
  have hmeet := tangent_meets h hx
  rw [nonsingular_iff] at h ⊢
  have h2 := two_zero (F := F)
  generalize x + y / x = l at *
  linear_combination hmeet +
    (x ^ 2 * (l + 1) * (l ^ 2 + l + 1) + (l ^ 2 + l + 1) ^ 2 * l) * h2

/-! ## Projective coordinates -/

/-- `(X, Y, Z)` for the affine `(X / Z, Y / Z²)`. -/
structure Scaled {K : Type*} [Field K] (X Y Z x y : K) : Prop where
  ne : Z ≠ 0
  x_eq : X = x * Z
  y_eq : Y = y * Z ^ 2

theorem Scaled.affine {K : Type*} [Field K] {X Y Z x y : K} (h : Scaled X Y Z x y) :
    X * Z⁻¹ = x ∧ Y * Z⁻¹ ^ 2 = y := by
  obtain ⟨hne, rfl, rfl⟩ := h
  constructor <;> field_simp

theorem Scaled.add {X Y Z A B C : F} (h : Scaled X Y Z x₁ y₁) (hne : x₁ ≠ x₂)
    (hl : l * (x₁ + x₂) = y₁ + y₂) (hA : A = Y + Z ^ 2 * y₂) (hB : B = X + Z * x₂)
    (hC : C = Z * B) :
    Scaled (A ^ 2 + B ^ 2 * (C + Z ^ 2) + A * C)
      ((A * C + C ^ 2) * (x₂ * C ^ 2 + (A ^ 2 + B ^ 2 * (C + Z ^ 2) + A * C)) +
        (C ^ 2) ^ 2 * (x₂ + y₂)) (C ^ 2)
      (l ^ 2 + l + 1 + x₁ + x₂)
      (l * (x₂ + (l ^ 2 + l + 1 + x₁ + x₂)) + (l ^ 2 + l + 1 + x₁ + x₂) + y₂) := by
  obtain ⟨hz, rfl, rfl⟩ := h
  obtain rfl : y₁ = l * (x₁ + x₂) - y₂ := by linear_combination -hl
  have h2 := two_zero (F := F)
  have hsum : x₁ + x₂ ≠ 0 := by
    intro hzero
    exact hne (by linear_combination hzero - x₂ * h2)
  obtain rfl : A = Z ^ 2 * (l * (x₁ + x₂)) := by rw [hA]; ring
  obtain rfl : B = Z * (x₁ + x₂) := by rw [hB]; ring
  subst hC
  refine ⟨pow_ne_zero 2 (mul_ne_zero hz (mul_ne_zero hz hsum)), by ring, ?_⟩
  linear_combination x₂ * (Z * (Z * (x₁ + x₂))) ^ 4 * h2

theorem Scaled.double {X Y Z : F} (h : Scaled X Y Z x y)
    (hp : (curve.baseChange F).Nonsingular x y) (hx : x ≠ 0) :
    Scaled (X ^ 4 + Z ^ 4)
      ((X ^ 4 + Z ^ 4) * (Y ^ 2 + X ^ 2 * Z ^ 2 + Z ^ 4) + Z ^ 4 * (X ^ 2 * Z ^ 2))
      (X ^ 2 * Z ^ 2) ((x + y / x) ^ 2 + (x + y / x) + 1)
      (x ^ 2 + (x + y / x + 1) * ((x + y / x) ^ 2 + (x + y / x) + 1)) := by
  obtain ⟨hz, rfl, rfl⟩ := h
  have h2 := two_zero (F := F)
  have hmeet := tangent_meets hp hx
  obtain ⟨m, rfl⟩ : ∃ m, y = m * x := ⟨y / x, by field_simp⟩
  rw [mul_div_cancel_right₀ m hx] at *
  have heq := nonsingular_iff.mp hp
  refine ⟨by positivity, ?_, ?_⟩
  · linear_combination -Z ^ 4 * hmeet + Z ^ 4 * x ^ 4 * h2
  · linear_combination Z ^ 8 * (x ^ 4 + 1) * heq - Z ^ 8 * (x + m + 1) * x ^ 2 * hmeet +
      (Z ^ 8 * x ^ 7 + Z ^ 8 * x ^ 6 + Z ^ 8 * x ^ 4 - Z ^ 8 * m * x ^ 2 + Z ^ 8 * x ^ 2 + Z ^ 8) * h2

/-! ## The Frobenius map -/

variable [DecidableEq F]

theorem double_slope (hx : x ≠ 0) : (curve.baseChange F).slope x x y y = x + y / x := by
  obtain ⟨h₁, h₂, h₃, h₄, _⟩ := coefs (F := F)
  have hne : y ≠ (curve.baseChange F).negY x y := by
    rw [negY_eq]
    intro h
    exact hx (by linear_combination -h)
  rw [Affine.slope_of_Y_ne rfl hne, negY_eq, h₁, h₂, h₄]
  have h2 := two_zero (F := F)
  have hden : y - (x + y) = x := by linear_combination -x * h2
  rw [hden]
  field_simp
  linear_combination (x ^ 2 + x - y) * h2

/-- `(x, y)` to `(x², y²)`. -/
noncomputable def frobenius : AddMonoid.End (curve.baseChange F).Point :=
  Affine.Point.map (FiniteField.frobeniusAlgHom (ZMod 2) F)

theorem frobenius_some (h : (curve.baseChange F).Nonsingular x y)
    (h' : (curve.baseChange F).Nonsingular (x ^ 2) (y ^ 2)) :
    frobenius (.some x y h) = .some (x ^ 2) (y ^ 2) h' := rfl

theorem double_some (h : (curve.baseChange F).Nonsingular x y) (hx : x ≠ 0)
    (h' : (curve.baseChange F).Nonsingular ((x + y / x) ^ 2 + (x + y / x) + 1)
      (x ^ 2 + (x + y / x + 1) * ((x + y / x) ^ 2 + (x + y / x) + 1))) :
    (Affine.Point.some x y h) + .some x y h = .some _ _ h' := by
  have h2 := two_zero (F := F)
  have hne : y ≠ (curve.baseChange F).negY x y := by
    rw [negY_eq]
    intro hy
    exact hx (by linear_combination -hy)
  rw [Affine.Point.add_self_of_Y_ne hne]
  have hl : (x + y / x) * x = x ^ 2 + y := by field_simp
  congr 1
  · rw [addX_eq, double_slope hx]
    linear_combination x * h2
  · rw [addY_eq, double_slope hx]
    generalize x + y / x = l at *
    linear_combination hl + (l * x + x + y) * h2

/-! ## Sums -/

theorem add_self_of_zero (h : (curve.baseChange F).Nonsingular x y) (hx : x = 0) :
    Affine.Point.some x y h + .some x y h = 0 :=
  Affine.Point.add_self_of_Y_eq (by rw [negY_eq, hx, zero_add])

theorem add_some_of_ne (h₁ : (curve.baseChange F).Nonsingular x₁ y₁)
    (h₂ : (curve.baseChange F).Nonsingular x₂ y₂) (hne : x₁ ≠ x₂)
    (hl : l * (x₁ + x₂) = y₁ + y₂) :
    ∃ h, Affine.Point.some x₁ y₁ h₁ + .some x₂ y₂ h₂ = .some (l ^ 2 + l + 1 + x₁ + x₂)
      (l * (x₁ + (l ^ 2 + l + 1 + x₁ + x₂)) + (l ^ 2 + l + 1 + x₁ + x₂) + y₁) h := by
  have h2 := two_zero (F := F)
  have hslope : (curve.baseChange F).slope x₁ x₂ y₁ y₂ = l := by
    rw [Affine.slope_of_X_ne hne, div_eq_iff (sub_ne_zero.mpr hne)]
    linear_combination -hl + (l * x₂ - y₂) * h2
  have hsum : Affine.Point.some x₁ y₁ h₁ + .some x₂ y₂ h₂ = _ := Affine.Point.add_of_X_ne hne
  simp only [hslope, addX_eq, addY_eq] at hsum
  exact ⟨_, hsum⟩

theorem frobenius_slope (h : y ^ 2 + x * y = x ^ 3 + x ^ 2 + 1) (hx : x ≠ 0)
    (hne : x ^ 2 ≠ (x ^ 2) ^ 2) :
    (curve.baseChange F).slope (x ^ 2) ((x ^ 2) ^ 2) (y ^ 2) ((x ^ 2) ^ 2 + (y ^ 2) ^ 2) =
      x + y / x + x ^ 2 := by
  have h2 := two_zero (F := F)
  rw [Affine.slope_of_X_ne hne, div_eq_iff (sub_ne_zero.mpr hne)]
  obtain ⟨l, rfl⟩ : ∃ l, y = l * x := ⟨y / x, by field_simp⟩
  rw [mul_div_cancel_right₀ l hx]
  linear_combination (-(l ^ 2 * x ^ 2 + l * x ^ 2 + x ^ 3)) * h +
    (l ^ 3 * x ^ 4 - l * x ^ 2 - x ^ 4 - x ^ 3) * h2

/-- The characteristic equation of the Frobenius map of this curve. -/
theorem frobenius_frobenius (hno : ∀ z : F, z ^ 2 + z ≠ 1) (P : (curve.baseChange F).Point) :
    frobenius (frobenius P) + (P + P) = frobenius P := by
  have h2 := two_zero (F := F)
  rcases P with _ | ⟨x, y, h⟩
  · rfl
  · have heq := nonsingular_iff.mp h
    have hsquare := nonsingular_square h
    have hfourth := nonsingular_square hsquare
    rw [frobenius_some h hsquare, frobenius_some hsquare hfourth]
    by_cases hx : x = 0
    · -- The point of order two is its own image.
      subst hx
      have hy : y = 1 := by
        have hsq : (y - 1) ^ 2 = 0 := by linear_combination heq + (1 - y) * h2
        exact sub_eq_zero.mp (pow_eq_zero_iff (by decide) |>.mp hsq)
      subst hy
      have hzero : Affine.Point.some 0 1 h + .some 0 1 h = 0 :=
        Affine.Point.add_self_of_Y_eq (by rw [negY_eq, zero_add])
      simp [hzero]
    · have hx' : x ≠ 1 := by
        rintro rfl
        exact hno y (by linear_combination heq + h2)
      have hne : x ^ 2 ≠ (x ^ 2) ^ 2 := by
        intro he
        have hprod : x ^ 2 * (x - 1) ^ 2 = 0 := by
          linear_combination (-1 : F) * he + (x ^ 2 - x ^ 3) * h2
        rcases mul_eq_zero.mp hprod with hl | hr
        · exact hx (pow_eq_zero_iff (by decide) |>.mp hl)
        · exact hx' (sub_eq_zero.mp (pow_eq_zero_iff (by decide) |>.mp hr))
      have hsum : Affine.Point.some _ _ hsquare + -Affine.Point.some _ _ hfourth =
          Affine.Point.some x y h + .some x y h := by
        have hself : y ≠ (curve.baseChange F).negY x y := by
          rw [negY_eq]
          intro hy
          exact hx (by linear_combination -hy)
        have hl : y = y / x * x := by field_simp
        rw [Affine.Point.neg_some, Affine.Point.add_of_X_ne hne,
          Affine.Point.add_self_of_Y_ne hself]
        congr 1
        · rw [addX_eq, addX_eq, negY_eq, frobenius_slope heq hx hne, double_slope hx]
          generalize y / x = l at *
          linear_combination (x ^ 2 + x ^ 3 + l * x ^ 2 + x ^ 4 - x) * h2
        · rw [addY_eq, addY_eq, negY_eq, frobenius_slope heq hx hne, double_slope hx]
          generalize y / x = l at *
          subst hl
          linear_combination (3 * x ^ 3 + 3 * l * x ^ 2 + 4 * x ^ 4 + 3 * l * x ^ 3 + 2 * x ^ 5 -
            2 * l * x - x + 2 * l ^ 2 * x ^ 2 + 2 * l * x ^ 4 + x ^ 6) * h2
      rw [← hsum]
      abel

/-! ## Counting points -/

/-- `τⁿ` as a multiple of `τ` and a number, where `τ² = τ - 2`. -/
def lucas : Nat → Int × Int
  | 0 => (0, 1)
  | n + 1 => ((lucas n).1 + (lucas n).2, -2 * (lucas n).1)

/-- The norm of `τⁿ - 1`. -/
def pointCount (n : Nat) : Int :=
  2 * (lucas n).1 ^ 2 - (1 - (lucas n).2) * (lucas n).1 + (1 - (lucas n).2) ^ 2

theorem pow_eq_lucas {R : Type*} [Ring R] {t : R} (ht : t * t + (1 + 1) = t) (n : Nat) :
    t ^ n = (lucas n).1 * t + (lucas n).2 := by
  have hsquare : t * t = t - 2 := by rw [← one_add_one_eq_two]; exact eq_sub_of_add_eq ht
  induction n with
  | zero => simp [lucas]
  | succ n ih =>
    rw [pow_succ, ih, add_mul, mul_assoc, hsquare]
    push_cast [lucas]
    rw [mul_sub, mul_two, add_mul, neg_mul, two_mul]
    abel

theorem pointCount_eq_zero {R : Type*} [Ring R] {t : R} (ht : t * t + (1 + 1) = t) {n : Nat}
    (hn : t ^ n = 1) : (pointCount n : R) = 0 := by
  have hpow := pow_eq_lucas ht n
  have hsquare : t * t = t - 2 := by rw [← one_add_one_eq_two]; exact eq_sub_of_add_eq ht
  rw [hn] at hpow
  unfold pointCount
  generalize (lucas n).1 = a at *
  generalize (lucas n).2 = b at *
  have hc : (a : R) * t = 1 - b := by rw [hpow]; abel
  have hleft : (a : R) * t * (a * (1 - t)) = 2 * a ^ 2 := by
    have htwo : t * (1 - t) = 2 := by rw [mul_sub, mul_one, hsquare, sub_sub_cancel]
    calc (a : R) * t * (a * (1 - t)) = a * (t * a) * (1 - t) := by simp only [mul_assoc]
      _ = a * a * (t * (1 - t)) := by rw [← (Int.cast_commute a t).eq]; simp only [mul_assoc]
      _ = 2 * a ^ 2 := by rw [htwo, mul_two, two_mul, pow_two]
  have hright : (a : R) * t * (a * (1 - t)) = (1 - b) * (a - (1 - b)) := by
    rw [mul_sub, hc, mul_one]
  push_cast
  rw [← hleft, hright, mul_sub, pow_two]
  abel

theorem frobenius_pow {n : Nat} (h : (curve.baseChange F).Nonsingular x y) :
    ∃ h' : (curve.baseChange F).Nonsingular (x ^ 2 ^ n) (y ^ 2 ^ n),
      (frobenius ^ n) (.some x y h) = .some _ _ h' := by
  induction n with
  | zero => exact ⟨by simpa using h, by simp⟩
  | succ n ih =>
    obtain ⟨hn, hpow⟩ := ih
    have hsucc : ∀ z : F, z ^ 2 ^ (n + 1) = (z ^ 2 ^ n) ^ 2 := fun z => by rw [pow_succ, pow_mul]
    have hnext := nonsingular_square hn
    simp only [hsucc]
    refine ⟨hnext, ?_⟩
    rw [pow_succ', ← frobenius_some hn hnext, ← hpow]
    rfl

/-- A field that `n` squarings bring back to itself: its points are of order `pointCount n`. -/
theorem pointCount_smul (hno : ∀ z : F, z ^ 2 + z ≠ 1) {n : Nat} (hround : ∀ z : F, z ^ 2 ^ n = z)
    (P : (curve.baseChange F).Point) : pointCount n • P = 0 := by
  have hone : (frobenius ^ n : AddMonoid.End (curve.baseChange F).Point) = 1 := by
    ext Q
    rcases Q with _ | ⟨x, y, h⟩
    · exact map_zero (frobenius ^ n)
    · obtain ⟨h', hpow⟩ := frobenius_pow (n := n) h
      simp only [hpow, hround]
      rfl
  have hchar : (frobenius * frobenius + (1 + 1) : AddMonoid.End (curve.baseChange F).Point) =
      frobenius := AddMonoidHom.ext (frobenius_frobenius hno)
  have hzero := DFunLike.congr_fun (pointCount_eq_zero hchar hone) P
  simpa using hzero

end Koblitz
