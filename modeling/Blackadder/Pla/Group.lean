import Blackadder.Pla.Curve
import Blackadder.Lib.Koblitz
import Mathlib.Algebra.Algebra.ZMod

/-!
# The group of the base point

The points of the curve over the field of `gnb.c`: the base point has the order of `tau_init`, so
that there are operations that are right on its multiples.
-/

namespace Blackadder.Ec

open Gnb WeierstrassCurve

instance : Algebra (ZMod 2) Elem := ZMod.algebra Elem 2

abbrev E : Affine Elem := Koblitz.curve.baseChange Elem

variable {n : Nat} {z : Elem} {P Q : E.Point} {k : Int}

/-- The degree is odd: coefficients that alternate do not meet. -/
theorem square_add_ne_one (z : Elem) : z ^ 2 + z ≠ 1 := by
  intro hz
  have hnext : ∀ n, cyc z (n + 1) = !cyc z n := by
    intro n
    have hbit := congrArg (fun a => cyc a (n + 1)) hz
    simp only [cyc_add', cyc_square, cyc_one'] at hbit
    revert hbit
    cases cyc z n <;> cases cyc z (n + 1) <;> simp
  have hparity : ∀ n, cyc z (2 * n) = cyc z 0 := by
    intro n
    induction n with
    | zero => rfl
    | succ n ih => rw [Nat.mul_succ, hnext, hnext, Bool.not_not, ih]
  have hround : cyc z (2 * 81 + 1) = cyc z 0 := by
    rw [← cyc_mod]
    rfl
  rw [hnext, hparity] at hround
  revert hround
  cases cyc z 0 <;> simp

theorem pointCount_order : Koblitz.pointCount degree = 2 * order := by decide +kernel

theorem order_smul (P : E.Point) : (2 * order) • P = 0 := by
  rw [← pointCount_order]
  exact Koblitz.pointCount_smul square_add_ne_one (fun z => pow_round) P

/-! ## The base point -/

/-- The half of the base point. -/
def halfPoint : Point where
  x := ⟨0x59206df7c4477f471fa296aa13a34ced5edb3eb76#163⟩
  y := ⟨0x6285054ed2ba6f6888004cddf3f1434dabba2ceeb#163⟩

theorem onCurve_half : ecIsPointOnCurve halfPoint = true := by decide +kernel

theorem onCurve_base : ecIsPointOnCurve basePoint = true := by decide +kernel

theorem nonsingular_of_onCurve {p : Point} (h : OnCurve p) : E.Nonsingular p.x p.y :=
  Koblitz.nonsingular_iff.mpr h

def G : E.Point := .some _ _ (nonsingular_of_onCurve (onCurve_iff.mp onCurve_base))

def H : E.Point := .some _ _ (nonsingular_of_onCurve (onCurve_iff.mp onCurve_half))

def pointOf : E.Point → Point
  | .zero => infinity
  | .some x y _ => ⟨x, y⟩

open Classical in
noncomputable def ofPoint (p : Point) : E.Point :=
  if h : E.Nonsingular p.x p.y then .some p.x p.y h else 0

theorem ofPoint_pointOf (P : E.Point) : ofPoint (pointOf P) = P := by
  rcases P with _ | ⟨x, y, h⟩
  · have hno : ¬ E.Nonsingular infinity.x infinity.y := by
      have hx : infinity.x = 0 := rfl
      have hy : infinity.y = 0 := rfl
      rw [Koblitz.nonsingular_iff, hx, hy]
      simp
    exact dif_neg hno
  · exact dif_pos h

theorem pointOf_injective : Function.Injective pointOf :=
  Function.LeftInverse.injective ofPoint_pointOf

/-- Where the tangent at a point meets the curve again, less its sign. -/
def doubled (p : Point) : Point :=
  let l := gnbAdd p.x (gnbMultiply (gnbInverse p.x) p.y)
  let x := gnbAdd (gnbAdd (gnbSquare l) l) gnbOne
  ⟨x, gnbAdd (gnbSquare p.x) (gnbMultiply (gnbAdd l gnbOne) x)⟩

theorem pointOf_double (hx : (pointOf P).x ≠ 0) : pointOf (P + P) = doubled (pointOf P) := by
  rcases P with _ | ⟨x, y, h⟩
  · exact absurd rfl hx
  · have hx' : x ≠ 0 := hx
    have hslope : x⁻¹ * y = y / x := by rw [div_eq_mul_inv, mul_comm]
    have hdouble := Koblitz.double_some h hx' (Koblitz.nonsingular_double h hx')
    calc pointOf (.some x y h + .some x y h) = pointOf (.some _ _ _) := congrArg pointOf hdouble
      _ = doubled ⟨x, y⟩ := by
        simp only [doubled, pointOf, multiply_eq, add_eq, square_eq, one_eq, inverse_eq, hslope]

theorem half_add_half : H + H = G := by
  have hmeet : doubled halfPoint = basePoint := by decide +kernel
  have hx : (pointOf H).x ≠ 0 := by
    have hne : halfPoint.x ≠ 0 := by decide
    exact hne
  exact pointOf_injective ((pointOf_double hx).trans hmeet)

theorem order_base : order • G = 0 := by
  have htwo : order • G = (2 * order) • H := by
    rw [← half_add_half, zsmul_add, ← add_zsmul, two_mul]
  rw [htwo, order_smul]

/-! ## Operations that are right on the multiples of the base point -/

/-- The group law of the curve. -/
noncomputable def chordTangent : Ops where
  ecAdd p q := pointOf (ofPoint p + ofPoint q)
  ecSub p q := pointOf (ofPoint p - ofPoint q)
  ecMultiply p k := pointOf (k • ofPoint p)

def multiple (k : Int) : Point := pointOf (k • G)

theorem pointOf_curve (P : E.Point) : pointOf P = infinity ∨ OnCurve (pointOf P) := by
  rcases P with _ | ⟨x, y, h⟩
  · exact Or.inl rfl
  · exact Or.inr (Koblitz.nonsingular_iff.mp h)

theorem pointOf_neg (P : E.Point) :
    pointOf (-P) = ⟨(pointOf P).x, (pointOf P).x + (pointOf P).y⟩ := by
  rcases P with _ | ⟨x, y, h⟩
  · have hzero : infinity = ⟨infinity.x, infinity.x + infinity.y⟩ := by decide
    exact hzero
  · rw [Affine.Point.neg_some]
    exact congrArg (Point.mk x) Koblitz.negY_eq

theorem chordTangent_correct : chordTangent.Correct multiple where
  zero := by rw [multiple, zero_zsmul]; rfl
  one := by rw [multiple, one_zsmul]; rfl
  cyclic := by rw [multiple, order_base]; rfl
  curve a := pointOf_curve _
  neg a := by rw [multiple, neg_zsmul, pointOf_neg]; rfl
  add a b := by
    simp only [chordTangent, multiple, ofPoint_pointOf, add_zsmul]
  sub a b := by
    simp only [chordTangent, multiple, ofPoint_pointOf, sub_eq_add_neg, add_zsmul, neg_zsmul]
  multiply a k := by
    simp only [chordTangent, multiple, ofPoint_pointOf, mul_zsmul]

end Blackadder.Ec
