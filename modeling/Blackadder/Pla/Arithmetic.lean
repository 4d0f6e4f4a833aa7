import Blackadder.Pla.Group
import Mathlib.Logic.Function.Basic

/-!
# Sums and differences of points

`ec_add`, `ec_sub` and their projective forms, on a memory of points: the place of the result may
be that of an operand.
-/

namespace Blackadder.Ec

open Gnb WeierstrassCurve

attribute [ext] Point

/-- `ecpoint_t`. -/
@[ext]
structure EcPoint extends Point where
  z : Elem
deriving DecidableEq

/-- What stands at each place a pointer can point to. -/
abbrev Memory (ι : Type*) := ι → EcPoint

variable {ι : Type*} [DecidableEq ι] {m : Memory ι} {p p0 p1 p1n p2 q r : ι} {v w : Elem}
  {P Q : E.Point} {x y : Elem}

namespace Memory

def setX (m : Memory ι) (p : ι) (v : Elem) : Memory ι := Function.update m p { m p with x := v }

def setY (m : Memory ι) (p : ι) (v : Elem) : Memory ι := Function.update m p { m p with y := v }

def setZ (m : Memory ι) (p : ι) (v : Elem) : Memory ι := Function.update m p { m p with z := v }

def ecCopy (m : Memory ι) (p1 : ι) (p2 : Point) : Memory ι :=
  Function.update m p1 { m p1 with toPoint := p2 }

def ecCopyLd (m : Memory ι) (p1 : ι) (p2 : EcPoint) : Memory ι := Function.update m p1 p2

@[simp] theorem setX_x : (m.setX p v p).x = v := by simp [setX]
@[simp] theorem setY_y : (m.setY p v p).y = v := by simp [setY]
@[simp] theorem setZ_z : (m.setZ p v p).z = v := by simp [setZ]

@[simp] theorem setX_y : (m.setX p v q).y = (m q).y := by
  by_cases h : q = p <;> simp [setX, h]

@[simp] theorem setX_z : (m.setX p v q).z = (m q).z := by
  by_cases h : q = p <;> simp [setX, h]

@[simp] theorem setY_x : (m.setY p v q).x = (m q).x := by
  by_cases h : q = p <;> simp [setY, h]

@[simp] theorem setY_z : (m.setY p v q).z = (m q).z := by
  by_cases h : q = p <;> simp [setY, h]

@[simp] theorem setZ_x : (m.setZ p v q).x = (m q).x := by
  by_cases h : q = p <;> simp [setZ, h]

@[simp] theorem setZ_y : (m.setZ p v q).y = (m q).y := by
  by_cases h : q = p <;> simp [setZ, h]

theorem setX_of_ne (h : q ≠ p) : m.setX p v q = m q := by simp [setX, h]

theorem setY_of_ne (h : q ≠ p) : m.setY p v q = m q := by simp [setY, h]

theorem setZ_of_ne (h : q ≠ p) : m.setZ p v q = m q := by simp [setZ, h]

@[simp] theorem ecCopyLd_self {e : EcPoint} : m.ecCopyLd p e p = e := by simp [ecCopyLd]

theorem setX_setY : (m.setX p v).setY p w = m.ecCopy p ⟨v, w⟩ := by
  simp [setX, setY, ecCopy]

theorem ecCopy_inj {e f : Point} : m.ecCopy p e = m.ecCopy p f ↔ e = f := by
  constructor
  · intro h
    simpa [ecCopy] using congrArg EcPoint.toPoint (congrFun h p)
  · rintro rfl
    rfl

end Memory

/-! ## Affine points -/

def ecEquals (p1 p2 : Point) : Bool := p1.x = p2.x && p1.y = p2.y

/-- The end of `ec_add`. -/
def ecAddEnd (m : Memory ι) (p2 p1 : ι) (lambda x2 : Elem) : Memory ι :=
  let y2 := gnbAdd (m p1).x x2
  let y2 := gnbMultiply y2 lambda
  let y2 := gnbAdd y2 x2
  let y2 := gnbAdd y2 (m p1).y
  (m.setX p2 x2).setY p2 y2

def ecAdd (m : Memory ι) (p2 p0 p1 : ι) : Memory ι :=
  if ecEquals (m p0).toPoint infinity then m.ecCopy p2 (m p1).toPoint
  else if ecEquals (m p1).toPoint infinity then m.ecCopy p2 (m p0).toPoint
  else
    let a := gnbOne
    if (m p0).x ≠ (m p1).x then
      let y2 := gnbAdd (m p0).y (m p1).y
      let x2 := gnbAdd (m p0).x (m p1).x
      let lambda := gnbInverse x2
      let lambda := gnbMultiply lambda y2
      let x2 := gnbAdd a lambda
      let x2 := gnbAdd x2 (m p0).x
      let x2 := gnbAdd x2 (m p1).x
      let y2 := gnbSquare lambda
      let x2 := gnbAdd x2 y2
      ecAddEnd m p2 p1 lambda x2
    else if (m p1).x = gnbZero then m.ecCopy p2 infinity
    else
      let x2 := gnbInverse (m p1).x
      let lambda := gnbMultiply (m p1).y x2
      let lambda := gnbAdd (m p1).x lambda
      let x2 := gnbAdd a lambda
      let y2 := gnbSquare lambda
      let x2 := gnbAdd x2 y2
      ecAddEnd m p2 p1 lambda x2

/-- The memory with a local point. -/
def Memory.push (m : Memory ι) (p1n : EcPoint) : Memory (Option ι)
  | none => p1n
  | some p => m p

def Memory.pop (m : Memory (Option ι)) : Memory ι := fun p => m (some p)

namespace Memory

variable {e f : EcPoint} {v : Elem}

omit [DecidableEq ι] in
@[simp] theorem push_some : m.push e (some p) = m p := rfl

omit [DecidableEq ι] in
@[simp] theorem push_none : m.push e none = e := rfl

omit [DecidableEq ι] in
@[simp] theorem pop_push : (m.push e).pop = m := rfl

@[simp] theorem push_setY : (m.push e).setY none v = m.push { e with y := v } := by
  funext i
  cases i <;> simp [setY, push]

@[simp] theorem push_ecCopy {a : Point} :
    (m.push e).ecCopy none a = m.push { e with toPoint := a } := by
  funext i
  cases i <;> simp [ecCopy, push]

@[simp] theorem push_ecCopyLd : (m.push e).ecCopyLd none f = m.push f := by
  funext i
  cases i <;> simp [ecCopyLd, push]

theorem pop_ecCopy {m : Memory (Option ι)} {a : Point} :
    (m.ecCopy (some p) a).pop = m.pop.ecCopy p a := by
  funext q
  by_cases h : q = p <;> simp [pop, ecCopy, h]

end Memory

/-- `junk` is what stands in `p1n` before it is written. -/
def ecSub (m : Memory ι) (junk : EcPoint) (p2 p0 p1 : ι) : Memory ι :=
  let m := m.push junk
  let m := m.ecCopy none (m (some p1)).toPoint
  let m := m.setY none (gnbAdd (m (some p1)).x (m (some p1)).y)
  (ecAdd m (some p2) (some p0) none).pop

/-! ## Projective points -/

def infinityLd : EcPoint := ⟨⟨gnbOne, gnbZero⟩, gnbZero⟩

def ecEqualsLd (p1 p2 : EcPoint) : Bool := p1.x = p2.x && p1.y = p2.y && p1.z = p2.z

def ecNormalize (m : Memory ι) (q p : ι) : Memory ι :=
  let m := m.setZ p (gnbInverse (m p).z)
  let m := m.setX q (gnbMultiply (m p).x (m p).z)
  let m := m.setZ p (elemRrotate (m p).z)
  let m := m.setY q (gnbMultiply (m p).y (m p).z)
  m.setZ q gnbOne

def ecDoubleLd (m : Memory ι) (q p : ι) : Memory ι :=
  if ecEqualsLd (m p) infinityLd then m.ecCopyLd q infinityLd
  else
    let t1 := elemRrotate (m p).z
    let t2 := elemRrotate (m p).x
    let m := m.setZ q (gnbMultiply t1 t2)
    let m := m.setX q (elemRrotate t2)
    -- The product that would leave the fourth power of `z` in `t2` is commented out.
    let m := m.setX q (gnbAdd (m q).x t2)
    let t1 := elemRrotate (m p).y
    let t1 := gnbAdd t1 (m q).z
    let t1 := gnbAdd t1 t2
    let m := m.setY q (gnbMultiply (m q).x t1)
    let t1 := gnbMultiply t2 (m q).z
    m.setY q (gnbAdd (m q).y t1)

def ecAddLd (m : Memory ι) (p2 p q : ι) : Memory ι :=
  if ecEqualsLd (m q) infinityLd then m.ecCopyLd p2 (m p)
  else if ecEqualsLd (m p) infinityLd then m.ecCopyLd p2 (m q)
  else
    let t1 := gnbMultiply (m p).z (m q).x
    let t2 := elemRrotate (m p).z
    let m := m.setX p2 (gnbAdd (m p).x t1)
    let t1 := gnbMultiply (m p).z (m p2).x
    let t3 := gnbMultiply t2 (m q).y
    let m := m.setY p2 (gnbAdd (m p).y t3)
    if (m p2).x = gnbZero then
      if (m p2).y = gnbZero then ecDoubleLd m p2 q else m.ecCopyLd p2 infinityLd
    else
      let m := m.setZ p2 (elemRrotate t1)
      let t3 := gnbMultiply t1 (m p2).y
      let t1 := gnbAdd t1 t2
      let t2 := elemRrotate (m p2).x
      let m := m.setX p2 (gnbMultiply t2 t1)
      let t2 := elemRrotate (m p2).y
      let m := m.setX p2 (gnbAdd (m p2).x t2)
      let m := m.setX p2 (gnbAdd (m p2).x t3)
      let t2 := gnbMultiply (m q).x (m p2).z
      let t2 := gnbAdd t2 (m p2).x
      let t1 := elemRrotate (m p2).z
      let t3 := gnbAdd t3 (m p2).z
      let m := m.setY p2 (gnbMultiply t3 t2)
      let t2 := gnbAdd (m q).x (m q).y
      let t3 := gnbMultiply t1 t2
      m.setY p2 (gnbAdd (m p2).y t3)

def ecSubLd (m : Memory ι) (junk : EcPoint) (p2 p0 p1 : ι) : Memory ι :=
  let m := m.push junk
  let m := m.ecCopyLd none (m (some p1))
  let m := m.setY none (gnbAdd (m (some p1)).x (m (some p1)).y)
  (ecAddLd m (some p2) (some p0) none).pop

/-! ## The group law -/

theorem pointOf_eq_infinity : pointOf P = infinity ↔ P = 0 :=
  pointOf_injective.eq_iff (b := 0)

theorem add_self_eq_zero : P + P = 0 ↔ (pointOf P).x = 0 := by
  rcases P with _ | ⟨x, y, h⟩
  · exact iff_of_true rfl rfl
  · constructor
    · intro hzero
      by_contra hx
      rw [Koblitz.double_some h hx (Koblitz.nonsingular_double h hx)] at hzero
      exact Affine.Point.some_ne_zero _ hzero
    · exact Koblitz.add_self_of_zero h

theorem same_x (hP : P ≠ 0) (hQ : Q ≠ 0) :
    (pointOf P).x = (pointOf Q).x ↔ P = Q ∨ P = -Q := by
  rcases P with _ | ⟨x, y, h⟩
  · exact absurd rfl hP
  · rcases Q with _ | ⟨x', y', h'⟩
    · exact absurd rfl hQ
    · exact Affine.Point.X_eq_iff

theorem ecEquals_iff {e f : Point} : ecEquals e f = true ↔ e = f := by
  obtain ⟨x, y⟩ := e
  obtain ⟨x', y'⟩ := f
  simp [ecEquals]

open Classical in
/-- What `ec_add` computes. -/
noncomputable def sumOf (P Q : E.Point) : E.Point :=
  if P = -Q ∧ (pointOf Q).x ≠ 0 then Q + Q else P + Q

theorem sumOf_eq_add : sumOf P Q = P + Q ↔ (P = -Q → (pointOf Q).x = 0) := by
  unfold sumOf
  split_ifs with h
  · obtain ⟨rfl, hx⟩ := h
    rw [neg_add_cancel, add_self_eq_zero]
    simp
  · simpa using h

theorem ecEquals_infinity (hP : P ≠ 0) : ecEquals (pointOf P) infinity = false :=
  Bool.eq_false_iff.mpr fun he => hP (pointOf_eq_infinity.mp (ecEquals_iff.mp he))

theorem ecAddEnd_eq {l x₃ : Elem} (hp : (m p1).toPoint = pointOf Q) :
    ecAddEnd m p2 p1 l x₃ =
      m.ecCopy p2 ⟨x₃, l * ((pointOf Q).x + x₃) + x₃ + (pointOf Q).y⟩ := by
  simp only [ecAddEnd, Memory.setX_setY, multiply_eq, add_eq, ← hp, mul_comm l]

theorem pointOf_chord {l : Elem} (hP : P ≠ 0) (hQ : Q ≠ 0)
    (hne : (pointOf P).x ≠ (pointOf Q).x)
    (hl : l * ((pointOf P).x + (pointOf Q).x) = (pointOf P).y + (pointOf Q).y) :
    pointOf (P + Q) = ⟨l ^ 2 + l + 1 + (pointOf P).x + (pointOf Q).x,
      l * ((pointOf Q).x + (l ^ 2 + l + 1 + (pointOf P).x + (pointOf Q).x)) +
        (l ^ 2 + l + 1 + (pointOf P).x + (pointOf Q).x) + (pointOf Q).y⟩ := by
  rcases P with _ | ⟨x, y, h⟩
  · exact absurd rfl hP
  rcases Q with _ | ⟨x', y', h'⟩
  · exact absurd rfl hQ
  simp only [pointOf] at hne hl ⊢
  have hl' : l * (x' + x) = y' + y := by rw [add_comm x', hl, add_comm]
  obtain ⟨hsum, heq⟩ := Koblitz.add_some_of_ne h' h hne.symm hl'
  rw [add_comm, heq, add_right_comm _ x x']

theorem ecAdd_chord (hp : (m p0).toPoint = pointOf P) (hq : (m p1).toPoint = pointOf Q)
    (hP : P ≠ 0) (hQ : Q ≠ 0) (hne : (pointOf P).x ≠ (pointOf Q).x) :
    ecAdd m p2 p0 p1 = m.ecCopy p2 (pointOf (P + Q)) := by
  have hsum : (pointOf P).x + (pointOf Q).x ≠ 0 := fun h => hne (CharTwo.add_eq_zero.mp h)
  rw [ecAdd, hp, hq, ecEquals_infinity hP, ecEquals_infinity hQ]
  simp only [ne_eq, hne, not_false_eq_true, if_true, Bool.false_eq_true, if_false, ecAddEnd_eq hq,
    multiply_eq, add_eq, one_eq, square_eq, inverse_eq]
  generalize hl : ((pointOf P).x + (pointOf Q).x)⁻¹ * ((pointOf P).y + (pointOf Q).y) = l
  have hslope : l * ((pointOf P).x + (pointOf Q).x) = (pointOf P).y + (pointOf Q).y := by
    rw [← hl, mul_comm, mul_inv_cancel_left₀ hsum]
  have hx₃ : 1 + l + (pointOf P).x + (pointOf Q).x + l ^ 2 =
      l ^ 2 + l + 1 + (pointOf P).x + (pointOf Q).x := by ring
  rw [pointOf_chord hP hQ hne hslope, hx₃]

/-- A point and one above it: the second operand is doubled, be they equal or opposite. -/
theorem ecAdd_above (hp : (m p0).toPoint = pointOf P) (hq : (m p1).toPoint = pointOf Q)
    (hP : P ≠ 0) (hQ : Q ≠ 0) (heq : (pointOf P).x = (pointOf Q).x) :
    ecAdd m p2 p0 p1 = m.ecCopy p2 (pointOf (Q + Q)) := by
  rw [ecAdd, hp, hq, ecEquals_infinity hP, ecEquals_infinity hQ]
  simp only [ne_eq, heq, not_true_eq_false, Bool.false_eq_true, if_false, ecAddEnd_eq hq,
    multiply_eq, add_eq, one_eq, zero_eq, square_eq, inverse_eq]
  split_ifs with hx
  · rw [add_self_eq_zero.mpr hx]
    rfl
  · rw [pointOf_double hx]
    congr 1
    simp only [doubled, multiply_eq, add_eq, one_eq, square_eq, inverse_eq]
    have hl : ((pointOf Q).x + (pointOf Q).y * (pointOf Q).x⁻¹) * (pointOf Q).x =
        (pointOf Q).x ^ 2 + (pointOf Q).y := by field_simp
    rw [mul_comm (pointOf Q).x⁻¹]
    generalize (pointOf Q).x + (pointOf Q).y * (pointOf Q).x⁻¹ = l at *
    congr 1
    · ring
    · linear_combination hl + (pointOf Q).y * CharTwo.two_eq_zero (R := Elem)

theorem ecAdd_eq (hp : (m p0).toPoint = pointOf P) (hq : (m p1).toPoint = pointOf Q) :
    ecAdd m p2 p0 p1 = m.ecCopy p2 (pointOf (sumOf P Q)) := by
  by_cases hP : P = 0
  · subst hP
    have hinf : (m p0).toPoint = infinity := hp
    have hsum : sumOf 0 Q = Q := by
      rw [sumOf_eq_add.mpr, zero_add]
      intro h
      rw [← neg_eq_iff_eq_neg.mpr h, neg_zero]
      rfl
    simp [ecAdd, hinf, hsum, hq, ecEquals]
  by_cases hQ : Q = 0
  · subst hQ
    have hinf : (m p1).toPoint = infinity := hq
    have hsum : sumOf P 0 = P := by
      rw [sumOf_eq_add.mpr fun _ => rfl, add_zero]
    rw [ecAdd, hp, ecEquals_infinity hP, hinf, hsum]
    simp [ecEquals]
  by_cases hx : (pointOf P).x = (pointOf Q).x
  · rw [ecAdd_above hp hq hP hQ hx]
    rcases (same_x hP hQ).mp hx with rfl | rfl
    · rw [sumOf_eq_add.mpr]
      intro h
      rw [← add_self_eq_zero, ← eq_neg_iff_add_eq_zero]
      exact h
    · by_cases hzero : (pointOf Q).x = 0
      · rw [sumOf_eq_add.mpr fun _ => hzero, add_self_eq_zero.mpr hzero, neg_add_cancel]
      · rw [sumOf, if_pos ⟨rfl, hzero⟩]
  · rw [ecAdd_chord hp hq hP hQ hx, sumOf_eq_add.mpr]
    rintro rfl
    exact absurd ((same_x hP hQ).mpr (Or.inr rfl)) hx

theorem ecSub_eq {junk : EcPoint} (hp : (m p0).toPoint = pointOf P)
    (hq : (m p1).toPoint = pointOf Q) :
    ecSub m junk p2 p0 p1 = m.ecCopy p2 (pointOf (sumOf P (-Q))) := by
  have hneg : (⟨(m p1).x, (m p1).x + (m p1).y⟩ : Point) = pointOf (-Q) := by
    rw [pointOf_neg, ← hq]
  simp only [ecSub, Memory.push_ecCopy, Memory.push_setY, Memory.push_some, add_eq, hneg]
  generalize he : EcPoint.mk (pointOf (-Q)) junk.z = e
  have hp' : ((m.push e) (some p0)).toPoint = pointOf P := hp
  have hq' : ((m.push e) none).toPoint = pointOf (-Q) := by rw [← he]; rfl
  rw [ecAdd_eq hp' hq', Memory.pop_ecCopy, Memory.pop_push]

/-! ## Projective points -/

theorem ecEqualsLd_iff {e f : EcPoint} : ecEqualsLd e f = true ↔ e = f := by
  simp [ecEqualsLd, EcPoint.ext_iff, and_assoc]

theorem ecEqualsLd_false {e f : EcPoint} (h : e ≠ f) : ecEqualsLd e f = false :=
  Bool.eq_false_iff.mpr fun he => h (ecEqualsLd_iff.mp he)

theorem ne_infinityLd {e : EcPoint} (hz : e.z = gnbOne) : e ≠ infinityLd := by
  rintro rfl
  exact absurd hz (by decide)

/-- The affine point of a projective one. -/
def EcPoint.affine (e : EcPoint) : Point := ⟨e.x * e.z⁻¹, e.y * e.z⁻¹ ^ 2⟩

def Represents (e : EcPoint) : E.Point → Prop
  | .zero => e = infinityLd
  | .some x y _ => Koblitz.Scaled e.x e.y e.z x y

theorem Represents.affine {e : EcPoint} (h : Represents e P) : e.affine = pointOf P := by
  rcases P with _ | ⟨x, y, hP⟩
  · obtain rfl : e = infinityLd := h
    decide +kernel
  · obtain ⟨hx, hy⟩ := Koblitz.Scaled.affine h
    exact congrArg₂ Point.mk hx hy

theorem ecNormalize_toPoint : (ecNormalize m q p q).toPoint = (m p).affine := by
  ext <;> simp [ecNormalize, EcPoint.affine]

theorem ecDoubleLd_eq (h : m p ≠ infinityLd) :
    ecDoubleLd m q p q =
      ⟨⟨(m p).x ^ 4 + (m p).x ^ 2, ((m p).x ^ 4 + (m p).x ^ 2) *
        ((m p).y ^ 2 + (m p).x ^ 2 * (m p).z ^ 2 + (m p).x ^ 2) +
          (m p).x ^ 2 * ((m p).x ^ 2 * (m p).z ^ 2)⟩, (m p).x ^ 2 * (m p).z ^ 2⟩ := by
  rw [ecDoubleLd, ecEqualsLd_false h]
  ext <;> simp <;> ring

theorem Represents.ne_infinityLd {e : EcPoint} (h : Represents e P) (hP : P ≠ 0) :
    e ≠ infinityLd := by
  rcases P with _ | ⟨x, y, hP'⟩
  · exact absurd rfl hP
  · rintro rfl
    exact Koblitz.Scaled.ne h rfl

theorem double_x {X Z w : Elem} (hx : x ≠ 0) (hz : Z ≠ 0) (hX : X = x * Z)
    (hmeet : x ^ 2 * (x ^ 2 + w) = 1) (hw : (X ^ 4 + X ^ 2) * (X ^ 2 * Z ^ 2)⁻¹ = w) :
    X = Z ^ 2 := by
  subst hX
  have hcleared : x ^ 2 * Z ^ 2 + 1 = w * Z ^ 2 := by
    rw [← hw]
    field_simp
  have hsquare : (x - Z) ^ 2 = 0 := by
    linear_combination x ^ 2 * hcleared + Z ^ 2 * hmeet +
      (Z ^ 2 - Z ^ 2 * x ^ 4 - Z * x) * CharTwo.two_eq_zero (R := Elem)
  rw [sub_eq_zero.mp ((pow_eq_zero_iff two_ne_zero).mp hsquare), pow_two]

/-- What is left of the doubling is right on the points with `x = 0` and where `x = z²`. -/
theorem ecDoubleLd_affine (h : Represents (m p) P) :
    (ecDoubleLd m q p q).affine = pointOf (P + P) ↔
      P = 0 ∨ (m p).x = 0 ∨ (m p).x = (m p).z ^ 2 := by
  by_cases hP : P = 0
  · subst hP
    have hinf : m p = infinityLd := h
    refine iff_of_true ?_ (Or.inl rfl)
    rw [ecDoubleLd, ecEqualsLd_iff.mpr hinf]
    simp only [if_true, Memory.ecCopyLd_self]
    exact Represents.affine (P := 0) rfl
  · rw [ecDoubleLd_eq (h.ne_infinityLd hP)]
    simp only [hP, false_or]
    rcases P with _ | ⟨x, y, hcurve⟩
    · exact absurd rfl hP
    have hscaled : Koblitz.Scaled (m p).x (m p).y (m p).z x y := h
    by_cases hx : x = 0
    · have hX : (m p).x = 0 := by rw [hscaled.x_eq, hx, zero_mul]
      refine iff_of_true ?_ (Or.inl hX)
      rw [Koblitz.add_self_of_zero hcurve hx]
      simp [EcPoint.affine, hX]
      rfl
    · have hX : (m p).x ≠ 0 := by
        rw [hscaled.x_eq]
        exact mul_ne_zero hx hscaled.ne
      simp only [hX, false_or]
      have hsum := Koblitz.double_some hcurve hx (Koblitz.nonsingular_double hcurve hx)
      rw [hsum]
      constructor
      · intro heq
        exact double_x hx hscaled.ne hscaled.x_eq (Koblitz.tangent_meets hcurve hx)
          (congrArg Point.x heq)
      · intro heq
        have hfour : (m p).x ^ 2 = (m p).z ^ 4 := by rw [heq]; ring
        obtain ⟨hx₃, hy₃⟩ := (hscaled.double hcurve hx).affine
        rw [hfour] at *
        exact congrArg₂ Point.mk hx₃ hy₃

theorem cube_ne_one {x y : Elem} (h : E.Nonsingular x y) : x ^ 3 ≠ 1 := by
  rw [Koblitz.nonsingular_iff] at h
  have h2 : (2 : Elem) = 0 := CharTwo.two_eq_zero
  intro hcube
  have hprod : (x - 1) * (x ^ 2 + x + 1) = 0 := by linear_combination hcube
  rcases mul_eq_zero.mp hprod with hone | hroot
  · obtain rfl := sub_eq_zero.mp hone
    exact square_add_ne_one y (by linear_combination h + h2)
  · exact square_add_ne_one x (by linear_combination hroot - h2)

/-- The line through two points, neither of them the infinity of its coordinates. -/
theorem ecAddLd_line (hp : m p ≠ infinityLd) (hq : m q ≠ infinityLd) (hne : p2 ≠ q) {A B C : Elem}
    (hA : A = (m p).y + (m p).z ^ 2 * (m q).y) (hB : B = (m p).x + (m p).z * (m q).x)
    (hC : C = (m p).z * B) (hline : B ≠ 0) :
    ecAddLd m p2 p q p2 = ⟨⟨A ^ 2 + B ^ 2 * (C + (m p).z ^ 2) + A * C,
      (A * C + C ^ 2) * ((m q).x * C ^ 2 + (A ^ 2 + B ^ 2 * (C + (m p).z ^ 2) + A * C)) +
        (C ^ 2) ^ 2 * ((m q).x + (m q).y)⟩, C ^ 2⟩ := by
  rw [ecAddLd, ecEqualsLd_false hp, ecEqualsLd_false hq]
  simp only [multiply_eq, add_eq, rrotate_eq_square, zero_eq, Bool.false_eq_true, if_false,
    Memory.setX_x, Memory.setX_y, Memory.setX_z, Memory.setY_x, Memory.setY_y,
    Memory.setX_of_ne hne.symm, Memory.setY_of_ne hne.symm, Memory.setZ_of_ne hne.symm, ← hB,
    ← hC, ← hA, hline]
  ext <;> simp <;> ring

/-- A point and one above it: equal points are doubled, and opposite ones have the sum infinity. -/
theorem ecAddLd_above (hp : m p ≠ infinityLd) (hq : m q ≠ infinityLd) (hne : p2 ≠ q)
    (hline : (m p).x + (m p).z * (m q).x = 0) :
    ∃ m' : Memory ι, m' q = m q ∧ ecAddLd m p2 p q p2 =
      if (m p).y + (m p).z ^ 2 * (m q).y = 0 then ecDoubleLd m' p2 q p2 else infinityLd := by
  refine ⟨(m.setX p2 0).setY p2 ((m p).y + (m p).z ^ 2 * (m q).y),
    by rw [Memory.setY_of_ne hne.symm, Memory.setX_of_ne hne.symm], ?_⟩
  rw [ecAddLd, ecEqualsLd_false hp, ecEqualsLd_false hq]
  simp only [multiply_eq, add_eq, rrotate_eq_square, zero_eq, Bool.false_eq_true, if_false,
    Memory.setX_x, Memory.setX_y, Memory.setY_x, Memory.setY_y, Memory.setX_of_ne hne.symm, hline,
    if_true]
  split_ifs
  · rfl
  · exact Memory.ecCopyLd_self

/-- The line through a point and what `ec_add_ld` takes for an affine one. -/
theorem ecAddLd_infinity (h : Represents (m p) P) (hP : P ≠ 0)
    (hq : (m q).toPoint = infinity) (hz : (m q).z = gnbOne) (hne : p2 ≠ q) :
    (ecAddLd m p2 p q p2).affine ≠ pointOf P := by
  have hq' := ne_infinityLd hz
  have hx : (m q).x = 0 := congrArg Point.x hq
  have hy : (m q).y = 0 := congrArg Point.y hq
  have hp := h.ne_infinityLd hP
  rcases P with _ | ⟨x, y, hcurve⟩
  · exact absurd rfl hP
  obtain ⟨hZ, hX, hY⟩ : Koblitz.Scaled (m p).x (m p).y (m p).z x y := h
  by_cases hzero : x = 0
  · have hline : (m p).x + (m p).z * (m q).x = 0 := by rw [hX, hx, hzero]; simp
    have hy₀ : (m p).y + (m p).z ^ 2 * (m q).y ≠ 0 := by
      rw [hY, hy, mul_zero, add_zero]
      refine mul_ne_zero ?_ (pow_ne_zero 2 hZ)
      rintro rfl
      have := Koblitz.nonsingular_iff.mp hcurve
      simp [hzero] at this
    obtain ⟨m', -, heq⟩ := ecAddLd_above hp hq' hne hline
    rw [heq, if_neg hy₀]
    intro hinf
    exact hP (pointOf_eq_infinity.mp (hinf.symm.trans (Represents.affine (P := 0) rfl)))
  · have hline : (m p).x + (m p).z * (m q).x ≠ 0 := by
      rw [hX, hx, mul_zero, add_zero]
      exact mul_ne_zero hzero hZ
    rw [ecAddLd_line hp hq' hne rfl rfl rfl hline]
    intro heq
    have hx₃ := congrArg Point.x heq
    simp only [EcPoint.affine, pointOf, hx, hy, mul_zero, add_zero, hX, hY] at hx₃
    apply cube_ne_one hcurve
    rw [Koblitz.nonsingular_iff] at hcurve
    field_simp at hx₃
    linear_combination hcurve - hx₃ + (x ^ 3 + x ^ 2) * CharTwo.two_eq_zero (R := Elem)

omit [DecidableEq ι] in
theorem represents_affine (hQ : Q ≠ 0) (hq : (m q).toPoint = pointOf Q) (hz : (m q).z = gnbOne) :
    Represents (m q) Q := by
  rcases Q with _ | ⟨x, y, hcurve⟩
  · exact absurd rfl hQ
  · refine ⟨by rw [hz]; exact one_ne_zero, ?_, ?_⟩
    · rw [hz, one_eq, mul_one]
      exact congrArg Point.x hq
    · rw [hz, one_eq, one_pow, mul_one]
      exact congrArg Point.y hq

/-- `z = 1` is no double of an abscissa: the tangent of an affine point is lost but for `x = 0`. -/
theorem x_ne_one (Q : E.Point) : (pointOf Q).x ≠ 1 := by
  rcases Q with _ | ⟨x, y, hcurve⟩
  · exact zero_ne_one
  · intro hx
    apply cube_ne_one hcurve
    have hone : x = 1 := hx
    rw [hone, one_pow]

theorem Represents.scaled {e : EcPoint} (h : Represents e P) (hP : P ≠ 0) :
    Koblitz.Scaled e.x e.y e.z (pointOf P).x (pointOf P).y := by
  rcases P with _ | ⟨x, y, hcurve⟩
  · exact absurd rfl hP
  · exact h

theorem ecAddLd_chord (h : Represents (m p) P) (hP : P ≠ 0) (hq : (m q).toPoint = pointOf Q)
    (hQ : Q ≠ 0) (hz : (m q).z = gnbOne) (hne : p2 ≠ q)
    (hx : (pointOf P).x ≠ (pointOf Q).x) :
    (ecAddLd m p2 p q p2).affine = pointOf (P + Q) := by
  have hsum : (pointOf P).x + (pointOf Q).x ≠ 0 := fun h => hx (CharTwo.add_eq_zero.mp h)
  have hscaled := h.scaled hP
  have hqx : (m q).x = (pointOf Q).x := congrArg Point.x hq
  have hqy : (m q).y = (pointOf Q).y := congrArg Point.y hq
  have hline : (m p).x + (m p).z * (m q).x ≠ 0 := by
    rw [hscaled.x_eq, hqx, mul_comm, ← mul_add]
    exact mul_ne_zero hscaled.ne hsum
  obtain ⟨l, hl⟩ : ∃ l, l * ((pointOf P).x + (pointOf Q).x) = (pointOf P).y + (pointOf Q).y :=
    ⟨_, div_mul_cancel₀ _ hsum⟩
  rw [ecAddLd_line (h.ne_infinityLd hP) (ne_infinityLd hz) hne rfl rfl rfl hline, hqx, hqy,
    pointOf_chord hP hQ hx hl]
  obtain ⟨hx₃, hy₃⟩ := (hscaled.add hx hl rfl rfl rfl).affine
  exact congrArg₂ Point.mk hx₃ hy₃

/-- Equal points go through `ec_double_ld`, which is right for none with `z = 1` and `x ≠ 0`. -/
theorem ecAddLd_same (h : Represents (m p) P) (hP : P ≠ 0) (hq : (m q).toPoint = pointOf Q)
    (hQ : Q ≠ 0) (hz : (m q).z = gnbOne) (hne : p2 ≠ q)
    (hx : (pointOf P).x = (pointOf Q).x) :
    (ecAddLd m p2 p q p2).affine = pointOf (P + Q) ↔ (P = Q → (m q).x = 0) := by
  have hscaled := h.scaled hP
  have hqx : (m q).x = (pointOf Q).x := congrArg Point.x hq
  have hqy : (m q).y = (pointOf Q).y := congrArg Point.y hq
  have hline : (m p).x + (m p).z * (m q).x = 0 := by
    rw [hscaled.x_eq, hqx, hx, mul_comm]
    exact double _
  obtain ⟨m', hm', heq⟩ := ecAddLd_above (h.ne_infinityLd hP) (ne_infinityLd hz) hne hline
  have hmeet : (m p).y + (m p).z ^ 2 * (m q).y = 0 ↔ P = Q := by
    rw [hscaled.y_eq, hqy, mul_comm, ← mul_add, mul_eq_zero, CharTwo.add_eq_zero]
    simp only [pow_ne_zero 2 hscaled.ne, false_or]
    constructor
    · exact fun hy => pointOf_injective (Point.ext hx hy)
    · exact fun he => congrArg (fun R => (pointOf R).y) he
  rw [heq]
  by_cases hPQ : P = Q
  · subst hPQ
    have hq' : Represents (m' q) P := by
      rw [hm']
      exact represents_affine hQ hq hz
    rw [if_pos (hmeet.mpr rfl), ecDoubleLd_affine hq', hm', hz, one_eq, one_pow]
    have hone : (m q).x ≠ 1 := hqx ▸ x_ne_one P
    simp [hP, hone]
  · have hopposite : P + Q = 0 :=
      add_eq_zero_iff_eq_neg.mpr (((same_x hP hQ).mp hx).resolve_left hPQ)
    rw [if_neg (mt hmeet.mp hPQ), hopposite]
    exact iff_of_true (Represents.affine (P := 0) rfl) fun he => absurd he hPQ

theorem ecAddLd_affine (h : Represents (m p) P) (hq : (m q).toPoint = pointOf Q)
    (hz : (m q).z = gnbOne) (hne : p2 ≠ q) :
    (ecAddLd m p2 p q p2).affine = pointOf (P + Q) ↔
      P = 0 ∨ Q ≠ 0 ∧ (P = Q → (m q).x = 0) := by
  by_cases hP : P = 0
  · subst hP
    have hinf : m p = infinityLd := h
    refine iff_of_true ?_ (Or.inl rfl)
    rw [ecAddLd, ecEqualsLd_false (ne_infinityLd hz), ecEqualsLd_iff.mpr hinf, zero_add, ← hq]
    simp [EcPoint.affine, hz]
  by_cases hQ : Q = 0
  · subst hQ
    simpa [hP] using ecAddLd_infinity h hP hq hz hne
  simp only [hP, hQ, false_or, ne_eq, not_false_eq_true, true_and]
  by_cases hx : (pointOf P).x = (pointOf Q).x
  · exact ecAddLd_same h hP hq hQ hz hne hx
  · exact iff_of_true (ecAddLd_chord h hP hq hQ hz hne hx) fun he =>
      absurd (congrArg (fun R => (pointOf R).x) he) hx

theorem ecSubLd_affine {junk : EcPoint} (h : Represents (m p0) P)
    (hq : (m p1).toPoint = pointOf Q) (hz : (m p1).z = gnbOne) :
    (ecSubLd m junk p2 p0 p1 p2).affine = pointOf (P - Q) ↔
      P = 0 ∨ Q ≠ 0 ∧ (P = -Q → (m p1).x = 0) := by
  have hneg : (⟨(m p1).x, (m p1).x + (m p1).y⟩ : Point) = pointOf (-Q) := by
    rw [pointOf_neg, ← hq]
  generalize he : EcPoint.mk (⟨(m p1).x, (m p1).x + (m p1).y⟩ : Point) (m p1).z = e
  have hsub : ecSubLd m junk p2 p0 p1 p2 =
      ecAddLd (m.push e) (some p2) (some p0) none (some p2) := by
    simp only [ecSubLd, Memory.push_ecCopyLd, Memory.push_setY, Memory.push_some, add_eq, he]
    rfl
  have hp' : Represents ((m.push e) (some p0)) P := h
  have hq' : ((m.push e) none).toPoint = pointOf (-Q) := by
    rw [← hneg, ← he]
    rfl
  have hz' : ((m.push e) none).z = gnbOne := by
    rw [← hz, ← he]
    rfl
  have hx : ((m.push e) none).x = (m p1).x := by
    rw [← he]
    rfl
  rw [hsub, sub_eq_add_neg, ecAddLd_affine hp' hq' hz' (by simp), hx, ne_eq, neg_eq_zero]

/-- The points that are read are those of the curve, with `(0, 0)` for infinity. -/
theorem exists_pointOf {e : Point} : (∃ P, pointOf P = e) ↔ e = infinity ∨ OnCurve e := by
  constructor
  · rintro ⟨P, rfl⟩
    exact pointOf_curve P
  · rintro (rfl | h)
    · exact ⟨0, rfl⟩
    · exact ⟨.some _ _ (nonsingular_of_onCurve h), rfl⟩

theorem exists_represents {e : EcPoint} : (∃ P, Represents e P) ↔ e = infinityLd ∨ e.z ≠ 0 ∧
    e.y ^ 2 + e.x * e.y * e.z = e.x ^ 3 * e.z + e.x ^ 2 * e.z ^ 2 + e.z ^ 4 := by
  constructor
  · rintro ⟨_ | ⟨x, y, hcurve⟩, h⟩
    · exact Or.inl h
    · obtain ⟨hz, hx, hy⟩ := h
      rw [Koblitz.nonsingular_iff] at hcurve
      refine Or.inr ⟨hz, ?_⟩
      rw [hx, hy]
      linear_combination e.z ^ 4 * hcurve
  · rintro (h | ⟨hz, h⟩)
    · exact ⟨0, h⟩
    · have hcurve : E.Nonsingular (e.x / e.z) (e.y / e.z ^ 2) := by
        rw [Koblitz.nonsingular_iff]
        field_simp
        linear_combination h
      exact ⟨.some _ _ hcurve, hz, by field_simp, by field_simp⟩

/-- When the arithmetic of points is that of the curve: `ec_add` takes opposite points for equal
ones, `ec_double_ld` is off but where `x = 0` or `x = z²`, and `ec_add_ld` knows no affine
infinity. -/
theorem groupLaw_iff (m : Memory ι) (junk : EcPoint) (p2 p0 p1 r : ι)
    (hq : (m p1).toPoint = pointOf Q) :
    ((m p0).toPoint = pointOf P →
      (ecAdd m p2 p0 p1 = m.ecCopy p2 (pointOf (P + Q)) ↔ (P = -Q → (m p1).x = 0)) ∧
      (ecSub m junk p2 p0 p1 = m.ecCopy p2 (pointOf (P - Q)) ↔ (P = Q → (m p1).x = 0))) ∧
    (Represents (m p0) P →
      ((ecNormalize (ecDoubleLd m p2 p0) r p2 r).toPoint = pointOf (P + P) ↔
        P = 0 ∨ (m p0).x = 0 ∨ (m p0).x = (m p0).z ^ 2) ∧
      ((m p1).z = gnbOne →
        (p2 ≠ p1 → ((ecNormalize (ecAddLd m p2 p0 p1) r p2 r).toPoint = pointOf (P + Q) ↔
          P = 0 ∨ Q ≠ 0 ∧ (P = Q → (m p1).x = 0))) ∧
        ((ecNormalize (ecSubLd m junk p2 p0 p1) r p2 r).toPoint = pointOf (P - Q) ↔
          P = 0 ∨ Q ≠ 0 ∧ (P = -Q → (m p1).x = 0)))) := by
  have hx : (m p1).x = (pointOf Q).x := congrArg Point.x hq
  refine ⟨fun hp => ⟨?_, ?_⟩, fun h => ⟨?_, fun hz => ⟨fun hne => ?_, ?_⟩⟩⟩
  · rw [ecAdd_eq hp hq, Memory.ecCopy_inj, pointOf_injective.eq_iff, sumOf_eq_add, hx]
  · rw [ecSub_eq hp hq, Memory.ecCopy_inj, pointOf_injective.eq_iff, sub_eq_add_neg, sumOf_eq_add,
      neg_neg, pointOf_neg, hx]
  · rw [ecNormalize_toPoint, ecDoubleLd_affine h]
  · rw [ecNormalize_toPoint, ecAddLd_affine h hq hz hne]
  · rw [ecNormalize_toPoint, ecSubLd_affine h hq hz]

/-- The base point and another point. -/
def withBase (e : Point) : Memory Bool
  | true => ⟨basePoint, gnbOne⟩
  | false => ⟨e, gnbOne⟩

theorem base_x_ne_zero : basePoint.x ≠ 0 := by decide +kernel

theorem base_x_ne_half : (pointOf G).x ≠ (pointOf H).x := by
  have hne : basePoint.x ≠ halfPoint.x := by decide +kernel
  exact hne

/-- The sum of the base point and its half goes in the place of the base point. -/
theorem groupLaw_half :
    ecAdd (withBase halfPoint) true true false =
        (withBase halfPoint).ecCopy true (pointOf (G + H)) ∧
      (ecNormalize (ecAddLd (withBase halfPoint) true true false) true true true).toPoint =
        pointOf (G + H) := by
  have hne : ∀ {R : E.Point}, (pointOf R).x = (pointOf H).x → G ≠ R := by
    rintro R hR rfl
    exact base_x_ne_half hR
  have hG : Represents (withBase halfPoint true) G := represents_affine nofun rfl rfl
  obtain ⟨haffine, hprojective⟩ := groupLaw_iff (P := G) (Q := H) (withBase halfPoint) infinityLd
    true true false true rfl
  refine ⟨(haffine rfl).1.mpr fun he => absurd he (hne ?_), (((hprojective hG).2 rfl).1 nofun).mpr
    (Or.inr ⟨nofun, fun he => absurd he (hne rfl)⟩)⟩
  rw [pointOf_neg]

/-- The base point and its opposite: `ec_add` doubles; and the double of `ec_double_ld`. -/
theorem not_groupLaw :
    ecAdd (withBase (pointOf (-G))) true true false ≠
        (withBase (pointOf (-G))).ecCopy true (pointOf (G + -G)) ∧
      (ecNormalize (ecDoubleLd (withBase basePoint) true false) true true true).toPoint ≠
        pointOf (G + G) := by
  have hx : (pointOf G).x ≠ 0 := base_x_ne_zero
  have hopposite : ¬ (G = - -G → (pointOf (-G)).x = 0) := by
    rw [neg_neg, pointOf_neg]
    exact fun h => hx (h rfl)
  have hbase : Represents (withBase basePoint false) G := represents_affine nofun rfl rfl
  refine ⟨?_, ?_⟩
  · rw [ne_eq, ecAdd_eq (P := G) (Q := -G) rfl rfl, Memory.ecCopy_inj, pointOf_injective.eq_iff,
      sumOf_eq_add]
    exact hopposite
  · rw [ecNormalize_toPoint, ne_eq, ecDoubleLd_affine hbase]
    rintro (h | h | h)
    · exact absurd h nofun
    · exact hx h
    · exact x_ne_one G (h.trans (one_pow 2))

end Blackadder.Ec
