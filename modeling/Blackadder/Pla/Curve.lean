import Blackadder.Pla.Field
import Mathlib.Tactic.FieldSimp
import Mathlib.Tactic.LinearCombination

/-!
# Points of libpla

`ec.c`: the curve `y² + xy = x³ + x² + 1`, its base point and order, and the compressed form of a
point.
-/

namespace Blackadder.Ec

open Gnb

variable {a b x y z z₀ beta : Elem} {i m n : Nat}

/-- `ecpoint_t`, affine. -/
structure Point where
  x : Elem
  y : Elem
deriving DecidableEq

def infinity : Point := ⟨gnbZero, gnbZero⟩

/-- `elem_from_hex` and what `ec_init` does with its answer: the first bit is the last coefficient
of the string. -/
def baseFromHex (z : Nat) : Elem := ⟨(BitVec.ofNat degree z).reverse⟩

/-- `e.g`. -/
def basePoint : Point where
  x := baseFromHex 0x05679b353caa46825fea2d3713ba450da0c2a4541
  y := baseFromHex 0x235b7c6710050689906bac3d9dec76a835591edb2

/-- `V[i]` and `V[i + 1]` of `tau_init`. -/
def tauV : Nat → Int × Int
  | 0 => (2, 1)
  | i + 1 => ((tauV i).2, (tauV i).2 - 2 * (tauV i).1)

/-- `e.r`. -/
def order : Int := (2 ^ degree + 1 - (tauV degree).1) >>> (1 : Nat)

theorem order_eq : order = 5846006549323611672814741753598448348329118574063 := by decide +kernel

theorem order_pos : 0 < order := by rw [order_eq]; decide

/-! ## Quadratic equations -/

def elemSetcoef (a : Elem) (i : Nat) : Elem := ⟨a.coefs ||| BitVec.twoPow degree i⟩

def solveLoop (beta : Elem) : Nat → Nat → Bool → Elem → Elem
  | 0, _, _, z => z
  | m + 1, i, prevbit, z =>
    let prevbit := prevbit ^^ elemGetcoef beta i
    solveLoop beta m (i + 1) prevbit (if prevbit then elemSetcoef z i else z)

/-- The solution of `z² + z = beta` whose coefficient zero is clear, or zero. -/
def ecSolveQuad (beta : Elem) : Elem :=
  let z := solveLoop beta (degree - 1) 1 false gnbZero
  if gnbAdd (elemRrotate z) z = beta then z else gnbZero

def ecIsPointOnCurve (p : Point) : Bool :=
  gnbAdd (gnbMultiply p.x p.y) (elemRrotate p.y) =
    gnbAdd (gnbAdd (gnbMultiply (elemRrotate p.x) p.x) (elemRrotate p.x)) gnbOne

def ecDecompressPoint (x : Elem) (y : Bool) : Point :=
  let beta := elemRrotate x
  let alpha := gnbAdd (gnbAdd (gnbMultiply beta x) beta) gnbOne
  let z := ecSolveQuad (gnbMultiply alpha (gnbInverse beta))
  let z := if elemGetcoef z 0 ^^ y then gnbAdd z gnbOne else z
  ⟨x, gnbMultiply z x⟩

def ecCompressPoint (p : Point) : Bool := elemGetcoef (gnbMultiply (gnbInverse p.x) p.y) 0

theorem elemGetcoef_eq (hi : i < degree) : elemGetcoef a i = cyc a i := by
  rw [elemGetcoef, cyc, Nat.mod_eq_of_lt hi]

theorem cyc_square : cyc (a ^ 2) (n + 1) = cyc a n := by
  rw [← rrotate_eq_square, cyc_rrotate]

theorem cyc_setcoef (hi : i < degree) (hn : n < degree) :
    cyc (elemSetcoef a i) n = (cyc a n || decide (n = i)) := by
  unfold cyc elemSetcoef
  rw [Nat.mod_eq_of_lt hn, BitVec.getLsbD_or, BitVec.getLsbD_twoPow, decide_eq_true hi,
    Bool.true_and]
  simp only [eq_comm]

/-- The first `i` coefficients of `z₀`. -/
def Copied (z₀ z : Elem) (i : Nat) : Prop :=
  ∀ n < degree, cyc z n = (decide (n < i) && cyc z₀ n)

theorem solveLoop_eq (hz : z₀ ^ 2 + z₀ = beta) (hm : i + m = degree) (hpos : 0 < i)
    (hcopied : Copied z₀ z i) : solveLoop beta m i (cyc z₀ (i - 1)) z = z₀ := by
  induction m generalizing i z with
  | zero =>
    refine ext_cyc fun n => ?_
    have hlt : n % degree < degree := Nat.mod_lt _ (by decide)
    rw [← cyc_mod, solveLoop, hcopied _ hlt, decide_eq_true (by omega), Bool.true_and, cyc_mod]
  | succ m ih =>
    have hbit : (cyc z₀ (i - 1) ^^ elemGetcoef beta i) = cyc z₀ (i + 1 - 1) := by
      have hsquare := cyc_square (a := z₀) (n := i - 1)
      rw [Nat.sub_add_cancel hpos] at hsquare
      rw [elemGetcoef_eq (by omega), ← hz, cyc_add', hsquare, Nat.add_sub_cancel]
      simp
    simp only [solveLoop, hbit]
    refine ih (by omega) (by omega) fun n hn => ?_
    cases hset : cyc z₀ i with
    | true =>
      rw [if_pos (by simpa using hset), cyc_setcoef (by omega) hn, hcopied n hn]
      rcases Nat.lt_trichotomy n i with hlt | rfl | hgt
      · simp [hlt, Nat.lt_succ_of_lt hlt, hlt.ne]
      · simp [hset]
      · have hno : ¬ n < i + 1 := by omega
        simp [hgt.ne', hgt.le.not_gt, hno]
    | false =>
      rw [if_neg (by simpa using hset), hcopied n hn]
      rcases Nat.lt_trichotomy n i with hlt | rfl | hgt
      · simp [hlt, Nat.lt_succ_of_lt hlt]
      · simp [hset]
      · have hno : ¬ n < i + 1 := by omega
        simp [hgt.le.not_gt, hno]

/-- An equation with a solution: the one that begins with a clear coefficient is found. -/
theorem solveQuad_eq (hz : z₀ ^ 2 + z₀ = beta) (hzero : cyc z₀ 0 = false) :
    ecSolveQuad beta = z₀ := by
  have hcopied : Copied z₀ gnbZero 1 := by
    intro n hn
    rcases Nat.eq_zero_or_pos n with rfl | hpos
    · simp [hzero]
    · rw [decide_eq_false (by omega)]
      simp
  have hloop := solveLoop_eq (m := degree - 1) hz (by decide) Nat.one_pos hcopied
  rw [Nat.sub_self, hzero] at hloop
  simp only [ecSolveQuad, hloop]
  simp [hz]

/-! ## Compressed points -/

def OnCurve (p : Point) : Prop := p.y ^ 2 + p.x * p.y = p.x ^ 3 + p.x ^ 2 + 1

theorem onCurve_iff {p : Point} : ecIsPointOnCurve p = true ↔ OnCurve p := by
  simp only [ecIsPointOnCurve, OnCurve, multiply_eq, add_eq, one_eq, rrotate_eq_square,
    decide_eq_true_eq, add_comm (p.x * p.y), pow_succ p.x 2]

/-- Of the two solutions, the one that begins with the given coefficient. -/
theorem solution_eq (hz : z ^ 2 + z = beta) :
    (if elemGetcoef (ecSolveQuad beta) 0 ^^ cyc z 0 then gnbAdd (ecSolveQuad beta) gnbOne
      else ecSolveQuad beta) = z := by
  have hget : elemGetcoef (ecSolveQuad beta) 0 = cyc (ecSolveQuad beta) 0 :=
    elemGetcoef_eq (by decide)
  cases hzero : cyc z 0 with
  | false =>
    rw [hget, solveQuad_eq hz hzero]
    simp [hzero]
  | true =>
    have hother : (z + 1) ^ 2 + (z + 1) = beta := by
      linear_combination hz + (z + 1) * CharTwo.two_eq_zero (R := Elem)
    have hclear : cyc (z + 1) 0 = false := by simp [hzero]
    rw [hget, solveQuad_eq hother hclear, hclear]
    have hback : z + 1 + 1 = z := by rw [add_assoc, double, add_zero]
    simpa using hback

/-- A point comes back from its compressed form. -/
theorem decompress_compress {p : Point} (hp : OnCurve p) (hx : p.x ≠ 0) :
    ecDecompressPoint p.x (ecCompressPoint p) = p := by
  obtain ⟨x, y⟩ := p
  have h2 : (2 : Elem) = 0 := CharTwo.two_eq_zero
  have hz : (x⁻¹ * y) ^ 2 + x⁻¹ * y = (x ^ 2 * x + x ^ 2 + 1) * (x ^ 2)⁻¹ := by
    have heq : y ^ 2 + x * y = x ^ 3 + x ^ 2 + 1 := hp
    field_simp
    linear_combination heq
  have hbit : ecCompressPoint ⟨x, y⟩ = cyc (x⁻¹ * y) 0 := elemGetcoef_eq (by decide)
  have hsolved := solution_eq hz
  rw [hbit]
  simp only [ecDecompressPoint, multiply_eq, add_eq, one_eq, rrotate_eq_square, inverse_eq] at *
  rw [hsolved]
  congr 1
  field_simp

theorem decompress_infinity : ecDecompressPoint infinity.x (ecCompressPoint infinity) = infinity := by
  decide +kernel

/-! ## The group of the base point -/

/-- The operations of `ec.c` on points. -/
structure Ops where
  ecAdd : Point → Point → Point
  ecSub : Point → Point → Point
  ecMultiply : Point → Int → Point

/-- The multiples `pt k` of the base point form a group of the given order, and the operations are
right on them. -/
structure Ops.Correct (ops : Ops) (pt : Int → Point) : Prop where
  zero : pt 0 = infinity
  one : pt 1 = basePoint
  cyclic : pt order = infinity
  curve : ∀ a, pt a = infinity ∨ OnCurve (pt a)
  neg : ∀ a, pt (-a) = ⟨(pt a).x, (pt a).x + (pt a).y⟩
  add : ∀ a b, ops.ecAdd (pt a) (pt b) = pt (a + b)
  sub : ∀ a b, ops.ecSub (pt a) (pt b) = pt (a - b)
  multiply : ∀ a k, ops.ecMultiply (pt a) k = pt (k * a)

namespace Ops.Correct

variable {ops : Ops} {pt : Int → Point} (h : ops.Correct pt) {j k l : Int}
include h

theorem base (k : Int) : ops.ecMultiply basePoint k = pt k := by
  rw [← h.one, h.multiply, mul_one]

theorem cycles : pt (k * order) = infinity := by
  rw [← h.multiply, h.cyclic, ← h.zero, h.multiply, mul_zero]

theorem emod : pt (k % order) = pt k := by
  have hsplit : k = k / order * order + k % order := (Int.ediv_mul_add_emod k order).symm
  calc pt (k % order) = ops.ecAdd (pt (k / order * order)) (pt (k % order)) := by
        rw [h.cycles, ← h.zero, h.add, zero_add]
    _ = pt k := by rw [h.add, ← hsplit]

/-- No point but infinity has the first coordinate zero: it would be of order two. -/
theorem x_ne_zero (hne : pt k ≠ infinity) : (pt k).x ≠ 0 := by
  intro hx
  have hself : pt (-k) = pt k := by
    rw [h.neg, hx, zero_add, ← hx]
  have htwice : pt (k + k) = infinity := by
    rw [← h.add]
    nth_rewrite 2 [← hself]
    rw [h.add, add_neg_cancel, h.zero]
  have hodd : k * order + k = (order + 1) / 2 * (k + k) := by
    have heven : (order + 1) / 2 * 2 = order + 1 := by rw [order_eq]; decide
    linear_combination (-k) * heven
  apply hne
  calc pt k = ops.ecAdd (pt (k * order)) (pt k) := by
        rw [h.cycles, ← h.zero, h.add, zero_add]
    _ = ops.ecMultiply (pt (k + k)) ((order + 1) / 2) := by rw [h.add, hodd, h.multiply]
    _ = infinity := by rw [htwice, ← h.zero, h.multiply, mul_zero]

theorem decompress : ecDecompressPoint (pt k).x (ecCompressPoint (pt k)) = pt k := by
  by_cases hinf : pt k = infinity
  · rw [hinf, decompress_infinity]
  · exact decompress_compress ((h.curve k).resolve_left hinf) (h.x_ne_zero hinf)

end Ops.Correct

end Blackadder.Ec
