import Mathlib.Algebra.BigOperators.Field
import Mathlib.Algebra.BigOperators.Group.Finset.Defs
import Mathlib.Algebra.Order.BigOperators.Group.Finset
import Mathlib.Algebra.Order.Field.Basic
import Mathlib.Analysis.SpecialFunctions.Log.Basic
import Mathlib.Analysis.SpecialFunctions.Pow.Real

/-!
# Concurrent flows and lengths

Demands that share capacities, routings that meet the same ratio of each of them, and what lengths of the edges say of
that ratio. Lengths that grow with what is sent have a least number of rounds before their volume is one.
-/

namespace ConcurrentFlow

/-- Edges `E` with capacities, and demands `I`, each with its routes. -/
structure Problem (E I K : Type*) where
  capacity : E → K
  demand : I → K
  IsRoute : I → List E → Prop

/-- Amounts on routes. -/
abbrev Plan (E I K : Type*) := I → List (List E × K)

variable {E I K : Type*} [Fintype E] [DecidableEq E] [Fintype I]

section

variable [Field K]

def load (plan : Plan E I K) (a : E) : K := ∑ i, ((plan i).map fun entry => (entry.1.count a : K) * entry.2).sum

/-- The capacities, weighted with the lengths. -/
def Problem.volume (P : Problem E I K) (w : E → K) : K := ∑ a, w a * P.capacity a

theorem sum_map_eq_sum_count (w : E → K) (l : List E) : (l.map w).sum = ∑ a, w a * l.count a := by
  induction l with
  | nil => simp
  | cons b l ih =>
    have hterm : ∀ a, w a * ((b :: l).count a : K) = w a * l.count a + if a = b then w a else 0 := by
      intro a
      rw [List.count_cons]
      by_cases ha : a = b
      · subst ha
        simp [mul_add]
      · simp [ha, Ne.symm ha]
    rw [List.map_cons, List.sum_cons, ih, Finset.sum_congr rfl fun a _ => hterm a, Finset.sum_add_distrib,
      Finset.sum_ite_eq' Finset.univ b, if_pos (Finset.mem_univ b), add_comm]

/-- What the amounts pass in length is what the loads do. -/
theorem sum_lengths_eq (w : E → K) (plan : Plan E I K) :
    ∑ i, ((plan i).map fun entry => entry.2 * (entry.1.map w).sum).sum = ∑ a, w a * load plan a := by
  have hlist : ∀ l : List (List E × K), (l.map fun entry => entry.2 * (entry.1.map w).sum).sum =
      ∑ a, w a * (l.map fun entry => (entry.1.count a : K) * entry.2).sum := by
    intro l
    induction l with
    | nil => simp
    | cons entry l ih =>
      simp only [List.map_cons, List.sum_cons, ih, mul_add, Finset.sum_add_distrib]
      rw [sum_map_eq_sum_count, Finset.mul_sum]
      congr 1
      refine Finset.sum_congr rfl ?_
      intro a _
      ring
  simp only [hlist, load, Finset.mul_sum]
  exact Finset.sum_comm

variable [LinearOrder K]

/-- The plan meets `ratio` of every demand over routes of its own, within the capacities. -/
structure Problem.Routing (P : Problem E I K) (ratio : K) (plan : Plan E I K) : Prop where
  routes : ∀ i, ∀ entry ∈ plan i, P.IsRoute i entry.1
  nonneg : ∀ i, ∀ entry ∈ plan i, 0 ≤ entry.2
  total : ∀ i, ratio * P.demand i ≤ ((plan i).map Prod.snd).sum
  fits : ∀ a, load plan a ≤ P.capacity a

/-- No route of a demand is shorter than its distance. -/
structure Problem.Distances (P : Problem E I K) (w : E → K) (dist : I → K) : Prop where
  nonneg : ∀ i, 0 ≤ dist i
  le : ∀ i route, P.IsRoute i route → dist i ≤ (route.map w).sum

variable [IsStrictOrderedRing K] {P : Problem E I K} {ratio : K} {plan : Plan E I K} {w : E → K} {dist : I → K}

/-- Lengths bound the ratio. -/
theorem Problem.Routing.mul_le_volume (h : P.Routing ratio plan) (hw : ∀ a, 0 ≤ w a)
    (hdist : P.Distances w dist) : ratio * ∑ i, P.demand i * dist i ≤ P.volume w := by
  have hdemand : ∀ i, ratio * (P.demand i * dist i) ≤
      ((plan i).map fun entry => entry.2 * (entry.1.map w).sum).sum := by
    intro i
    calc ratio * (P.demand i * dist i) = ratio * P.demand i * dist i := (mul_assoc _ _ _).symm
      _ ≤ ((plan i).map Prod.snd).sum * dist i := mul_le_mul_of_nonneg_right (h.total i) (hdist.nonneg i)
      _ = ((plan i).map fun entry => entry.2 * dist i).sum := (List.sum_map_mul_right (plan i) Prod.snd (dist i)).symm
      _ ≤ ((plan i).map fun entry => entry.2 * (entry.1.map w).sum).sum :=
        List.sum_le_sum fun entry hentry =>
          mul_le_mul_of_nonneg_left (hdist.le i _ (h.routes i entry hentry)) (h.nonneg i entry hentry)
  calc ratio * ∑ i, P.demand i * dist i = ∑ i, ratio * (P.demand i * dist i) := Finset.mul_sum _ _ _
    _ ≤ ∑ i, ((plan i).map fun entry => entry.2 * (entry.1.map w).sum).sum :=
      Finset.sum_le_sum fun i _ => hdemand i
    _ = ∑ a, w a * load plan a := sum_lengths_eq w plan
    _ ≤ P.volume w := Finset.sum_le_sum fun a _ => mul_le_mul_of_nonneg_left (h.fits a) (hw a)

/-- A round that lets the volume grow by at most `e` times what the demands are apart. -/
theorem Problem.Routing.round (h : P.Routing ratio plan) (hratio : 0 < ratio) {e : K} (he : 0 ≤ e)
    (hw : ∀ a, 0 ≤ w a) (hdist : P.Distances w dist) {before : K}
    (hgrowth : P.volume w ≤ before + e * ∑ i, P.demand i * dist i) :
    (1 - e / ratio) * P.volume w ≤ before := by
  have hbound : ∑ i, P.demand i * dist i ≤ P.volume w / ratio := by
    rw [le_div_iff₀ hratio, mul_comm]
    exact h.mul_le_volume hw hdist
  have hscaled := mul_le_mul_of_nonneg_left hbound he
  have hterm : e / ratio * P.volume w = e * (P.volume w / ratio) := by ring
  rw [sub_mul, one_mul, hterm]
  linarith

end

/-! ## Rounds -/

/-- So many rounds it takes to a volume of one, from one of `(1 - e) * δ ^ (1 - e)`. -/
theorem rounds_ge {e ratio δ : ℝ} {rounds : ℕ} (he : 0 < e) (he1 : e < 1) (hratio : 1 ≤ ratio) (hδ : 0 < δ)
    (hδ1 : δ < 1) (h : (1 - e / ratio) ^ rounds ≤ (1 - e) * δ ^ (1 - e)) :
    ratio * (1 - e) ^ 2 / e * Real.log (1 / δ) ≤ rounds - 1 := by
  have hpos : 0 < ratio := by linarith
  set x := e / ratio with hx
  have hx0 : 0 < x := div_pos he hpos
  have hxe : x ≤ e := div_le_self he.le hratio
  have hlogδ : Real.log δ < 0 := Real.log_neg hδ hδ1
  -- the logarithms of both sides
  have hlog : rounds * Real.log (1 - x) ≤ Real.log (1 - e) + (1 - e) * Real.log δ := by
    have hle := Real.log_le_log (pow_pos (by linarith) rounds) h
    rwa [Real.log_pow, Real.log_mul (by linarith) (Real.rpow_pos_of_pos hδ _).ne', Real.log_rpow hδ] at hle
  have hstep : -Real.log (1 - x) ≤ x / (1 - e) := by
    have hinv := Real.one_sub_inv_le_log_of_pos (x := 1 - x) (by linarith)
    have hdiv : 1 - (1 - x)⁻¹ = -(x / (1 - x)) := by
      have hne : 1 - x ≠ 0 := by linarith
      field_simp
      ring
    have hmono : x / (1 - x) ≤ x / (1 - e) := div_le_div_of_nonneg_left hx0.le (by linarith) (by linarith)
    linarith
  have hmono : Real.log (1 - e) ≤ Real.log (1 - x) := Real.log_le_log (by linarith) (by linarith)
  have hneg : Real.log (1 - x) < 0 := Real.log_neg (by linarith) (by linarith)
  have hsome : 1 ≤ rounds := by
    rw [Nat.one_le_iff_ne_zero]
    rintro rfl
    have hless : Real.log (1 - e) < 0 := Real.log_neg (by linarith) (by linarith)
    have hless' : (1 - e) * Real.log δ < 0 := mul_neg_of_pos_of_neg (by linarith) hlogδ
    simp only [Nat.cast_zero, zero_mul] at hlog
    linarith
  have hcast : (0 : ℝ) ≤ rounds - 1 := sub_nonneg.mpr (Nat.one_le_cast.mpr hsome)
  have hrounds : (1 - e) * Real.log (1 / δ) ≤ (rounds - 1) * (x / (1 - e)) := by
    have hall := mul_le_mul_of_nonneg_left hstep hcast
    rw [one_div, Real.log_inv]
    linarith
  have hfinal : ratio * (1 - e) / e * ((1 - e) * Real.log (1 / δ)) ≤
      ratio * (1 - e) / e * ((rounds - 1) * (x / (1 - e))) :=
    mul_le_mul_of_nonneg_left hrounds (div_nonneg (mul_nonneg hpos.le (by linarith)) he.le)
  have hcancel : ratio * (1 - e) / e * (((rounds : ℝ) - 1) * (x / (1 - e))) = rounds - 1 := by
    have hne : 1 - e ≠ 0 := by linarith
    rw [hx]
    field_simp
  rw [hcancel] at hfinal
  refine le_trans (le_of_eq ?_) hfinal
  ring

end ConcurrentFlow
