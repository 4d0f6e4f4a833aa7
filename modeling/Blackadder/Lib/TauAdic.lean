import Mathlib.Algebra.Group.Hom.Basic
import Mathlib.Algebra.Module.Basic
import Mathlib.Algebra.Order.Ring.Int
import Mathlib.Tactic.Linarith
import Mathlib.Tactic.Module
import Mathlib.Order.Interval.Finset.Basic
import Mathlib.Data.Int.ConditionallyCompleteOrder
import Mathlib.Data.Int.Interval
import Mathlib.Tactic.LinearCombination
import Mathlib.Logic.Function.Iterate

/-!
# Expansions to the base `τ`

`r₀ + r₁ τ`, where `τ² + 2 = τ`, as a sum of powers of `τ` with the coefficients `0`, `1`
and `-1`, least first. The expansion ends: the norm goes down until it is small, and the few
elements of small norm end one by one.
-/

namespace TauAdic

/-- The last coefficient. -/
def digit (r : Int × Int) : Int := if r.1 % 2 = 1 then 2 - (r.1 - 2 * r.2) % 4 else 0

/-- What is left after it. -/
def next (r : Int × Int) : Int × Int :=
  (r.2 + (r.1 - digit r) / 2, -((r.1 - digit r) / 2))

def norm (r : Int × Int) : Int := r.1 ^ 2 + r.1 * r.2 + 2 * r.2 ^ 2

variable {r : Int × Int}

theorem digit_even (h : r.1 % 2 ≠ 1) : digit r = 0 := if_neg h

theorem digit_odd (h : r.1 % 2 = 1) : digit r = 1 ∨ digit r = -1 := by
  rw [digit, if_pos h]
  omega

theorem digit_cases : digit r = 0 ∨ digit r = 1 ∨ digit r = -1 := by
  by_cases h : r.1 % 2 = 1
  · exact Or.inr (digit_odd h)
  · exact Or.inl (digit_even h)

theorem two_mul_half : 2 * ((r.1 - digit r) / 2) = r.1 - digit r := by
  by_cases h : r.1 % 2 = 1
  · rcases digit_odd h with hd | hd <;> omega
  · rw [digit_even h]
    omega

/-- What is left times `τ`, whose norm is two. -/
theorem two_mul_norm_next :
    2 * norm (next r) = norm r - digit r * (2 * r.1 + r.2) + digit r ^ 2 := by
  have hhalf := two_mul_half (r := r)
  simp only [norm, next]
  generalize (r.1 - digit r) / 2 = s at *
  linear_combination (2 * s + r.1 - digit r + r.2) * hhalf

theorem norm_next_lt (h : 6 ≤ norm r) : norm (next r) < norm r := by
  have hnext := two_mul_norm_next (r := r)
  -- Four times the norm is a square and a part that is not negative.
  have hsquare : (2 * r.1 + r.2) ^ 2 ≤ 4 * norm r := by
    have hrest := sq_nonneg r.2
    rw [norm]
    linarith
  have hbound : |2 * r.1 + r.2| + 1 < norm r := by
    by_contra hle
    have habs := sq_abs (2 * r.1 + r.2)
    nlinarith [abs_nonneg (2 * r.1 + r.2)]
  have hpos := neg_abs_le (2 * r.1 + r.2)
  have hneg := le_abs_self (2 * r.1 + r.2)
  rcases digit_cases (r := r) with hd | hd | hd <;> rw [hd] at hnext <;> linarith

theorem norm_nonneg (r : Int × Int) : 0 ≤ norm r := by
  rw [norm]
  nlinarith [sq_nonneg (2 * r.1 + r.2), sq_nonneg r.2]

theorem mem_small (h : norm r < 6) : -2 ≤ r.1 ∧ r.1 ≤ 2 ∧ -1 ≤ r.2 ∧ r.2 ≤ 1 := by
  have hsquare : (2 * r.1 + r.2) ^ 2 + 7 * r.2 ^ 2 ≤ 20 := by
    rw [norm] at h
    linarith
  have hr₁ := sq_nonneg (2 * r.1 + r.2)
  have hr₂ := sq_nonneg r.2
  have hlow : -1 ≤ r.2 := by nlinarith
  have hhigh : r.2 ≤ 1 := by nlinarith
  refine ⟨?_, ?_, hlow, hhigh⟩ <;> nlinarith

theorem iterate_small : ∀ a ∈ Finset.Icc (-2 : Int) 2, ∀ b ∈ Finset.Icc (-1 : Int) 1,
    next^[4] (a, b) = (0, 0) := by decide

theorem exists_iterate (r : Int × Int) : ∃ n, next^[n] r = (0, 0) := by
  induction hn : (norm r).toNat using Nat.strong_induction_on generalizing r with
  | _ n ih =>
    by_cases hsmall : norm r < 6
    · obtain ⟨ha, ha', hb, hb'⟩ := mem_small hsmall
      exact ⟨4, iterate_small _ (Finset.mem_Icc.mpr ⟨ha, ha'⟩) _ (Finset.mem_Icc.mpr ⟨hb, hb'⟩)⟩
    · have hlt := norm_next_lt (not_lt.mp hsmall)
      have hpos := norm_nonneg (next r)
      obtain ⟨k, hk⟩ := ih _ (by omega) (next r) rfl
      exact ⟨k + 1, hk⟩

/-! ## In a group with such an endomorphism -/

variable {A : Type*} [AddCommGroup A] {tau : AddMonoid.End A} {a : A}

theorem value_next (h : tau (tau a) + 2 • a = tau a) :
    digit r • a + ((next r).1 • tau a + (next r).2 • tau (tau a)) = r.1 • a + r.2 • tau a := by
  have hhalf := two_mul_half (r := r)
  have hsquare : tau (tau a) = tau a - 2 • a := eq_sub_of_add_eq h
  simp only [next]
  generalize (r.1 - digit r) / 2 = s at *
  have hr : r.1 = digit r + 2 * s := by linear_combination -hhalf
  rw [hsquare, hr]
  module

end TauAdic
