import Mathlib.Data.List.Basic
import Mathlib.Data.List.TakeWhile
import Mathlib.Tactic.Common

/-!
# Lists up to a delimiter

What is read from memory up to the first delimiter, as the strings of C are up to the first zero.
-/

namespace Blackadder

namespace Delimited

variable {α : Type*} [DecidableEq α]

/-- The items before the first delimiter. `none` stands for a read beyond the memory. -/
def upTo (d : α) (mem : List α) : Option (List α) :=
  if d ∈ mem then some (mem.takeWhile (· ≠ d)) else none

variable {d : α} {mem x y rest : List α} {k n : Nat}

theorem takeWhile_self (h : d ∉ x) : x.takeWhile (· ≠ d) = x := by
  refine List.takeWhile_eq_self_iff.mpr ?_
  intro c hc
  simp only [decide_eq_true_eq]
  rintro rfl
  exact h hc

theorem not_mem_takeWhile (d : α) (mem : List α) : d ∉ mem.takeWhile (· ≠ d) := by
  intro hd
  have hne := List.mem_takeWhile_imp hd
  simp at hne

theorem takeWhile_eq (h : d ∉ x) : (x ++ d :: rest).takeWhile (· ≠ d) = x := by
  have hx : ∀ c ∈ x, decide (c ≠ d) = true := by
    intro c hc
    simp only [decide_eq_true_eq]
    rintro rfl
    exact h hc
  rw [List.takeWhile_append_of_pos hx, List.takeWhile_cons_of_neg (by simp), List.append_nil]

theorem upTo_append (h : d ∉ x) (rest : List α) : upTo d (x ++ d :: rest) = some x := by
  rw [upTo, if_pos (by simp), takeWhile_eq h]

end Delimited

end Blackadder
