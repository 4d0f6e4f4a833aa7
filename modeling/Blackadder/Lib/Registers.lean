import Mathlib.Logic.Function.Basic
import Mathlib.Tactic.Common

/-!
# Registers that follow writes

A copy of a map that gets the writes in order is the map again once it got all of them.
-/

namespace Registers

variable {K V : Type*} [DecidableEq K] {f : K → V} {w : K × V} {ws ws' : List (K × V)} {k : K} {v : V}

def write (f : K → V) (w : K × V) : K → V := Function.update f w.1 w.2

/-- The registers after some writes, the first write first. -/
def replay (f : K → V) (ws : List (K × V)) : K → V := ws.foldl write f

@[simp]
theorem replay_nil : replay f [] = f := rfl

@[simp]
theorem replay_cons : replay f (w :: ws) = replay (write f w) ws := rfl

theorem replay_append : replay f (ws ++ ws') = replay (replay f ws) ws' := List.foldl_append

theorem replay_of_not_mem (h : ∀ w ∈ ws, w.1 ≠ k) : replay f ws k = f k := by
  induction ws generalizing f with
  | nil => rfl
  | cons w ws ih =>
    rw [replay_cons, ih fun w' hw' => h w' (List.mem_cons_of_mem w hw')]
    exact Function.update_of_ne (h w List.mem_cons_self).symm _ _

/-- Writes that agree on a key leave what they write. -/
theorem replay_of_const (h : ∀ w ∈ ws, w.1 = k → w.2 = v) (hk : f k = v ∨ ∃ w ∈ ws, w.1 = k) :
    replay f ws k = v := by
  induction ws generalizing f with
  | nil =>
    rcases hk with hk | ⟨w, hw, -⟩
    · exact hk
    · cases hw
  | cons w ws ih =>
    rw [replay_cons]
    refine ih (fun w' hw' => h w' (List.mem_cons_of_mem w hw')) ?_
    by_cases hwk : w.1 = k
    · refine Or.inl ?_
      rw [write, hwk, Function.update_self]
      exact h w List.mem_cons_self hwk
    · rcases hk with hk | ⟨w', hw', hk⟩
      · exact Or.inl ((Function.update_of_ne (Ne.symm hwk) _ _).trans hk)
      · rcases List.mem_cons.mp hw' with rfl | hw'
        · exact absurd hk hwk
        · exact Or.inr ⟨w', hw', hk⟩

end Registers
