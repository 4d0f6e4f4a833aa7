import Mathlib.Data.List.Count
import Mathlib.Tactic.Common

/-!
# Ledgers of opened and closed keys
-/

namespace Ledger

inductive Entry (K : Type*)
  | opened (k : K)
  | closed (k : K)
deriving DecidableEq

variable {K : Type*} [DecidableEq K] {log : List (Entry K)} {P Q : K → Prop} {k x : K}

/-- How often a key was opened more than closed. -/
def balance (log : List (Entry K)) (k : K) : Int := log.count (.opened k) - log.count (.closed k)

/-- No key is closed that is not open. -/
def Covered (log : List (Entry K)) : Prop :=
  ∀ before k after, log = before ++ .closed k :: after → 0 < balance before k

/-- Exactly the keys with a property are open, each of them once. -/
structure Tracks (log : List (Entry K)) (P : K → Prop) : Prop where
  one : ∀ k, P k → balance log k = 1
  zero : ∀ k, ¬ P k → balance log k = 0
  covered : Covered log

theorem tracks_nil : Tracks ([] : List (Entry K)) fun _ => False where
  one _ h := h.elim
  zero _ _ := rfl
  covered before k after h := by simp at h

theorem Tracks.congr (h : Tracks log P) (hPQ : ∀ k, Q k ↔ P k) : Tracks log Q where
  one k hk := h.one k ((hPQ k).mp hk)
  zero k hk := h.zero k (mt (hPQ k).mpr hk)
  covered := h.covered

theorem balance_opened : balance (log ++ [.opened k]) x = balance log x + if x = k then 1 else 0 := by
  unfold balance
  rw [List.count_append, List.count_append, List.count_singleton, List.count_singleton]
  by_cases hx : x = k
  · simp [hx]
    omega
  · simp [hx, Ne.symm hx]

theorem balance_closed : balance (log ++ [.closed k]) x = balance log x - if x = k then 1 else 0 := by
  unfold balance
  rw [List.count_append, List.count_append, List.count_singleton, List.count_singleton]
  by_cases hx : x = k
  · simp [hx]
    omega
  · simp [hx, Ne.symm hx]

/-- One more entry is covered when it opens a key or closes an open one. -/
theorem Covered.append {e : Entry K} (h : Covered log) (he : ∀ k, e = .closed k → 0 < balance log k) :
    Covered (log ++ [e]) := by
  intro before k after hlog
  rcases List.eq_nil_or_concat after with rfl | ⟨after, e', rfl⟩
  · obtain ⟨rfl, hlast⟩ := List.append_inj' hlog rfl
    exact he k (List.singleton_inj.mp hlast)
  · rw [List.concat_eq_append, ← List.cons_append, ← List.append_assoc] at hlog
    exact h before k after (List.append_inj' hlog rfl).1

theorem Tracks.opened (h : Tracks log P) (hk : ¬ P k) :
    Tracks (log ++ [.opened k]) fun x => x = k ∨ P x where
  one x hx := by
    rw [balance_opened]
    split
    · next hxk => rw [hxk, h.zero k hk, Int.zero_add]
    · next hxk => rw [h.one x (hx.resolve_left hxk), Int.add_zero]
  zero x hx := by
    rw [not_or] at hx
    rw [balance_opened, if_neg hx.1, h.zero x hx.2, Int.add_zero]
  covered := h.covered.append fun _ he => nomatch he

theorem Tracks.closed (h : Tracks log P) (hk : P k) :
    Tracks (log ++ [.closed k]) fun x => x ≠ k ∧ P x where
  one x hx := by rw [balance_closed, if_neg hx.1, h.one x hx.2, Int.sub_zero]
  zero x hx := by
    rw [balance_closed]
    split
    · next hxk => rw [hxk, h.one k hk, Int.sub_self]
    · next hxk => rw [h.zero x fun hP => hx ⟨hxk, hP⟩, Int.sub_zero]
  covered := by
    refine h.covered.append fun x he => ?_
    obtain rfl : k = x := by simpa using he
    rw [h.one k hk]
    exact Int.zero_lt_one

end Ledger
