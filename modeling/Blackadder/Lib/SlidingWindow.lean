import Mathlib.Data.Nat.ModEq
import Mathlib.Data.Set.Insert

/-!
# Windows over a growing sequence

A number is taken at most once, and only while it is less than `w` below the greatest one that was
taken. A window of `w` slots decides this, with a number in the slot of its remainder.
-/

namespace SlidingWindow

variable {w low n k : Nat} {slots slots' : Nat → Prop} {A : Set Nat}

/-- A number that was not taken and is not too old. -/
def Fresh (w : Nat) (A : Set Nat) (n : Nat) : Prop := n ∉ A ∧ ∀ m ∈ A, m < n + w

/-- The slots from `low` on show which numbers were taken. -/
structure Tracks (w low : Nat) (slots : Nat → Prop) (A : Set Nat) : Prop where
  slot : ∀ n, low ≤ n → n < low + w → (slots (n % w) ↔ n ∈ A)
  below : ∀ m ∈ A, m < low + w
  top : low = 0 ∨ ∃ m ∈ A, m + 1 = low + w

theorem tracks_empty (h : ∀ r, ¬ slots r) : Tracks w 0 slots ∅ where
  slot n _ _ := iff_of_false (h _) (Set.notMem_empty n)
  below m hm := absurd hm (Set.notMem_empty m)
  top := .inl rfl

/-- Two numbers of a window are in different slots. -/
theorem eq_of_mod_eq (hn : low ≤ n) (hn' : n < low + w) (hk : low ≤ k) (hk' : k < low + w)
    (h : n % w = k % w) : n = k := by
  wlog hle : n ≤ k generalizing n k
  · exact (this hk hk' hn hn' h.symm (by omega)).symm
  have hdvd : w ∣ k - n := (Nat.modEq_iff_dvd' hle).mp h
  have hzero : k - n = 0 := Nat.eq_zero_of_dvd_of_lt hdvd (by omega)
  omega

theorem Tracks.not_fresh_below (h : Tracks w low slots A) (hn : n < low) : ¬ Fresh w A n := by
  rintro ⟨-, hold⟩
  rcases h.top with rfl | ⟨m, hm, htop⟩
  · exact absurd hn (Nat.not_lt_zero n)
  · have hlt := hold m hm
    omega

theorem Tracks.fresh_within (h : Tracks w low slots A) (hlow : low ≤ n) (hhigh : n < low + w) :
    Fresh w A n ↔ ¬ slots (n % w) := by
  rw [h.slot n hlow hhigh]
  refine ⟨fun hfresh => hfresh.1, fun hn => ⟨hn, fun m hm => ?_⟩⟩
  have hlt := h.below m hm
  omega

theorem Tracks.fresh_above (h : Tracks w low slots A) (hhigh : low + w ≤ n) : Fresh w A n := by
  refine ⟨fun hn => ?_, fun m hm => ?_⟩
  · have hlt := h.below n hn
    omega
  · have hlt := h.below m hm
    omega

/-- A number of the window is taken. -/
theorem Tracks.mark (h : Tracks w low slots A) (hlow : low ≤ n) (hhigh : n < low + w)
    (hslots : ∀ r < w, slots' r ↔ r = n % w ∨ slots r) : Tracks w low slots' (insert n A) where
  slot k hk hk' := by
    have hw : 0 < w := by omega
    rw [hslots _ (Nat.mod_lt k hw), h.slot k hk hk', Set.mem_insert_iff]
    refine or_congr_left ⟨fun hmod => eq_of_mod_eq hk hk' hlow hhigh hmod, fun heq => by rw [heq]⟩
  below m hm := by
    rcases hm with rfl | hm
    · exact hhigh
    · exact h.below m hm
  top := h.top.imp_right fun ⟨m, hm, htop⟩ => ⟨m, Set.mem_insert_of_mem n hm, htop⟩

/-- A number above the window is taken: the window moves up to it, and the slots that the window
left are cleared first. -/
theorem Tracks.advance (h : Tracks w low slots A) (hw : 0 < w) (hhigh : low + w ≤ n)
    (hslots : ∀ r < w, slots' r ↔ r = n % w ∨
      slots r ∧ ∀ i < min w (n + 1 - (low + w)), (low + i) % w ≠ r) :
    Tracks w (n + 1 - w) slots' (insert n A) where
  slot k hk hk' := by
    rw [hslots _ (Nat.mod_lt k hw), Set.mem_insert_iff]
    refine or_congr ⟨fun hmod => eq_of_mod_eq hk hk' (by omega) (by omega) hmod,
      fun heq => by rw [heq]⟩ ?_
    by_cases hold : k < low + w
    · -- a slot of the old window that stays
      rw [h.slot k (by omega) hold]
      refine and_iff_left fun i hi hmod => ?_
      have heq := eq_of_mod_eq (by omega) (by omega) (by omega) hold hmod
      omega
    · refine iff_of_false (fun hk => ?_) fun hk => hold (h.below k hk)
      have hmod : (low + (k - low) % w) % w = k % w := by
        rw [Nat.add_mod_mod, Nat.add_sub_cancel' (by omega)]
      have hsmall : (k - low) % w ≤ k - low - w := by
        rw [Nat.mod_eq_sub_mod (by omega)]
        exact Nat.mod_le _ _
      have hlt := Nat.mod_lt (k - low) hw
      exact hk.2 _ (by omega) hmod
  below m hm := by
    rcases hm with rfl | hm
    · omega
    · have hlt := h.below m hm
      omega
  top := .inr ⟨n, Set.mem_insert n A, by omega⟩

end SlidingWindow
