import Mathlib.Algebra.Order.Archimedean.Basic
import Mathlib.Algebra.Order.Floor.Semiring
import Mathlib.Algebra.Order.Field.Basic
import Mathlib.Tactic.Linarith

/-!
# Loops that may go on

Programs with `while` loops that may fail: the rule of invariants, and rules for loops that end. A program is run with a
number of turns that each of its loops may take.
-/

namespace WhileLoop

/-- `none` where the program fails, or where a loop does not end within the turns. -/
abbrev Program (α : Type) := ReaderT Nat Option α

section

variable {α β : Type} {x : Program α} {f : α → Program β} {a b : α} {n : Nat} {o : Option α}

/-- With enough turns the program ends, and returns `a`. -/
def Returns (x : Program α) (a : α) : Prop := ∃ enough, ∀ n, enough ≤ n → x.run n = some a

theorem returns_pure (a : α) : Returns (pure a) a := ⟨0, fun _ _ => rfl⟩

theorem returns_lift (h : o = some a) : Returns (liftM o : Program α) a := ⟨0, fun _ _ => h⟩

theorem Returns.bind {b : β} (hx : Returns x a) (hf : Returns (f a) b) : Returns (x >>= f) b := by
  obtain ⟨enough, hx⟩ := hx
  obtain ⟨enough', hf⟩ := hf
  refine ⟨max enough enough', ?_⟩
  intro n hn
  rw [ReaderT.run_bind, hx n (le_of_max_le_left hn)]
  exact hf n (le_of_max_le_right hn)

theorem Returns.map (hx : Returns x a) (g : α → β) : Returns (g <$> x) (g a) := by
  obtain ⟨enough, hx⟩ := hx
  refine ⟨enough, ?_⟩
  intro n hn
  rw [ReaderT.run_map, hx n hn]
  rfl

theorem Returns.exists_run (hx : Returns x a) : ∃ n, x.run n = some a := by
  obtain ⟨enough, hx⟩ := hx
  exact ⟨enough, hx enough le_rfl⟩

theorem Returns.unique (ha : Returns x a) (hb : Returns x b) : a = b := by
  obtain ⟨enough, ha⟩ := ha
  obtain ⟨enough', hb⟩ := hb
  have hsame := (ha _ (le_max_left enough enough')).symm.trans (hb _ (le_max_right enough enough'))
  exact Option.some.inj hsame

theorem run_bind_eq_some {b : β} : (x >>= f).run n = some b ↔ ∃ a, x.run n = some a ∧ (f a).run n = some b := by
  rw [ReaderT.run_bind]
  exact Option.bind_eq_some_iff

theorem run_map_eq_some {g : α → β} {b : β} : (g <$> x).run n = some b ↔ ∃ a, x.run n = some a ∧ g a = b := by
  rw [ReaderT.run_map]
  exact Option.map_eq_some_iff

end

/-! ## Loops -/

variable {S : Type} {c : S → Prop} [DecidablePred c] {body : S → Program S} {s s' t : S} {I : S → Prop}
  {k n : Nat}

/-- At most `k` turns of the loop, whose own loops may take `n` each. -/
def turns (c : S → Prop) [DecidablePred c] (body : S → Program S) (n : Nat) : Nat → S → Option S
  | 0, s => if c s then none else some s
  | k + 1, s => if c s then (body s).run n >>= turns c body n k else some s

/-- `while (c) body`. -/
def run (c : S → Prop) [DecidablePred c] (body : S → Program S) (s : S) : Program S := fun n => turns c body n n s

theorem turns_of_not (h : ¬c s) (k : Nat) : turns c body n k s = some s := by
  cases k <;> exact if_neg h

theorem turns_succ (h : turns c body n k s = some t) : turns c body n (k + 1) s = some t := by
  induction k generalizing s with
  | zero =>
    unfold turns at h
    split at h
    · cases h
    · next hc =>
      cases h
      exact turns_of_not hc 1
  | succ k ih =>
    unfold turns at h ⊢
    split at h
    · next hc =>
      obtain ⟨s', hbody, hrest⟩ := Option.bind_eq_some_iff.mp h
      rw [if_pos hc, hbody]
      exact ih hrest
    · next hc => rw [if_neg hc, h]

theorem turns_mono {j : Nat} (hjk : j ≤ k) (h : turns c body n j s = some t) : turns c body n k s = some t := by
  induction hjk with
  | refl => exact h
  | step _ ih => exact turns_succ ih

/-- The loop goes from `s` to `t`, and ends there. -/
inductive Leads (c : S → Prop) (body : S → Program S) : S → S → Prop
  | stop {s : S} (h : ¬c s) : Leads c body s s
  | turn {s s' t : S} (h : c s) (hbody : Returns (body s) s') (hrest : Leads c body s' t) : Leads c body s t

theorem Leads.returns (h : Leads c body s t) : Returns (run c body s) t := by
  have hturns : ∃ k enough, ∀ n, enough ≤ n → turns c body n k s = some t := by
    induction h with
    | stop h => exact ⟨0, 0, fun n _ => turns_of_not h 0⟩
    | @turn s s' t h hbody _ ih =>
      obtain ⟨enough, hbody⟩ := hbody
      obtain ⟨k, enough', hrest⟩ := ih
      refine ⟨k + 1, max enough enough', ?_⟩
      intro n hn
      rw [turns, if_pos h, hbody n (le_of_max_le_left hn)]
      exact hrest n (le_of_max_le_right hn)
  obtain ⟨k, enough, hturns⟩ := hturns
  refine ⟨max k enough, ?_⟩
  intro n hn
  exact turns_mono (le_of_max_le_left hn) (hturns n (le_of_max_le_right hn))

/-- What holds before the loop and is kept by its body holds behind it. -/
theorem run_invariant (hs : I s) (hstep : ∀ s s', I s → c s → (body s).run n = some s' → I s')
    (h : (run c body s).run n = some t) : I t ∧ ¬c t := by
  have hturns : ∀ k s, I s → turns c body n k s = some t → I t ∧ ¬c t := by
    intro k
    induction k with
    | zero =>
      intro s hs h
      unfold turns at h
      split at h
      · cases h
      · next hc =>
        cases h
        exact ⟨hs, hc⟩
    | succ k ih =>
      intro s hs h
      unfold turns at h
      split at h
      · next hc =>
        obtain ⟨s', hbody, hrest⟩ := Option.bind_eq_some_iff.mp h
        exact ih s' (hstep s s' hs hc hbody) hrest
      · next hc =>
        cases h
        exact ⟨hs, hc⟩
  exact hturns n s hs h

/-- A loop whose turns succeed and go down ends. -/
theorem run_ends (rank : S → Nat) (hs : I s)
    (hstep : ∀ s, I s → c s → ∃ s', Returns (body s) s' ∧ I s' ∧ rank s' < rank s) :
    ∃ t, Returns (run c body s) t ∧ I t ∧ ¬c t := by
  have hleads : ∃ t, Leads c body s t ∧ I t ∧ ¬c t := by
    induction hn : rank s using Nat.strongRecOn generalizing s with
    | _ n ih =>
      by_cases hc : c s
      · obtain ⟨s', hbody, hs', hlt⟩ := hstep s hs hc
        obtain ⟨t, hrest, ht⟩ := ih (rank s') (hn ▸ hlt) hs' rfl
        exact ⟨t, .turn hc hbody hrest, ht⟩
      · exact ⟨s, .stop hc, hs, hc⟩
  obtain ⟨t, hleads, ht⟩ := hleads
  exact ⟨t, hleads.returns, ht⟩

/-- What every turn keeps, a loop over a list keeps. -/
theorem foldlM_invariant {A : Type} {f : S → A → Program S} {l : List A} (hs : I s)
    (hstep : ∀ s a s', a ∈ l → I s → (f s a).run n = some s' → I s')
    (h : (l.foldlM f s).run n = some t) : I t := by
  induction l generalizing s with
  | nil =>
    cases h
    exact hs
  | cons a l ih =>
    rw [List.foldlM_cons, run_bind_eq_some] at h
    obtain ⟨s', hturn, hrest⟩ := h
    refine ih (hstep s a s' List.mem_cons_self hs hturn) ?_ hrest
    intro s b s' hb
    exact hstep s b s' (List.mem_cons_of_mem a hb)

/-! ## Loops over fields -/

variable {K : Type*} [Field K] [LinearOrder K] [IsStrictOrderedRing K] [FloorSemiring K]

theorem ceil_div_lt {x y ε : K} (hε : 0 < ε) (hx : 0 < x) (hy : y ≤ max 0 (x - ε)) :
    ⌈y / ε⌉₊ < ⌈x / ε⌉₊ := by
  have hpos : 0 < ⌈x / ε⌉₊ := Nat.ceil_pos.mpr (div_pos hx hε)
  rcases le_max_iff.mp hy with hzero | hless
  · rw [Nat.ceil_eq_zero.mpr (div_nonpos_of_nonpos_of_nonneg hzero hε.le)]
    exact hpos
  · have hdiv : y / ε ≤ x / ε - 1 := by
      rw [div_le_iff₀ hε, sub_mul, div_mul_cancel₀ x hε.ne', one_mul]
      exact hless
    have hceil : y / ε ≤ ((⌈x / ε⌉₊ - 1 : Nat) : K) := by
      rw [Nat.cast_sub hpos, Nat.cast_one]
      exact hdiv.trans (sub_le_sub_right (Nat.le_ceil _) 1)
    exact lt_of_le_of_lt (Nat.ceil_le.mpr hceil) (by omega)

/-- A loop ends if what is left while it goes on is used up, by a least amount or wholly. -/
theorem run_ends_of_gap (gap : S → K) {ε : K} (hε : 0 < ε) (hs : I s) (hgap : ∀ s, I s → c s → 0 < gap s)
    (hstep : ∀ s, I s → c s → ∃ s', Returns (body s) s' ∧ I s' ∧ gap s' ≤ max 0 (gap s - ε)) :
    ∃ t, Returns (run c body s) t ∧ I t ∧ ¬c t := by
  refine run_ends (fun s => ⌈gap s / ε⌉₊) hs ?_
  intro s hs hc
  obtain ⟨s', hbody, hs', hless⟩ := hstep s hs hc
  exact ⟨s', hbody, hs', ceil_div_lt hε (hgap s hs hc) hless⟩

end WhileLoop
