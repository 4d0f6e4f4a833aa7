import Mathlib.Data.List.Forall2
import Mathlib.Tactic.Common

/-!
# Loops that may fail

Rules for `foldlM` in `Except`, the loop of a computation that stops at the first error.
-/

namespace Loops

universe u v

variable {α β : Type u} {ε : Type v} {l : List α} {f : β → α → Except ε β} {s s' : β} {e : ε}

@[simp]
theorem bind_eq_ok {x : Except ε α} {k : α → Except ε β} {b : β} :
    x >>= k = .ok b ↔ ∃ a, x = .ok a ∧ k a = .ok b := by
  cases x <;> simp [bind, Except.bind]

@[simp]
theorem bind_eq_error {x : Except ε α} {k : α → Except ε β} :
    x >>= k = .error e ↔ x = .error e ∨ ∃ a, x = .ok a ∧ k a = .error e := by
  cases x <;> simp [bind, Except.bind]

@[simp]
theorem pure_eq_ok {a b : α} : (pure a : Except ε α) = .ok b ↔ a = b := by
  simp [pure, Except.pure]

@[simp]
theorem pure_ne_error {a : α} : ¬ (pure a : Except ε α) = .error e := by
  simp [pure, Except.pure]

/-- A loop that returns keeps an invariant that knows which elements are done. -/
theorem foldlM_done {I : List α → β → Prop} (h : l.foldlM f s = .ok s') (h0 : I [] s)
    (hstep : ∀ done a s s', a ∈ l → I done s → f s a = .ok s' → I (done ++ [a]) s') :
    I l s' := by
  suffices ∀ rest done s, (∀ a ∈ rest, a ∈ l) → I done s → rest.foldlM f s = .ok s' →
      I (done ++ rest) s' by
    simpa using this l [] s (fun _ h => h) h0 h
  intro rest
  induction rest with
  | nil =>
    intro done s _ hI hr
    obtain rfl := pure_eq_ok.mp hr
    rwa [List.append_nil]
  | cons a rest ih =>
    intro done s hsub hI hr
    rw [List.foldlM_cons, bind_eq_ok] at hr
    obtain ⟨s1, h1, hr⟩ := hr
    have := ih (done ++ [a]) s1 (fun b hb => hsub b (List.mem_cons_of_mem _ hb))
      (hstep done a s s1 (hsub a List.mem_cons_self) hI h1) hr
    rwa [List.append_assoc] at this

theorem foldlM_invariant {I : β → Prop} (h : l.foldlM f s = .ok s') (h0 : I s)
    (hstep : ∀ a s s', a ∈ l → I s → f s a = .ok s' → I s') : I s' :=
  foldlM_done (I := fun _ => I) h h0 fun _ a s s' ha => hstep a s s' ha

/-- Every element was met by the body in a state where the invariant held. -/
theorem foldlM_each {I : β → Prop} (h : l.foldlM f s = .ok s') (h0 : I s)
    (hstep : ∀ a s s', a ∈ l → I s → f s a = .ok s' → I s') :
    ∀ a ∈ l, ∃ s1 s2, I s1 ∧ f s1 a = .ok s2 := by
  have := foldlM_done (I := fun done s => I s ∧ ∀ a ∈ done, ∃ s1 s2, I s1 ∧ f s1 a = .ok s2)
    h ⟨h0, by simp⟩
  refine (this ?_).2
  rintro done a s s' ha ⟨hI, hd⟩ hb
  refine ⟨hstep a s s' ha hI hb, fun b hmem => ?_⟩
  rcases List.mem_append.mp hmem with hmem | hmem
  · exact hd b hmem
  · rw [List.mem_singleton.mp hmem]
    exact ⟨s, s', hI, hb⟩

theorem foldlM_total {I : β → Prop} (h0 : I s)
    (hstep : ∀ a s, a ∈ l → I s → ∃ s', f s a = .ok s' ∧ I s') :
    ∃ s', l.foldlM f s = .ok s' ∧ I s' := by
  induction l generalizing s with
  | nil => exact ⟨s, rfl, h0⟩
  | cons a l ih =>
    obtain ⟨s1, h1, hI⟩ := hstep a s List.mem_cons_self h0
    obtain ⟨s', h', hI'⟩ := ih hI fun b t hb => hstep b t (List.mem_cons_of_mem _ hb)
    exact ⟨s', by rw [List.foldlM_cons, bind_eq_ok]; exact ⟨s1, h1, h'⟩, hI'⟩

theorem foldlM_total_done {I : List α → β → Prop} (h0 : I [] s)
    (hstep : ∀ done a rest s, l = done ++ a :: rest → I done s →
      ∃ s', f s a = .ok s' ∧ I (done ++ [a]) s') :
    ∃ s', l.foldlM f s = .ok s' ∧ I l s' := by
  suffices ∀ rest done s, l = done ++ rest → I done s →
      ∃ s', rest.foldlM f s = .ok s' ∧ I l s' from this l [] s rfl h0
  intro rest
  induction rest with
  | nil =>
    intro done s hl hI
    rw [List.append_nil] at hl
    exact ⟨s, rfl, hl ▸ hI⟩
  | cons a rest ih =>
    intro done s hl hI
    obtain ⟨s1, h1, hI1⟩ := hstep done a rest s hl hI
    obtain ⟨s', h', hI'⟩ := ih (done ++ [a]) s1 (by rw [hl, List.append_assoc]; rfl) hI1
    exact ⟨s', by rw [List.foldlM_cons, bind_eq_ok]; exact ⟨s1, h1, h'⟩, hI'⟩

/-- The error of a loop is the error of its body in some state it got to. -/
theorem foldlM_error {I : β → Prop} (h : l.foldlM f s = .error e) (h0 : I s)
    (hstep : ∀ a s s', a ∈ l → I s → f s a = .ok s' → I s') :
    ∃ a ∈ l, ∃ s1, I s1 ∧ f s1 a = .error e := by
  induction l generalizing s with
  | nil => exact absurd h pure_ne_error
  | cons a l ih =>
    rw [List.foldlM_cons, bind_eq_error] at h
    rcases h with h | ⟨s1, h1, h⟩
    · exact ⟨a, List.mem_cons_self, s, h0, h⟩
    · obtain ⟨b, hb, s2, hI, he⟩ := ih h (hstep a s s1 List.mem_cons_self h0 h1)
        fun b t t' hb => hstep b t t' (List.mem_cons_of_mem _ hb)
      exact ⟨b, List.mem_cons_of_mem _ hb, s2, hI, he⟩

theorem foldlM_mono {f' : β → α → Except ε β} (h : l.foldlM f s = .ok s')
    (hb : ∀ a s s', a ∈ l → f s a = .ok s' → f' s a = .ok s') :
    l.foldlM f' s = .ok s' := by
  induction l generalizing s with
  | nil => exact h
  | cons a l ih =>
    rw [List.foldlM_cons, bind_eq_ok] at h ⊢
    obtain ⟨s1, h1, h⟩ := h
    exact ⟨s1, hb a s s1 List.mem_cons_self h1,
      ih h fun b t t' hmem => hb b t t' (List.mem_cons_of_mem _ hmem)⟩

/-- A loop whose body returns with some fuel returns with some fuel. -/
theorem foldlM_total_fuel {I : β → Prop} {f : Nat → β → α → Except ε β}
    (hmono : ∀ n n' a s s', n ≤ n' → f n s a = .ok s' → f n' s a = .ok s') (h0 : I s)
    (hstep : ∀ a s, a ∈ l → I s → ∃ n s', f n s a = .ok s' ∧ I s') :
    ∃ n s', l.foldlM (f n) s = .ok s' ∧ I s' := by
  induction l generalizing s with
  | nil => exact ⟨0, s, rfl, h0⟩
  | cons a l ih =>
    obtain ⟨n1, s1, h1, hI⟩ := hstep a s List.mem_cons_self h0
    obtain ⟨n2, s', h2, hI'⟩ := ih hI fun b t hb => hstep b t (List.mem_cons_of_mem _ hb)
    refine ⟨max n1 n2, s', ?_, hI'⟩
    rw [List.foldlM_cons, bind_eq_ok]
    exact ⟨s1, hmono _ _ _ _ _ (Nat.le_max_left _ _) h1,
      foldlM_mono h2 fun _ _ _ _ => hmono _ _ _ _ _ (Nat.le_max_right _ _)⟩

/-! ## What a loop made of each element -/

theorem forall₂_left {α β : Type*} {R : α → β → Prop} {l : List α} {l' : List β}
    (h : List.Forall₂ R l l') {b : β} (hb : b ∈ l') : ∃ a ∈ l, R a b := by
  induction h with
  | nil => cases hb
  | cons hr _ ih =>
    rcases List.mem_cons.mp hb with rfl | hb
    · exact ⟨_, List.mem_cons_self, hr⟩
    · obtain ⟨a, ha, hab⟩ := ih hb
      exact ⟨a, List.mem_cons_of_mem _ ha, hab⟩

theorem forall₂_right {α β : Type*} {R : α → β → Prop} {l : List α} {l' : List β}
    (h : List.Forall₂ R l l') {a : α} (ha : a ∈ l) : ∃ b ∈ l', R a b :=
  forall₂_left (R := flip R) h.flip ha

theorem forall₂_trans {α β γ : Type*} {R : α → β → Prop} {S : β → γ → Prop} {as : List α} {bs : List β}
    {cs : List γ} (h : List.Forall₂ R as bs) (h' : List.Forall₂ S bs cs) :
    List.Forall₂ (fun a c => ∃ b, R a b ∧ S b c) as cs := by
  induction h generalizing cs with
  | nil =>
    cases h'
    exact .nil
  | cons hr _ ih =>
    cases h' with
    | cons hs hrest => exact .cons ⟨_, hr, hs⟩ (ih hrest)

end Loops
