import Mathlib.Data.Finset.Basic
import Mathlib.Data.Set.Insert
import Mathlib.Tactic.Tauto

/-!
# Tables with back references

A key has an attribute and the members that joined it, and a member knows its keys. A key
without members has no entry.
-/

structure Roster (K M A : Type*) where
  entry : K → Option (A × Finset M)
  keysOf : M → Set K

namespace Roster

variable {K M A : Type*} {R : Roster K M A} {k k' : K} {m m' : M} {a : A} {ms : Finset M}

@[ext]
theorem ext' {R' : Roster K M A} (he : ∀ k, R.entry k = R'.entry k)
    (hk : ∀ m k, k ∈ R.keysOf m ↔ k ∈ R'.keysOf m) : R = R' := by
  obtain ⟨entry, keysOf⟩ := R
  obtain rfl : entry = R'.entry := funext he
  obtain rfl : keysOf = R'.keysOf := funext fun m => Set.ext (hk m)
  rfl

def empty : Roster K M A := ⟨fun _ => none, fun _ => ∅⟩

/-- `m` is among the members of `k`. -/
def Has (R : Roster K M A) (k : K) (m : M) : Prop := ∃ a ms, R.entry k = some (a, ms) ∧ m ∈ ms

/-- Both sides of the table say the same. -/
structure Linked (R : Roster K M A) : Prop where
  mem_keysOf : ∀ m k, k ∈ R.keysOf m ↔ R.Has k m
  nonempty : ∀ k a ms, R.entry k = some (a, ms) → ms.Nonempty

theorem linked_empty : (empty : Roster K M A).Linked where
  mem_keysOf m k := by simp [empty, Has]
  nonempty k a ms h := by cases h

theorem has_iff (h : R.entry k = some (a, ms)) : R.Has k m ↔ m ∈ ms := by
  simp [Has, h]

variable [DecidableEq K] [DecidableEq M]

/-- The attribute counts only for a new entry. -/
def join (R : Roster K M A) (k : K) (m : M) (a : A) : Roster K M A where
  entry := Function.update R.entry k
    (some (((R.entry k).map Prod.fst).getD a, insert m (((R.entry k).map Prod.snd).getD ∅)))
  keysOf := Function.update R.keysOf m (insert k (R.keysOf m))

/-- The entry that is left without a member. -/
def without (m : M) (e : A × Finset M) : Option (A × Finset M) :=
  if e.2.erase m = ∅ then none else some (e.1, e.2.erase m)

def leave (R : Roster K M A) (k : K) (m : M) : Roster K M A where
  entry := Function.update R.entry k ((R.entry k).bind (without m))
  keysOf := Function.update R.keysOf m (R.keysOf m \ {k})

/-- A member leaves all its keys. -/
def drop (R : Roster K M A) (m : M) : Roster K M A where
  entry k := (R.entry k).bind (without m)
  keysOf := Function.update R.keysOf m ∅

theorem has_join : (R.join k m a).Has k' m' ↔ (k' = k ∧ m' = m) ∨ R.Has k' m' := by
  by_cases hk : k' = k
  · subst hk
    cases he : R.entry k' with
    | none => simp [Has, join, he]
    | some e =>
      obtain ⟨b, ms⟩ := e
      simp [Has, join, he]
  · simp [Has, join, hk]

theorem has_without :
    (∃ b ms', without m (a, ms) = some (b, ms') ∧ m' ∈ ms') ↔ m' ∈ ms ∧ m' ≠ m := by
  unfold without
  by_cases hms : ms.erase m = ∅
  · rw [if_pos hms]
    refine iff_of_false (by simp) ?_
    rintro ⟨hm', hne⟩
    have hmem : m' ∈ ms.erase m := Finset.mem_erase.mpr ⟨hne, hm'⟩
    rw [hms] at hmem
    exact absurd hmem (Finset.notMem_empty m')
  · rw [if_neg hms]
    simp [and_comm]

theorem has_leave : (R.leave k m).Has k' m' ↔ R.Has k' m' ∧ ¬ (k' = k ∧ m' = m) := by
  by_cases hk : k' = k
  · subst hk
    cases he : R.entry k' with
    | none => simp [Has, leave, he]
    | some e =>
      obtain ⟨a, ms⟩ := e
      have hentry : (R.leave k' m).entry k' = without m (a, ms) := by simp [leave, he]
      rw [has_iff he, Has, hentry, has_without]
      simp
  · simp [Has, leave, hk]

omit [DecidableEq K] in
theorem has_drop : (R.drop m).Has k m' ↔ R.Has k m' ∧ m' ≠ m := by
  cases he : R.entry k with
  | none => simp [Has, drop, he]
  | some e =>
    obtain ⟨a, ms⟩ := e
    have hentry : (R.drop m).entry k = without m (a, ms) := by simp [drop, he]
    rw [has_iff he, Has, hentry, has_without]

theorem mem_keysOf_join : k' ∈ (R.join k m a).keysOf m' ↔
    (k' = k ∧ m' = m) ∨ k' ∈ R.keysOf m' := by
  by_cases hm : m' = m
  · subst hm
    simp [join]
  · simp [join, hm]

theorem mem_keysOf_leave : k' ∈ (R.leave k m).keysOf m' ↔
    k' ∈ R.keysOf m' ∧ ¬ (k' = k ∧ m' = m) := by
  by_cases hm : m' = m
  · subst hm
    simp [leave]
  · simp [leave, hm]

theorem without_nonempty {e e' : A × Finset M} (h : without m e = some e') : e'.2.Nonempty := by
  unfold without at h
  split at h
  · cases h
  · next hne =>
    obtain rfl := Option.some.inj h
    exact Finset.nonempty_iff_ne_empty.mpr hne

theorem Linked.join (h : R.Linked) (k : K) (m : M) (a : A) : (R.join k m a).Linked where
  mem_keysOf m' k' := by rw [mem_keysOf_join, has_join, h.mem_keysOf]
  nonempty k' b ms he := by
    by_cases hk : k' = k
    · subst hk
      simp only [Roster.join, Function.update_self, Option.some.injEq, Prod.mk.injEq] at he
      exact he.2 ▸ Finset.insert_nonempty _ _
    · simp only [Roster.join, Function.update_of_ne hk] at he
      exact h.nonempty k' b ms he

theorem Linked.leave (h : R.Linked) (k : K) (m : M) : (R.leave k m).Linked where
  mem_keysOf m' k' := by rw [mem_keysOf_leave, has_leave, h.mem_keysOf]
  nonempty k' b ms he := by
    by_cases hk : k' = k
    · subst hk
      simp only [Roster.leave, Function.update_self, Option.bind_eq_some_iff] at he
      obtain ⟨e, -, he⟩ := he
      exact without_nonempty he
    · simp only [Roster.leave, Function.update_of_ne hk] at he
      exact h.nonempty k' b ms he

omit [DecidableEq K] in
theorem Linked.drop (h : R.Linked) (m : M) : (R.drop m).Linked where
  mem_keysOf m' k := by
    rw [has_drop, ← h.mem_keysOf]
    by_cases hm : m' = m
    · subst hm
      simp [Roster.drop]
    · simp [Roster.drop, hm]
  nonempty k a ms he := by
    obtain ⟨e, -, he⟩ := Option.bind_eq_some_iff.mp he
    exact without_nonempty he

omit [DecidableEq K] in
theorem Linked.without_of_not_has (h : R.Linked) (he : R.entry k = some (a, ms)) (hm : m ∉ ms) :
    without m (a, ms) = some (a, ms) := by
  have herase : ms.erase m = ms := Finset.erase_eq_of_notMem hm
  have hne : ms ≠ ∅ := (h.nonempty k a ms he).ne_empty
  simp only [without, herase, if_neg hne]

/-! ## Attributes -/

/-- What every attribute meets. -/
def Attrs (P : K → A → Prop) (R : Roster K M A) : Prop :=
  ∀ k a ms, R.entry k = some (a, ms) → P k a

variable {P : K → A → Prop}

theorem Attrs.join (h : R.Attrs P) (m : M) (ha : P k a) : (R.join k m a).Attrs P := by
  intro k' b ms he
  by_cases hk : k' = k
  · subst hk
    simp only [Roster.join, Function.update_self, Option.some.injEq, Prod.mk.injEq] at he
    cases hold : R.entry k' with
    | none =>
      rw [hold] at he
      exact he.1 ▸ ha
    | some e =>
      rw [hold] at he
      exact he.1 ▸ h k' e.1 e.2 hold
  · simp only [Roster.join, Function.update_of_ne hk] at he
    exact h k' b ms he

theorem without_fst {e e' : A × Finset M} (h : without m e = some e') : e'.1 = e.1 := by
  unfold without at h
  split at h
  · cases h
  · obtain rfl := Option.some.inj h
    rfl

omit [DecidableEq K] in
theorem Attrs.drop (h : R.Attrs P) (m : M) : (R.drop m).Attrs P := by
  intro k b ms he
  obtain ⟨e, hold, he⟩ := Option.bind_eq_some_iff.mp he
  have hb : b = e.1 := without_fst he
  exact hb ▸ h k e.1 e.2 hold

theorem Attrs.leave (h : R.Attrs P) (k : K) (m : M) : (R.leave k m).Attrs P := by
  intro k' b ms he
  by_cases hk : k' = k
  · subst hk
    simp only [Roster.leave, Function.update_self] at he
    obtain ⟨e, hold, he⟩ := Option.bind_eq_some_iff.mp he
    have hb : b = e.1 := without_fst he
    exact hb ▸ h k' e.1 e.2 hold
  · simp only [Roster.leave, Function.update_of_ne hk] at he
    exact h k' b ms he

end Roster
