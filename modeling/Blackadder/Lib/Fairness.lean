import Mathlib.Data.List.Chain
import Blackadder.Lib.Runs

/-!
# Runs that are fair to some actions

A system may have actions that nobody has to take. Those that are urgent are taken in the end.
-/

namespace Runs

variable {S A : Type*} {step : S → A → S → Prop} {urgent : A → Prop}

/-- An infinite run in which an urgent action that is possible is taken later. `none` waits. -/
structure FairFor (urgent : A → Prop) (step : S → A → S → Prop) (r : Nat → S) (act : Nat → Option A) :
    Prop where
  wait : ∀ k, act k = none → r (k + 1) = r k
  next : ∀ k a, act k = some a → step (r k) a (r (k + 1))
  fair : ∀ k a, urgent a → (∃ s', step (r k) a s') → ∃ k', k ≤ k' ∧ act k' = some a

namespace FairFor

variable {r : Nat → S} {act : Nat → Option A} {k k' : Nat} {a : A} {s₀ : S}

theorem stable {P : S → Prop} (h : FairFor urgent step r act)
    (hP : ∀ s a s', step s a s' → P s → P s') (hk : k ≤ k') (hp : P (r k)) : P (r k') := by
  induction hk with
  | refl => exact hp
  | @step m _ ih =>
    cases hact : act m with
    | none => rwa [h.wait m hact]
    | some a => exact hP _ a _ (h.next m a hact) ih

theorem reachable (h : FairFor urgent step r act) (h0 : Reachable step s₀ (r 0)) (k : Nat) :
    Reachable step s₀ (r k) :=
  h.stable (fun _ _ _ hs hr => hr.next hs) (Nat.zero_le k) h0

theorem eventually (h : FairFor urgent step r act) (hu : urgent a) (ha : ∃ s', step (r k) a s') :
    ∃ k', k ≤ k' ∧ act k' = some a ∧ step (r k') a (r (k' + 1)) := by
  obtain ⟨k', hk, hact⟩ := h.fair k a hu ha
  exact ⟨k', hk, hact, h.next k' a hact⟩

/-- Urgent actions of which each makes the next one possible are all taken. -/
theorem chain {B : Type*} {f : B → A} {R : B → B → Prop} {b : B} {l : List B}
    (h : FairFor urgent step r act) (hu : ∀ b, urgent (f b))
    (hR : ∀ k, ∀ b' ∈ b :: l, ∀ c, act k = some (f b') → R b' c → ∃ s', step (r (k + 1)) (f c) s')
    (hl : (b :: l).IsChain R) (hb : ∃ s', step (r k) (f b) s') :
    ∃ k', k ≤ k' ∧ ∃ c ∈ (b :: l).getLast?, act k' = some (f c) := by
  induction l generalizing b k with
  | nil =>
    obtain ⟨k', hk, hact, -⟩ := h.eventually (hu b) hb
    exact ⟨k', hk, b, rfl, hact⟩
  | cons c l ih =>
    obtain ⟨hbc, hl⟩ := List.isChain_cons_cons.mp hl
    obtain ⟨m, hm, hact, -⟩ := h.eventually (hu b) hb
    have hc := hR m b List.mem_cons_self c hact hbc
    obtain ⟨k', hk', last, hlast, hact'⟩ := ih (fun k b' hb' => hR k b' (List.mem_cons_of_mem _ hb')) hl hc
    exact ⟨k', by omega, last, by rwa [List.getLast?_cons_cons], hact'⟩

/-- What a step keeps or leaves for `Q` is there later on, unless `Q` has come. -/
theorem kept_or {P Q : S → Prop} {rank : S → Nat} (h : FairFor urgent step r act)
    (hkeep : ∀ s b s', P s → step s b s' → Q s' ∨ P s' ∧ rank s' ≤ rank s) (hk : k ≤ k')
    (hp : P (r k)) : (∃ m, k ≤ m ∧ Q (r m)) ∨ P (r k') ∧ rank (r k') ≤ rank (r k) := by
  induction hk with
  | refl => exact .inr ⟨hp, le_rfl⟩
  | @step m hm ih =>
    obtain hq | ⟨hp, hle⟩ := ih
    · exact .inl hq
    cases hact : act m with
    | none =>
      rw [h.wait m hact]
      exact .inr ⟨hp, hle⟩
    | some b =>
      obtain hq | ⟨hp, hle'⟩ := hkeep _ b _ hp (h.next m b hact)
      · exact .inl ⟨m + 1, Nat.le_succ_of_le hm, hq⟩
      · exact .inr ⟨hp, hle'.trans hle⟩

/-- What only one action can end is there until that action is taken. -/
theorem taken_or {P : S → Prop} (h : FairFor urgent step r act)
    (hP : ∀ s b s', b ≠ a → P s → step s b s' → P s') (hk : k ≤ k') (hp : P (r k)) :
    (∃ m, k ≤ m ∧ act m = some a ∧ P (r m)) ∨ P (r k') := by
  induction hk with
  | refl => exact .inr hp
  | @step m hm ih =>
    obtain htaken | hp := ih
    · exact .inl htaken
    cases hact : act m with
    | none =>
      rw [h.wait m hact]
      exact .inr hp
    | some b =>
      by_cases hb : b = a
      · exact .inl ⟨m, hm, hb ▸ hact, hp⟩
      · exact .inr (hP _ b _ hb hp (h.next m b hact))

/-- An urgent action that only itself can end is taken from such a state. -/
theorem takes {P : S → Prop} (h : FairFor urgent step r act) (hu : urgent a)
    (hP : ∀ s b s', b ≠ a → P s → step s b s' → P s') (ha : ∃ s', step (r k) a s') (hp : P (r k)) :
    ∃ m, k ≤ m ∧ act m = some a ∧ P (r m) := by
  obtain ⟨m, hm, hact, -⟩ := h.eventually hu ha
  obtain htaken | hp' := h.taken_or hP hm hp
  · exact htaken
  · exact ⟨m, hm, hact, hp'⟩

/-- An urgent action that is possible again and again until `Q` lowers a rank that no other step raises. -/
theorem progress_of {P Q : S → Prop} {N : S → Nat} (h : FairFor urgent step r act) (hu : urgent a)
    (hen : ∀ m, P (r m) → ∃ m', m ≤ m' ∧ (Q (r m') ∨ ∃ s', step (r m') a s'))
    (hkeep : ∀ s b s', P s → step s b s' → Q s' ∨ P s' ∧ N s' ≤ N s)
    (hlower : ∀ s s', P s → step s a s' → Q s' ∨ P s' ∧ N s' < N s) (hp : P (r k)) :
    ∃ k', k ≤ k' ∧ Q (r k') := by
  generalize hn : N (r k) = n
  induction n using Nat.strong_induction_on generalizing k with
  | _ n ih =>
    obtain ⟨m', hm', hq | hpossible⟩ := hen k hp
    · exact ⟨m', hm', hq⟩
    obtain ⟨m, hm, -, hs⟩ := h.eventually hu hpossible
    obtain hq | ⟨hp', hle⟩ := h.kept_or hkeep (hm'.trans hm) hp
    · exact hq
    obtain hq | ⟨hp', hlt⟩ := hlower _ _ hp' hs
    · exact ⟨m + 1, by omega, hq⟩
    -- the action has been taken, with less to do than at `k`
    obtain ⟨k', hk', hq⟩ := ih _ (by omega) hp' rfl
    exact ⟨k', by omega, hq⟩

theorem progress {P Q : S → Prop} {N : S → Nat} (h : FairFor urgent step r act) (hu : urgent a)
    (hen : ∀ s, P s → ∃ s', step s a s')
    (hkeep : ∀ s b s', P s → step s b s' → Q s' ∨ P s' ∧ N s' ≤ N s)
    (hlower : ∀ s s', P s → step s a s' → Q s' ∨ P s' ∧ N s' < N s) (hp : P (r k)) :
    ∃ k', k ≤ k' ∧ Q (r k') :=
  h.progress_of hu (fun m hp => ⟨m, le_rfl, .inr (hen _ hp)⟩) hkeep hlower hp

/-- One step more at the beginning, where nothing is urgent yet. -/
theorem cons {s : S} (h : FairFor urgent step r act) (ha : step s a (r 0))
    (hidle : ∀ b s', urgent b → ¬ step s b s') :
    FairFor urgent step (fun k => Nat.casesOn k s r) (fun k => Nat.casesOn k (some a) act) where
  wait k hk := by
    cases k with
    | zero => cases hk
    | succ k => exact h.wait k hk
  next k b hk := by
    cases k with
    | zero =>
      obtain rfl := Option.some.inj hk
      exact ha
    | succ k => exact h.next k b hk
  fair k b hb hs := by
    cases k with
    | zero =>
      obtain ⟨s', hs⟩ := hs
      exact absurd hs (hidle b s' hb)
    | succ k =>
      obtain ⟨k', hk, hact⟩ := h.fair k b hb hs
      exact ⟨k' + 1, by omega, hact⟩

end FairFor

/-- A fair run of the urgent actions of a part of the states. -/
theorem FairRun.fairFor {P : S → Prop} {B : Type*} {f : B → A} {r : Nat → Subtype P}
    {act : Nat → Option B}
    (h : FairRun (fun (s : Subtype P) b (s' : Subtype P) => step s (f b) s') r act)
    (hf : ∀ a, urgent a → ∃ b, f b = a) (hP : ∀ s b s', P s → step s (f b) s' → P s') :
    FairFor urgent step (fun k => (r k).1) (fun k => (act k).map f) where
  wait k hk := congrArg Subtype.val (h.wait k (Option.map_eq_none_iff.mp hk))
  next k a hk := by
    obtain ⟨b, hb, rfl⟩ := Option.map_eq_some_iff.mp hk
    exact h.next k b hb
  fair k a ha hs := by
    obtain ⟨b, rfl⟩ := hf a ha
    obtain ⟨s', hs⟩ := hs
    obtain ⟨k', hk, hact⟩ := h.fair k b ⟨⟨s', hP _ b s' (r k).2 hs⟩, hs⟩
    exact ⟨k', hk, by rw [hact, Option.map_some]⟩

end Runs
