import Mathlib.Data.Multiset.AddSub
import Mathlib.Logic.Relation
import Mathlib.Tactic.ByContra
import Mathlib.Tactic.Push

/-!
# Runs of a labelled transition system
-/

namespace Runs

variable {S A : Type*} {step step' : S → A → S → Prop} {s₀ s s' : S} {a : A}

/-- The states that some sequence of steps leads to. -/
def Reachable (step : S → A → S → Prop) (s₀ s : S) : Prop :=
  Relation.ReflTransGen (fun s s' => ∃ a, step s a s') s₀ s

theorem Reachable.start : Reachable step s₀ s₀ := Relation.ReflTransGen.refl

theorem Reachable.next (h : Reachable step s₀ s) (hs : step s a s') : Reachable step s₀ s' :=
  Relation.ReflTransGen.tail h ⟨a, hs⟩

/-- What holds first and is kept by every step from a reachable state holds in every run. -/
theorem Reachable.invariant {I : S → Prop} (h : Reachable step s₀ s) (h0 : I s₀)
    (hstep : ∀ s a s', Reachable step s₀ s → I s → step s a s' → I s') : I s := by
  induction h with
  | refl => exact h0
  | tail hr hs ih =>
    obtain ⟨a, hs⟩ := hs
    exact hstep _ a _ hr ih hs

/-- A run of a system is a run of every system that has its steps. -/
theorem Reachable.mono (h : Reachable step s₀ s) (hsub : ∀ s a s', step s a s' → step' s a s') :
    Reachable step' s₀ s :=
  h.invariant .start fun _ _ _ _ ih hs => ih.next (hsub _ _ _ hs)

/-- The steps that meet a condition on the state and the label. -/
def Guarded (step : S → A → S → Prop) (ok : S → A → Prop) : S → A → S → Prop :=
  fun s a s' => step s a s' ∧ ok s a

theorem Reachable.of_guarded {ok : S → A → Prop} (h : Reachable (Guarded step ok) s₀ s) :
    Reachable step s₀ s :=
  h.mono fun _ _ _ hs => hs.1

/-- The states after exactly `n` steps. -/
inductive Steps (step : S → A → S → Prop) (s₀ : S) : Nat → S → Prop
  | zero : Steps step s₀ 0 s₀
  | succ {n : Nat} {s s' : S} {a : A} (h : Steps step s₀ n s) (hs : step s a s') :
      Steps step s₀ (n + 1) s'

/-- An invariant that counts steps. -/
theorem Steps.invariant {I : Nat → S → Prop} {n : Nat} (h : Steps step s₀ n s) (h0 : I 0 s₀)
    (hstep : ∀ n s a s', I n s → step s a s' → I (n + 1) s') : I n s := by
  induction h with
  | zero => exact h0
  | succ _ hs ih => exact hstep _ _ _ _ ih hs

/-- When no run has more than `N` steps, some run cannot go on. -/
theorem Steps.exists_stuck {N : Nat} (hN : ∀ n s, Steps step s₀ n s → n ≤ N) :
    ∃ n s, Steps step s₀ n s ∧ ∀ a s', ¬ step s a s' := by
  by_contra hgo
  push Not at hgo
  have hall : ∀ n, ∃ s, Steps step s₀ n s := by
    intro n
    induction n with
    | zero => exact ⟨s₀, .zero⟩
    | succ n ih =>
      obtain ⟨s, hs⟩ := ih
      obtain ⟨a, s', hstep⟩ := hgo n s hs
      exact ⟨s', hs.succ hstep⟩
  obtain ⟨s, hs⟩ := hall (N + 1)
  have hle := hN _ _ hs
  omega

/-- An infinite run in which every action that is possible is taken later. `none` waits. -/
structure FairRun (step : S → A → S → Prop) (r : Nat → S) (act : Nat → Option A) : Prop where
  wait : ∀ k, act k = none → r (k + 1) = r k
  next : ∀ k a, act k = some a → step (r k) a (r (k + 1))
  fair : ∀ k a, (∃ s', step (r k) a s') → ∃ k', k ≤ k' ∧ act k' = some a

namespace FairRun

variable {r : Nat → S} {act : Nat → Option A} {k k' : Nat}

/-- What every step keeps stays true. -/
theorem stable {P : S → Prop} (h : FairRun step r act) (hP : ∀ s a s', step s a s' → P s → P s')
    (hk : k ≤ k') (hp : P (r k)) : P (r k') := by
  induction hk with
  | refl => exact hp
  | @step m _ ih =>
    cases hact : act m with
    | none => rwa [h.wait m hact]
    | some a => exact hP _ a _ (h.next m a hact) ih

theorem eventually (h : FairRun step r act) (ha : ∃ s', step (r k) a s') :
    ∃ k', k ≤ k' ∧ step (r k') a (r (k' + 1)) := by
  obtain ⟨k', hk, hact⟩ := h.fair k a ha
  exact ⟨k', hk, h.next k' a hact⟩

end FairRun

/-! ## First in, first out -/

section Queue

variable {pending : S → Multiset A}

/-- A state with what is pending in some order. -/
def Queue (pending : S → Multiset A) : Type _ := { x : S × List A // pending x.1 = x.2 }

theorem exists_advance [DecidableEq A] (hgo : ∀ s a, a ∈ pending s → ∃ s' new,
      step s a s' ∧ pending s' = (pending s).erase a + (new : List A)) (x : Queue pending) :
    ∃ y : Queue pending, (x.1.2 = [] → y = x) ∧
      ∀ a q, x.1.2 = a :: q → step x.1.1 a y.1.1 ∧ ∃ new, y.1.2 = q ++ new := by
  obtain ⟨⟨s, q⟩, hq⟩ := x
  cases q with
  | nil => exact ⟨⟨(s, []), hq⟩, fun _ => rfl, fun a q h => by cases h⟩
  | cons a q =>
    have ha : a ∈ pending s := by
      rw [hq]
      exact List.mem_cons_self
    obtain ⟨s', new, hstep, hs'⟩ := hgo s a ha
    have hnew : pending s' = (q ++ new : List A) := by
      rw [hs', hq, Multiset.coe_erase, List.erase_cons_head, Multiset.coe_add]
    refine ⟨⟨(s', q ++ new), hnew⟩, ?_, ?_⟩
    · rintro ⟨⟩
    · rintro _ _ ⟨⟩
      exact ⟨hstep, new, rfl⟩

/-- When a step takes one pending action and adds others, there are fair runs. -/
theorem exists_fairRun [DecidableEq A] (hmem : ∀ s a s', step s a s' → a ∈ pending s)
    (hgo : ∀ s a, a ∈ pending s → ∃ s' new,
      step s a s' ∧ pending s' = (pending s).erase a + (new : List A)) (s₀ : S) :
    ∃ r act, FairRun step r act ∧ r 0 = s₀ := by
  choose advance hidle hwork using exists_advance hgo
  obtain ⟨q₀, hq₀⟩ := Quot.exists_rep (pending s₀)
  let run : Nat → Queue pending := fun k => advance^[k] ⟨(s₀, q₀), hq₀.symm⟩
  have hrun : ∀ k, run (k + 1) = advance (run k) := fun k => Function.iterate_succ_apply' _ _ _
  -- What stands at some place of the queue moves one place up with every step.
  have hmove : ∀ i k a, (run k).1.2[i]? = some a → ((run (k + i)).1.2)[0]? = some a := by
    intro i
    induction i with
    | zero => exact fun _ _ h => h
    | succ i ih =>
      intro k a h
      cases hq : (run k).1.2 with
      | nil =>
        rw [hq] at h
        cases h
      | cons b q =>
        obtain ⟨-, new, hnew⟩ := hwork (run k) b q hq
        rw [hq, List.getElem?_cons_succ] at h
        have hlt := (List.getElem?_eq_some_iff.mp h).1
        have hnext := ih (k + 1) a (by rw [hrun, hnew, List.getElem?_append_left hlt, h])
        rwa [Nat.add_right_comm] at hnext
  refine ⟨fun k => (run k).1.1, fun k => (run k).1.2[0]?, ⟨?_, ?_, ?_⟩, rfl⟩
  · intro k hk
    rw [hrun, hidle]
    rwa [← List.head?_eq_getElem?, List.head?_eq_none_iff] at hk
  · intro k a hk
    rw [← List.head?_eq_getElem?, List.head?_eq_some_iff] at hk
    obtain ⟨q, hq⟩ := hk
    rw [hrun]
    exact (hwork _ a q hq).1
  · rintro k a ⟨s', hstep⟩
    have ha := hmem _ a _ hstep
    rw [(run k).2, Multiset.mem_coe] at ha
    obtain ⟨i, hi⟩ := List.getElem?_of_mem ha
    exact ⟨k + i, Nat.le_add_right k i, hmove i k a hi⟩

end Queue

end Runs
