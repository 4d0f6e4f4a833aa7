import Mathlib.Tactic.Common
import Blackadder.Rendezvous.Steps

/-!
# Refused requests

A refusal comes before the first change, but for `unpublish_scope`, which withdraws the
items of the caller before it finds out that the caller does not publish the scope.
-/

namespace Blackadder

namespace LocalRV

variable {s s' : LocalRV} {lab : Node → Id} {ID P : Id} {h : NodeId} {r : Request}
  {strategy : Strategy} {code : ReturnCode} {fuel : Nat} {E : LocalRV → Prop}

theorem Outcome.unchanged (ho : s.Outcome E (code, s')) (hc : code ≠ .success) : s' = s := by
  rcases ho with ⟨-, hs⟩ | ⟨hcode, -⟩
  · exact hs
  · exact absurd hcode hc

theorem eq_of_return {c : ReturnCode} {t : LocalRV}
    (h : (pure (c, t) : Result (ReturnCode × LocalRV)) = .ok (code, s')) : code = c ∧ s' = t := by
  obtain ⟨rfl, rfl⟩ := Prod.mk.inj (Loops.pure_eq_ok.mp h)
  exact ⟨rfl, rfl⟩

theorem unpublishInfo_unchanged (hrun : s.unpublishInfo h ID P strategy = .ok (code, s'))
    (hc : code ≠ .success) : s' = s := by
  simp only [unpublishInfo] at hrun
  split at hrun
  · exact (eq_of_return hrun).2
  · obtain ⟨f, -, hrun⟩ := Loops.bind_eq_ok.mp hrun
    split at hrun
    · exact (eq_of_return hrun).2
    · obtain ⟨pair, -, hrun⟩ := Loops.bind_eq_ok.mp hrun
      split at hrun
      · exact (eq_of_return hrun).2
      · obtain ⟨t, -, hrun⟩ := Loops.bind_eq_ok.mp hrun
        exact absurd (eq_of_return hrun).1 hc

theorem unsubscribeInfo_unchanged (hrun : s.unsubscribeInfo h ID P strategy = .ok (code, s'))
    (hc : code ≠ .success) : s' = s := by
  simp only [unsubscribeInfo] at hrun
  split at hrun
  · exact (eq_of_return hrun).2
  · obtain ⟨f, -, hrun⟩ := Loops.bind_eq_ok.mp hrun
    split at hrun
    · exact (eq_of_return hrun).2
    · obtain ⟨pair, -, hrun⟩ := Loops.bind_eq_ok.mp hrun
      split at hrun
      · exact (eq_of_return hrun).2
      · obtain ⟨t, -, hrun⟩ := Loops.bind_eq_ok.mp hrun
        exact absurd (eq_of_return hrun).1 hc

theorem unsubscribeScope_unchanged (hrun : s.unsubscribeScope h ID P strategy = .ok (code, s'))
    (hc : code ≠ .success) : s' = s := by
  simp only [unsubscribeScope] at hrun
  split at hrun
  · exact (eq_of_return hrun).2
  · split at hrun
    · exact (eq_of_return hrun).2
    · obtain ⟨pair, -, hrun⟩ := Loops.bind_eq_ok.mp hrun
      split at hrun
      · exact (eq_of_return hrun).2
      · obtain ⟨t, -, hrun⟩ := Loops.bind_eq_ok.mp hrun
        exact absurd (eq_of_return hrun).1 hc

/-- The caller does not publish the scope it names, but publishes items directly under it. -/
def WithdrawsItemsOnly (s : LocalRV) (h : NodeId) (r : Request) : Prop :=
  r.type = .unpublishScope ∧ ∃ sc, s.scopeIndex (r.prefixID ++ r.ID) = some sc ∧
    s.strategy (.scope sc) = r.strategy ∧
    ¬ h ∈ s.pairAt (.scope sc) (r.prefixID ++ r.ID) .publisher ∧
    ∃ p X, sc ∈ s.fatherScopes (.item p) ∧ s.InBranch (some sc) X ∧
      h ∈ s.pairAt (.item p) X .publisher

theorem unpublishScope_refused (hs : s.Inv lab)
    (hrun : s.unpublishScope h ID P strategy = .ok (code, s')) (hc : code ≠ .success) :
    s' = s ∨ ∃ sc, s.scopeIndex (P ++ ID) = some sc ∧ s.strategy (.scope sc) = strategy ∧
      ¬ h ∈ s.pairAt (.scope sc) (P ++ ID) .publisher ∧ code = .doesNotExist ∧
      ItemsWithdrawn h sc s s' := by
  simp only [unpublishScope] at hrun
  cases hsc : s.scopeIndex (P ++ ID) with
  | none =>
    simp only [hsc] at hrun
    exact Or.inl (eq_of_return hrun).2
  | some sc =>
    simp only [hsc] at hrun
    split at hrun
    · exact Or.inl (eq_of_return hrun).2
    · next hst =>
      obtain ⟨s₁, hitems, hw, -⟩ := unpublishItems_spec hs h sc strategy
      have hk := hw.keepsScopes hs
      rw [hitems] at hrun
      obtain ⟨t, ht, hrun⟩ := Loops.bind_eq_ok.mp hrun
      obtain rfl := Except.ok.inj ht
      rw [lookup_of_mem ((hk.mem_ids sc _).mpr (hs.of_index hsc))] at hrun
      obtain ⟨pair, hpair, hrun⟩ := Loops.bind_eq_ok.mp hrun
      obtain rfl := Except.ok.inj hpair
      split at hrun
      · next hh =>
        obtain ⟨rfl, rfl⟩ := eq_of_return hrun
        exact Or.inr ⟨sc, rfl, not_not.mp hst, by rwa [← hk.pairAt], rfl, hw⟩
      · obtain ⟨t, -, hrun⟩ := Loops.bind_eq_ok.mp hrun
        exact absurd (eq_of_return hrun).1 hc

theorem ItemsWithdrawn.eq_or_publishes {sc : Ptr} (hw : ItemsWithdrawn h sc s s') :
    s' = s ∨ ∃ p X, sc ∈ s.fatherScopes (.item p) ∧ s.InBranch (some sc) X ∧
      h ∈ s.pairAt (.item p) X .publisher := by
  rcases Relation.ReflTransGen.cases_head hw with rfl | ⟨t, ⟨p, X, hf, -, hin, hl⟩, -⟩
  · exact Or.inl rfl
  · exact Or.inr ⟨p, X, hf, hin, hl.mem⟩

/-- A refused request changes nothing. The one exception is an `unpublish_scope` whose caller
publishes items directly under the scope but not the scope: it answers `DOES_NOT_EXIST` and
has withdrawn items of the caller. -/
theorem refused_unchanged (hs : s.Reachable) (hrun : handle fuel s h r = .ok (code, s'))
    (hc : code ≠ .success) : s' = s ∨ (s.WithdrawsItemsOnly h r ∧ code = .doesNotExist ∧
      ∃ sc, s.scopeIndex (r.prefixID ++ r.ID) = some sc ∧ ItemsWithdrawn h sc s s') := by
  obtain ⟨lab, hs⟩ := hs.inv
  obtain ⟨type, ID, P, strategy⟩ := r
  cases type with
  | publishScope => exact Or.inl ((publishScope_spec hs hrun).unchanged hc)
  | publishInfo =>
    have ho : s.Outcome (s.Enters h .item .publisher (P ++ suffixOf ID) ID strategy)
        (s.publishInfo h ID P strategy) := publishInfo_spec hs
    rw [Loops.pure_eq_ok.mp hrun] at ho
    exact Or.inl (ho.unchanged hc)
  | subscribeScope => exact Or.inl ((subscribeScope_spec hs hrun).unchanged hc)
  | subscribeInfo =>
    have ho : s.Outcome (s.Enters h .item .subscriber (P ++ ID) ID strategy)
        (s.subscribeInfo h ID P strategy) := subscribeInfo_spec hs
    rw [Loops.pure_eq_ok.mp hrun] at ho
    exact Or.inl (ho.unchanged hc)
  | unpublishInfo => exact Or.inl (unpublishInfo_unchanged hrun hc)
  | unsubscribeInfo => exact Or.inl (unsubscribeInfo_unchanged hrun hc)
  | unsubscribeScope => exact Or.inl (unsubscribeScope_unchanged hrun hc)
  | unpublishScope =>
    rcases unpublishScope_refused hs hrun hc with h1 | ⟨sc, hsc, hst, hh, hcode, hw⟩
    · exact Or.inl h1
    · rcases hw.eq_or_publishes with h1 | hpub
      · exact Or.inl h1
      · exact Or.inr ⟨⟨rfl, sc, hsc, hst, hh, hpub⟩, hcode, sc, hsc, hw⟩

/-- One host publishes a scope, and another an item under it. -/
def itemRun : List (NodeId × Request) :=
  [([1], ⟨.publishScope, frag 1, [], domainLocal⟩),
    ([2], ⟨.publishInfo, frag 2, frag 1, domainLocal⟩)]

theorem refused_unchanged_stranger : ∃ code s',
    handle 1 (afterRun 1 [0] itemRun) [3] ⟨.unpublishScope, frag 1, [], domainLocal⟩ =
      .ok (code, s') ∧ code ≠ .success ∧ (s' = afterRun 1 [0] itemRun ∨
        ((afterRun 1 [0] itemRun).WithdrawsItemsOnly [3] ⟨.unpublishScope, frag 1, [], domainLocal⟩ ∧
          code = .doesNotExist ∧ ∃ sc, (afterRun 1 [0] itemRun).scopeIndex ([] ++ frag 1) = some sc ∧
            ItemsWithdrawn [3] sc (afterRun 1 [0] itemRun) s')) := by
  obtain ⟨s', hrun⟩ : ∃ s', handle 1 (afterRun 1 [0] itemRun) [3]
      ⟨.unpublishScope, frag 1, [], domainLocal⟩ = .ok (.doesNotExist, s') := ⟨_, rfl⟩
  exact ⟨.doesNotExist, s', hrun, by decide, refused_unchanged
    (reachable_afterRun 1 [0] (by decide : ∀ a ∈ itemRun, a.2.WellFormed)) hrun (by decide)⟩

/-- The second host's `unpublish_scope` is refused, and its item is gone. -/
theorem refused_unpublishScope_withdraws : (afterRun 1 [0] itemRun).Reachable ∧
    (afterRun 1 [0] itemRun).pubIndex (frag 1 ++ frag 2) = some 1 ∧
    ∃ s', handle 1 (afterRun 1 [0] itemRun) [2] ⟨.unpublishScope, frag 1, [], domainLocal⟩ =
      .ok (.doesNotExist, s') ∧ s'.pubIndex (frag 1 ++ frag 2) = none :=
  ⟨reachable_afterRun 1 [0] (by decide : ∀ a ∈ itemRun, a.2.WellFormed), by decide, _, rfl, by decide⟩

end LocalRV

end Blackadder
