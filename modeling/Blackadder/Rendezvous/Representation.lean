import Mathlib.Tactic.Common
import Blackadder.Rendezvous.Acyclic

/-!
# The graph and its indexes

The invariant, said without labels.
-/

namespace Blackadder

namespace LocalRV

variable {s : LocalRV} {lab : Node → Id} {n : Node}

/-- Every node below a father has exactly the ids that the ids of its fathers ask for. -/
def ClosedAt (s : LocalRV) (n : Node) : Prop :=
  ∃ x : Id, x.length = pursuitIdLen ∧ ∀ X, X ∈ s.ids n ↔
    ∃ f ∈ s.fatherScopes n, ∃ F ∈ s.ids (.scope f), X = F ++ x

/-- A root scope has no father and one id of one fragment. -/
def RootAt (s : LocalRV) (sc : Ptr) : Prop :=
  (∀ f, ¬ f ∈ s.fatherScopes (.scope sc)) ∧
    ∃ x : Id, x.length = pursuitIdLen ∧ ∀ X, X ∈ s.ids (.scope sc) ↔ X = x

theorem Inv.closedAt (hs : s.Inv lab) (hn : ∃ X, X ∈ s.ids n)
    (hroot : ¬ (n.kind = .scope ∧ s.isRoot n.ptr = true)) : s.ClosedAt n := by
  obtain ⟨X, hX⟩ := hn
  rcases hs.has_father n X hX with h | ⟨f, hf⟩
  · exact absurd h hroot
  · exact ⟨lab n, hs.lab_length n, fun Y => hs.ids_iff hf⟩

theorem Inv.rootAt (hs : s.Inv lab) {sc : Ptr} (hn : ∃ X, X ∈ s.ids (.scope sc))
    (hroot : s.isRoot sc = true) : s.RootAt sc := by
  obtain ⟨X, hX⟩ := hn
  have hfathers : ∀ f, ¬ f ∈ s.fatherScopes (.scope sc) := fun f => hs.root_fatherless sc f hroot
  refine ⟨hfathers, X, by rw [hs.root_ids hfathers hX, hs.lab_length], fun Y => ?_⟩
  constructor
  · intro hY
    rw [hs.root_ids hfathers hY, hs.root_ids hfathers hX]
  · rintro rfl
    exact hX

/-- In every state between requests the indexes list exactly the ids of the graph, no id is in
both, links go both ways, and ids are closed under links. Every request that does not close a
cycle leads to such a state. -/
theorem representation (hs : s.Reachable) :
    (∀ X sc, s.scopeIndex X = some sc ↔ X ∈ s.ids (.scope sc)) ∧
    (∀ X p, s.pubIndex X = some p ↔ X ∈ s.ids (.item p)) ∧
    (∀ X, s.scopeIndex X = none ∨ s.pubIndex X = none) ∧
    (∀ f sc, sc ∈ s.childrenScopes f ↔ f ∈ s.fatherScopes (.scope sc)) ∧
    (∀ f p, p ∈ s.informationitems f ↔ f ∈ s.fatherScopes (.item p)) ∧
    (∀ p, (∃ X, X ∈ s.ids (.item p)) → s.ClosedAt (.item p)) ∧
    (∀ sc, (∃ X, X ∈ s.ids (.scope sc)) →
      if s.isRoot sc = true then s.RootAt sc else s.ClosedAt (.scope sc)) ∧
    ∀ h r, r.WellFormed → ¬ s.ClosesCycle r →
      ∃ fuel code s', handle fuel s h r = .ok (code, s') ∧ s'.Reachable := by
  obtain ⟨nodeID, hrun⟩ := hs
  obtain ⟨lab, hs⟩ := inv_of_run hrun
  refine ⟨fun X sc => hs.index_iff (.scope sc) X, fun X p => hs.index_iff (.item p) X, fun X => ?_,
    fun f sc => hs.child_iff (.scope sc) f, fun f p => hs.child_iff (.item p) f, fun p hp => ?_,
    fun sc hsc => ?_, fun h r hr hcycle => ?_⟩
  · cases hsc : s.scopeIndex X with
    | none => exact Or.inl rfl
    | some sc =>
      cases hii : s.pubIndex X with
      | none => exact Or.inr rfl
      | some p => exact absurd (hs.index_kind hsc hii) nofun
  · exact hs.closedAt hp fun h => nomatch h.1
  · split
    · next hroot => exact hs.rootAt hsc hroot
    · next hroot => exact hs.closedAt hsc fun h => hroot h.2
  · obtain ⟨fuel, code, s', hrun'⟩ := handle_total hs hr hcycle h
    exact ⟨fuel, code, s', hrun', nodeID, hrun.next (a := (h, r)) ⟨hr, fuel, code, hrun'⟩⟩

theorem representation_nested :
    (afterRun 1 [0] nestedRun).RootAt 0 ∧ (afterRun 1 [0] nestedRun).ClosedAt (.scope 1) := by
  obtain ⟨hindex, -, -, -, -, -, hscopes, -⟩ :=
    representation (reachable_afterRun 1 [0] (by decide : ∀ a ∈ nestedRun, a.2.WellFormed))
  have h0 := hscopes 0 ⟨frag 1, (hindex _ _).mp (by decide)⟩
  have h1 := hscopes 1 ⟨frag 1 ++ frag 2, (hindex _ _).mp (by decide)⟩
  exact ⟨by rwa [if_pos (by decide)] at h0, by rwa [if_neg (by decide)] at h1⟩

end LocalRV

end Blackadder
