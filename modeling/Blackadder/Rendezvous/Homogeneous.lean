import Mathlib.Data.List.AList
import Mathlib.Tactic.Common
import Blackadder.Rendezvous.Steps

/-!
# One strategy for all that is connected

A new scope or item gets the strategy of its father. A republication compares its own strategy
with the new father's, and not with that of what it links.
-/

namespace Blackadder

namespace LocalRV

open Request

def Homogeneous (s : LocalRV) : Prop :=
  ∀ n f, f ∈ s.fatherScopes n → s.strategy n = s.strategy (.scope f)

/-- A republication of what has another strategy than the new father. -/
def Mixes (s : LocalRV) (r : Request) : Prop :=
  (r.type = .publishScope ∨ r.type = .publishInfo) ∧ pursuitIdLen < r.ID.length ∧
    s.scopeIndex r.fullID = none ∧ s.pubIndex r.fullID = none ∧
      ∃ f p, s.scopeIndex r.prefixID = some f ∧ s.strategy (.scope f) = r.strategy ∧
        s.index r.type.kind r.ID = some p ∧ s.strategy ⟨r.type.kind, p⟩ ≠ r.strategy

variable {s s' s₁ : LocalRV} {lab : Node → Id} {n : Node} {X : Id} {h : NodeId} {role : Role}
  {k : Kind} {f p : Ptr} {o : Option Ptr} {r : Request} {code : ReturnCode} {fuel : Nat}

/-! ## The steps that keep it -/

theorem Attached.keepsHomogeneous (ha : s.Attached n o s₁) (hs : s.Inv lab) (hhom : s.Homogeneous)
    (hlink : ∀ f, o = some f → s₁.strategy n = s₁.strategy (.scope f)) : s₁.Homogeneous := by
  intro m g hg
  rcases (ha.fathers m g).mp hg with hg | ⟨rfl, ho⟩
  · obtain ⟨Y, hY⟩ := hs.live hg
    obtain ⟨F, hF⟩ := hs.father_live m g hg
    rw [ha.strategy m Y hY, ha.strategy (.scope g) F hF]
    exact hhom m g hg
  · exact hlink g ho

theorem Entered.keepsHomogeneous (he : s.Entered h n role X s') (hs : s.Inv lab) (hhom : s.Homogeneous)
    (hlink : (∃ Y, Y ∈ s.ids n) → ¬ X ∈ s.ids n → ∀ f, fatherOf X ∈ s.ids (.scope f) →
      s.strategy n = s.strategy (.scope f)) : s'.Homogeneous := by
  cases he with
  | existing => exact hhom
  | root ha => exact ha.keepsHomogeneous hs hhom nofun
  | newScope hP ha hX ht hst =>
    subst ht
    refine ha.keepsHomogeneous hs hhom fun g hg => ?_
    rw [← Option.some.inj hg, ha.strategy _ _ hP, hst]
  | newItem hP ha hX ht hst =>
    subst ht
    refine ha.keepsHomogeneous hs hhom fun g hg => ?_
    rw [← Option.some.inj hg, ha.strategy _ _ hP, hst]
  | linkedScope hE hP ha hnew hX ht =>
    subst ht
    refine ha.keepsHomogeneous hs hhom fun g hg => ?_
    rw [← Option.some.inj hg, ha.strategy _ _ hP, ha.strategy _ _ hE]
    exact hlink ⟨_, hE⟩ hnew _ hP
  | linkedItem hE hP ha hnew hX ht =>
    subst ht
    obtain ⟨E, hE⟩ := hE
    refine ha.keepsHomogeneous hs hhom fun g hg => ?_
    rw [← Option.some.inj hg, ha.strategy _ _ hP, ha.strategy _ _ hE]
    exact hlink ⟨E, hE⟩ hnew _ hP

theorem Left.keepsHomogeneous (hl : s.Left h n role X s') (hhom : s.Homogeneous) : s'.Homogeneous := by
  intro m g hg
  rw [hl.strategy]
  exact hhom m g (hl.fathers_sub hg)

theorem Entered.mem_ids (he : s.Entered h n role X s') (hs : s.Inv lab) : X ∈ s'.ids n :=
  mem_of_pairAt ((he.mem_pairAt hs).mpr (Or.inl ⟨rfl, rfl, rfl, rfl⟩))

/-- An id that a node gets had no owner. -/
theorem Entered.index_none (he : s.Entered h n role X s') (hs : s.Inv lab) (hX : ¬ X ∈ s.ids n)
    (k : Kind) : s.index k X = none := by
  obtain ⟨lab', hs'⟩ := he.inv hs
  cases hidx : s.index k X with
  | none => rfl
  | some q =>
    have hq : X ∈ s.ids ⟨k, q⟩ := hs.of_index hidx
    have hsame : n = ⟨k, q⟩ := hs'.owner_unique (he.mem_ids hs) (he.mono hs hq)
    exact absurd (hsame ▸ hq) hX

/-- A request that mixes nothing links nothing of another strategy. -/
theorem Effect.keepsHomogeneous (he : Effect s h r code s') (hs : s.Inv lab) (hr : r.WellFormed)
    (hhom : s.Homogeneous) (hmix : ¬ s.Mixes r) : s'.Homogeneous := by
  have hitems : ∀ {sc s₁}, ItemsWithdrawn h sc s s₁ → s₁.Homogeneous := by
    intro sc s₁ hw
    induction hw with
    | refl => exact hhom
    | tail _ hstep ih =>
      obtain ⟨p, X, -, -, -, hl⟩ := hstep
      exact hl.keepsHomogeneous ih
  cases he with
  | refused => exact hhom
  | entered ht he =>
    obtain ⟨p, he, hnew⟩ := he
    refine he.keepsHomogeneous hs hhom fun hY hX f hf => ?_
    obtain ⟨hlong, hE, hst⟩ := hnew hY hX
    have hfather : fatherOf r.fullID = r.prefixID := fatherOf_fullID hlong.le
    rw [hfather] at hf
    have hf : s.scopeIndex r.prefixID = some f := hs.index_of_mem hf
    have hstf : s.strategy (.scope f) = r.strategy := by
      apply hst
      rwa [hfather]
    have htype : r.type = .publishScope ∨ r.type = .publishInfo := by
      by_contra hno
      rw [not_or] at hno
      exact absurd (hr.single hno.1 hno.2) hlong.ne'
    by_contra hne
    rw [hstf] at hne
    exact hmix ⟨htype, hlong, he.index_none hs hX .scope, he.index_none hs hX .item, f, p, hf, hstf,
      hs.index_of_mem hE, hne⟩
  | left _ _ hl =>
    obtain ⟨p, hl, -⟩ := hl
    exact hl.keepsHomogeneous hhom
  | unpublished _ _ _ hw hl => exact hl.keepsHomogeneous (hitems hw)
  | onlyItems _ _ _ hw _ => exact hitems hw

/-! ## The step that breaks it -/

theorem register_links (s : LocalRV) (n : Node) (role : Role) (X : Id) (h : NodeId) :
    (s.register n role X h).2.fatherScopes = s.fatherScopes ∧
      (s.register n role X h).2.strategy = s.strategy := by
  have hupdate : (s.updateHosts n role X h).2.fatherScopes = s.fatherScopes ∧
      (s.updateHosts n role X h).2.strategy = s.strategy := by
    unfold updateHosts
    split
    · split <;> exact ⟨rfl, rfl⟩
    · exact ⟨rfl, rfl⟩
  unfold register
  split
  · next t hrun =>
    rw [hrun] at hupdate
    exact hupdate
  · next t hrun =>
    rw [hrun] at hupdate
    exact hupdate

theorem not_homogeneous_of_link (s' : LocalRV) (hl : (s.link n f).SameLinks s₁)
    (hf : s'.fatherScopes = s₁.fatherScopes) (hst : s'.strategy = s₁.strategy)
    (hne : s.strategy n ≠ s.strategy (.scope f)) : ¬ s'.Homogeneous := by
  intro hhom
  have hlink : f ∈ s'.fatherScopes n := by
    rw [hf, hl.fatherScopes]
    exact mem_fathers_link.mpr (Or.inr ⟨rfl, rfl⟩)
  have hsame := hhom n f hlink
  rw [hst, hl.strategy] at hsame
  exact hne hsame

theorem republishInnerScope_mixes {ID P : Id} {strategy : Strategy} {res : ReturnCode × LocalRV}
    (hii : s.pubIndex (P ++ suffixOf ID) = none) (hsc : s.scopeIndex (P ++ suffixOf ID) = none)
    (hP : s.scopeIndex P = some f) (hE : s.scopeIndex ID = some p)
    (hst : s.strategy (.scope f) = strategy) (hne : s.strategy (.scope p) ≠ strategy)
    (hrun : s.republishInnerScope fuel h ID P strategy = .ok res) : ¬ res.2.Homogeneous := by
  simp only [republishInnerScope, hii, hP, hE, hsc, if_pos hst] at hrun
  obtain ⟨s₁, hids, hrun⟩ := Loops.bind_eq_ok.mp hrun
  have hne : s.strategy (.scope p) ≠ s.strategy (.scope f) := by rwa [hst]
  obtain ⟨hfathers, hstrategy⟩ := register_links s₁ (.scope p) .publisher (P ++ suffixOf ID) h
  have hbreaks := fun s' => not_homogeneous_of_link s' (recursivelyUpdateIDs_links hids)
  split at hrun
  · next t hreg =>
    rw [hreg] at hfathers hstrategy
    rw [notifySubscribers_eq] at hrun
    obtain rfl := Loops.pure_eq_ok.mp hrun
    exact hbreaks _ hfathers hstrategy hne
  · next t hreg =>
    rw [hreg] at hfathers hstrategy
    obtain rfl := Loops.pure_eq_ok.mp hrun
    exact hbreaks _ hfathers hstrategy hne

theorem readvertiseInfo_mixes {ID P : Id} {strategy : Strategy}
    (hii : s.pubIndex (P ++ suffixOf ID) = none) (hsc : s.scopeIndex (P ++ suffixOf ID) = none)
    (hP : s.scopeIndex P = some f) (hE : s.pubIndex ID = some p)
    (hst : s.strategy (.scope f) = strategy) (hne : s.strategy (.item p) ≠ strategy) :
    ¬ (s.readvertiseInfo h ID P strategy).2.Homogeneous := by
  simp only [readvertiseInfo, hii, hP, hE, hsc, if_pos hst]
  have hne : s.strategy (.item p) ≠ s.strategy (.scope f) := by rwa [hst]
  obtain ⟨hfathers, hstrategy⟩ := register_links ((s.link (.item p) f).updateIDs (.item p)
    (suffixOf ID)) (.item p) .publisher (P ++ suffixOf ID) h
  have hbreaks := fun s' => not_homogeneous_of_link s'
    (updateIDs_links (s.link (.item p) f) (.item p) (suffixOf ID))
  split
  · next t hreg =>
    rw [hreg] at hfathers hstrategy
    rw [rendezvousItem_eq]
    exact hbreaks _ hfathers hstrategy hne
  · next t hreg =>
    rw [hreg] at hfathers hstrategy
    exact hbreaks _ hfathers hstrategy hne

/-- A request that mixes two strategies succeeds. -/
theorem Step.mixes {a : NodeId × Request} (hstep : s.Step a s') (hs : s.Inv lab)
    (hmix : s.Mixes a.2) : ¬ s'.Homogeneous := by
  obtain ⟨h, ⟨type, ID, P, strategy⟩⟩ := a
  obtain ⟨htype, hlong, hsc, hii, f, p, hP, hst, hE, hne⟩ := hmix
  obtain ⟨-, fuel, code, hrun⟩ := hstep
  have hPlen : 0 < P.length := Nat.lt_of_lt_of_le (by decide) (hs.ids_length (hs.of_index hP))
  have hPlen' : P.length ≠ 0 := hPlen.ne'
  have hIDlen : ID.length ≠ pursuitIdLen := hlong.ne'
  rcases htype with rfl | rfl
  · have hrun : s.publishScope fuel h ID P strategy = .ok (code, s') := hrun
    rw [publishScope, if_neg (by tauto), if_neg (by tauto), if_pos ⟨hPlen, hlong⟩] at hrun
    exact republishInnerScope_mixes hii hsc hP hE hst hne hrun
  · have hrun : s.publishInfo h ID P strategy = (code, s') := Loops.pure_eq_ok.mp hrun
    rw [publishInfo, if_neg (by tauto), if_pos ⟨hPlen, hlong⟩] at hrun
    have hmixes := readvertiseInfo_mixes (h := h) hii hsc hP hE hst hne
    rwa [hrun] at hmixes

/-! ## Runs -/

theorem homogeneous_init (nodeID : NodeId) : (init nodeID).Homogeneous := by
  intro n f hf
  exact absurd hf (by simp [init])

/-- In a run of requests none of which mixes two strategies all that is connected has one, and
the first request that does mix them ends that. -/
theorem homogeneous {nodeID : NodeId}
    (hrun : Runs.Reachable (Runs.Guarded Step fun s a => ¬ s.Mixes a.2) (init nodeID) s) :
    s.Homogeneous ∧ ∀ a s', s.Step a s' → (s'.Homogeneous ↔ ¬ s.Mixes a.2) := by
  have hhom : s.Homogeneous := by
    refine hrun.invariant (homogeneous_init nodeID) fun s a s' hrun hhom hstep => ?_
    obtain ⟨lab, hs⟩ := inv_of_run hrun.of_guarded
    obtain ⟨code, he⟩ := hstep.1.effect hs
    exact he.keepsHomogeneous hs hstep.1.1 hhom hstep.2
  obtain ⟨lab, hs⟩ := inv_of_run hrun.of_guarded
  refine ⟨hhom, fun a s' hstep => ⟨fun hhom' hmix => hstep.mixes hs hmix hhom', fun hmix => ?_⟩⟩
  obtain ⟨code, he⟩ := hstep.effect hs
  exact he.keepsHomogeneous hs hstep.1 hhom hmix

/-- Two scopes of two strategies, and an item below the first. -/
def twoStrategiesRun : List (NodeId × Request) :=
  [([1], ⟨.publishScope, frag 1, [], domainLocal⟩),
    ([1], ⟨.publishScope, frag 2, [], nodeLocal⟩),
    ([1], ⟨.publishInfo, frag 3, frag 1, domainLocal⟩)]

theorem homogeneous_twoStrategies :
    (afterRun 1 [0] twoStrategiesRun).Homogeneous ∧
      ∀ a s', (afterRun 1 [0] twoStrategiesRun).Step a s' →
        (s'.Homogeneous ↔ ¬ (afterRun 1 [0] twoStrategiesRun).Mixes a.2) := by
  refine homogeneous (guarded_afterRun 1 [0] fun a ha => ?_)
  have hshort : ∀ a ∈ twoStrategiesRun, a.2.WellFormed ∧ a.2.ID.length ≤ pursuitIdLen := by decide
  exact ⟨(hshort a ha).1, fun s hmix => absurd hmix.2.1 (Nat.not_lt.mpr (hshort a ha).2)⟩

/-- The item goes below the second scope too. -/
def mixedRun : List (NodeId × Request) :=
  twoStrategiesRun ++ [([1], ⟨.publishInfo, frag 1 ++ frag 3, frag 2, nodeLocal⟩)]

theorem mixed_strategies :
    (afterRun 1 [0] mixedRun).Reachable ∧ ¬ (afterRun 1 [0] mixedRun).Homogeneous := by
  refine ⟨reachable_afterRun 1 [0] (by decide : ∀ a ∈ mixedRun, a.2.WellFormed), fun hhom => ?_⟩
  have hlink : 1 ∈ (afterRun 1 [0] mixedRun).fatherScopes (.item 2) := by decide
  exact absurd (hhom _ _ hlink) (by decide)

end LocalRV

end Blackadder
