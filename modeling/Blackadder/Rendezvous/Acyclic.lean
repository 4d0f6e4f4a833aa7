import Mathlib.Data.List.AList
import Mathlib.Data.Finset.Lattice.Fold
import Mathlib.Tactic.Common
import Blackadder.Rendezvous.Steps

/-!
# Cycles of scopes

Ids get longer from father to child, so the graph has no cycle between requests. A
republication that links a scope below itself makes one, and then never returns.
-/

namespace Blackadder

namespace LocalRV

variable {s s' s₀ : LocalRV} {lab : Node → Id} {n m : Node} {X Y P ID : Id} {h : NodeId}
  {r : Request} {f g p q c sc : Ptr} {strategy : Strategy} {fuel : Nat}

/-- No scope is its own ancestor. -/
def Acyclic (s : LocalRV) : Prop := ∀ p, ¬ Relation.TransGen s.ChildScope p p

/-- The longest id of a node. -/
def top (s : LocalRV) (n : Node) : Nat := ((s.ids n).keys.map List.length).foldr max 0

theorem le_foldr_max {l : List Nat} {k : Nat} (h : k ∈ l) : k ≤ l.foldr max 0 := by
  induction l with
  | nil => exact absurd h List.not_mem_nil
  | cons a l ih =>
    rw [List.foldr_cons]
    rcases List.mem_cons.mp h with rfl | h
    · exact Nat.le_max_left _ _
    · exact Nat.le_trans (ih h) (Nat.le_max_right _ _)

theorem foldr_max_mem {l : List Nat} (h : l ≠ []) : l.foldr max 0 ∈ l := by
  induction l with
  | nil => exact absurd rfl h
  | cons a l ih =>
    rw [List.foldr_cons]
    by_cases hl : l = []
    · subst hl
      simp
    · rcases Nat.le_total a (l.foldr max 0) with hle | hle
      · rw [Nat.max_eq_right hle]
        exact List.mem_cons_of_mem _ (ih hl)
      · rw [Nat.max_eq_left hle]
        exact List.mem_cons_self

theorem length_le_top (hX : X ∈ s.ids n) : X.length ≤ s.top n :=
  le_foldr_max (List.mem_map_of_mem (AList.mem_keys.mp hX))

theorem exists_top (hX : X ∈ s.ids n) : ∃ F, F ∈ s.ids n ∧ F.length = s.top n := by
  have hne : (s.ids n).keys.map List.length ≠ [] := by
    rw [ne_eq, List.map_eq_nil_iff]
    intro hk
    rw [AList.mem_keys, hk] at hX
    exact List.not_mem_nil hX
  obtain ⟨F, hF, he⟩ := List.mem_map.mp (foldr_max_mem hne)
  exact ⟨F, AList.mem_keys.mpr hF, he⟩

theorem Inv.top_lt (hs : s.Inv lab) (hf : f ∈ s.fatherScopes n) : s.top (.scope f) < s.top n := by
  obtain ⟨F, hF⟩ := hs.father_live n f hf
  exact hs.sound.top_lt (f := .scope f) (hs.complete n) ⟨rfl, hf⟩ (fun X hX => length_le_top hX)
    (exists_top hF)

/-- Only addresses below `next` are scopes, so some depth is the greatest. -/
theorem Inv.wellFounded (hs : s.Inv lab) : WellFounded s.ChildScope := by
  let bound := (Finset.range s.next).sup fun p => s.top (.scope p)
  have hle : ∀ {c p}, s.ChildScope c p → s.top (.scope c) ≤ bound := by
    intro c p hc
    have hf := (hs.child_iff (.scope c) p).mp hc
    exact Finset.le_sup (f := fun p => s.top (.scope p))
      (Finset.mem_range.mpr (hs.father_lt (.scope c) p hf))
  refine Subrelation.wf (r := InvImage (· < ·) fun p => bound - s.top (.scope p)) ?_
    (InvImage.wf _ Nat.lt_wfRel.wf)
  intro c p hc
  have h1 := hs.top_lt ((hs.child_iff (.scope c) p).mp hc)
  have h2 := hle hc
  change bound - s.top (.scope c) < bound - s.top (.scope p)
  omega

theorem not_transGen_self_of_acc {R : Ptr → Ptr → Prop} (h : Acc R p) :
    ¬ Relation.TransGen R p p := by
  intro hp
  have h' := h.transGen
  induction h' with
  | intro q _ ih => exact ih q hp (h.inv_of_transGen hp) hp

theorem Inv.acyclic (hs : s.Inv lab) : s.Acyclic := fun p =>
  not_transGen_self_of_acc (hs.wellFounded.apply p)

/-! ## Links that make a cycle -/

/-- The request passes all tests of `republish_inner_scope`: it is about to link `sc` below `f`. -/
structure Republishes (s : LocalRV) (r : Request) (sc f : Ptr) : Prop where
  type : r.type = .publishScope
  long : pursuitIdLen < r.ID.length
  noItem : s.pubIndex r.fullID = none
  noScope : s.scopeIndex r.fullID = none
  existing : s.scopeIndex r.ID = some sc
  father : s.scopeIndex r.prefixID = some f
  strategy : s.strategy (.scope f) = r.strategy

/-- The request is about to link a scope below itself or below one of its descendants. -/
def ClosesCycle (s : LocalRV) (r : Request) : Prop :=
  ∃ sc f, s.Republishes r sc f ∧ s.Under (.scope f) (.scope sc)

theorem childScope_link : (s.link (.scope sc) f).ChildScope c p ↔
    s.ChildScope c p ∨ (sc = c ∧ f = p) := by
  refine mem_children_link.trans (or_congr_right (and_congr_left' ?_))
  simp

/-- Descendants of `sc` keep their children when `f` is none of them. -/
theorem Inv.acc_link (hs : s.Inv lab) (hnot : ¬ s.Under (.scope f) (.scope sc)) :
    Acc (s.link (.scope sc) f).ChildScope sc := by
  suffices ∀ q, s.Under (.scope q) (.scope sc) → Acc (s.link (.scope sc) f).ChildScope q from
    this sc .refl
  intro q
  induction q using hs.wellFounded.induction with
  | h q ih =>
    intro hq
    refine Acc.intro q fun c hc => ?_
    rcases childScope_link.mp hc with hc | ⟨-, rfl⟩
    · exact ih c hc (.head ⟨rfl, (hs.child_iff (.scope c) q).mp hc⟩ hq)
    · exact absurd hq hnot

theorem transGen_link (hs : s.Inv lab) (hu : s.Under (.scope f) (.scope sc)) :
    Relation.TransGen (s.link (.scope sc) f).ChildScope sc sc := by
  suffices ∀ n, s.Under n (.scope sc) → n.kind = .scope →
      Relation.TransGen (s.link (.scope sc) f).ChildScope n.ptr sc ∨ n = .scope sc by
    have hlast : (s.link (.scope sc) f).ChildScope sc f := childScope_link.mpr (Or.inr ⟨rfl, rfl⟩)
    rcases this (.scope f) hu rfl with h | h
    · exact .head hlast h
    · cases h
      exact .single hlast
  intro n hn
  induction hn using Relation.ReflTransGen.head_induction_on with
  | refl => exact fun _ => Or.inr rfl
  | @head c p hstep _ ih =>
    obtain ⟨hp, hpc⟩ := hstep
    obtain ⟨k, c⟩ := c
    obtain ⟨k', p⟩ := p
    cases hp
    intro hk
    cases hk
    have hcp : (s.link (.scope sc) f).ChildScope c p :=
      childScope_link.mpr (Or.inl ((hs.child_iff (.scope c) p).mpr hpc))
    rcases ih rfl with h | h
    · exact Or.inl (.head hcp h)
    · cases h
      exact Or.inl (.single hcp)

/-! ## Termination of the requests -/

theorem Linked.total (hl : s.Linked lab (.scope sc) f s₀) (hacc : Acc s₀.ChildScope sc) :
    ∃ fuel s', recursivelyUpdateIDs fuel s₀ sc (lab (.scope sc)) = .ok s' :=
  recursivelyUpdateIDs_total hl.consistent hacc hl.live

/-- A new scope has no children, so its recursion ends at once. -/
theorem newScope_total (hs : s.Inv lab) (hID : ID.length = pursuitIdLen)
    (hii : s.pubIndex (P ++ ID) = none) (hsc : s.scopeIndex (P ++ ID) = none)
    (hP : P ∈ s.ids (.scope f)) (strategy : Strategy) :
    ∃ fuel s', recursivelyUpdateIDs fuel (s.newUnder .scope strategy f) s.next
      (suffixOf (P ++ ID)) = .ok s' := by
  have hl := linked_newUnder hs hP .scope strategy hID (hs.not_owned hsc hii)
  have hacc : Acc (s.newUnder .scope strategy f).ChildScope s.next := by
    refine Acc.intro _ fun c hc => ?_
    have hf := (hl.consistent.child_iff (.scope c) s.next).mp hc
    rcases (hl.fathers _ _).mp hf with hf | ⟨-, rfl⟩
    · obtain ⟨F, hF⟩ := hs.father_live _ _ hf
      exact absurd hF hs.fresh_ids
    · exact absurd hP hs.fresh_ids
  have := hl.total hacc
  rwa [Function.update_self, ← suffixOf_append (F := P) hID] at this

theorem publishInnerScope_total (hs : s.Inv lab) (hID : ID.length = pursuitIdLen) (h : NodeId)
    (P : Id) (strategy : Strategy) :
    ∃ fuel res, s.publishInnerScope fuel h ID P strategy = .ok res := by
  unfold publishInnerScope
  cases hii : s.pubIndex (P ++ ID) with
  | some p => exact ⟨0, _, by simp only [hii]; rfl⟩
  | none =>
  cases hP : s.scopeIndex P with
  | none => exact ⟨0, _, by simp only [hii]; rfl⟩
  | some f =>
  cases hsc : s.scopeIndex (P ++ ID) with
  | some sc => exact ⟨0, _, by simp only [hii, hsc]; rfl⟩
  | none =>
    simp only [hii, hsc]
    split
    · obtain ⟨fuel, s₁, h1⟩ := newScope_total hs hID hii hsc (hs.of_index hP) strategy
      obtain ⟨hreg, -, -⟩ := newScope_entered hs hID hii hsc (hs.of_index hP) .publisher h h1
      exact ⟨fuel, _, Loops.bind_eq_ok.mpr ⟨s₁, h1, by simp only [hreg]; rfl⟩⟩
    · exact ⟨0, _, rfl⟩

theorem subscribeInnerScope_total (hs : s.Inv lab) (hID : ID.length = pursuitIdLen) (h : NodeId)
    (P : Id) (strategy : Strategy) :
    ∃ fuel res, s.subscribeInnerScope fuel h ID P strategy = .ok res := by
  unfold subscribeInnerScope
  cases hii : s.pubIndex (P ++ ID) with
  | some p => exact ⟨0, _, by simp only [hii]; rfl⟩
  | none =>
  cases hP : s.scopeIndex P with
  | none => exact ⟨0, _, by simp only [hii]; rfl⟩
  | some f =>
  cases hsc : s.scopeIndex (P ++ ID) with
  | some sc => exact ⟨0, _, by simp only [hii, hsc]; rfl⟩
  | none =>
    simp only [hii, hsc]
    split
    · obtain ⟨fuel, s₁, h1⟩ := newScope_total hs hID hii hsc (hs.of_index hP) strategy
      obtain ⟨hreg, -, -⟩ := newScope_entered hs hID hii hsc (hs.of_index hP) .subscriber h h1
      exact ⟨fuel, _, Loops.bind_eq_ok.mpr ⟨s₁, h1, by simp only [hreg]; rfl⟩⟩
    · exact ⟨0, _, rfl⟩

/-- A republication that makes no cycle returns. -/
theorem republishInnerScope_total (hs : s.Inv lab) (hlong : pursuitIdLen < ID.length) (h : NodeId)
    (hcycle : ¬ s.ClosesCycle ⟨.publishScope, ID, P, strategy⟩) :
    ∃ fuel res, s.republishInnerScope fuel h ID P strategy = .ok res := by
  unfold republishInnerScope
  cases hii : s.pubIndex (P ++ suffixOf ID) with
  | some p => exact ⟨0, _, by simp only [hii]; rfl⟩
  | none =>
  cases hP : s.scopeIndex P with
  | none => exact ⟨0, _, by simp only [hii]; rfl⟩
  | some f =>
  cases hE : s.scopeIndex ID with
  | none => exact ⟨0, _, by simp only [hii]; rfl⟩
  | some sc =>
  cases hsc : s.scopeIndex (P ++ suffixOf ID) with
  | some sc' => exact ⟨0, _, by simp only [hii, hsc]; rfl⟩
  | none =>
    simp only [hii, hsc]
    split
    · next hst =>
      have hnot : ¬ s.Under (.scope f) (.scope sc) := fun hu =>
        hcycle ⟨sc, f, ⟨rfl, hlong, hii, hsc, hE, hP, hst⟩, hu⟩
      have hP := hs.of_index hP
      obtain ⟨hlab, hnew, hl⟩ := linked_republished hs hlong (hs.of_index hE) hii hsc hP
      obtain ⟨fuel, s₁, h1⟩ := hl.total (hs.acc_link hnot)
      obtain ⟨ha, hX⟩ := hl.attached_scope hP h1
      rw [hlab] at hX
      have hh : ¬ h ∈ s₁.pairAt (.scope sc) (P ++ suffixOf ID) .publisher := by
        rw [ha.pairAt]
        exact fun hh => hnew (mem_of_pairAt hh)
      exact ⟨fuel, _, Loops.bind_eq_ok.mpr ⟨s₁, hlab ▸ h1, by simp only [register_new hX hh]; rfl⟩⟩
    · exact ⟨0, _, rfl⟩

/-- A republication that makes a cycle never returns. -/
theorem republishInnerScope_diverges (hs : s.Inv lab) {sc f : Ptr}
    (hr : s.Republishes ⟨.publishScope, ID, P, strategy⟩ sc f)
    (hu : s.Under (.scope f) (.scope sc)) (h : NodeId) (fuel : Nat) :
    s.republishInnerScope fuel h ID P strategy = .error .outOfFuel := by
  obtain ⟨-, hlong, hii, hsc, hE, hP, hst⟩ := hr
  change s.pubIndex (P ++ suffixOf ID) = none at hii
  change s.scopeIndex (P ++ suffixOf ID) = none at hsc
  change s.scopeIndex ID = some sc at hE
  change s.scopeIndex P = some f at hP
  change s.strategy (.scope f) = strategy at hst
  obtain ⟨hlab, hnew, hl⟩ := linked_republished hs hlong (hs.of_index hE) hii hsc (hs.of_index hP)
  unfold republishInnerScope
  simp only [hii, hP, hE, hsc, hst, if_true]
  refine Loops.bind_eq_error.mpr (Or.inl ?_)
  rw [← hlab]
  cases hrec : recursivelyUpdateIDs fuel (s.link (.scope sc) f) sc (lab (.scope sc)) with
  | ok s' =>
    exact absurd (transGen_link hs hu)
      (not_transGen_self_of_acc (acc_of_recursivelyUpdateIDs hrec))
  | error e => rw [recursivelyUpdateIDs_fault hl.consistent hl.live hrec]

theorem publishScope_total (hs : s.Inv lab) (h : NodeId)
    (hcycle : ¬ s.ClosesCycle ⟨.publishScope, ID, P, strategy⟩) :
    ∃ fuel res, s.publishScope fuel h ID P strategy = .ok res := by
  unfold publishScope
  split
  · exact ⟨0, _, rfl⟩
  · split
    · next hlen => exact publishInnerScope_total hs hlen.2 h P strategy
    · split
      · next hlen => exact republishInnerScope_total hs hlen.2 h hcycle
      · exact ⟨0, _, rfl⟩

theorem subscribeScope_total (hs : s.Inv lab) (h : NodeId) (ID P : Id) (strategy : Strategy) :
    ∃ fuel res, s.subscribeScope fuel h ID P strategy = .ok res := by
  unfold subscribeScope
  split
  · exact ⟨0, _, rfl⟩
  · split
    · next hlen => exact subscribeInnerScope_total hs hlen.2 h P strategy
    · exact ⟨0, _, rfl⟩

/-- Every request that closes no cycle returns. -/
theorem handle_total (hs : s.Inv lab) (hr : r.WellFormed) (hcycle : ¬ s.ClosesCycle r)
    (h : NodeId) : ∃ fuel code s', handle fuel s h r = .ok (code, s') := by
  obtain ⟨type, ID, P, strategy⟩ := r
  cases type with
  | publishScope =>
    obtain ⟨fuel, ⟨code, s'⟩, hrun⟩ := publishScope_total hs h hcycle
    exact ⟨fuel, code, s', hrun⟩
  | subscribeScope =>
    obtain ⟨fuel, ⟨code, s'⟩, hrun⟩ := subscribeScope_total hs h ID P strategy
    exact ⟨fuel, code, s', hrun⟩
  | publishInfo => exact ⟨0, _, _, rfl⟩
  | subscribeInfo => exact ⟨0, _, _, rfl⟩
  | unpublishInfo =>
    obtain ⟨⟨code, s'⟩, hrun, -⟩ := unpublishInfo_spec hs (hr.single nofun nofun) h P strategy
    exact ⟨0, code, s', hrun⟩
  | unsubscribeInfo =>
    obtain ⟨⟨code, s'⟩, hrun, -⟩ := unsubscribeInfo_spec hs (hr.single nofun nofun) h P strategy
    exact ⟨0, code, s', hrun⟩
  | unsubscribeScope =>
    obtain ⟨⟨code, s'⟩, hrun, -⟩ := unsubscribeScope_spec hs (hr.single nofun nofun) h P strategy
    exact ⟨0, code, s', hrun⟩
  | unpublishScope =>
    obtain ⟨code, s', hrun, -⟩ := unpublishScope_spec hs (hr.single nofun nofun) h P strategy
    exact ⟨0, code, s', hrun⟩

theorem handle_diverges (hs : s.Inv lab) (hcycle : s.ClosesCycle r) (h : NodeId) (fuel : Nat) :
    handle fuel s h r = .error .outOfFuel := by
  obtain ⟨type, ID, P, strategy⟩ := r
  obtain ⟨sc, f, hrep, hu⟩ := hcycle
  have ht : type = .publishScope := hrep.type
  have hlong : pursuitIdLen < ID.length := hrep.long
  have hP : P ∈ s.ids (.scope f) := hs.of_index hrep.father
  have h8 := hs.ids_length hP
  subst ht
  have hpos : 0 < P.length := Nat.lt_of_lt_of_le (by decide) h8
  change s.publishScope fuel h ID P strategy = _
  unfold publishScope
  rw [if_neg (fun hc => by omega), if_neg (fun hc => by omega), if_pos ⟨hpos, hlong⟩]
  exact republishInnerScope_diverges hs hrep hu h fuel

/-- `publish_scope` returns, and leaves an acyclic graph, exactly when it closes no cycle. -/
theorem publishScope_returns_iff (hs : s.Reachable) (hID : pursuitIdLen ∣ ID.length)
    (hP : pursuitIdLen ∣ P.length) (strategy : Strategy) (h : NodeId) :
    (∃ fuel code s', s.publishScope fuel h ID P strategy = .ok (code, s') ∧ s'.Acyclic) ↔
      ¬ s.ClosesCycle ⟨.publishScope, ID, P, strategy⟩ := by
  obtain ⟨lab, hs⟩ := hs.inv
  have hr : Request.WellFormed ⟨.publishScope, ID, P, strategy⟩ :=
    ⟨⟨hID, hP⟩, fun hne => absurd rfl hne⟩
  constructor
  · rintro ⟨fuel, code, s', hrun, -⟩ hcycle
    have := handle_diverges hs hcycle h fuel
    change s.publishScope fuel h ID P strategy = _ at this
    rw [this] at hrun
    cases hrun
  · intro hcycle
    obtain ⟨fuel, code, s', hrun⟩ := handle_total hs hr hcycle h
    obtain ⟨lab', hs'⟩ := (handle_effect hs hr hrun).inv hs
    exact ⟨fuel, code, s', hrun, hs'.acyclic⟩

/-- A scope and a scope below it. -/
def nestedRun : List (NodeId × Request) :=
  [([1], ⟨.publishScope, frag 1, [], domainLocal⟩),
    ([1], ⟨.publishScope, frag 2, frag 1, domainLocal⟩)]

theorem publishScope_returns_root : ∃ fuel code s',
    (init [0]).publishScope fuel [1] (frag 1) [] domainLocal = .ok (code, s') ∧ s'.Acyclic :=
  (publishScope_returns_iff ⟨[0], .start⟩ (by decide) (by decide) domainLocal [1]).mpr
    (by rintro ⟨sc, f, hr, -⟩; exact absurd hr.long (by decide))

/-- The inner scope is published again below itself, and the request never returns. -/
theorem publishScope_below_itself : (afterRun 1 [0] nestedRun).Reachable ∧
    ∀ fuel, (afterRun 1 [0] nestedRun).publishScope fuel [1] (frag 1 ++ frag 2) (frag 1 ++ frag 2)
      domainLocal = .error .outOfFuel := by
  have hreach : (afterRun 1 [0] nestedRun).Reachable := reachable_afterRun 1 [0] (by decide)
  obtain ⟨lab, hs⟩ := hreach.inv
  have hrep : (afterRun 1 [0] nestedRun).Republishes
      ⟨.publishScope, frag 1 ++ frag 2, frag 1 ++ frag 2, domainLocal⟩ 1 1 :=
    ⟨rfl, by decide, by decide, by decide, by decide, by decide, by decide⟩
  exact ⟨hreach, handle_diverges hs ⟨1, 1, hrep, .refl⟩ [1]⟩

end LocalRV

end Blackadder
