import Mathlib.Data.List.AList
import Mathlib.Tactic.Common
import Blackadder.Rendezvous.Effects

/-!
# The attempts to delete after a host left
-/

namespace Blackadder

namespace LocalRV

variable {s s' t : LocalRV} {lab : Node → Id} {n m : Node} {X Y : Id} {h h' : NodeId}
  {role : Role} {o : Option Ptr} {f g p sc : Ptr} {es : List Emission}

/-! ## The tests -/

/-- The pairs that `checkForOtherPubSub` looks at are those of the branch. -/
theorem checkForOtherPubSub_eq (hs : s.Inv lab) (hf : f ∈ s.fatherScopes n) :
    ∃ b, s.checkForOtherPubSub n f = .ok b ∧ (b = true ↔ s.Occupied n (some f)) := by
  have hall : s.checkForOtherPubSub n f = .ok (decide (∃ X ∈ (s.ids (.scope f)).keys.map
      (· ++ lab n), (s.pairAt n X).isEmpty = false)) := by
    unfold checkForOtherPubSub
    rw [hs.firstSuffix_child hf]
    refine anyHosts_eq _ fun X hX => ?_
    obtain ⟨F, hF, rfl⟩ := List.mem_map.mp hX
    exact hs.mem_ext hf (AList.mem_keys.mp hF)
  refine ⟨_, hall, ?_⟩
  simp only [decide_eq_true_eq, isEmpty_eq_false]
  constructor
  · rintro ⟨X, hX, role, h, hh⟩
    obtain ⟨F, hF, rfl⟩ := List.mem_map.mp hX
    refine ⟨_, role, h, fun f' he => ?_, hh⟩
    rw [← Option.some.inj he, fatherOf_append (hs.lab_length n)]
    exact AList.mem_keys.mp hF
  · rintro ⟨X, role, h, hin, hh⟩
    refine ⟨X, List.mem_map.mpr ⟨fatherOf X, AList.mem_keys.mpr (hin f rfl), ?_⟩, role, h, hh⟩
    rw [← hs.suffix n X (mem_of_pairAt hh), fatherOf_append_suffixOf]

theorem checkForOtherPubSubRoot_eq (s : LocalRV) (sc : Ptr) :
    ∃ b, s.checkForOtherPubSubRoot sc = .ok b ∧ (b = true ↔ s.Occupied (.scope sc) none) := by
  refine ⟨_, anyHosts_eq _ fun X hX => AList.mem_keys.mp hX, ?_⟩
  simp only [decide_eq_true_eq, isEmpty_eq_false]
  constructor
  · rintro ⟨X, -, role, h, hh⟩
    exact ⟨X, role, h, (fun f he => nomatch he), hh⟩
  · rintro ⟨X, role, h, -, hh⟩
    exact ⟨X, AList.mem_keys.mpr (mem_of_pairAt hh), role, h, hh⟩

theorem childless_iff (hs : s.Inv lab) : s.Childless (.scope sc) ↔
    (s.childrenScopes sc).size = 0 ∧ (s.informationitems sc).size = 0 := by
  rw [ListSet.size_eq_zero, ListSet.size_eq_zero]
  constructor
  · intro hc
    exact ⟨fun p hp => hc rfl (.scope p) ((hs.child_iff (.scope p) sc).mp hp),
      fun p hp => hc rfl (.item p) ((hs.child_iff (.item p) sc).mp hp)⟩
  · rintro ⟨h1, h2⟩ - ⟨k, p⟩ hp
    have hp := (hs.child_iff ⟨k, p⟩ sc).mpr hp
    cases k
    · exact h1 p hp
    · exact h2 p hp

/-! ## The deletions -/

theorem mem_children_eraseChild {k : Kind} : p ∈ (s.eraseChild f n).children g k ↔
    p ∈ s.children g k ∧ ¬ (n = ⟨k, p⟩ ∧ some f = some g) := by
  by_cases hg : g = f ∧ k = n.kind
  · obtain ⟨rfl, rfl⟩ := hg
    simp [eraseChild, Node.ext_iff, and_comm, eq_comm]
  · have hne : n = ⟨k, p⟩ → ¬ f = g := by
      rintro rfl rfl
      exact hg ⟨rfl, rfl⟩
    simpa [eraseChild, hg] using fun _ => hne

theorem detached_last (hs : s.Inv lab) (hf : f ∈ s.fatherScopes n)
    (hone : (s.fatherScopes n).size = 1) (hc : s.Childless n) (hfree : ¬ s.Occupied n (some f)) :
    s.Detached n (some f) ((s.eraseChild f n).deleteNode n) :=
  (cut_deleteNode (o := some f) hs hf
    (fun g hg => congrArg some (ListSet.eq_of_size_one _ f g hone hf hg).symm) rfl
    (fun _ _ _ => mem_children_eraseChild)).detached hf hc hfree

theorem detached_root (hs : s.Inv lab) (hr : ∀ f, ¬ f ∈ s.fatherScopes n) (hc : s.Childless n)
    (hfree : ¬ s.Occupied n none) : s.Detached n none (s.deleteNode n) :=
  (cut_deleteNode hs (o := none) hr (fun g hg => absurd hg (hr g)) rfl
    (fun _ _ _ => by simp)).detached hr hc hfree

theorem detached_branch (hs : s.Inv lab) (hf : f ∈ s.fatherScopes n) (hc : s.Childless n)
    (hfree : ¬ s.Occupied n (some f)) :
    ∃ s', s.deleteBranch n f = .ok s' ∧ s.Detached n (some f) s' :=
  ⟨_, deleteBranch_eq hs hf, (cut_eraseIDs hs hf).detached hf hc hfree⟩

/-! ## Scopes -/

theorem withdrawalNotice_some (s : LocalRV) (sc f : Ptr) (X : Id) :
    s.withdrawalNotice sc (some f) X = (s.notice .scopeUnpublished
      (if (s.fatherScopes (.scope sc)).size = 1 then s.getIDs (.scope sc)
        else (s.getIDs (.scope sc)).filter (· = X))
      (s.strategy (.scope sc)) (s.getSubscribers (.scope f))).toList := rfl

theorem tryDeleteScope_spec (hs : s.Inv lab) (hf : f ∈ s.fatherScopes (.scope sc)) (X : Id) :
    ∃ s', s.tryDeleteScope sc f X = .ok s' ∧ s.ScopePruned sc (some f) X s' := by
  unfold tryDeleteScope
  by_cases hc : (s.childrenScopes sc).size = 0 ∧ (s.informationitems sc).size = 0
  · obtain ⟨b, hb, hocc⟩ := checkForOtherPubSub_eq hs hf
    rw [if_pos hc, hb]
    have hcl := (childless_iff hs).mpr hc
    cases b with
    | true => exact ⟨s, rfl, .kept (Or.inl (hocc.mp rfl))⟩
    | false =>
      have hfree : ¬ s.Occupied (.scope sc) (some f) := fun h => nomatch hocc.mpr h
      by_cases hone : (s.fatherScopes (.scope sc)).size = 1
      · refine ⟨((s.send (s.withdrawalNotice sc (some f) X)).eraseChild f (.scope sc)).deleteNode
          (.scope sc), ?_, .gone hfree hcl (detached_last ((send_shape s _).inv hs) hf hone hcl hfree)⟩
        rw [withdrawalNotice_some, if_pos hone, ← notifySubscribers_eq]
        simp only [hone, if_true]
        rfl
      · obtain ⟨s', h1, h2⟩ := detached_branch ((send_shape s
          (s.withdrawalNotice sc (some f) X)).inv hs) hf hcl hfree
        refine ⟨s', ?_, .gone hfree hcl h2⟩
        rw [withdrawalNotice_some, if_neg hone, ← notifySubscribers_eq] at h1
        simp only [hone, if_false]
        exact h1
  · rw [if_neg hc]
    exact ⟨s, rfl, .kept (Or.inr fun hcl => hc ((childless_iff hs).mp hcl))⟩

theorem tryDeleteRootScope_spec (hs : s.Inv lab) (hr : ∀ f, ¬ f ∈ s.fatherScopes (.scope sc))
    (X : Id) : ∃ s', s.tryDeleteRootScope sc = .ok s' ∧ s.ScopePruned sc none X s' := by
  unfold tryDeleteRootScope
  by_cases hc : (s.childrenScopes sc).size = 0 ∧ (s.informationitems sc).size = 0
  · obtain ⟨b, hb, hocc⟩ := checkForOtherPubSubRoot_eq s sc
    rw [if_pos hc, hb]
    have hcl := (childless_iff hs).mpr hc
    cases b with
    | true => exact ⟨s, rfl, .kept (Or.inl (hocc.mp rfl))⟩
    | false =>
      have hfree : ¬ s.Occupied (.scope sc) none := fun h => nomatch hocc.mpr h
      exact ⟨_, rfl, .gone hfree hcl (detached_root hs hr hcl hfree)⟩
  · rw [if_neg hc]
    exact ⟨s, rfl, .kept (Or.inr fun hcl => hc ((childless_iff hs).mp hcl))⟩

/-! ## Items -/

theorem tryDeleteUnpublishedInfo_spec (hs : s.Inv lab) (hf : f ∈ s.fatherScopes (.item p)) :
    ∃ s', s.tryDeleteUnpublishedInfo p f = .ok s' ∧ s.ItemPruned p f .publisher s' := by
  unfold tryDeleteUnpublishedInfo
  have hc := childless_item s p
  obtain ⟨b, hb, hocc⟩ := checkForOtherPubSub_eq hs hf
  rw [hb]
  cases b with
  | true =>
    refine ⟨s.rendezvousItem p, ?_, ?_⟩
    · by_cases hone : (s.fatherScopes (.item p)).size = 1 <;> simp only [hone, if_true, if_false] <;> rfl
    · rw [rendezvousItem_eq]
      exact .unpublished (hocc.mp rfl)
  | false =>
    have hfree : ¬ s.Occupied (.item p) (some f) := fun ho => nomatch hocc.mpr ho
    by_cases hone : (s.fatherScopes (.item p)).size = 1
    · refine ⟨_, ?_, .deleted hfree hone (detached_last hs hf hone hc hfree)⟩
      simp only [hone, if_true]
      rfl
    · obtain ⟨t, h1, h2⟩ := detached_branch hs hf hc hfree
      refine ⟨t.rendezvousItem p, ?_, ?_⟩
      · simp only [hone, if_false, h1]
        rfl
      · rw [rendezvousItem_eq]
        exact .cut hfree hone h2

theorem tryDeleteUnsubscribedInfo_spec (hs : s.Inv lab) (hf : f ∈ s.fatherScopes (.item p)) :
    ∃ s', s.tryDeleteUnsubscribedInfo p f = .ok s' ∧ s.ItemPruned p f .subscriber s' := by
  unfold tryDeleteUnsubscribedInfo
  rw [rendezvousItem_eq]
  have ht := (send_shape s (s.currentMessage p).toList).inv hs
  have hc := childless_item (s.send (s.currentMessage p).toList) p
  obtain ⟨b, hb, hocc⟩ := checkForOtherPubSub_eq (s := s.send (s.currentMessage p).toList) ht hf
  simp only [hb]
  cases b with
  | true => exact ⟨_, rfl, .unsubscribed (hocc.mp rfl)⟩
  | false =>
    have hfree : ¬ s.Occupied (.item p) (some f) := fun ho => nomatch hocc.mpr ho
    by_cases hone : ((s.send (s.currentMessage p).toList).fatherScopes (.item p)).size = 1
    · refine ⟨_, ?_, .dropped hfree (detached_last ht hf hone hc hfree)⟩
      simp only [hone, if_true]
      rfl
    · obtain ⟨t, h1, h2⟩ := detached_branch ht hf hc hfree
      refine ⟨t, ?_, .dropped hfree h2⟩
      simp only [hone, if_false]
      exact h1

/-! ## The branch that a request names -/

/-- The father that a request names is a branch of the scope that it names. -/
theorem Inv.branch_of_prefix (hs : s.Inv lab) {P x : Id} (hx : x.length = pursuitIdLen)
    (hX : P ++ x ∈ s.ids n) : s.IsBranch n (s.scopeIndex P) ∧ s.InBranch (s.scopeIndex P) (P ++ x) := by
  have hfo : fatherOf (P ++ x) = P := fatherOf_append hx
  by_cases hr : ∃ f, f ∈ s.fatherScopes n
  · obtain ⟨f, hf⟩ := hr
    obtain ⟨g, hg, F, hF, he⟩ := hs.below hf hX
    have hPF : P = F := by rw [← hfo, he, fatherOf_append (hs.lab_length n)]
    subst hPF
    have hidx : s.scopeIndex P = some g := hs.index_of_mem hF
    rw [hidx]
    refine ⟨hg, fun f' he => ?_⟩
    rw [hfo, ← Option.some.inj he]
    exact hF
  · have hr : ∀ f, ¬ f ∈ s.fatherScopes n := not_exists.mp hr
    have hlen : (P ++ x).length = pursuitIdLen := by rw [hs.root_ids hr hX, hs.lab_length]
    have hP : P.length = 0 := by
      rw [List.length_append, hx] at hlen
      omega
    have hidx : s.scopeIndex P = none := by
      cases hi : s.scopeIndex P with
      | none => rfl
      | some g =>
        have h8 := hs.ids_length (hs.of_index hi)
        simp [hP, pursuitIdLen] at h8
    rw [hidx]
    refine ⟨hr, fun f he => ?_⟩
    cases he

theorem tryDelete_spec (hs : s.Inv lab) (hb : s.IsBranch (.scope sc) o) (X : Id) :
    ∃ s', s.tryDelete sc o X = .ok s' ∧ s.ScopePruned sc o X s' := by
  cases o with
  | some f => exact tryDeleteScope_spec hs hb X
  | none => exact tryDeleteRootScope_spec hs hb X

end LocalRV

end Blackadder
