import Mathlib.Data.List.AList
import Mathlib.Tactic.Common
import Blackadder.Rendezvous.Pruning

/-!
# What each request does

A request is refused and changes nothing, or it succeeds with one of the effects.
-/

namespace Blackadder

namespace LocalRV

/-- A refusal changes nothing, and a success does what `E` says. -/
def Outcome (s : LocalRV) (E : LocalRV → Prop) (res : ReturnCode × LocalRV) : Prop :=
  (res.1 ≠ .success ∧ res.2 = s) ∨ (res.1 = .success ∧ E res.2)

theorem Outcome.refused {s : LocalRV} {E : LocalRV → Prop} {code : ReturnCode}
    (hc : code ≠ .success) : s.Outcome E (code, s) := Or.inl ⟨hc, rfl⟩

theorem Outcome.done {s s' : LocalRV} {E : LocalRV → Prop} (h : E s') :
    s.Outcome E (.success, s') := Or.inr ⟨rfl, h⟩

/-- The scope that `X` lies below has the strategy. -/
def FatherStrategy (s : LocalRV) (X : Id) (strategy : Strategy) : Prop :=
  ∀ f, s.scopeIndex (fatherOf X) = some f → s.strategy (.scope f) = strategy

/-- A host enters the pair of `X` at a node of kind `k`. Only a republication of `E` gives an
old node a new id. -/
def Enters (s : LocalRV) (h : NodeId) (k : Kind) (role : Role) (X E : Id) (strategy : Strategy)
    (s' : LocalRV) : Prop :=
  ∃ p, s.Entered h ⟨k, p⟩ role X s' ∧
    ((∃ Y, Y ∈ s.ids ⟨k, p⟩) → ¬ X ∈ s.ids ⟨k, p⟩ →
      pursuitIdLen < E.length ∧ E ∈ s.ids ⟨k, p⟩ ∧ s.FatherStrategy X strategy)

/-- A host leaves the pair of `X`. A scope is asked for its strategy, an item for its father's. -/
def Leaves (s : LocalRV) (h : NodeId) (k : Kind) (role : Role) (X : Id) (strategy : Strategy)
    (s' : LocalRV) : Prop :=
  ∃ p, s.Left h ⟨k, p⟩ role X s' ∧
    match k with
    | .scope => s.strategy (.scope p) = strategy
    | .item => s.FatherStrategy X strategy

variable {s s' t : LocalRV} {lab : Node → Id} {n m : Node} {X Y E P ID : Id} {h : NodeId}
  {role : Role} {k : Kind} {f p sc : Ptr} {strategy : Strategy} {fuel : Nat}
  {res : ReturnCode × LocalRV}

theorem enters_new (hs : s.Inv lab) (he : s.Entered h ⟨k, s.next⟩ role X s') :
    s.Enters h k role X E strategy s' :=
  ⟨s.next, he, fun ⟨_, hY⟩ => absurd hY hs.fresh_ids⟩

theorem enters_old (hX : X ∈ s.ids ⟨k, p⟩) (he : s.Entered h ⟨k, p⟩ role X s') :
    s.Enters h k role X E strategy s' :=
  ⟨p, he, fun _ hnot => absurd hX hnot⟩

/-! ## Nodes that are there -/

theorem publishExistingScope_spec (hX : X ∈ s.ids (.scope sc)) (strategy : Strategy) :
    s.Outcome (s.Enters h .scope .publisher X E strategy) (s.publishExistingScope h sc X strategy) := by
  unfold publishExistingScope
  split
  · by_cases hh : h ∈ s.pairAt (.scope sc) X .publisher
    · rw [register_old hh]
      exact .refused (by decide)
    · rw [register_new hX hh]
      exact .done (enters_old hX (.existing hX hh))
  · exact .refused (by decide)

theorem subscribeExistingScope_spec (hX : X ∈ s.ids (.scope sc)) (strategy : Strategy) :
    s.Outcome (s.Enters h .scope .subscriber X E strategy) (s.subscribeExistingScope h sc X strategy) := by
  unfold subscribeExistingScope
  split
  · by_cases hh : h ∈ s.pairAt (.scope sc) X .subscriber
    · rw [register_old hh]
      exact .refused (by decide)
    · rw [register_new hX hh]
      refine .done (enters_old hX ?_)
      simp only [notifySubscopes_eq, rendezvousItems_eq, send_send]
      exact .existing hX hh
  · exact .refused (by decide)

theorem publishExistingInfo_spec (hX : X ∈ s.ids (.item p)) (f : Ptr) (strategy : Strategy) :
    s.Outcome (s.Enters h .item .publisher X E strategy) (s.publishExistingInfo h p f X strategy) := by
  unfold publishExistingInfo
  split
  · by_cases hh : h ∈ s.pairAt (.item p) X .publisher
    · rw [register_old hh]
      exact .refused (by decide)
    · rw [register_new hX hh]
      refine .done (enters_old hX ?_)
      simp only [rendezvousItem_eq]
      exact .existing hX hh
  · exact .refused (by decide)

/-! ## Root scopes -/

/-- The id of an item has at least two fragments. -/
theorem Inv.item_length (hs : s.Inv lab) (hX : X ∈ s.ids (.item p)) :
    pursuitIdLen < X.length := by
  rcases hs.has_father _ X hX with ⟨hk, -⟩ | ⟨f, hf⟩
  · cases hk
  · obtain ⟨g, -, F, hF, rfl⟩ := hs.below hf hX
    have h1 := hs.ids_length hF
    have h2 := hs.lab_length (.item p)
    rw [List.length_append, h2]
    simp only [pursuitIdLen] at h1 ⊢
    omega

theorem register_root (hs : s.Inv lab) (hID : ID.length = pursuitIdLen)
    (hsc : s.scopeIndex ID = none) (role : Role) (h : NodeId) (strategy : Strategy) :
    ∃ s', ((s.newRootScope strategy).setIndex .scope ID s.next).register (.scope s.next) role ID h =
      (true, s') ∧ s.Entered h (.scope s.next) role ID s' := by
  have hfree : ∀ m, ¬ ID ∈ s.ids m := by
    rintro ⟨k, p⟩ hX
    cases k with
    | scope => exact hs.index_none hsc hX
    | item => exact absurd (hs.item_length hX) (by omega)
  exact ⟨_, register_addID (s := s.newRootScope strategy) (n := .scope s.next) (hfree _),
    .root (attached_root hs hID hfree) (mem_ids_addID.mpr (Or.inr ⟨rfl, rfl⟩))⟩

theorem publishRootScope_spec (hs : s.Inv lab) (hID : ID.length = pursuitIdLen)
    (strategy : Strategy) :
    s.Outcome (s.Enters h .scope .publisher ID E strategy) (s.publishRootScope h ID strategy) := by
  unfold publishRootScope
  split
  · next hsc =>
    obtain ⟨s', hr, he⟩ := register_root hs hID hsc .publisher h strategy
    simp only [hr]
    exact .done (enters_new hs he)
  · next sc hsc => exact publishExistingScope_spec (hs.of_index hsc) strategy

theorem subscribeRootScope_spec (hs : s.Inv lab) (hID : ID.length = pursuitIdLen)
    (strategy : Strategy) :
    s.Outcome (s.Enters h .scope .subscriber ID E strategy) (s.subscribeRootScope h ID strategy) := by
  unfold subscribeRootScope
  split
  · next hsc =>
    obtain ⟨s', hr, he⟩ := register_root hs hID hsc .subscriber h strategy
    simp only [hr]
    exact .done (enters_new hs he)
  · next sc hsc => exact subscribeExistingScope_spec (hs.of_index hsc) strategy

/-! ## New scopes and items -/

theorem newScope_entered (hs : s.Inv lab) (hID : ID.length = pursuitIdLen)
    (hii : s.pubIndex (P ++ ID) = none) (hsc : s.scopeIndex (P ++ ID) = none)
    (hP : P ∈ s.ids (.scope f)) (role : Role) (h : NodeId) {s₁ : LocalRV}
    (hr : recursivelyUpdateIDs fuel (s.newUnder .scope strategy f) s.next
      (suffixOf (P ++ ID)) = .ok s₁) :
    s₁.register (.scope s.next) role (P ++ ID) h = (true, s₁.enter (.scope s.next) role (P ++ ID) h) ∧
      s.Attached (.scope s.next) (some f) s₁ ∧ P ++ ID ∈ s₁.ids (.scope s.next) ∧
      s₁.strategy (.scope s.next) = strategy := by
  have hst : s₁.strategy (.scope s.next) = strategy := by
    rw [(recursivelyUpdateIDs_links hr).strategy]
    exact if_pos rfl
  have hl := linked_newUnder hs hP .scope strategy hID (hs.not_owned hsc hii)
  have hlab : Function.update lab (.scope s.next) ID (.scope s.next) = ID := Function.update_self ..
  rw [suffixOf_append hID, ← hlab] at hr
  obtain ⟨ha, hX⟩ := hl.attached_scope hP hr
  rw [hlab] at hX
  refine ⟨register_new hX fun hh => ?_, ha, hX, hst⟩
  rw [ha.pairAt] at hh
  exact hs.fresh_ids (mem_of_pairAt hh)

theorem publishInnerScope_spec (hs : s.Inv lab) (hID : ID.length = pursuitIdLen)
    (hr : s.publishInnerScope fuel h ID P strategy = .ok res) :
    s.Outcome (s.Enters h .scope .publisher (P ++ ID) E strategy) res := by
  unfold publishInnerScope at hr
  cases hii : s.pubIndex (P ++ ID) with
  | some p =>
    simp only [hii, Loops.pure_eq_ok] at hr
    exact hr ▸ .refused (by decide)
  | none =>
  cases hP : s.scopeIndex P with
  | none =>
    simp only [hii, hP, Loops.pure_eq_ok] at hr
    exact hr ▸ .refused (by decide)
  | some f =>
  cases hsc : s.scopeIndex (P ++ ID) with
  | some sc =>
    simp only [hii, hP, hsc, Loops.pure_eq_ok] at hr
    exact hr ▸ publishExistingScope_spec (hs.of_index hsc) strategy
  | none =>
    simp only [hii, hP, hsc] at hr
    split at hr
    · next hstf =>
      obtain ⟨s₁, h1, hr⟩ := Loops.bind_eq_ok.mp hr
      obtain ⟨hreg, ha, hX, hst⟩ := newScope_entered hs hID hii hsc (hs.of_index hP) .publisher h h1
      simp only [hreg, Loops.pure_eq_ok, notifySubscribers_eq] at hr
      have hfo : fatherOf (P ++ ID) ∈ s.ids (.scope f) := by
        rw [fatherOf_append hID]
        exact hs.of_index hP
      exact hr ▸ .done (enters_new hs (.newScope hfo ha hX rfl (hst.trans hstf.symm)))
    · exact Loops.pure_eq_ok.mp hr ▸ .refused (by decide)

theorem subscribeInnerScope_spec (hs : s.Inv lab) (hID : ID.length = pursuitIdLen)
    (hr : s.subscribeInnerScope fuel h ID P strategy = .ok res) :
    s.Outcome (s.Enters h .scope .subscriber (P ++ ID) E strategy) res := by
  unfold subscribeInnerScope at hr
  cases hii : s.pubIndex (P ++ ID) with
  | some p =>
    simp only [hii, Loops.pure_eq_ok] at hr
    exact hr ▸ .refused (by decide)
  | none =>
  cases hP : s.scopeIndex P with
  | none =>
    simp only [hii, hP, Loops.pure_eq_ok] at hr
    exact hr ▸ .refused (by decide)
  | some f =>
  cases hsc : s.scopeIndex (P ++ ID) with
  | some sc =>
    simp only [hii, hP, hsc, Loops.pure_eq_ok] at hr
    exact hr ▸ subscribeExistingScope_spec (hs.of_index hsc) strategy
  | none =>
    simp only [hii, hP, hsc] at hr
    split at hr
    · next hstf =>
      obtain ⟨s₁, h1, hr⟩ := Loops.bind_eq_ok.mp hr
      obtain ⟨hreg, ha, hX, hst⟩ := newScope_entered hs hID hii hsc (hs.of_index hP) .subscriber h h1
      simp only [hreg, Loops.pure_eq_ok, notifySubscribers_eq] at hr
      have hfo : fatherOf (P ++ ID) ∈ s.ids (.scope f) := by
        rw [fatherOf_append hID]
        exact hs.of_index hP
      exact hr ▸ .done (enters_new hs (.newScope hfo ha hX rfl (hst.trans hstf.symm)))
    · exact Loops.pure_eq_ok.mp hr ▸ .refused (by decide)

theorem newItem_entered (hs : s.Inv lab) (hID : ID.length = pursuitIdLen)
    (hii : s.pubIndex (P ++ ID) = none) (hsc : s.scopeIndex (P ++ ID) = none)
    (hP : P ∈ s.ids (.scope f)) (role : Role) (h : NodeId) (strategy : Strategy) :
    ∃ s₁, (s.newUnder .item strategy f).updateIDs (.item s.next) (suffixOf (P ++ ID)) = s₁ ∧
      s₁.register (.item s.next) role (P ++ ID) h = (true, s₁.enter (.item s.next) role (P ++ ID) h) ∧
      s.Attached (.item s.next) (some f) s₁ ∧ P ++ ID ∈ s₁.ids (.item s.next) ∧
      s₁.strategy (.item s.next) = strategy := by
  have hl := linked_newUnder hs hP .item strategy hID (hs.not_owned hsc hii)
  have hlab : Function.update lab (.item s.next) ID (.item s.next) = ID := Function.update_self ..
  obtain ⟨ha, hX⟩ := hl.attached_item hP
  rw [hlab] at ha hX
  rw [suffixOf_append hID]
  have hst := (updateIDs_links (s.newUnder .item strategy f) (.item s.next) ID).strategy
  refine ⟨_, rfl, register_new hX fun hh => ?_, ha, hX, (congrFun hst _).trans (if_pos rfl)⟩
  rw [ha.pairAt] at hh
  exact hs.fresh_ids (mem_of_pairAt hh)

theorem advertiseInfo_spec (hs : s.Inv lab) (hID : ID.length = pursuitIdLen) :
    s.Outcome (s.Enters h .item .publisher (P ++ ID) E strategy) (s.advertiseInfo h ID P strategy) := by
  unfold advertiseInfo
  cases hP : s.scopeIndex P with
  | none => exact .refused (by decide)
  | some f =>
  cases hii : s.pubIndex (P ++ ID) with
  | some p =>
    simp only [hii]
    exact publishExistingInfo_spec (hs.of_index hii) f strategy
  | none =>
  cases hsc : s.scopeIndex (P ++ ID) with
  | some sc =>
    simp only [hii, hsc]
    exact .refused (by decide)
  | none =>
    simp only [hii, hsc]
    split
    · obtain ⟨s₁, h1, hreg, ha, hX, hst⟩ := newItem_entered hs hID hii hsc (hs.of_index hP) .publisher h
        (s.strategy (.scope f))
      simp only [h1, hreg, rendezvous_eq]
      have hfo : fatherOf (P ++ ID) ∈ s.ids (.scope f) := by
        rw [fatherOf_append hID]
        exact hs.of_index hP
      exact .done (enters_new hs (.newItem hfo ha hX rfl hst))
    · exact .refused (by decide)

theorem subscribeInfo_spec (hs : s.Inv lab) :
    s.Outcome (s.Enters h .item .subscriber (P ++ ID) E strategy) (s.subscribeInfo h ID P strategy) := by
  unfold subscribeInfo
  split
  · next hlen =>
    have hID := hlen.2
    cases hP : s.scopeIndex P with
    | none => exact .refused (by decide)
    | some f =>
    cases hii : s.pubIndex (P ++ ID) with
    | some p =>
      simp only [hii]
      split
      · have hX := hs.of_index hii
        by_cases hh : h ∈ s.pairAt (.item p) (P ++ ID) .subscriber
        · rw [register_old hh]
          exact .refused (by decide)
        · rw [register_new hX hh]
          refine .done (enters_old hX ?_)
          simp only [rendezvousItem_eq]
          exact .existing hX hh
      · exact .refused (by decide)
    | none =>
    cases hsc : s.scopeIndex (P ++ ID) with
    | some sc =>
      simp only [hii, hsc]
      exact .refused (by decide)
    | none =>
      simp only [hii, hsc]
      split
      · obtain ⟨s₁, h1, hreg, ha, hX, hst⟩ := newItem_entered hs hID hii hsc (hs.of_index hP) .subscriber
          h (s.strategy (.scope f))
        simp only [h1, hreg]
        have hfo : fatherOf (P ++ ID) ∈ s.ids (.scope f) := by
          rw [fatherOf_append hID]
          exact hs.of_index hP
        exact .done (enters_new hs (.newItem hfo ha hX rfl hst))
      · exact .refused (by decide)
  · exact .refused (by decide)

/-! ## Republications -/

theorem linked_republished (hs : s.Inv lab) (hlong : pursuitIdLen < ID.length)
    (hE : ID ∈ s.ids n) (hii : s.pubIndex (P ++ suffixOf ID) = none)
    (hsc : s.scopeIndex (P ++ suffixOf ID) = none) (hP : P ∈ s.ids (.scope f)) :
    lab n = suffixOf ID ∧ ¬ P ++ suffixOf ID ∈ s.ids n ∧ s.Linked lab n f (s.link n f) := by
  have hlab : lab n = suffixOf ID := (hs.suffix n ID hE).symm
  have hfree := hs.not_owned hsc hii
  have hfather : ∃ g, g ∈ s.fatherScopes n := by
    by_contra hr
    have := hs.root_ids (not_exists.mp hr) hE
    rw [this, hs.lab_length] at hlong
    exact Nat.lt_irrefl _ hlong
  refine ⟨hlab, hfree n, linked_link hs hP (by rwa [hlab]) (fun _ => hfather) ?_ (hs.ids_lt n ID hE)⟩
  obtain ⟨k, q⟩ := n
  rintro hk hroot
  cases hk
  obtain ⟨g, hg⟩ := hfather
  exact hs.root_fatherless q g hroot hg

theorem republished_entered (hs : s.Inv lab) (hlong : pursuitIdLen < ID.length)
    (hE : ID ∈ s.ids (.scope sc)) (hii : s.pubIndex (P ++ suffixOf ID) = none)
    (hsc : s.scopeIndex (P ++ suffixOf ID) = none) (hP : P ∈ s.ids (.scope f)) (h : NodeId)
    {s₁ : LocalRV}
    (hr : recursivelyUpdateIDs fuel (s.link (.scope sc) f) sc (suffixOf ID) = .ok s₁) :
    s₁.register (.scope sc) .publisher (P ++ suffixOf ID) h =
        (true, s₁.enter (.scope sc) .publisher (P ++ suffixOf ID) h) ∧
      s.Attached (.scope sc) (some f) s₁ ∧ ¬ P ++ suffixOf ID ∈ s.ids (.scope sc) ∧
      P ++ suffixOf ID ∈ s₁.ids (.scope sc) := by
  obtain ⟨hlab, hnew, hl⟩ := linked_republished hs hlong hE hii hsc hP
  rw [← hlab] at hr
  obtain ⟨ha, hX⟩ := hl.attached_scope hP hr
  rw [hlab] at hX
  refine ⟨register_new hX fun hh => ?_, ha, hnew, hX⟩
  rw [ha.pairAt] at hh
  exact hnew (mem_of_pairAt hh)

theorem republishInnerScope_spec (hs : s.Inv lab) (hlong : pursuitIdLen < ID.length)
    (hr : s.republishInnerScope fuel h ID P strategy = .ok res) :
    s.Outcome (s.Enters h .scope .publisher (P ++ suffixOf ID) ID strategy) res := by
  unfold republishInnerScope at hr
  cases hii : s.pubIndex (P ++ suffixOf ID) with
  | some p =>
    simp only [hii, Loops.pure_eq_ok] at hr
    exact hr ▸ .refused (by decide)
  | none =>
  cases hP : s.scopeIndex P with
  | none =>
    simp only [hii, hP, Loops.pure_eq_ok] at hr
    exact hr ▸ .refused (by decide)
  | some f =>
  cases hE : s.scopeIndex ID with
  | none =>
    simp only [hii, hP, hE, Loops.pure_eq_ok] at hr
    exact hr ▸ .refused (by decide)
  | some sc =>
  cases hsc : s.scopeIndex (P ++ suffixOf ID) with
  | some sc' =>
    simp only [hii, hP, hE, hsc, Loops.pure_eq_ok] at hr
    exact hr ▸ publishExistingScope_spec (hs.of_index hsc) strategy
  | none =>
    simp only [hii, hP, hE, hsc] at hr
    split at hr
    · next hstf =>
      obtain ⟨s₁, h1, hr⟩ := Loops.bind_eq_ok.mp hr
      have hE := hs.of_index hE
      obtain ⟨hreg, ha, hnew, hX⟩ := republished_entered hs hlong hE hii hsc (hs.of_index hP) h h1
      have hfo : fatherOf (P ++ suffixOf ID) ∈ s.ids (.scope f) := by
        rw [fatherOf_append (suffixOf_length hlong.le)]
        exact hs.of_index hP
      have hst : s.FatherStrategy (P ++ suffixOf ID) strategy := by
        intro f' hf'
        rw [fatherOf_append (suffixOf_length hlong.le), hP] at hf'
        rwa [← Option.some.inj hf']
      simp only [hreg, Loops.pure_eq_ok, notifySubscribers_eq, fatherOf_append_suffixOf] at hr
      subst hr
      exact .done ⟨sc, .linkedScope hE hfo ha hnew hX rfl, fun _ _ => ⟨hlong, hE, hst⟩⟩
    · exact Loops.pure_eq_ok.mp hr ▸ .refused (by decide)

theorem readvertiseInfo_spec (hs : s.Inv lab) (hlong : pursuitIdLen < ID.length) :
    s.Outcome (s.Enters h .item .publisher (P ++ suffixOf ID) ID strategy)
      (s.readvertiseInfo h ID P strategy) := by
  unfold readvertiseInfo
  cases hsc : s.scopeIndex (P ++ suffixOf ID) with
  | some p =>
    simp only [hsc]
    exact .refused (by decide)
  | none =>
  cases hP : s.scopeIndex P with
  | none =>
    simp only [hsc]
    exact .refused (by decide)
  | some f =>
  cases hE : s.pubIndex ID with
  | none =>
    simp only [hsc]
    exact .refused (by decide)
  | some p =>
  cases hii : s.pubIndex (P ++ suffixOf ID) with
  | some p' =>
    simp only [hsc, hii]
    exact publishExistingInfo_spec (hs.of_index hii) f strategy
  | none =>
    simp only [hsc, hii]
    split
    · next hstf =>
      have hE := hs.of_index hE
      obtain ⟨hlab, hnew, hl⟩ := linked_republished hs hlong hE hii hsc (hs.of_index hP)
      obtain ⟨ha, hX⟩ := hl.attached_item (hs.of_index hP)
      rw [hlab] at ha hX
      have hfo : fatherOf (P ++ suffixOf ID) ∈ s.ids (.scope f) := by
        rw [fatherOf_append (suffixOf_length hlong.le)]
        exact hs.of_index hP
      have hst : s.FatherStrategy (P ++ suffixOf ID) strategy := by
        intro f' hf'
        rw [fatherOf_append (suffixOf_length hlong.le), hP] at hf'
        rwa [← Option.some.inj hf']
      have hh : ¬ h ∈ ((s.link (.item p) f).updateIDs (.item p) (suffixOf ID)).pairAt (.item p)
          (P ++ suffixOf ID) .publisher := by
        rw [ha.pairAt]
        exact fun hh => hnew (mem_of_pairAt hh)
      have hreg := register_new hX hh
      simp only [hreg, rendezvousItem_eq]
      exact .done ⟨p, .linkedItem ⟨ID, hE⟩ hfo ha hnew hX rfl, fun _ _ => ⟨hlong, hE, hst⟩⟩
    · exact .refused (by decide)

/-! ## The three publications and subscriptions with a choice -/

theorem publishScope_spec (hs : s.Inv lab) (hr : s.publishScope fuel h ID P strategy = .ok res) :
    s.Outcome (s.Enters h .scope .publisher (P ++ suffixOf ID) ID strategy) res := by
  unfold publishScope at hr
  split at hr
  · next hlen =>
    have := publishRootScope_spec (h := h) (E := ID) hs hlen.2 strategy
    rw [Loops.pure_eq_ok.mp hr] at this
    rwa [suffixOf_of_length hlen.2, List.length_eq_zero_iff.mp hlen.1]
  · split at hr
    · next hlen =>
      rw [suffixOf_of_length hlen.2]
      exact publishInnerScope_spec hs hlen.2 hr
    · split at hr
      · next hlen => exact republishInnerScope_spec hs hlen.2 hr
      · exact Loops.pure_eq_ok.mp hr ▸ .refused (by decide)

theorem subscribeScope_spec (hs : s.Inv lab)
    (hr : s.subscribeScope fuel h ID P strategy = .ok res) :
    s.Outcome (s.Enters h .scope .subscriber (P ++ suffixOf ID) ID strategy) res := by
  unfold subscribeScope at hr
  split at hr
  · next hlen =>
    have := subscribeRootScope_spec (h := h) (E := ID) hs hlen.2 strategy
    rw [Loops.pure_eq_ok.mp hr] at this
    rwa [suffixOf_of_length hlen.2, List.length_eq_zero_iff.mp hlen.1]
  · split at hr
    · next hlen =>
      rw [suffixOf_of_length hlen.2]
      exact subscribeInnerScope_spec hs hlen.2 hr
    · exact Loops.pure_eq_ok.mp hr ▸ .refused (by decide)

theorem publishInfo_spec (hs : s.Inv lab) :
    s.Outcome (s.Enters h .item .publisher (P ++ suffixOf ID) ID strategy)
      (s.publishInfo h ID P strategy) := by
  unfold publishInfo
  split
  · next hlen =>
    rw [suffixOf_of_length hlen.2]
    exact advertiseInfo_spec hs hlen.2
  · split
    · next hlen => exact readvertiseInfo_spec hs hlen.2
    · exact .refused (by decide)

end LocalRV

end Blackadder
