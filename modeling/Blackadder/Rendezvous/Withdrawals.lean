import Mathlib.Data.List.AList
import Mathlib.Tactic.Common
import Blackadder.Rendezvous.Requests

/-!
# What each withdrawal does

A withdrawal always returns. `unpublish_scope` withdraws items before it looks at the scope.
-/

namespace Blackadder

namespace LocalRV

variable {s s' t : LocalRV} {lab : Node → Id} {n m : Node} {X Y P ID : Id} {h : NodeId}
  {role : Role} {k : Kind} {f p sc : Ptr} {strategy : Strategy}

/-! ## Items -/

/-- The father that a request names is a father of the item that it names. -/
theorem Inv.father_of_prefix (hs : s.Inv lab) (hID : ID.length = pursuitIdLen)
    (hX : P ++ ID ∈ s.ids (.item p)) : ∃ f, s.scopeIndex P = some f ∧
      f ∈ s.fatherScopes (.item p) ∧ s.InBranch (some f) (P ++ ID) := by
  obtain ⟨hb, hin⟩ := hs.branch_of_prefix hID hX
  cases hP : s.scopeIndex P with
  | some f =>
    rw [hP] at hb hin
    exact ⟨f, rfl, hb, hin⟩
  | none =>
    rw [hP] at hb
    rcases hs.has_father _ _ hX with ⟨hk, -⟩ | ⟨f, hf⟩
    · cases hk
    · exact absurd hf (hb f)

theorem unpublishInfo_spec (hs : s.Inv lab) (hID : ID.length = pursuitIdLen) (h : NodeId) (P : Id)
    (strategy : Strategy) : ∃ res, s.unpublishInfo h ID P strategy = .ok res ∧
      s.Outcome (s.Leaves h .item .publisher (P ++ ID) strategy) res := by
  unfold unpublishInfo
  cases hii : s.pubIndex (P ++ ID) with
  | none =>
    refine ⟨(.infoDoesNotExist, s), ?_, .refused (by decide)⟩
    simp only [hii]
    rfl
  | some p =>
    have hX := hs.of_index hii
    obtain ⟨f, hP, hf, hin⟩ := hs.father_of_prefix hID hX
    simp only [hii, hP, deref_some, lookup_of_mem hX]
    by_cases hst : s.strategy (.scope f) = strategy
    swap
    · refine ⟨(.strategyMismatch, s), ?_, .refused (by decide)⟩
      exact Loops.bind_eq_ok.mpr ⟨f, rfl, by rw [if_pos hst]; rfl⟩
    by_cases hh : h ∈ s.pairAt (.item p) (P ++ ID) .publisher
    swap
    · refine ⟨(.doesNotExist, s), ?_, .refused (by decide)⟩
      refine Loops.bind_eq_ok.mpr ⟨f, rfl, ?_⟩
      rw [if_neg (not_not.mpr hst)]
      exact Loops.bind_eq_ok.mpr ⟨_, rfl, by rw [if_pos hh]; rfl⟩
    have hshape := eraseHost_shape hX .publisher (s.pairAt (.item p) (P ++ ID)) h
    obtain ⟨s', hrun, hp⟩ := tryDeleteUnpublishedInfo_spec (hshape.inv hs)
      (by rwa [hshape.fatherScopes] : f ∈ _)
    refine ⟨(.success, s'), ?_, .done ⟨p, .item hf hin hh rfl hp, fun f' hf' => ?_⟩⟩
    swap
    · rw [fatherOf_append hID, hP] at hf'
      rwa [← Option.some.inj hf']
    refine Loops.bind_eq_ok.mpr ⟨f, rfl, ?_⟩
    rw [if_neg (not_not.mpr hst)]
    refine Loops.bind_eq_ok.mpr ⟨_, rfl, ?_⟩
    rw [if_neg (not_not.mpr hh)]
    exact Loops.bind_eq_ok.mpr ⟨s', hrun, rfl⟩

/-- A publisher that names the strategy of the father is not refused. -/
theorem unpublishInfo_accepted (hs : s.Inv lab) (hID : ID.length = pursuitIdLen)
    (hh : h ∈ s.pairAt (.item p) (P ++ ID) .publisher) (hst : s.FatherStrategy (P ++ ID) strategy)
    {code : ReturnCode} (hrun : s.unpublishInfo h ID P strategy = .ok (code, s')) :
    code = .success := by
  have hX := mem_of_pairAt hh
  obtain ⟨f, hP, -, -⟩ := hs.father_of_prefix hID hX
  have hstf : s.strategy (.scope f) = strategy := hst f (by rwa [fatherOf_append hID])
  have hii : s.pubIndex (P ++ ID) = some p := hs.index_of_mem hX
  simp only [unpublishInfo, hii, hP, deref_some, lookup_of_mem hX] at hrun
  obtain ⟨_, hf, hrun⟩ := Loops.bind_eq_ok.mp hrun
  obtain rfl := Except.ok.inj hf
  rw [if_neg (not_not.mpr hstf)] at hrun
  obtain ⟨_, hpair, hrun⟩ := Loops.bind_eq_ok.mp hrun
  obtain rfl := Except.ok.inj hpair
  rw [if_neg (not_not.mpr hh)] at hrun
  obtain ⟨t, -, hrun⟩ := Loops.bind_eq_ok.mp hrun
  exact (Prod.mk.inj (Loops.pure_eq_ok.mp hrun)).1.symm

theorem unsubscribeInfo_spec (hs : s.Inv lab) (hID : ID.length = pursuitIdLen) (h : NodeId) (P : Id)
    (strategy : Strategy) : ∃ res, s.unsubscribeInfo h ID P strategy = .ok res ∧
      s.Outcome (s.Leaves h .item .subscriber (P ++ ID) strategy) res := by
  unfold unsubscribeInfo
  cases hii : s.pubIndex (P ++ ID) with
  | none =>
    refine ⟨(.infoDoesNotExist, s), ?_, .refused (by decide)⟩
    simp only [hii]
    rfl
  | some p =>
    have hX := hs.of_index hii
    obtain ⟨f, hP, hf, hin⟩ := hs.father_of_prefix hID hX
    simp only [hii, hP, deref_some, lookup_of_mem hX]
    by_cases hst : s.strategy (.scope f) = strategy
    swap
    · refine ⟨(.strategyMismatch, s), ?_, .refused (by decide)⟩
      exact Loops.bind_eq_ok.mpr ⟨f, rfl, by rw [if_pos hst]; rfl⟩
    by_cases hh : h ∈ s.pairAt (.item p) (P ++ ID) .subscriber
    swap
    · refine ⟨(.doesNotExist, s), ?_, .refused (by decide)⟩
      refine Loops.bind_eq_ok.mpr ⟨f, rfl, ?_⟩
      rw [if_neg (not_not.mpr hst)]
      exact Loops.bind_eq_ok.mpr ⟨_, rfl, by rw [if_pos hh]; rfl⟩
    have hshape := eraseHost_shape hX .subscriber (s.pairAt (.item p) (P ++ ID)) h
    obtain ⟨s', hrun, hp⟩ := tryDeleteUnsubscribedInfo_spec (hshape.inv hs)
      (by rwa [hshape.fatherScopes] : f ∈ _)
    refine ⟨(.success, s'), ?_, .done ⟨p, .item hf hin hh rfl hp, fun f' hf' => ?_⟩⟩
    swap
    · rw [fatherOf_append hID, hP] at hf'
      rwa [← Option.some.inj hf']
    refine Loops.bind_eq_ok.mpr ⟨f, rfl, ?_⟩
    rw [if_neg (not_not.mpr hst)]
    refine Loops.bind_eq_ok.mpr ⟨_, rfl, ?_⟩
    rw [if_neg (not_not.mpr hh)]
    exact Loops.bind_eq_ok.mpr ⟨s', hrun, rfl⟩

theorem unsubscribeInfo_accepted (hs : s.Inv lab) (hID : ID.length = pursuitIdLen)
    (hh : h ∈ s.pairAt (.item p) (P ++ ID) .subscriber) (hst : s.FatherStrategy (P ++ ID) strategy)
    {code : ReturnCode} (hrun : s.unsubscribeInfo h ID P strategy = .ok (code, s')) :
    code = .success := by
  have hX := mem_of_pairAt hh
  obtain ⟨f, hP, -, -⟩ := hs.father_of_prefix hID hX
  have hstf : s.strategy (.scope f) = strategy := hst f (by rwa [fatherOf_append hID])
  have hii : s.pubIndex (P ++ ID) = some p := hs.index_of_mem hX
  simp only [unsubscribeInfo, hii, hP, deref_some, lookup_of_mem hX] at hrun
  obtain ⟨_, hf, hrun⟩ := Loops.bind_eq_ok.mp hrun
  obtain rfl := Except.ok.inj hf
  rw [if_neg (not_not.mpr hstf)] at hrun
  obtain ⟨_, hpair, hrun⟩ := Loops.bind_eq_ok.mp hrun
  obtain rfl := Except.ok.inj hpair
  rw [if_neg (not_not.mpr hh)] at hrun
  obtain ⟨t, -, hrun⟩ := Loops.bind_eq_ok.mp hrun
  exact (Prod.mk.inj (Loops.pure_eq_ok.mp hrun)).1.symm

/-! ## Scopes -/

theorem unsubscribeScope_spec (hs : s.Inv lab) (hID : ID.length = pursuitIdLen) (h : NodeId) (P : Id)
    (strategy : Strategy) : ∃ res, s.unsubscribeScope h ID P strategy = .ok res ∧
      s.Outcome (s.Leaves h .scope .subscriber (P ++ ID) strategy) res := by
  unfold unsubscribeScope
  cases hsc : s.scopeIndex (P ++ ID) with
  | none =>
    refine ⟨(.scopeDoesNotExist, s), ?_, .refused (by decide)⟩
    simp only [hsc]
    rfl
  | some sc =>
    have hX := hs.of_index hsc
    obtain ⟨hb, hin⟩ := hs.branch_of_prefix hID hX
    simp only [hsc, lookup_of_mem hX]
    by_cases hst : s.strategy (.scope sc) = strategy
    swap
    · refine ⟨(.strategyMismatch, s), ?_, .refused (by decide)⟩
      rw [if_pos hst]
      rfl
    rw [if_neg (not_not.mpr hst)]
    by_cases hh : h ∈ s.pairAt (.scope sc) (P ++ ID) .subscriber
    swap
    · refine ⟨(.doesNotExist, s), ?_, .refused (by decide)⟩
      exact Loops.bind_eq_ok.mpr ⟨_, rfl, by rw [if_pos hh]; rfl⟩
    obtain ⟨t, ht⟩ : ∃ t, t = s.eraseHost (.scope sc) .subscriber (P ++ ID)
      (s.pairAt (.scope sc) (P ++ ID)) h := ⟨_, rfl⟩
    have hshape := (eraseHost_shape hX .subscriber
      (s.pairAt (.scope sc) (P ++ ID)) h).trans (send_shape _ (t.leaveMessages sc .subscriber))
    rw [← ht] at hshape
    obtain ⟨s', hrun, hp⟩ := tryDelete_spec (hshape.inv hs) (hshape.isBranch.mpr hb) (P ++ ID)
    refine ⟨(.success, s'), ?_, .done ⟨sc, .scope hb hin hh ht hp, hst⟩⟩
    refine Loops.bind_eq_ok.mpr ⟨_, rfl, ?_⟩
    rw [if_neg (not_not.mpr hh), ← ht, rendezvousItems_eq]
    exact Loops.bind_eq_ok.mpr ⟨s', hrun, rfl⟩

theorem unsubscribeScope_accepted (hs : s.Inv lab)
    (hh : h ∈ s.pairAt (.scope sc) (P ++ ID) .subscriber) (hst : s.strategy (.scope sc) = strategy)
    {code : ReturnCode} (hrun : s.unsubscribeScope h ID P strategy = .ok (code, s')) :
    code = .success := by
  have hX := mem_of_pairAt hh
  have hsc : s.scopeIndex (P ++ ID) = some sc := hs.index_of_mem hX
  simp only [unsubscribeScope, hsc, lookup_of_mem hX] at hrun
  rw [if_neg (not_not.mpr hst)] at hrun
  obtain ⟨_, hpair, hrun⟩ := Loops.bind_eq_ok.mp hrun
  obtain rfl := Except.ok.inj hpair
  rw [if_neg (not_not.mpr hh)] at hrun
  obtain ⟨t, -, hrun⟩ := Loops.bind_eq_ok.mp hrun
  exact (Prod.mk.inj (Loops.pure_eq_ok.mp hrun)).1.symm

/-- One item under `sc` loses the publisher `h`. -/
def ItemWithdrawn (h : NodeId) (sc : Ptr) (s s' : LocalRV) : Prop :=
  ∃ p X, sc ∈ s.fatherScopes (.item p) ∧ X ∈ s.ids (.item p) ∧ s.InBranch (some sc) X ∧
    s.Left h (.item p) .publisher X s'

/-- Some items under `sc` lose the publisher `h`, one after the other. -/
def ItemsWithdrawn (h : NodeId) (sc : Ptr) : LocalRV → LocalRV → Prop :=
  Relation.ReflTransGen (ItemWithdrawn h sc)

/-- What the withdrawal of items leaves as it is. -/
structure KeepsScopes (lab : Node → Id) (s s' : LocalRV) : Prop where
  inv : s'.Inv lab
  nodeID : s'.nodeID = s.nodeID
  strategy : s'.strategy = s.strategy
  fathers : ∀ p f, f ∈ s'.fatherScopes (.scope p) ↔ f ∈ s.fatherScopes (.scope p)
  mem_ids : ∀ p X, X ∈ s'.ids (.scope p) ↔ X ∈ s.ids (.scope p)
  pairAt : ∀ p X, s'.pairAt (.scope p) X = s.pairAt (.scope p) X

theorem KeepsScopes.refl (hs : s.Inv lab) : KeepsScopes lab s s :=
  ⟨hs, rfl, rfl, fun _ _ => Iff.rfl, fun _ _ => Iff.rfl, fun _ _ => rfl⟩

theorem KeepsScopes.trans (h : KeepsScopes lab s s') (h' : KeepsScopes lab s' t) :
    KeepsScopes lab s t where
  inv := h'.inv
  nodeID := h'.nodeID.trans h.nodeID
  strategy := h'.strategy.trans h.strategy
  fathers p f := (h'.fathers p f).trans (h.fathers p f)
  mem_ids p X := (h'.mem_ids p X).trans (h.mem_ids p X)
  pairAt p X := (h'.pairAt p X).trans (h.pairAt p X)

theorem Left.keepsScopes (hl : s.Left h (.item p) role X s') (hs : s.Inv lab) :
    KeepsScopes lab s s' where
  inv := hl.inv hs
  nodeID := hl.nodeID
  strategy := hl.strategy
  fathers q f := hl.fathers_of_ne (fun he => by cases he)
  mem_ids q Y := hl.mem_ids_of_ne (fun he => by cases he)
  pairAt q Y := by
    funext role'
    ext h'
    rw [hl.mem_pairAt]
    exact ⟨And.left, fun hh => ⟨hh, fun he => by cases he.1⟩⟩

theorem ItemsWithdrawn.keepsScopes (hc : ItemsWithdrawn h sc s s') (hs : s.Inv lab) :
    KeepsScopes lab s s' := by
  induction hc with
  | refl => exact .refl hs
  | tail _ hw ih =>
    obtain ⟨p, X, -, -, -, hl⟩ := hw
    exact ih.trans (hl.keepsScopes ih.inv)

theorem ItemsWithdrawn.pairAt_sub {h' : NodeId} (hc : ItemsWithdrawn h sc s s')
    (hh : h' ∈ s'.pairAt m Y role) : h' ∈ s.pairAt m Y role := by
  induction hc with
  | refl => exact hh
  | tail _ hw ih =>
    obtain ⟨p, X, -, -, -, hl⟩ := hw
    exact ih (hl.mem_pairAt.mp hh).1

theorem KeepsScopes.inBranch {o : Option Ptr} (hk : KeepsScopes lab s s') :
    s'.InBranch o X ↔ s.InBranch o X :=
  forall_congr' fun f => imp_congr_right fun _ => hk.mem_ids f _

theorem KeepsScopes.isBranch {o : Option Ptr} (hk : KeepsScopes lab s s') :
    s'.IsBranch (.scope p) o ↔ s.IsBranch (.scope p) o := by
  cases o with
  | none => exact forall_congr' fun f => not_congr (hk.fathers p f)
  | some f => exact hk.fathers p f

theorem unpublishItem_spec (hs : s.Inv lab) (hsc : sc ∈ s.fatherScopes (.item p)) (l : List Id)
    (hl : ∀ F ∈ l, F ∈ s.ids (.scope sc)) (h : NodeId) (strategy : Strategy) :
    ∃ s', s.unpublishItem h (lab (.item p)) strategy l = .ok s' ∧ ItemsWithdrawn h sc s s' ∧
      (∀ q, q ≠ p → sc ∈ s.fatherScopes (.item q) → sc ∈ s'.fatherScopes (.item q)) ∧
      (s.strategy (.scope sc) = strategy →
        ∀ F ∈ l, ¬ h ∈ s'.pairAt (.item p) (F ++ lab (.item p)) .publisher) := by
  refine Loops.foldlM_total_done (I := fun done t => ItemsWithdrawn h sc s t ∧
    (∀ q, q ≠ p → sc ∈ s.fatherScopes (.item q) → sc ∈ t.fatherScopes (.item q)) ∧
    (s.strategy (.scope sc) = strategy →
      ∀ F ∈ done, ¬ h ∈ t.pairAt (.item p) (F ++ lab (.item p)) .publisher))
    ⟨.refl, fun _ _ hq => hq, fun _ => List.forall_mem_nil _⟩ ?_
  rintro done F rest t hlist ⟨hc, hothers, hclear⟩
  have hk := hc.keepsScopes hs
  have hF : F ∈ l := hlist ▸ List.mem_append_right _ List.mem_cons_self
  have hFt : F ∈ t.ids (.scope sc) := (hk.mem_ids sc F).mpr (hl F hF)
  have hlen := hs.lab_length (.item p)
  obtain ⟨⟨code, t'⟩, hrun, hout⟩ := unpublishInfo_spec hk.inv hlen h F strategy
  refine ⟨t', Loops.bind_eq_ok.mpr ⟨_, hrun, rfl⟩, ?_⟩
  rcases hout with ⟨hcode, rfl⟩ | ⟨-, q, hleft, -⟩
  · refine ⟨hc, hothers, fun hst G hG => ?_⟩
    rcases List.mem_append.mp hG with hG | hG
    · exact hclear hst G hG
    · obtain rfl := List.mem_singleton.mp hG
      intro hh
      refine hcode (unpublishInfo_accepted hk.inv hlen hh (fun f hf => ?_) hrun)
      have hidx := hk.inv.index_of_mem hFt
      rw [fatherOf_append hlen] at hf
      have hf := hf.symm.trans hidx
      rw [Option.some.inj hf, hk.strategy, hst]
  · have hX := mem_of_pairAt hleft.mem
    obtain ⟨hqf, hqlab⟩ := hk.inv.child_of_ext hlen hFt hX
    refine ⟨hc.tail ⟨q, _, hqf, hX, fun f he => ?_, hleft⟩, fun r hr hrf => ?_, fun hst G hG hh => ?_⟩
    · rw [← Option.some.inj he, fatherOf_append hlen]
      exact hFt
    · -- A sibling has another label, so it is not the item that was withdrawn.
      refine (hleft.fathers_of_ne ?_).mpr (hothers r hr hrf)
      rintro he
      cases he
      exact hr (congrArg Node.ptr (hs.siblings hrf hsc hqlab))
    · obtain ⟨hh, hnot⟩ := hleft.mem_pairAt.mp hh
      rcases List.mem_append.mp hG with hG | hG
      · exact hclear hst G hG hh
      · obtain rfl := List.mem_singleton.mp hG
        exact hnot ⟨hk.inv.owner_unique (mem_of_pairAt hh) hX, rfl, rfl, rfl⟩

/-- The outer loop. An item is still there when its turn comes. -/
theorem unpublishItems_spec (hs : s.Inv lab) (h : NodeId) (sc : Ptr) (strategy : Strategy) :
    ∃ s', s.unpublishItems h sc strategy = .ok s' ∧ ItemsWithdrawn h sc s s' ∧
      (s.strategy (.scope sc) = strategy → ∀ p, sc ∈ s.fatherScopes (.item p) →
        ∀ F ∈ s.ids (.scope sc), ¬ h ∈ s'.pairAt (.item p) (F ++ lab (.item p)) .publisher) := by
  have hnodup := (s.informationitems sc).nodup
  have hall : ∀ p ∈ (s.informationitems sc).toList, sc ∈ s.fatherScopes (.item p) := fun p hp =>
    (hs.child_iff (.item p) sc).mp hp
  unfold unpublishItems
  obtain ⟨s', hrun, hc, -, hclear⟩ := Loops.foldlM_total_done (s := s)
    (l := (s.informationitems sc).toList)
    (I := fun done t => ItemsWithdrawn h sc s t ∧
      (∀ p ∈ (s.informationitems sc).toList, ¬ p ∈ done → sc ∈ t.fatherScopes (.item p)) ∧
      (s.strategy (.scope sc) = strategy → ∀ p ∈ done, ∀ F ∈ s.ids (.scope sc),
        ¬ h ∈ t.pairAt (.item p) (F ++ lab (.item p)) .publisher))
    (f := fun s pub => do
      let pubSuffixID ← s.firstSuffix (.item pub)
      s.unpublishItem h pubSuffixID strategy (s.ids (.scope sc)).keys)
    ⟨.refl, fun p hp _ => hall p hp, fun _ => List.forall_mem_nil _⟩ (by
      rintro done p rest t hl ⟨hc, hleft, hclear⟩
      have hk := hc.keepsScopes hs
      rw [hl, List.nodup_append] at hnodup
      have hpd : ¬ p ∈ done := fun hp => hnodup.2.2 p hp p List.mem_cons_self rfl
      have hpt := hleft p (by rw [hl]; exact List.mem_append_right _ List.mem_cons_self) hpd
      obtain ⟨t', hrun, hc', hothers, hgone⟩ := unpublishItem_spec hk.inv hpt
        (t.ids (.scope sc)).keys (fun F hF => AList.mem_keys.mpr hF) h strategy
      refine ⟨t', Loops.bind_eq_ok.mpr ⟨_, hk.inv.firstSuffix_child hpt, hrun⟩, hc.trans hc',
        fun q hq hqd => ?_, fun hst q hq F hF => ?_⟩
      · rw [List.mem_append, List.mem_singleton, not_or] at hqd
        exact hothers q hqd.2 (hleft q hq hqd.1)
      · rcases List.mem_append.mp hq with hq | hq
        · exact fun hh => hclear hst q hq F hF (hc'.pairAt_sub hh)
        · obtain rfl := List.mem_singleton.mp hq
          exact hgone ((congrFun hk.strategy _).trans hst) F
            (AList.mem_keys.mp ((hk.mem_ids sc F).mpr hF)))
  exact ⟨s', hrun, hc, fun hst p hp => hclear hst p ((hs.child_iff (.item p) sc).mpr hp)⟩

/-- The items go first; the scope only when the host publishes it. -/
theorem unpublishScope_spec (hs : s.Inv lab) (hID : ID.length = pursuitIdLen) (h : NodeId) (P : Id)
    (strategy : Strategy) : ∃ code s', s.unpublishScope h ID P strategy = .ok (code, s') ∧
      ((code ≠ .success ∧ s' = s) ∨
        ∃ sc s₁, P ++ ID ∈ s.ids (.scope sc) ∧ s.strategy (.scope sc) = strategy ∧
          ItemsWithdrawn h sc s s₁ ∧
          (∀ p, sc ∈ s.fatherScopes (.item p) → ∀ F ∈ s.ids (.scope sc),
            ¬ h ∈ s₁.pairAt (.item p) (F ++ lab (.item p)) .publisher) ∧
          ((code = .doesNotExist ∧ ¬ h ∈ s.pairAt (.scope sc) (P ++ ID) .publisher ∧ s' = s₁) ∨
            (code = .success ∧ s₁.Left h (.scope sc) .publisher (P ++ ID) s'))) := by
  unfold unpublishScope
  cases hsc : s.scopeIndex (P ++ ID) with
  | none =>
    refine ⟨.scopeDoesNotExist, s, ?_, Or.inl ⟨by decide, rfl⟩⟩
    simp only [hsc]
    rfl
  | some sc =>
    have hX := hs.of_index hsc
    obtain ⟨hb, hin⟩ := hs.branch_of_prefix hID hX
    simp only [hsc]
    by_cases hst : s.strategy (.scope sc) = strategy
    swap
    · refine ⟨.strategyMismatch, s, ?_, Or.inl ⟨by decide, rfl⟩⟩
      rw [if_pos hst]
      rfl
    rw [if_neg (not_not.mpr hst)]
    obtain ⟨s₁, hitems, hc, hclear⟩ := unpublishItems_spec hs h sc strategy
    have hk := hc.keepsScopes hs
    have hX₁ := (hk.mem_ids sc _).mpr hX
    by_cases hh : h ∈ s₁.pairAt (.scope sc) (P ++ ID) .publisher
    · obtain ⟨t, ht⟩ : ∃ t, t = s₁.eraseHost (.scope sc) .publisher (P ++ ID)
        (s₁.pairAt (.scope sc) (P ++ ID)) h := ⟨_, rfl⟩
      have hshape := eraseHost_shape hX₁ .publisher
        (s₁.pairAt (.scope sc) (P ++ ID)) h
      rw [← ht] at hshape
      have hb₁ := hk.isBranch.mpr hb
      obtain ⟨s', hrun, hp⟩ := tryDelete_spec (hshape.inv hk.inv) (hshape.isBranch.mpr hb₁) (P ++ ID)
      refine ⟨.success, s', ?_, Or.inr ⟨sc, s₁, hX, hst, hc, hclear hst, Or.inr ⟨rfl,
        .scope hb₁ (hk.inBranch.mpr hin) hh ht hp⟩⟩⟩
      refine Loops.bind_eq_ok.mpr ⟨s₁, hitems, ?_⟩
      rw [lookup_of_mem hX₁]
      refine Loops.bind_eq_ok.mpr ⟨_, rfl, ?_⟩
      rw [if_neg (not_not.mpr hh), ← ht]
      exact Loops.bind_eq_ok.mpr ⟨s', hrun, rfl⟩
    · refine ⟨.doesNotExist, s₁, ?_, Or.inr ⟨sc, s₁, hX, hst, hc, hclear hst, Or.inl ⟨rfl, ?_, rfl⟩⟩⟩
      · refine Loops.bind_eq_ok.mpr ⟨s₁, hitems, ?_⟩
        rw [lookup_of_mem hX₁]
        exact Loops.bind_eq_ok.mpr ⟨_, rfl, by rw [if_pos hh]; rfl⟩
      · rwa [← hk.pairAt]

theorem unpublishScope_accepted (hs : s.Inv lab)
    (hh : h ∈ s.pairAt (.scope sc) (P ++ ID) .publisher) (hst : s.strategy (.scope sc) = strategy)
    {code : ReturnCode} (hrun : s.unpublishScope h ID P strategy = .ok (code, s')) :
    code = .success := by
  have hX := mem_of_pairAt hh
  have hsc : s.scopeIndex (P ++ ID) = some sc := hs.index_of_mem hX
  obtain ⟨s₁, hitems, hw, -⟩ := unpublishItems_spec hs h sc strategy
  have hk := hw.keepsScopes hs
  simp only [unpublishScope, hsc] at hrun
  rw [if_neg (not_not.mpr hst)] at hrun
  obtain ⟨_, ht, hrun⟩ := Loops.bind_eq_ok.mp hrun
  obtain rfl := Except.ok.inj (hitems.symm.trans ht)
  rw [lookup_of_mem ((hk.mem_ids sc _).mpr hX)] at hrun
  obtain ⟨_, hpair, hrun⟩ := Loops.bind_eq_ok.mp hrun
  obtain rfl := Except.ok.inj hpair
  rw [hk.pairAt, if_neg (not_not.mpr hh)] at hrun
  obtain ⟨t, -, hrun⟩ := Loops.bind_eq_ok.mp hrun
  exact (Prod.mk.inj (Loops.pure_eq_ok.mp hrun)).1.symm

end LocalRV

end Blackadder
