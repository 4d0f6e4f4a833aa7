import Mathlib.Tactic.Common
import Blackadder.Rendezvous.Acyclic

/-!
# Rendezvous messages

The last message about an item should tell its current publishers, subscribers and ids.
-/

namespace Blackadder

/-- The item of a rendezvous message. -/
def Emission.item? : Emission → Option Ptr
  | .matchPubSubs pub _ _ _ _ => some pub
  | .startPublish pub _ => some pub
  | .stopPublish pub _ => some pub
  | .scopeToTM _ _ _ _ => none
  | .scopeToProxy _ _ => none

namespace LocalRV

variable {s s' s₁ t : LocalRV} {lab : Node → Id} {n m : Node} {X Y : Id} {h h' : NodeId}
  {role role' : Role} {r : Request} {code : ReturnCode} {o : Option Ptr} {f p q sc : Ptr}
  {e : Emission} {es : List Emission}

def lastRendezvous (s : LocalRV) (p : Ptr) : Option Emission :=
  s.out.find? (fun e => e.item? = some p)

/-! ## What a message should say -/

def RendezvousDue (s : LocalRV) (p : Ptr) : Prop :=
  (∃ h X, h ∈ s.pairAt (.item p) X .publisher) ∧
    (s.strategy (.item p) = nodeLocal ∨ s.strategy (.item p) = domainLocal)

/-- The host subscribed to the item or to one of its fathers. -/
def Receives (s : LocalRV) (p : Ptr) (h : NodeId) : Prop :=
  (∃ X, h ∈ s.pairAt (.item p) X .subscriber) ∨
    ∃ f ∈ s.fatherScopes (.item p), ∃ F, h ∈ s.pairAt (.scope f) F .subscriber

/-- The message was computed from the data that the state has for the item. -/
def IsFresh (s : LocalRV) (p : Ptr) : Emission → Prop
  | .matchPubSubs pub strategy publishers subscribers IDs =>
    pub = p ∧ s.strategy (.item p) = domainLocal ∧ strategy = domainLocal ∧
      (∀ h, h ∈ publishers ↔ ∃ X, h ∈ s.pairAt (.item p) X .publisher) ∧
      (∀ h, h ∈ subscribers ↔ s.Receives p h) ∧ ∀ X, X ∈ IDs ↔ X ∈ s.ids (.item p)
  | .startPublish pub IDs =>
    pub = p ∧ s.strategy (.item p) = nodeLocal ∧ (∃ h, s.Receives p h) ∧
      ∀ X, X ∈ IDs ↔ X ∈ s.ids (.item p)
  | .stopPublish pub IDs =>
    pub = p ∧ s.strategy (.item p) = nodeLocal ∧ (¬ ∃ h, s.Receives p h) ∧
      ∀ X, X ∈ IDs ↔ X ∈ s.ids (.item p)
  | .scopeToTM _ _ _ _ => False
  | .scopeToProxy _ _ => False

def Fresh (s : LocalRV) : Prop :=
  ∀ p, s.RendezvousDue p → ∃ e, s.lastRendezvous p = some e ∧ s.IsFresh p e

theorem mem_allSubscribers_iff : h ∈ s.allSubscribers p ↔ s.Receives p h := by
  simp only [mem_allSubscribers, mem_getSubscribers, Receives]

theorem allSubscribers_eq_empty : s.allSubscribers p = ∅ ↔ ¬ ∃ h, s.Receives p h := by
  rw [Finset.eq_empty_iff_forall_notMem, not_exists]
  exact forall_congr' fun h => not_congr mem_allSubscribers_iff

theorem getPublishers_eq_empty :
    s.getPublishers p = ∅ ↔ ¬ ∃ h X, h ∈ s.pairAt (.item p) X .publisher := by
  rw [Finset.eq_empty_iff_forall_notMem, not_exists]
  exact forall_congr' fun h => not_congr mem_getPublishers

theorem RendezvousDue.currentMessage (hd : s.RendezvousDue p) :
    ∃ e, s.currentMessage p = some e ∧ s.IsFresh p e := by
  obtain ⟨hpub, hst⟩ := hd
  have hne : ¬ s.getPublishers p = ∅ := fun he => getPublishers_eq_empty.mp he hpub
  have hIDs : ∀ X, X ∈ s.getIDs (.item p) ↔ X ∈ s.ids (.item p) := fun _ => mem_getIDs
  simp only [LocalRV.currentMessage, rendezvousMessage, if_neg hne]
  rcases hst with hst | hst
  · rw [if_pos hst]
    by_cases hsub : s.allSubscribers p = ∅
    · rw [if_pos hsub]
      exact ⟨_, rfl, rfl, hst, allSubscribers_eq_empty.mp hsub, hIDs⟩
    · rw [if_neg hsub]
      exact ⟨_, rfl, rfl, hst, not_not.mp (mt allSubscribers_eq_empty.mpr hsub), hIDs⟩
  · have hnot : ¬ s.strategy (.item p) = nodeLocal := by rw [hst]; decide
    rw [if_neg hnot, if_pos hst]
    exact ⟨_, rfl, rfl, hst, hst, fun _ => mem_getPublishers, fun _ => mem_allSubscribers_iff, hIDs⟩

theorem due_of_currentMessage (he : s.currentMessage p = some e) : s.RendezvousDue p := by
  simp only [LocalRV.currentMessage, rendezvousMessage] at he
  split at he
  · cases he
  · next hne =>
    refine ⟨not_not.mp (mt getPublishers_eq_empty.mpr hne), ?_⟩
    split at he
    · next hst => exact Or.inl hst
    · split at he
      · next hst => exact Or.inr hst
      · cases he

theorem item?_currentMessage (he : s.currentMessage p = some e) : e.item? = some p := by
  obtain ⟨e', he', hf⟩ := (due_of_currentMessage he).currentMessage
  obtain rfl := Option.some.inj (he.symm.trans he')
  cases e with
  | matchPubSubs => exact congrArg some hf.1
  | startPublish => exact congrArg some hf.1
  | stopPublish => exact congrArg some hf.1
  | scopeToTM => exact hf.elim
  | scopeToProxy => exact hf.elim

/-- The last message for `p` is the one that would be sent now. -/
def FreshAt (s : LocalRV) (p : Ptr) : Prop :=
  ∀ e, s.currentMessage p = some e → s.lastRendezvous p = some e

theorem fresh_of_freshAt (hf : ∀ p, s.FreshAt p) : s.Fresh := by
  intro p hd
  obtain ⟨e, he, hfresh⟩ := hd.currentMessage
  exact ⟨e, hf p e he, hfresh⟩

theorem freshAt_of_not_due (hd : ¬ s.RendezvousDue p) : s.FreshAt p :=
  fun _ he => absurd (due_of_currentMessage he) hd

/-! ## What messages do -/

/-- True messages do no harm, and make `p` fresh if its own is among them. -/
theorem freshAt_send (htrue : ∀ e ∈ es, e.item? = some p → s.currentMessage p = some e)
    (hf : s.FreshAt p ∨ ∀ e, s.currentMessage p = some e → e ∈ es) : (s.send es).FreshAt p := by
  intro e he
  rw [currentMessage_send] at he
  rw [lastRendezvous, send_out, List.find?_append]
  cases hfind : es.find? (fun e => decide (e.item? = some p)) with
  | some e' =>
    have h1 := htrue e' (List.mem_of_find?_eq_some hfind) (by simpa using List.find?_some hfind)
    exact h1.symm.trans he
  | none =>
    rcases hf with hf | hmem
    · exact hf e he
    · exact absurd (item?_currentMessage he) (by simpa using List.find?_eq_none.mp hfind e (hmem e he))

theorem freshAt_send_other (hnone : ∀ e ∈ es, e.item? ≠ some p) (hf : s.FreshAt p) :
    (s.send es).FreshAt p :=
  freshAt_send (fun e he h => absurd h (hnone e he)) (Or.inl hf)

/-- The rendezvous for `q`, seen from `p`. -/
theorem freshAt_send_current (hf : q ≠ p → s.FreshAt p) :
    (s.send (s.currentMessage q).toList).FreshAt p := by
  refine freshAt_send (fun e he hp => ?_) ?_
  · have he := Option.mem_toList.mp he
    obtain rfl : q = p := Option.some.inj ((item?_currentMessage he).symm.trans hp)
    exact he
  · by_cases hq : q = p
    · subst hq
      exact Or.inr fun e he => Option.mem_toList.mpr he
    · exact Or.inl (hf hq)

/-- The rendezvous for all items under a scope. -/
theorem freshAt_send_items (hes : ∀ e ∈ es, e.item? = none) (hf : p ∉ s.informationitems sc → s.FreshAt p) :
    (s.send (((s.informationitems sc).toList.filterMap s.currentMessage).reverse ++ es)).FreshAt p := by
  refine freshAt_send (fun e he hp => ?_) ?_
  · rcases List.mem_append.mp he with he | he
    · obtain ⟨q, -, he⟩ := List.mem_filterMap.mp (List.mem_reverse.mp he)
      obtain rfl : q = p := Option.some.inj ((item?_currentMessage he).symm.trans hp)
      exact he
    · rw [hes e he] at hp
      cases hp
  · by_cases hp : p ∈ s.informationitems sc
    · refine Or.inr fun e he => List.mem_append_left _ (List.mem_reverse.mpr ?_)
      exact List.mem_filterMap.mpr ⟨p, hp, he⟩
    · exact Or.inl (hf hp)

theorem item?_notice {event : ScopeEvent} {IDs : Finset Id} {strategy : Strategy}
    {subscribers : Finset NodeId} (he : s.notice event IDs strategy subscribers = some e) :
    e.item? = none := by
  unfold notice at he
  split at he <;> split at he <;> cases he <;> rfl

theorem item?_publicationNotice {IDs : Finset Id} (he : e ∈ s.publicationNotice sc f IDs) :
    e.item? = none := item?_notice (Option.mem_toList.mp he)

theorem item?_withdrawalNotice (he : e ∈ s.withdrawalNotice sc o X) : e.item? = none := by
  cases o with
  | none => cases he
  | some f => exact item?_notice (Option.mem_toList.mp he)

theorem item?_subscopeNotices (l : List Ptr)
    (he : e ∈ (l.filterMap (s.subscopeNotice h)).reverse) : e.item? = none := by
  obtain ⟨c, -, he⟩ := List.mem_filterMap.mp (List.mem_reverse.mp he)
  exact item?_notice he

/-! ## What does not concern an item -/

/-- The data of `p` that a rendezvous reads. -/
structure SameData (s s' : LocalRV) (p : Ptr) : Prop where
  pairAt : ∀ X role, s'.pairAt (.item p) X role = s.pairAt (.item p) X role
  strategy : s'.strategy (.item p) = s.strategy (.item p)
  mem_ids : ∀ X, X ∈ s'.ids (.item p) ↔ X ∈ s.ids (.item p)
  fathers : ∀ f, f ∈ s'.fatherScopes (.item p) ↔ f ∈ s.fatherScopes (.item p)
  subscribers : ∀ f X, f ∈ s.fatherScopes (.item p) →
    s'.pairAt (.scope f) X .subscriber = s.pairAt (.scope f) X .subscriber

theorem SameData.trans (h : s.SameData t p) (h' : t.SameData s' p) : s.SameData s' p where
  pairAt X role := (h'.pairAt X role).trans (h.pairAt X role)
  strategy := h'.strategy.trans h.strategy
  mem_ids X := (h'.mem_ids X).trans (h.mem_ids X)
  fathers f := (h'.fathers f).trans (h.fathers f)
  subscribers f X hf := (h'.subscribers f X ((h.fathers f).mpr hf)).trans (h.subscribers f X hf)

theorem SameData.currentMessage (h : s.SameData s' p) : s'.currentMessage p = s.currentMessage p := by
  have hIDs : s'.getIDs (.item p) = s.getIDs (.item p) := by
    ext X
    rw [mem_getIDs, mem_getIDs, h.mem_ids]
  have hpub : s'.getPublishers p = s.getPublishers p := by
    ext h'
    simp only [mem_getPublishers, h.pairAt]
  have hsub : s'.allSubscribers p = s.allSubscribers p := by
    ext h'
    simp only [mem_allSubscribers_iff, Receives, h.pairAt, h.fathers]
    refine or_congr_right (exists_congr fun f => and_congr_right fun hf => ?_)
    simp only [h.subscribers f _ hf]
  simp only [LocalRV.currentMessage, rendezvousMessage, hIDs, hpub, hsub, h.strategy]

theorem SameData.freshAt (h : s.SameData s' p) (hout : s'.out = s.out) (hf : s.FreshAt p) :
    s'.FreshAt p := by
  intro e he
  rw [lastRendezvous, hout]
  exact hf e (h.currentMessage.symm.trans he)

theorem pairAt_enter_of_ne (hne : ¬ (m = n ∧ role' = role)) :
    (s.enter n role X h).pairAt m Y role' = s.pairAt m Y role' := by
  ext h'
  rw [mem_pairAt_enter]
  exact ⟨fun hh => hh.resolve_left fun ⟨h1, _, h3, _⟩ => hne ⟨h1, h3⟩, Or.inr⟩

theorem pairAt_eraseHost_of_ne (hne : ¬ (m = n ∧ role' = role)) :
    (s.eraseHost n role X (s.pairAt n X) h).pairAt m Y role' = s.pairAt m Y role' := by
  ext h'
  rw [mem_pairAt_eraseHost]
  exact ⟨And.left, fun hh => ⟨hh, fun ⟨h1, _, h3, _⟩ => hne ⟨h1, h3⟩⟩⟩

/-- A change of one pair concerns the item itself and, for subscribers, the items right below. -/
theorem SameShape.sameData (hsh : s.SameShape s')
    (hpair : ∀ m Y role', ¬ (m = n ∧ role' = role) → s'.pairAt m Y role' = s.pairAt m Y role')
    (hp : .item p ≠ n) (hsub : role = .subscriber → ∀ f ∈ s.fatherScopes (.item p), .scope f ≠ n) :
    s.SameData s' p where
  pairAt X role' := hpair _ _ _ fun hh => hp hh.1
  strategy := by rw [hsh.strategy]
  mem_ids := hsh.mem_ids _
  fathers f := by rw [hsh.fatherScopes]
  subscribers f X hf := hpair _ _ _ fun ⟨h1, h2⟩ => hsub h2.symm f hf h1

/-- A node that was put somewhere concerns the items below it. -/
theorem Attached.under (ha : s.Attached n o s₁) (hu : s₁.Under m n) : s.Under m n := by
  induction hu using Relation.ReflTransGen.head_induction_on with
  | refl => exact .refl
  | head hstep _ ih =>
    rcases (ha.fathers _ _).mp hstep.2 with hf | ⟨rfl, -⟩
    · exact .head ⟨hstep.1, hf⟩ ih
    · exact .refl

theorem Attached.sameData (ha : s.Attached n o s₁) (hnot : ¬ s.Under (.item p) n)
    (hX : X ∈ s.ids (.item p)) : s.SameData s₁ p where
  pairAt X role := by rw [ha.pairAt]
  strategy := ha.strategy _ X hX
  mem_ids X := ⟨fun h => (ha.only _ X h).resolve_right fun hu => hnot (ha.under hu), ha.mono _ X⟩
  fathers f := by
    rw [ha.fathers]
    exact ⟨fun h => h.resolve_right fun ⟨he, _⟩ => hnot (he ▸ .refl), Or.inl⟩
  subscribers f X _ := by rw [ha.pairAt]

theorem Detached.sameData (hd : s.Detached n o s') (hp : .item p ≠ n) : s.SameData s' p where
  pairAt X role := by rw [hd.pairAt]
  strategy := by rw [hd.strategy]
  mem_ids X := (hd.mem_ids _ X).trans ⟨And.left, fun h => ⟨h, fun hh => hp hh.1⟩⟩
  fathers f := (hd.fathers _ f).trans ⟨And.left, fun h => ⟨h, fun hh => hp hh.1⟩⟩
  subscribers f X _ := by rw [hd.pairAt]

theorem not_under_item (hq : q ≠ p) : ¬ s.Under (.item p) (.item q) := by
  intro hu
  rcases Relation.ReflTransGen.cases_tail hu with he | ⟨c, -, hk, -⟩
  · exact hq (congrArg Node.ptr he)
  · cases hk

theorem Inv.not_under_fresh (hs : s.Inv lab) : ¬ s.Under (.item p) (.scope s.next) := by
  intro hu
  rcases Relation.ReflTransGen.cases_tail hu with he | ⟨c, -, -, hf⟩
  · cases he
  · obtain ⟨F, hF⟩ := hs.father_live c _ hf
    exact hs.fresh_ids hF

/-! ## Entries -/

theorem freshAt_attached (ha : s.Attached n o s₁) (hX : X ∈ s₁.ids n) (hp : .item p ≠ n)
    (hquiet : s.Under (.item p) n → ¬ s.RendezvousDue p)
    (hsub : role = .subscriber → ∀ f ∈ s.fatherScopes (.item p), .scope f ≠ n) (hf : s.FreshAt p) :
    (s₁.enter n role X h).FreshAt p := by
  by_cases hdue : (s₁.enter n role X h).RendezvousDue p
  swap
  · exact freshAt_of_not_due hdue
  have hshape := enter_shape hX role h
  obtain ⟨⟨h', Y, hh⟩, hst⟩ := hdue
  rw [pairAt_enter_of_ne fun he => hp he.1, ha.pairAt] at hh
  have hY := mem_of_pairAt hh
  rw [hshape.strategy, ha.strategy _ Y hY] at hst
  have hsame := ha.sameData (fun hu => hquiet hu ⟨⟨h', Y, hh⟩, hst⟩) hY
  refine (hsame.trans (hshape.sameData (fun _ _ _ => pairAt_enter_of_ne) hp ?_)).freshAt ?_ hf
  · exact fun hr f hf => hsub hr f ((hsame.fathers f).mp hf)
  · rw [enter_out, ha.out]

theorem newItemMessages_eq (hfs : ∀ g, g ∈ t.fatherScopes (.item p) ↔ f = g) :
    t.newItemMessages p f .publisher = (t.currentMessage p).toList := by
  have hsub : t.getSubscribers (.item p) ∪ t.getSubscribers (.scope f) = t.allSubscribers p := by
    ext h
    simp only [Finset.mem_union, mem_allSubscribers, hfs, exists_eq_left']
  rw [newItemMessages, hsub, currentMessage]

theorem Entered.freshAt (he : s.Entered h n role X s') (hs : s.Inv lab)
    (hquiet : (∃ E, E ∈ s.ids n) → ¬ X ∈ s.ids n → n.kind = .scope → s.Under (.item p) n →
      ¬ s.RendezvousDue p) (hf : s.FreshAt p) : s'.FreshAt p := by
  have hfresh : ∀ f ∈ s.fatherScopes (.item p), Node.scope f ≠ .scope s.next := by
    rintro f hf he
    obtain ⟨F, hF⟩ := hs.father_live _ f hf
    exact hs.fresh_ids (he ▸ hF)
  have hitem : ∀ {q}, ∀ f ∈ s.fatherScopes (.item p), Node.scope f ≠ .item q := fun _ _ he => by
    cases he
  cases he with
  | @existing n role X hX hh =>
    have hshape := enter_shape hX role h
    obtain ⟨k, q⟩ := n
    cases k with
    | item =>
      refine freshAt_send_current fun hq => ?_
      refine (hshape.sameData (fun _ _ _ => pairAt_enter_of_ne) ?_ fun _ => hitem).freshAt rfl hf
      exact fun he => hq (congrArg Node.ptr he).symm
    | scope =>
      cases role with
      | publisher =>
        change (s.enter (.scope q) .publisher X h).FreshAt p
        exact (hshape.sameData (fun _ _ _ => pairAt_enter_of_ne) nofun nofun).freshAt rfl hf
      | subscriber =>
        refine freshAt_send_items (fun e he => item?_subscopeNotices _ he) fun hp => ?_
        refine (hshape.sameData (fun _ _ _ => pairAt_enter_of_ne) nofun ?_).freshAt rfl hf
        rintro - f hf ⟨⟩
        exact hp ((hs.child_iff (.item p) q).mpr hf)
  | root ha hX =>
    exact freshAt_attached ha hX nofun (fun hu => absurd hu hs.not_under_fresh) (fun _ => hfresh) hf
  | newScope hP ha hX ht =>
    subst ht
    refine freshAt_send_other (fun e he => by rw [item?_publicationNotice he]; nofun) ?_
    exact freshAt_attached ha hX nofun (fun hu => absurd hu hs.not_under_fresh) (fun _ => hfresh) hf
  | linkedScope hE hP ha hnew hX ht =>
    subst ht
    refine freshAt_send_other (fun e he => by rw [item?_publicationNotice he]; nofun) ?_
    exact freshAt_attached ha hX nofun (hquiet ⟨_, hE⟩ hnew rfl) nofun hf
  | linkedItem hE hP ha hnew hX ht =>
    subst ht
    refine freshAt_send_current fun hq => ?_
    exact freshAt_attached ha hX (fun he => hq (congrArg Node.ptr he).symm)
      (fun hu => absurd hu (not_under_item hq)) nofun hf
  | @newItem role X f s₁ t hP ha hX ht =>
    have hother : s.next ≠ p → t.FreshAt p := fun hq => by
      subst ht
      exact freshAt_attached ha hX (fun he => hq (congrArg Node.ptr he).symm)
        (fun hu => absurd hu (not_under_item hq)) (fun _ => hitem) hf
    cases role with
    | publisher =>
      rw [newItemMessages_eq fun g => ?_]
      · exact freshAt_send_current hother
      · rw [ht, (enter_shape hX _ _).fatherScopes, ha.fathers]
        simp [hs.fresh_fathers]
    | subscriber =>
      rw [newItemMessages, send_nil]
      by_cases hq : s.next = p
      · refine freshAt_of_not_due ?_
        rintro ⟨⟨h', Y, hh⟩, -⟩
        rw [ht, mem_pairAt_enter, ha.pairAt, ← hq] at hh
        rcases hh with ⟨-, -, hr, -⟩ | hh
        · cases hr
        · exact hs.fresh_ids (mem_of_pairAt hh)
      · exact hother hq

/-! ## Departures -/

/-- Nobody but the subscriber `h` of `X` uses the branch. -/
def EmptiesBranch (s : LocalRV) (h : NodeId) (p f : Ptr) (X : Id) : Prop :=
  ∀ Y role h', s.InBranch (some f) Y → h' ∈ s.pairAt (.item p) Y role →
    Y = X ∧ role = .subscriber ∧ h' = h

/-- A free branch that is the only one has no publishers. -/
theorem not_due_of_only (hs : t.Inv lab) (hb : f ∈ t.fatherScopes (.item p))
    (hone : (t.fatherScopes (.item p)).size = 1) (hfree : ¬ t.Occupied (.item p) (some f))
    (hd : ∀ X, s'.pairAt (.item p) X = t.pairAt (.item p) X) : ¬ s'.RendezvousDue p := by
  rintro ⟨⟨h', Y, hh⟩, -⟩
  rw [hd] at hh
  refine hfree ⟨Y, _, h', hs.inBranch_of_only (n := .item p) hb (fun g hg => ?_) (mem_of_pairAt hh), hh⟩
  rw [ListSet.eq_of_size_one _ f g hone hb hg]

theorem Left.freshAt (hl : s.Left h n role X s') (hs : s.Inv lab)
    (hquiet : role = .subscriber → ∀ f, n = .item p → f ∈ s.fatherScopes (.item p) →
      s.InBranch (some f) X → (s.fatherScopes (.item p)).size ≠ 1 → s.EmptiesBranch h p f X →
      ¬ s.RendezvousDue p) (hf : s.FreshAt p) : s'.FreshAt p := by
  cases hl with
  | @scope sc o role X t s' hb hin hh ht hp =>
    have hshape := eraseHost_shape (mem_of_pairAt hh) role (s.pairAt (.scope sc) X) h
    rw [← ht] at hshape
    have hpair : ∀ m Y role', ¬ (m = .scope sc ∧ role' = role) →
        t.pairAt m Y role' = s.pairAt m Y role' := fun _ _ _ => ht ▸ pairAt_eraseHost_of_ne
    have hsent : (t.send (t.leaveMessages sc role)).FreshAt p := by
      cases role with
      | publisher =>
        rw [leaveMessages, send_nil]
        refine (hshape.sameData hpair (fun he => ?_) fun hrole => ?_).freshAt (ht ▸ rfl) hf
        · cases he
        · cases hrole
      | subscriber =>
        rw [leaveMessages, ← List.append_nil (List.reverse _)]
        refine freshAt_send_items (fun e he => absurd he List.not_mem_nil) fun hp => ?_
        refine (hshape.sameData hpair (fun he => ?_) ?_).freshAt (ht ▸ rfl) hf
        · cases he
        · rintro - f hf ⟨⟩
          rw [informationitems, hshape.children] at hp
          exact hp ((hs.child_iff (.item p) sc).mpr hf)
    cases hp with
    | kept _ => exact hsent
    | gone _ _ hd =>
      refine (hd.sameData fun he => ?_).freshAt hd.out (freshAt_send_other (fun e he => ?_) hsent)
      · cases he
      · rw [item?_withdrawalNotice he]
        exact (Option.some_ne_none p).symm
  | @item q f role X t s' hb hin hh ht hp =>
    have hshape := eraseHost_shape (mem_of_pairAt hh) role (s.pairAt (.item q) X) h
    rw [← ht] at hshape
    have hne : q ≠ p → Node.item p ≠ .item q := fun hq he => hq (congrArg Node.ptr he).symm
    have hother : q ≠ p → t.FreshAt p := fun hq => by
      refine (hshape.sameData (fun m Y role' => ht ▸ pairAt_eraseHost_of_ne) (hne hq) ?_).freshAt
        (ht ▸ rfl) hf
      exact fun _ _ _ he => by cases he
    have hbt : f ∈ t.fatherScopes (.item q) := by rwa [hshape.fatherScopes]
    cases hp with
    | unpublished _ => exact freshAt_send_current hother
    | unsubscribed _ => exact freshAt_send_current hother
    | cut _ _ hd =>
      exact freshAt_send_current fun hq => (hd.sameData (hne hq)).freshAt hd.out (hother hq)
    | deleted hfree hone hd =>
      by_cases hq : q = p
      · subst hq
        exact freshAt_of_not_due
          (not_due_of_only (hshape.inv hs) hbt hone hfree fun _ => hd.pairAt _ _)
      · exact (hd.sameData (hne hq)).freshAt hd.out (hother hq)
    | dropped hfree hd =>
      by_cases hq : q = p
      swap
      · exact (hd.sameData (hne hq)).freshAt hd.out (freshAt_send_current hother)
      subst hq
      refine freshAt_of_not_due ?_
      by_cases hone : (t.fatherScopes (.item q)).size = 1
      · exact not_due_of_only (hshape.inv hs) hbt hone hfree fun _ => hd.pairAt _ _
      · -- The rendezvous ran with the ids of the branch that goes now.
        have hempty : s.EmptiesBranch h q f X := by
          intro Y role' h' hinY hhY
          by_contra hnot
          refine hfree ⟨Y, role', h', hshape.inBranch.mpr hinY, ?_⟩
          rw [ht, mem_pairAt_eraseHost]
          exact ⟨hhY, fun hpair => hnot hpair.2⟩
        rw [hshape.fatherScopes] at hone
        rintro ⟨⟨h', Y, hpub⟩, hst⟩
        refine hquiet rfl f rfl hb hin hone hempty ⟨⟨h', Y, ?_⟩, ?_⟩
        · rw [hd.pairAt] at hpub
          rw [pairAt_send, ht] at hpub
          exact (mem_pairAt_eraseHost.mp hpub).1
        · rwa [hd.strategy, send_strategy, hshape.strategy] at hst

/-! ## Requests -/

/-- The request ends the last registration in one of several branches of an item that is still
published. Its rendezvous runs before the branch is taken away. -/
structure CutsPublished (s : LocalRV) (h : NodeId) (r : Request) (p f : Ptr) : Prop where
  type : r.type = .unsubscribeInfo
  existing : s.pubIndex r.fullID = some p
  father : s.scopeIndex r.prefixID = some f
  strategy : s.strategy (.scope f) = r.strategy
  registered : h ∈ s.pairAt (.item p) r.fullID .subscriber
  last : s.EmptiesBranch h p f r.fullID
  several : (s.fatherScopes (.item p)).size ≠ 1
  due : s.RendezvousDue p

/-- The request gives new ids to a published item, by a republication of a scope above it. -/
def RenamesPublished (s : LocalRV) (r : Request) (p : Ptr) : Prop :=
  ∃ sc f, s.Republishes r sc f ∧ s.Under (.item p) (.scope sc) ∧ s.RendezvousDue p

/-- An old scope gets a new id by a republication only. -/
theorem Entered.republishes (he : s.Entered h (.scope sc) role r.fullID s') (hs : s.Inv lab)
    (hkind : r.type.kind = .scope) (hrole : r.type.role = role) (hent : r.type.enters = true)
    (hlong : pursuitIdLen < r.ID.length) (hE : r.ID ∈ s.ids (.scope sc))
    (hnew : ¬ r.fullID ∈ s.ids (.scope sc)) (hst : s.FatherStrategy r.fullID r.strategy) :
    ∃ f, s.Republishes r sc f := by
  have hfather := fatherOf_fullID (Nat.le_of_lt hlong)
  generalize hX : r.fullID = X at he hnew
  generalize hn : Node.scope sc = n at he hE hnew
  cases he with
  | existing hX _ => exact absurd hX hnew
  | root _ _ => exact absurd hE hs.fresh_ids
  | newScope _ _ _ _ => exact absurd hE hs.fresh_ids
  | newItem _ _ _ _ => cases hn
  | linkedItem _ _ _ _ _ _ => cases hn
  | @linkedScope sc f X E s₁ t _ hP ha _ hX₁ _ =>
    cases hn
    subst hX
    obtain ⟨lab₁, hs₁⟩ := ha.inv
    have hfree : ∀ m, ¬ r.fullID ∈ s.ids m := fun m hm =>
      hnew (hs₁.owner_unique (ha.mono m _ hm) hX₁ ▸ hm)
    have hnone : ∀ k, s.index k r.fullID = none := fun k =>
      Option.eq_none_iff_forall_ne_some.mpr fun p hp => hfree _ (hs.of_index hp)
    rw [hfather] at hP
    refine ⟨f, ?_, hlong, hnone .item, hnone .scope, hs.index_of_mem hE, hs.index_of_mem hP, ?_⟩
    · revert hkind hrole hent
      cases r.type <;> simp [RequestType.kind, RequestType.role, RequestType.enters]
    · exact hst f (by rw [hfather]; exact hs.index_of_mem hP)

theorem Left.cutsPublished (hl : s.Left h (.item p) .subscriber r.fullID s') (hs : s.Inv lab)
    (hr : r.WellFormed) (hkind : r.type.kind = .item) (hrole : r.type.role = .subscriber)
    (hent : r.type.enters = false) (hst : s.FatherStrategy r.fullID r.strategy)
    (hin : s.InBranch (some f) r.fullID) (hmany : (s.fatherScopes (.item p)).size ≠ 1)
    (hlast : s.EmptiesBranch h p f r.fullID)
    (hdue : s.RendezvousDue p) : s.CutsPublished h r p f := by
  have hfather := fatherOf_fullID (Nat.le_of_eq (hr.single_of_not_enters hent).symm)
  have hP : s.scopeIndex (fatherOf r.fullID) = some f := hs.index_of_mem (hin f rfl)
  refine ⟨?_, hs.index_of_mem (mem_of_pairAt hl.mem), hfather ▸ hP, hst f hP, hl.mem, hlast, hmany, hdue⟩
  revert hkind hrole hent
  cases r.type <;> simp [RequestType.kind, RequestType.role, RequestType.enters]

theorem ItemsWithdrawn.freshAt (hw : ItemsWithdrawn h sc s s') (hs : s.Inv lab) (hf : s.FreshAt p) :
    s'.FreshAt p := by
  induction hw with
  | refl => exact hf
  | tail hw hstep ih =>
    obtain ⟨q, X, -, -, -, hl⟩ := hstep
    exact hl.freshAt (ItemsWithdrawn.keepsScopes hw hs).inv nofun ih

theorem Effect.freshAt (he : Effect s h r code s') (hs : s.Inv lab) (hr : r.WellFormed)
    (hcut : ∀ f, ¬ s.CutsPublished h r p f) (hren : ¬ s.RenamesPublished r p) (hf : s.FreshAt p) :
    s'.FreshAt p := by
  cases he with
  | refused _ => exact hf
  | entered ht he =>
    obtain ⟨q, he, hold⟩ := he
    refine he.freshAt hs (fun hlive hnew hk hu hdue => ?_) hf
    obtain ⟨hlong, hE, hst⟩ := hold hlive hnew
    rw [show r.type.kind = .scope from hk] at he hE hnew hu
    obtain ⟨f, hrep⟩ := he.republishes hs hk rfl ht hlong hE hnew hst
    exact hren ⟨q, f, hrep, hu, hdue⟩
  | left ht _ hl =>
    obtain ⟨q, hl, hst⟩ := hl
    refine hl.freshAt hs (fun hrole f hn hb hin hmany hlast hdue => ?_) hf
    have hk : r.type.kind = .item := congrArg Node.kind hn
    rw [hn, hrole] at hl
    rw [hk] at hst
    exact hcut f (hl.cutsPublished hs hr hk hrole ht hst hin hmany hlast hdue)
  | unpublished _ _ _ hw hl =>
    exact hl.freshAt (hw.keepsScopes hs).inv nofun (hw.freshAt hs hf)
  | onlyItems _ _ _ hw _ => exact hw.freshAt hs hf

/-- The requests that leave no rendezvous message behind the state. -/
def KeepsFresh (s : LocalRV) (a : NodeId × Request) : Prop :=
  ∀ p, (∀ f, ¬ s.CutsPublished a.1 a.2 p f) ∧ ¬ s.RenamesPublished a.2 p

/-- The last rendezvous message for each published item tells its current publishers, subscribers
and ids, in every state of a run whose requests neither cut nor rename a published item. -/
theorem rendezvous_fresh {nodeID : NodeId}
    (hrun : Runs.Reachable (Runs.Guarded Step KeepsFresh) (init nodeID) s) : s.Fresh := by
  refine fresh_of_freshAt (hrun.invariant (I := fun t => ∀ p, t.FreshAt p) (fun p => ?_) ?_)
  · refine freshAt_of_not_due ?_
    rintro ⟨⟨h, X, hh⟩, -⟩
    simp [init, pairAt] at hh
  · rintro s a s' hrun hf ⟨hstep, hquiet⟩ p
    obtain ⟨lab, hs⟩ := inv_of_run hrun.of_guarded
    obtain ⟨code, he⟩ := hstep.effect hs
    exact he.freshAt hs hstep.1 (hquiet p).1 (hquiet p).2 (hf p)

theorem keepsFresh_of_short {a : NodeId × Request} (ht : a.2.type ≠ .unsubscribeInfo)
    (hID : a.2.ID.length ≤ pursuitIdLen) (s : LocalRV) : s.KeepsFresh a := by
  refine fun p => ⟨fun f hc => ht hc.type, ?_⟩
  rintro ⟨sc, f, hr, -⟩
  exact absurd hr.long (Nat.not_lt.mpr hID)

/-- An item below one of two scopes. -/
def publishedItemRun : List (NodeId × Request) :=
  [([1], ⟨.publishScope, frag 1, [], domainLocal⟩),
    ([1], ⟨.publishScope, frag 2, [], domainLocal⟩),
    ([1], ⟨.publishInfo, frag 3, frag 1, domainLocal⟩)]

theorem rendezvous_fresh_published : (afterRun 1 [0] publishedItemRun).Fresh := by
  refine rendezvous_fresh (guarded_afterRun 1 [0] fun a ha => ?_)
  have hok : ∀ a ∈ publishedItemRun, a.2.WellFormed ∧ a.2.type ≠ .unsubscribeInfo ∧
      a.2.ID.length ≤ pursuitIdLen := by decide
  exact ⟨(hok a ha).1, keepsFresh_of_short (hok a ha).2.1 (hok a ha).2.2⟩

/-- The item goes below the second scope too, and loses that branch with its subscriber. -/
def staleRun : List (NodeId × Request) :=
  publishedItemRun ++ [([1], ⟨.publishInfo, frag 1 ++ frag 3, frag 2, domainLocal⟩),
    ([2], ⟨.subscribeInfo, frag 3, frag 2, domainLocal⟩),
    ([1], ⟨.unpublishInfo, frag 3, frag 2, domainLocal⟩),
    ([2], ⟨.unsubscribeInfo, frag 3, frag 2, domainLocal⟩)]

/-- The last message has the id of the branch that is gone. -/
theorem stale_rendezvous :
    (afterRun 1 [0] staleRun).Reachable ∧ ¬ (afterRun 1 [0] staleRun).Fresh := by
  refine ⟨reachable_afterRun 1 [0] (by decide : ∀ a ∈ staleRun, a.2.WellFormed), fun hf => ?_⟩
  obtain ⟨e, he, hfresh⟩ := hf 2 ⟨⟨[1], frag 1 ++ frag 3, by decide⟩, Or.inr (by decide)⟩
  obtain ⟨publishers, subscribers, IDs, hlast, hID⟩ : ∃ publishers subscribers IDs,
      (afterRun 1 [0] staleRun).lastRendezvous 2 =
        some (.matchPubSubs 2 domainLocal publishers subscribers IDs) ∧ frag 2 ++ frag 3 ∈ IDs :=
    ⟨_, _, _, rfl, by decide⟩
  obtain rfl := Option.some.inj (hlast.symm.trans he)
  obtain ⟨-, -, -, -, -, hIDs⟩ := hfresh
  exact absurd ((hIDs _).mp hID) (by decide)

end LocalRV

end Blackadder
