import Mathlib.Tactic.Common
import Blackadder.Lib.Replay
import Blackadder.Rendezvous.Freshness

/-!
# What the subscribers of a scope are told

A subscriber that applies the scope events it gets keeps a view of the ids below its scope.
-/

namespace Blackadder

namespace LocalRV

variable {s s' s₀ s₁ t : LocalRV} {lab : Node → Id} {n m : Node} {X Y : Id} {h h' : NodeId}
  {role role' : Role} {r : Request} {code : ReturnCode} {o : Option Ptr} {f g p q sc c : Ptr}
  {e : Emission} {es es' : List Emission} {IDs : Finset Id} {event : ScopeEvent}
  {strategy : Strategy} {subscribers : Finset NodeId} {B : Id → Prop}
  {a : Replay.Announcement Id}

/-! ## Views -/

/-- The ids in an event that extend an id of `f` by one fragment. -/
def announcement (s : LocalRV) (f : Ptr) (event : ScopeEvent) (IDs : Finset Id) :
    Replay.Announcement Id where
  added := event = .scopePublished
  keys := IDs.filter (fun X => fatherOf X ∈ s.ids (.scope f))

/-- What a message tells the host `h` about the scope `f`. -/
def heard (s : LocalRV) (h : NodeId) (f : Ptr) : Emission → Option (Replay.Announcement Id)
  | .scopeToTM event IDs subscribers _ =>
    if h ∈ subscribers then some (s.announcement f event IDs) else none
  | .scopeToProxy event IDs => if h = s.nodeID then some (s.announcement f event IDs) else none
  | .matchPubSubs _ _ _ _ _ => none
  | .startPublish _ _ => none
  | .stopPublish _ _ => none

/-- The messages between two states. -/
def newMessages (s s' : LocalRV) : List Emission := s'.out.take (s'.out.length - s.out.length)

/-- The view after a request, from the one before it. -/
def view (s s' : LocalRV) (h : NodeId) (f : Ptr) (V : Finset Id) : Finset Id :=
  Replay.replay ((s.newMessages s').filterMap (s'.heard h f)) V

def Subscribed (s : LocalRV) (h : NodeId) (f : Ptr) : Prop :=
  ∃ X, h ∈ s.pairAt (.scope f) X .subscriber

instance : Decidable (s.Subscribed h f) := decidable_of_iff _ mem_getSubscribers

/-- The ids of scopes right below an id of `f`. -/
def Below (s : LocalRV) (f : Ptr) (X : Id) : Prop :=
  fatherOf X ∈ s.ids (.scope f) ∧ ∃ c, X ∈ s.ids (.scope c)

theorem mem_keys_announcement : X ∈ (s.announcement f event IDs).keys ↔
    X ∈ IDs ∧ fatherOf X ∈ s.ids (.scope f) := by
  simp [announcement]

theorem heard_of_item (he : e.item? = some p) : s.heard h f e = none := by
  cases e <;> simp_all [Emission.item?, heard]

theorem heard_send : (s.send es).heard h f e = s.heard h f e := by cases e <;> rfl

theorem heard_notice (he : t.notice event IDs strategy subscribers = some e)
    (ha : s.heard h f e = some a) : a = s.announcement f event IDs := by
  unfold notice at he
  split at he <;> split at he <;> cases he <;> simp only [heard] at ha <;> split at ha <;> cases ha <;> rfl

/-- A `NODE_LOCAL` notice reaches the local node only. -/
theorem exists_notice (hnode : t.nodeID = s.nodeID) (hh : h ∈ subscribers)
    (hst : strategy = nodeLocal → h = s.nodeID) :
    ∃ e, t.notice event IDs strategy subscribers = some e ∧
      s.heard h f e = some (s.announcement f event IDs) := by
  unfold notice
  by_cases hlocal : strategy = nodeLocal
  · have hself : t.nodeID ∈ subscribers := by rwa [hnode, ← hst hlocal]
    rw [if_pos hlocal, if_pos hself]
    exact ⟨_, rfl, if_pos (hst hlocal)⟩
  · rw [if_neg hlocal, if_neg (Finset.ne_empty_of_mem hh)]
    exact ⟨_, rfl, if_pos hh⟩

/-- The messages `es` tell `h` truly how the ids below `f` differ from `B`. -/
structure Announced (s s' : LocalRV) (h : NodeId) (f : Ptr) (B : Id → Prop) (es : List Emission) :
    Prop where
  out : s'.out = es ++ s.out
  truth : ∀ e ∈ es, ∀ a, s'.heard h f e = some a → ∀ X ∈ a.keys, (a.added = true ↔ s'.Below f X)
  cover : ∀ X, (B X ↔ s'.Below f X) ∨ ∃ e ∈ es, ∃ a, s'.heard h f e = some a ∧ X ∈ a.keys

theorem Announced.view (ha : s.Announced s' h f B es) {V : Finset Id} (hV : ∀ X, X ∈ V ↔ B X) :
    X ∈ s.view s' h f V ↔ s'.Below f X := by
  have hes : s.newMessages s' = es := by
    rw [newMessages, ha.out, List.length_append, Nat.add_sub_cancel, List.take_left' rfl]
  rw [LocalRV.view, hes]
  refine Replay.mem_replay (fun a hmem hX => ?_) ((ha.cover X).imp (fun h => (hV X).trans h) ?_)
  · obtain ⟨e, he, hh⟩ := List.mem_filterMap.mp hmem
    exact ha.truth e he a hh X hX
  · rintro ⟨e, he, a, hh, hX⟩
    exact ⟨a, List.mem_filterMap.mpr ⟨e, he, hh⟩, hX⟩

theorem announced_of_items (hout : s'.out = es ++ s.out) (hes : ∀ e ∈ es, e.item? ≠ none)
    (hB : ∀ X, B X ↔ s'.Below f X) : s.Announced s' h f B es where
  out := hout
  truth e he a ha := by
    obtain ⟨p, hp⟩ := Option.ne_none_iff_exists'.mp (hes e he)
    rw [heard_of_item hp] at ha
    cases ha
  cover X := Or.inl (hB X)

theorem truth_published (hIDs : ∀ X ∈ IDs, ∃ c, X ∈ s.ids (.scope c)) :
    ∀ X ∈ (s.announcement f .scopePublished IDs).keys,
      ((s.announcement f .scopePublished IDs).added = true ↔ s.Below f X) := by
  intro X hX
  obtain ⟨hX, hF⟩ := mem_keys_announcement.mp hX
  simp only [announcement, decide_true, true_iff]
  exact ⟨hF, hIDs X hX⟩

theorem SameShape.below (h : s.SameShape s') : s'.Below f X ↔ s.Below f X :=
  and_congr (h.mem_ids _ _) (exists_congr fun _ => h.mem_ids _ _)

/-! ## New links -/

/-- An old id that extends an id of `f` now, extended an id of `f` before. -/
theorem Attached.father_old (ha : s.Attached n o s₁) (hs : s.Inv lab) (hX : X ∈ s.ids m)
    (hF : fatherOf X ∈ s₁.ids (.scope f)) : fatherOf X ∈ s.ids (.scope f) := by
  obtain ⟨lab₁, hs₁⟩ := ha.inv
  by_cases hfather : ∃ g, g ∈ s.fatherScopes m
  · obtain ⟨g, hg⟩ := hfather
    obtain ⟨g, -, F, hFg, rfl⟩ := hs.below hg hX
    rw [fatherOf_append (hs.lab_length m)] at hF ⊢
    rwa [← hs₁.owner_unique (ha.mono _ F hFg) hF]
  · -- The id of a root scope is one fragment.
    have hlen := hs₁.ids_length hF
    rw [hs.root_ids (not_exists.mp hfather) hX, fatherOf, hs.lab_length] at hlen
    simp [pursuitIdLen] at hlen

/-- A new link changes the ids below `f` only when it is a link to `f`, unless `f` has sub-scopes
and gets new ids itself. -/
theorem Attached.below_new (ha : s.Attached n o s₁) (hs : s.Inv lab) (hX : s₁.Below f X)
    (hnew : ¬ s.Below f X)
    (hkeep : (∃ c, f ∈ s.fatherScopes (.scope c)) → ∀ F ∈ s₁.ids (.scope f), F ∈ s.ids (.scope f)) :
    (∃ c, n = .scope c) ∧ o = some f ∧ X ∈ s₁.ids n ∧ ¬ X ∈ s.ids n := by
  obtain ⟨hF, c, hc⟩ := hX
  obtain ⟨lab₁, hs₁⟩ := ha.inv
  have hlast : (suffixOf X).length = pursuitIdLen := suffixOf_length (hs₁.ids_length hc)
  have hold : ¬ X ∈ s.ids (.scope c) := fun hX => hnew ⟨ha.father_old hs hX hF, c, hX⟩
  have hchild : f ∈ s₁.fatherScopes (.scope c) :=
    (hs₁.child_of_ext hlast hF (by rwa [fatherOf_append_suffixOf])).1
  rcases (ha.fathers _ _).mp hchild with hchild | ⟨rfl, ho⟩
  · have hext := hs.mem_ext hchild (hkeep ⟨c, hchild⟩ _ hF)
    have hlab : lab (.scope c) = suffixOf X := by
      rw [← suffixOf_append (F := fatherOf X) (hs.lab_length (.scope c)),
        hs₁.suffix _ _ (ha.mono _ _ hext), ← hs₁.suffix _ _ hc]
    rw [hlab, fatherOf_append_suffixOf] at hext
    exact absurd hext hold
  · exact ⟨⟨c, rfl⟩, ho, hc, hold⟩

theorem Attached.below_mono (ha : s.Attached n o s₁) (hX : s.Below f X) : s₁.Below f X :=
  ⟨ha.mono _ _ hX.1, hX.2.imp fun _ hc => ha.mono _ _ hc⟩

/-- The host hears of every sub-scope: it is on the local node, or they are not `NODE_LOCAL`. -/
def Audible (s : LocalRV) (h : NodeId) (f : Ptr) : Prop :=
  ∀ c, f ∈ s.fatherScopes (.scope c) → s.strategy (.scope c) = nodeLocal → h = s.nodeID

/-- A link to `f` that is announced to the subscribers of `f`. -/
theorem Attached.announced (ha : s.Attached n o s₁) (hs : s.Inv lab) (hsh : s₁.SameShape t)
    (hkeep : (∃ c, f ∈ s.fatherScopes (.scope c)) → ∀ F ∈ s₁.ids (.scope f), F ∈ s.ids (.scope f))
    (hout : t.out = s.out)
    (htrue : ∀ e ∈ es, ∀ a, t.heard h f e = some a →
      ∃ c IDs, (∀ X ∈ IDs, X ∈ t.ids (.scope c)) ∧ a = t.announcement f .scopePublished IDs)
    (hcover : ∀ X, X ∈ t.ids n → ¬ X ∈ s.ids n → fatherOf X ∈ t.ids (.scope f) → o = some f →
      (∃ c, n = .scope c) → ∃ e ∈ es, ∃ a, t.heard h f e = some a ∧ X ∈ a.keys) :
    s.Announced (t.send es) h f (s.Below f) es where
  out := by rw [send_out, hout]
  truth e he a hh := by
    rw [heard_send] at hh
    obtain ⟨c, IDs, hIDs, rfl⟩ := htrue e he a hh
    intro X hX
    exact (truth_published fun X hX => ⟨c, hIDs X hX⟩) X hX
  cover X := by
    have hiff : (t.send es).Below f X ↔ s₁.Below f X := (hsh.trans (send_shape t es)).below
    simp only [hiff, heard_send]
    by_cases hnew : s₁.Below f X ∧ ¬ s.Below f X
    · obtain ⟨hsc, ho, hX, hold⟩ := ha.below_new hs hnew.1 hnew.2 hkeep
      exact Or.inr (hcover X ((hsh.mem_ids _ _).mpr hX) hold ((hsh.mem_ids _ _).mpr hnew.1.1) ho hsc)
    · exact Or.inl ⟨ha.below_mono, fun h1 => by_contra fun h2 => hnew ⟨h1, h2⟩⟩

theorem mem_publicationNotice (he : e ∈ t.publicationNotice sc g IDs)
    (ha : t.heard h f e = some a) : a = t.announcement f .scopePublished IDs :=
  heard_notice (Option.mem_toList.mp he) ha

theorem exists_publicationNotice (hsub : t.Subscribed h f)
    (hst : t.strategy (.scope sc) = nodeLocal → h = t.nodeID) :
    ∃ e ∈ t.publicationNotice sc f IDs,
      t.heard h f e = some (t.announcement f .scopePublished IDs) := by
  obtain ⟨e, he, hh⟩ : ∃ e, t.notice .scopePublished IDs (t.strategy (.scope sc))
      (t.getSubscribers (.scope f)) = some e ∧
      t.heard h f e = some (t.announcement f .scopePublished IDs) :=
    exists_notice rfl (mem_getSubscribers.mpr hsub) hst
  exact ⟨e, Option.mem_toList.mpr he, hh⟩

/-! ## Entries -/

theorem item?_rendezvousMessage {pub : Ptr} (he : s.rendezvousMessage pub subscribers = some e) :
    e.item? ≠ none := by
  simp only [rendezvousMessage] at he
  split at he
  · cases he
  · split at he
    · split at he <;> cases he <;> exact Option.some_ne_none _
    · split at he <;> cases he
      exact Option.some_ne_none _

theorem item?_newItemMessages (he : e ∈ t.newItemMessages p f role) : e.item? ≠ none := by
  cases role with
  | publisher => exact item?_rendezvousMessage (Option.mem_toList.mp he)
  | subscriber => cases he

/-- A registration at a node that was there: only sub-scopes that are there are told. -/
theorem truth_entryMessages
    (he : e ∈ (s.enter n role X h').entryMessages n role h') (t : LocalRV)
    (ht : (s.enter n role X h').SameShape t) (ha : t.heard h f e = some a) :
    ∀ X ∈ a.keys, (a.added = true ↔ t.Below f X) := by
  obtain ⟨k, q⟩ := n
  cases k with
  | item =>
    rw [heard_of_item (item?_currentMessage (Option.mem_toList.mp he))] at ha
    cases ha
  | scope =>
    cases role with
    | publisher => cases he
    | subscriber =>
      rcases List.mem_append.mp he with he | he
      · obtain ⟨p, -, he⟩ := List.mem_filterMap.mp (List.mem_reverse.mp he)
        rw [heard_of_item (item?_currentMessage he)] at ha
        cases ha
      · obtain ⟨c, -, he⟩ := List.mem_filterMap.mp (List.mem_reverse.mp he)
        rw [heard_notice he ha]
        refine truth_published fun X hX => ⟨c, ?_⟩
        exact (ht.mem_ids _ _).mpr (mem_getIDs.mp hX)

theorem Entered.announced (he : s.Entered h' n role X s') (hs : s.Inv lab)
    (hsub : s'.Subscribed h f) (haud : s'.Audible h f)
    (hkeep : (∃ c, f ∈ s.fatherScopes (.scope c)) → ∀ F ∈ s'.ids (.scope f), F ∈ s.ids (.scope f)) :
    ∃ es, s.Announced s' h f (s.Below f) es := by
  cases he with
  | @existing n role X hX hh =>
    have hshape := (enter_shape hX role h').trans
      (send_shape _ ((s.enter n role X h').entryMessages n role h'))
    refine ⟨_, rfl, fun e he a ha => ?_, fun X => Or.inl hshape.below.symm⟩
    exact truth_entryMessages he _ (send_shape _ _) ha
  | @root role X s₁ ha hX =>
    have hsh := enter_shape hX role h'
    have hnone : s.Announced ((s₁.enter (.scope s.next) role X h').send []) h f (s.Below f) [] := by
      refine ha.announced hs hsh ?_ (by rw [enter_out, ha.out]) ?_ ?_
      · exact fun hc F hF => hkeep hc F ((hsh.mem_ids _ _).mpr hF)
      · exact fun e he => nomatch he
      · exact fun X _ _ _ ho => nomatch ho
    exact ⟨[], hnone⟩
  | @newScope role X g s₁ t hP ha hX ht =>
    have hsh := enter_shape hX role h'
    rw [← ht] at hsh
    refine ⟨_, ha.announced hs hsh ?_ (by rw [ht, enter_out, ha.out]) ?_ ?_⟩
    · exact fun hc F hF => hkeep hc F ((hsh.mem_ids _ _).mpr hF)
    · intro e he a hh
      exact ⟨s.next, _, fun X hX => mem_getIDs.mp hX, mem_publicationNotice he hh⟩
    · intro Y hY _ hF ho _
      obtain rfl := Option.some.inj ho
      have hchild : g ∈ t.fatherScopes (.scope s.next) := by
        rw [hsh.fatherScopes, ha.fathers]
        exact Or.inr ⟨rfl, rfl⟩
      obtain ⟨e, he, hh⟩ := exists_publicationNotice (t := t) hsub (haud s.next hchild)
      exact ⟨e, he, _, hh, mem_keys_announcement.mpr ⟨mem_getIDs.mpr hY, hF⟩⟩
  | @linkedScope sc g X E s₁ t hE hP ha hnew hX ht =>
    have hsh := enter_shape hX .publisher h'
    rw [← ht] at hsh
    refine ⟨_, ha.announced hs hsh ?_ (by rw [ht, enter_out, ha.out]) ?_ ?_⟩
    · exact fun hc F hF => hkeep hc F ((hsh.mem_ids _ _).mpr hF)
    · intro e he a hh
      refine ⟨sc, _, fun X hX => ?_, mem_publicationNotice he hh⟩
      exact mem_getIDs.mp (Finset.mem_of_mem_erase hX)
    · intro Y hY hold hF ho _
      obtain rfl := Option.some.inj ho
      have hchild : g ∈ t.fatherScopes (.scope sc) := by
        rw [hsh.fatherScopes, ha.fathers]
        exact Or.inr ⟨rfl, rfl⟩
      -- The id that stays out of the event is an old one.
      have hne : Y ≠ E := fun h => hold (h ▸ hE)
      obtain ⟨e, he, hh⟩ := exists_publicationNotice (t := t) hsub (haud sc hchild)
      exact ⟨e, he, _, hh, mem_keys_announcement.mpr
        ⟨Finset.mem_erase.mpr ⟨hne, mem_getIDs.mpr hY⟩, hF⟩⟩
  | @newItem role X g s₁ t hP ha hX ht =>
    have hsh := enter_shape hX role h'
    rw [← ht] at hsh
    refine ⟨_, ha.announced hs hsh ?_ (by rw [ht, enter_out, ha.out]) ?_ ?_⟩
    · exact fun hc F hF => hkeep hc F ((hsh.mem_ids _ _).mpr hF)
    · intro e he a hh
      obtain ⟨p, hp⟩ := Option.ne_none_iff_exists'.mp (item?_newItemMessages he)
      rw [heard_of_item hp] at hh
      cases hh
    · rintro Y - - - - ⟨c, hc⟩
      cases hc
  | @linkedItem p g X s₁ t hE hP ha hnew hX ht =>
    have hsh := enter_shape hX .publisher h'
    rw [← ht] at hsh
    refine ⟨_, ha.announced hs hsh ?_ (by rw [ht, enter_out, ha.out]) ?_ ?_⟩
    · exact fun hc F hF => hkeep hc F ((hsh.mem_ids _ _).mpr hF)
    · intro e he a hh
      rw [heard_of_item (item?_currentMessage (Option.mem_toList.mp he))] at hh
      cases hh
    · rintro Y - - - - ⟨c, hc⟩
      cases hc

/-! ## Departures -/

theorem item?_current (he : e ∈ (s.currentMessage p).toList) : e.item? ≠ none := by
  rw [item?_currentMessage (Option.mem_toList.mp he)]
  nofun

theorem item?_leaveMessages (he : e ∈ s.leaveMessages sc role) : e.item? ≠ none := by
  cases role with
  | publisher => cases he
  | subscriber =>
    obtain ⟨p, -, he⟩ := List.mem_filterMap.mp (List.mem_reverse.mp he)
    exact item?_current (Option.mem_toList.mpr he)

theorem ItemPruned.messages (hp : s.ItemPruned p f role s') :
    ∃ es, s'.out = es ++ s.out ∧ ∀ e ∈ es, e.item? ≠ none := by
  cases hp with
  | unpublished _ => exact ⟨_, rfl, fun e he => item?_current he⟩
  | unsubscribed _ => exact ⟨_, rfl, fun e he => item?_current he⟩
  | deleted _ _ hd => exact ⟨[], hd.out, fun e he => nomatch he⟩
  | cut _ _ hd => exact ⟨_, by rw [send_out, hd.out], fun e he => item?_current he⟩
  | dropped _ hd => exact ⟨_, by rw [hd.out, send_out], fun e he => item?_current he⟩

/-- A departure from an item sends messages about items only. -/
theorem Left.item_messages (hl : s.Left h' (.item p) role X s') :
    ∃ es, s'.out = es ++ s.out ∧ ∀ e ∈ es, e.item? ≠ none := by
  cases hl with
  | item _ _ _ ht hp =>
    obtain ⟨es, hout, hes⟩ := hp.messages
    exact ⟨es, by rw [hout, ht, eraseHost_out], hes⟩

/-- No change hides ids below `f`: a sub-scope that stays elsewhere leaves `f` only when `f` has
one id, and `f` gets new ids only when it has no sub-scopes. -/
structure KeepsNames (f : Ptr) (s s' : LocalRV) : Prop where
  renamed : (∃ c, f ∈ s.fatherScopes (.scope c)) →
    ∀ F ∈ s'.ids (.scope f), F ∈ s.ids (.scope f)
  cut : ∀ c, f ∈ s.fatherScopes (.scope c) → ¬ f ∈ s'.fatherScopes (.scope c) →
    (∃ Y, Y ∈ s'.ids (.scope c)) → ∀ F ∈ s.ids (.scope f), ∀ F' ∈ s.ids (.scope f), F = F'

/-- The branch of a scope that goes is told to the subscribers of the father. -/
theorem Detached.announced (hd : (t.send (t.withdrawalNotice sc o X)).Detached (.scope sc) o s')
    (ht : t.Inv lab) (hb : t.IsBranch (.scope sc) o) (hin : t.InBranch o X)
    (hX : X ∈ t.ids (.scope sc)) (hc : t.Childless (.scope sc)) (hsub : t.Subscribed h f)
    (haud : t.Audible h f) (hkeep : KeepsNames f t s') :
    t.Announced s' h f (t.Below f) (t.withdrawalNotice sc o X) := by
  have hmem : ∀ {m Y}, Y ∈ s'.ids m ↔ Y ∈ t.ids m ∧ ¬ (m = .scope sc ∧ t.InBranch o Y) := hd.mem_ids _ _
  have hnode : t.nodeID = s'.nodeID := hd.nodeID.symm
  refine ⟨by rw [hd.out, send_out], fun e he a ha Y hY => ?_, fun Y => ?_⟩
  · cases o with
    | none => cases he
    | some g =>
      obtain rfl := heard_notice (Option.mem_toList.mp he) ha
      obtain ⟨hY, hF⟩ := mem_keys_announcement.mp hY
      have hgone : Y ∈ t.ids (.scope sc) ∧ t.InBranch (some g) Y := by
        split at hY
        · next hone =>
          have hY := mem_getIDs.mp hY
          refine ⟨hY, ht.inBranch_of_only hb (fun g' hg' => ?_) hY⟩
          rw [ListSet.eq_of_size_one _ g g' hone hb hg']
        · obtain rfl : Y = X := (Finset.mem_filter.mp hY).2
          exact ⟨hX, hin⟩
      simp only [announcement, reduceCtorEq, decide_false, Bool.false_eq_true, false_iff]
      rintro ⟨-, c, hc⟩
      obtain ⟨hc, hnot⟩ := hmem.mp hc
      exact hnot ⟨ht.owner_unique hc hgone.1, hgone.2⟩
  · by_cases hsame : t.Below f Y ↔ s'.Below f Y
    · exact Or.inl hsame
    -- Only an id of the branch can have gone, and the branch is the one to `f`.
    obtain ⟨hF, c, hY⟩ : t.Below f Y := by
      by_contra hnot
      exact hsame ⟨fun h => absurd h hnot, fun ⟨h1, c, h2⟩ => ⟨(hmem.mp h1).1, c, (hmem.mp h2).1⟩⟩
    have hlast := suffixOf_length (ht.ids_length hY)
    obtain ⟨hchild, hlab⟩ := ht.child_of_ext hlast hF (by rwa [fatherOf_append_suffixOf])
    have hF' : fatherOf Y ∈ s'.ids (.scope f) := hmem.mpr ⟨hF, fun hh => by
      cases hh.1
      exact hc rfl _ hchild⟩
    obtain ⟨hcsc, hinY⟩ : Node.scope c = .scope sc ∧ t.InBranch o Y := by
      by_contra hnot
      exact hsame ⟨fun _ => ⟨hF', c, hmem.mpr ⟨hY, hnot⟩⟩, fun _ => ⟨hF, c, hY⟩⟩
    cases hcsc
    cases o with
    | none => exact absurd hchild (hb f)
    | some g =>
      obtain ⟨⟩ := ht.owner_unique (hinY g rfl) hF
      obtain ⟨e, he, hh⟩ := exists_notice (t := t) (s := s') (h := h) (f := f) hnode
        (mem_getSubscribers.mpr hsub) fun hst => (haud sc hchild hst).trans hnode
      refine Or.inr ⟨e, Option.mem_toList.mpr he, _, hh, mem_keys_announcement.mpr ⟨?_, hF'⟩⟩
      split
      · exact mem_getIDs.mpr hY
      · next hmany =>
        refine Finset.mem_filter.mpr ⟨mem_getIDs.mpr hY, ?_⟩
        obtain ⟨g', hg', hne⟩ := ListSet.exists_ne_of_size _ f hmany hchild
        have hstays : g' ∈ s'.fatherScopes (.scope sc) :=
          (hd.fathers _ _).mpr ⟨hg', fun hh => hne (Option.some.inj hh.2).symm⟩
        have hleft : ¬ f ∈ s'.fatherScopes (.scope sc) := fun hf =>
          ((hd.fathers _ _).mp hf).2 ⟨rfl, rfl⟩
        have hfather := hkeep.cut sc hchild hleft ((hd.inv lab ((send_shape _ _).inv ht)).live hstays)
          _ hF _ (hin f rfl)
        rw [← fatherOf_append_suffixOf Y, ← fatherOf_append_suffixOf X, hfather, hlab.symm,
          ht.suffix _ _ hX]

/-- The scopes have the same ids, fathers and strategies. -/
structure SameScopes (s s' : LocalRV) : Prop where
  nodeID : s'.nodeID = s.nodeID
  strategy : s'.strategy = s.strategy
  fathers : ∀ p f, f ∈ s'.fatherScopes (.scope p) ↔ f ∈ s.fatherScopes (.scope p)
  mem_ids : ∀ p X, X ∈ s'.ids (.scope p) ↔ X ∈ s.ids (.scope p)

theorem SameShape.sameScopes (h : s.SameShape s') : s.SameScopes s' :=
  ⟨h.nodeID, h.strategy, fun _ _ => by rw [h.fatherScopes], fun _ => h.mem_ids _⟩

theorem KeepsScopes.sameScopes (h : KeepsScopes lab s s') : s.SameScopes s' :=
  ⟨h.nodeID, h.strategy, h.fathers, h.mem_ids⟩

namespace SameScopes

theorem below (h : s.SameScopes t) : t.Below f X ↔ s.Below f X :=
  and_congr (h.mem_ids _ _) (exists_congr fun _ => h.mem_ids _ _)

theorem audible (h : s.SameScopes t) (ha : s.Audible h' f) : t.Audible h' f := by
  intro c hc hst
  rw [h.nodeID]
  exact ha c ((h.fathers c f).mp hc) (h.strategy ▸ hst)

theorem keepsNames (h : s.SameScopes t) (hk : KeepsNames f s s') : KeepsNames f t s' where
  renamed := by
    rintro ⟨c, hc⟩ F hF
    exact (h.mem_ids f F).mpr (hk.renamed ⟨c, (h.fathers c f).mp hc⟩ F hF)
  cut c hc hc' hlive F hF F' hF' := hk.cut c ((h.fathers c f).mp hc) hc' hlive
    F ((h.mem_ids f F).mp hF) F' ((h.mem_ids f F').mp hF')

end SameScopes

theorem Announced.after_items (ha : t.Announced s' h f (t.Below f) es) (hsc : s.SameScopes t)
    (hout : t.out = es' ++ s.out) (hes : ∀ e ∈ es', e.item? ≠ none) :
    s.Announced s' h f (s.Below f) (es ++ es') where
  out := by rw [ha.out, hout, List.append_assoc]
  truth e he a hh := by
    rcases List.mem_append.mp he with he | he
    · exact ha.truth e he a hh
    · obtain ⟨p, hp⟩ := Option.ne_none_iff_exists'.mp (hes e he)
      rw [heard_of_item hp] at hh
      cases hh
  cover X := by
    refine (ha.cover X).imp hsc.below.symm.trans ?_
    rintro ⟨e, he, hX⟩
    exact ⟨e, List.mem_append_left _ he, hX⟩

theorem Left.announced (hl : s.Left h' n role X s') (hs : s.Inv lab) (hsub : s'.Subscribed h f)
    (haud : s.Audible h f) (hkeep : KeepsNames f s s') :
    ∃ es, s.Announced s' h f (s.Below f) es := by
  have hkind := hl
  cases hl with
  | @item p g role X t s' _ _ _ _ _ =>
    obtain ⟨es, hout, hes⟩ := hkind.item_messages
    refine ⟨es, announced_of_items hout hes fun Y => ?_⟩
    have hids : ∀ {c Z}, Z ∈ s'.ids (.scope c) ↔ Z ∈ s.ids (.scope c) :=
      hkind.mem_ids_of_ne (fun he => by cases he)
    exact (and_congr hids (exists_congr fun _ => hids)).symm
  | @scope sc o role X t s' hb hin hh ht hp =>
    have hshape : s.SameShape t := ht ▸ eraseHost_shape (mem_of_pairAt hh) _ _ _
    have hshape := hshape.trans (send_shape t (t.leaveMessages sc role))
    have hout : (t.send (t.leaveMessages sc role)).out = t.leaveMessages sc role ++ s.out := by
      rw [send_out, ht, eraseHost_out]
    have hes : ∀ e ∈ t.leaveMessages sc role, e.item? ≠ none := fun e he => item?_leaveMessages he
    cases hp with
    | kept _ => exact ⟨_, announced_of_items hout hes fun Y => hshape.below.symm⟩
    | gone _ hc hd =>
      refine ⟨_, Announced.after_items (hd.announced (hshape.inv hs) ?_ ?_ ?_ hc ?_ ?_ ?_)
        hshape.sameScopes hout hes⟩
      · exact hshape.isBranch.mpr hb
      · exact hshape.inBranch.mpr hin
      · exact (hshape.mem_ids _ _).mpr (mem_of_pairAt hh)
      · obtain ⟨Y, hY⟩ := hsub
        exact ⟨Y, by rwa [hd.pairAt] at hY⟩
      · exact hshape.sameScopes.audible haud
      · exact hshape.sameScopes.keepsNames hkeep

/-! ## Requests -/

theorem ItemsWithdrawn.messages (hw : ItemsWithdrawn h' sc s s') :
    ∃ es, s'.out = es ++ s.out ∧ ∀ e ∈ es, e.item? ≠ none := by
  induction hw with
  | refl => exact ⟨[], rfl, fun e he => nomatch he⟩
  | tail _ hstep ih =>
    obtain ⟨es, hout, hes⟩ := ih
    obtain ⟨p, X, -, -, -, hl⟩ := hstep
    obtain ⟨es', hout', hes'⟩ := hl.item_messages
    refine ⟨es' ++ es, by rw [hout', hout, List.append_assoc], fun e he => ?_⟩
    rcases List.mem_append.mp he with he | he
    · exact hes' e he
    · exact hes e he

theorem Effect.announced (he : Effect s h' r code s') (hs : s.Inv lab) (hsub : s'.Subscribed h f)
    (haud : s.Audible h f) (haud' : s'.Audible h f) (hkeep : KeepsNames f s s') :
    ∃ es, s.Announced s' h f (s.Below f) es := by
  cases he with
  | refused _ => exact ⟨[], announced_of_items rfl (fun e he => nomatch he) fun _ => Iff.rfl⟩
  | entered _ he =>
    obtain ⟨p, he, -⟩ := he
    exact he.announced hs hsub haud' hkeep.renamed
  | left _ _ hl =>
    obtain ⟨p, hl, -⟩ := hl
    exact hl.announced hs hsub haud hkeep
  | unpublished _ _ _ hw hl =>
    have hk := hw.keepsScopes hs
    obtain ⟨es', hout, hes⟩ := hw.messages
    obtain ⟨es, ha⟩ := hl.announced hk.inv hsub (hk.sameScopes.audible haud)
      (hk.sameScopes.keepsNames hkeep)
    exact ⟨_, ha.after_items hk.sameScopes hout hes⟩
  | onlyItems _ _ _ hw _ =>
    obtain ⟨es, hout, hes⟩ := hw.messages
    exact ⟨es, announced_of_items hout hes fun _ => (hw.keepsScopes hs).sameScopes.below.symm⟩

/-! ## The first subscription -/

theorem Attached.not_below_fresh (ha : s.Attached n o s₁) (hs : s.Inv lab)
    (hP : ∀ g, o = some g → ∃ F, F ∈ s.ids (.scope g)) : ¬ s₁.Below s.next X := by
  rintro ⟨hF, c, hc⟩
  obtain ⟨lab₁, hs₁⟩ := ha.inv
  obtain ⟨hchild, -⟩ := hs₁.child_of_ext (suffixOf_length (hs₁.ids_length hc)) hF
    (by rwa [fatherOf_append_suffixOf])
  rcases (ha.fathers _ _).mp hchild with hchild | ⟨-, ho⟩
  · obtain ⟨F, hF⟩ := hs.father_live _ _ hchild
    exact hs.fresh_ids hF
  · obtain ⟨F, hF⟩ := hP _ ho
    exact hs.fresh_ids hF

theorem Entered.announced_first (he : s.Entered h' n role X s') (hs : s.Inv lab)
    (hnot : ¬ s.Subscribed h f) (hsub : s'.Subscribed h f) (haud : s'.Audible h f) :
    ∃ es, s.Announced s' h f (fun _ => False) es := by
  obtain ⟨Y, hY⟩ := hsub
  obtain ⟨hn, -, hr, rfl⟩ : .scope f = n ∧ Y = X ∧ .subscriber = role ∧ h = h' :=
    ((he.mem_pairAt hs).mp hY).resolve_right fun hY => hnot ⟨Y, hY⟩
  cases he with
  | @existing n role X hX hh =>
    subst hn hr
    refine ⟨_, rfl, fun e he a ha => truth_entryMessages he _ (send_shape _ _) ha, fun Z => ?_⟩
    let t := s.enter (.scope f) .subscriber X h
    have hshape : s.SameShape t := enter_shape hX .subscriber h
    by_cases hZ : (t.send (t.entryMessages (.scope f) .subscriber h)).Below f Z
    swap
    · exact Or.inl (iff_of_false id hZ)
    obtain ⟨hF, c, hc⟩ := hZ
    have ht := hshape.inv hs
    obtain ⟨hchild, -⟩ := ht.child_of_ext (suffixOf_length (ht.ids_length hc)) hF
      (by rwa [fatherOf_append_suffixOf])
    have hmem : c ∈ (t.childrenScopes f).toList := (ht.child_iff (.scope c) f).mpr hchild
    obtain ⟨e, he, hh⟩ : ∃ e, t.subscopeNotice h c = some e ∧ t.heard h f e =
        some (t.announcement f .scopePublished (t.getIDs (.scope c))) :=
      exists_notice rfl (Finset.mem_singleton_self h) (haud c hchild)
    refine Or.inr ⟨e, List.mem_append_right _ (List.mem_reverse.mpr ?_),
      t.announcement f .scopePublished (t.getIDs (.scope c)), heard_send.trans hh,
      mem_keys_announcement.mpr ⟨mem_getIDs.mpr hc, hF⟩⟩
    exact List.mem_filterMap.mpr ⟨c, hmem, he⟩
  | @root role X s₁ ha hX =>
    cases hn
    have hshape := enter_shape hX role h
    refine ⟨[], announced_of_items (by rw [enter_out, ha.out]; rfl) (fun e he => nomatch he) fun Z => ?_⟩
    rw [hshape.below]
    exact iff_of_false id (ha.not_below_fresh hs nofun)
  | @newScope role X g s₁ t hP ha hX ht =>
    cases hn
    have hshape : s₁.SameShape t := ht ▸ enter_shape hX role h
    refine ⟨t.publicationNotice s.next g (t.getIDs (.scope s.next)), ?_, fun e he a hh => ?_,
      fun Z => Or.inl ?_⟩
    · rw [send_out, ht, enter_out, ha.out]
    · rw [heard_send] at hh
      rw [mem_publicationNotice he hh]
      exact truth_published fun X hX => ⟨s.next, mem_getIDs.mp hX⟩
    · rw [(hshape.trans (send_shape _ _)).below]
      refine iff_of_false id (ha.not_below_fresh hs ?_)
      rintro g' ⟨⟩
      exact ⟨_, hP⟩
  | linkedScope => cases hr
  | newItem => cases hn
  | linkedItem => cases hr

theorem Effect.announced_first (he : Effect s h' r code s') (hs : s.Inv lab)
    (hnot : ¬ s.Subscribed h f) (hsub : s'.Subscribed h f) (haud : s'.Audible h f) :
    ∃ es, s.Announced s' h f (fun _ => False) es := by
  have hleft : ∀ {s s' : LocalRV} {n role X}, s.Left h' n role X s' → s'.Subscribed h f →
      s.Subscribed h f := fun hl ⟨Y, hY⟩ => ⟨Y, (hl.mem_pairAt.mp hY).1⟩
  have hitems : ∀ {sc s₁}, ItemsWithdrawn h' sc s s₁ → ¬ s₁.Subscribed h f := by
    rintro sc s₁ hw ⟨Y, hY⟩
    rw [(hw.keepsScopes hs).pairAt] at hY
    exact hnot ⟨Y, hY⟩
  cases he with
  | refused _ => exact absurd hsub hnot
  | entered _ he =>
    obtain ⟨p, he, -⟩ := he
    exact he.announced_first hs hnot hsub haud
  | left _ _ hl =>
    obtain ⟨p, hl, -⟩ := hl
    exact absurd (hleft hl hsub) hnot
  | unpublished _ _ _ hw hl => exact absurd (hleft hl hsub) (hitems hw)
  | onlyItems _ _ _ hw _ => exact absurd hsub (hitems hw)

/-! ## Runs -/

/-- One more request while `h` stays subscribed to `f`, with its view. -/
def Watch (h : NodeId) (f : Ptr) (x : LocalRV × Finset Id) (a : NodeId × Request)
    (x' : LocalRV × Finset Id) : Prop :=
  x.1.Step a x'.1 ∧ x'.1.Subscribed h f ∧ x'.2 = x.1.view x'.1 h f x.2

/-- A request after which `h` can still hear of all sub-scopes, and that hides no ids. -/
def WatchTold (h : NodeId) (f : Ptr) (x : LocalRV × Finset Id) (a : NodeId × Request)
    (x' : LocalRV × Finset Id) : Prop :=
  Watch h f x a x' ∧ x'.1.Audible h f ∧ KeepsNames f x.1 x'.1

theorem Inv.below_iff (hs : s.Inv lab) : s.Below f X ↔
    (∃ F ∈ s.ids (.scope f), ∃ x, x.length = pursuitIdLen ∧ X = F ++ x) ∧
      ∃ c, s.scopeIndex X = some c := by
  constructor
  · rintro ⟨hF, c, hc⟩
    refine ⟨⟨_, hF, suffixOf X, ?_, (fatherOf_append_suffixOf X).symm⟩, c, hs.index_of_mem hc⟩
    exact suffixOf_length (hs.ids_length hc)
  · rintro ⟨⟨F, hF, x, hx, rfl⟩, c, hc⟩
    exact ⟨by rwa [fatherOf_append hx], c, hs.of_index hc⟩

/-- The view of a subscriber of `f`, from its first subscription on, is the set of ids right below
`f`, as long as it can hear of all sub-scopes and no request hides ids below `f`. -/
theorem view_matches {b : NodeId × Request} {V : Finset Id} (hs₀ : s₀.Reachable)
    (hstep : s₀.Step b s₁) (hnot : ¬ s₀.Subscribed h f) (hsub : s₁.Subscribed h f)
    (haud : s₁.Audible h f)
    (hrun : Runs.Reachable (WatchTold h f) (s₁, s₀.view s₁ h f ∅) (s, V)) (X : Id) :
    X ∈ V ↔ (∃ F ∈ s.ids (.scope f), ∃ x, x.length = pursuitIdLen ∧ X = F ++ x) ∧
      ∃ c, s.scopeIndex X = some c := by
  obtain ⟨nodeID, hs₀⟩ := hs₀
  have hinv := hrun.invariant (I := fun x => Runs.Reachable Step (init nodeID) x.1 ∧
    x.1.Audible h f ∧ ∀ X, X ∈ x.2 ↔ x.1.Below f X) ?_ ?_
  · obtain ⟨lab, hs⟩ := inv_of_run hinv.1
    exact (hinv.2.2 X).trans hs.below_iff
  · obtain ⟨lab, hs⟩ := inv_of_run hs₀
    obtain ⟨code, he⟩ := hstep.effect hs
    obtain ⟨es, ha⟩ := he.announced_first hs hnot hsub haud
    exact ⟨hs₀.next hstep, haud, fun X => ha.view fun X => by simp⟩
  · rintro ⟨s, V⟩ a ⟨s', V'⟩ - ⟨hreach, haud, hV⟩ ⟨⟨hstep, hsub, hview⟩, haud', hkeep⟩
    obtain ⟨lab, hs⟩ := inv_of_run hreach
    obtain ⟨code, he⟩ := hstep.effect hs
    obtain ⟨es, ha⟩ := he.announced hs hsub haud haud' hkeep
    refine ⟨hreach.next hstep, haud', fun X => ?_⟩
    rw [hview]
    exact ha.view hV

theorem keepsNames_of_childless (hc : ∀ c, ¬ f ∈ s.fatherScopes (.scope c)) : KeepsNames f s s' where
  renamed := fun ⟨c, hf⟩ => absurd hf (hc c)
  cut c hf := absurd hf (hc c)

theorem watch_step {a : NodeId × Request} (hstep : s.Step a s') (hsub : s'.Subscribed h f)
    (V : Finset Id) : Watch h f (s, V) a (s', s.view s' h f V) := ⟨hstep, hsub, rfl⟩

/-- A root scope, to which the local node subscribes. -/
def rootRun : List (NodeId × Request) := [([1], ⟨.publishScope, frag 1, [], domainLocal⟩)]

def rootSubscription : NodeId × Request := ([0], ⟨.subscribeScope, frag 1, [], domainLocal⟩)

def subscopePublication : NodeId × Request := ([1], ⟨.publishScope, frag 2, frag 1, domainLocal⟩)

theorem view_matches_root : ∃ (s : LocalRV) (V : Finset Id), frag 1 ++ frag 2 ∈ V ∧ ∀ X, X ∈ V ↔
    (∃ F ∈ s.ids (.scope 0), ∃ x, x.length = pursuitIdLen ∧ X = F ++ x) ∧
      ∃ c, s.scopeIndex X = some c := by
  have hr : ∀ a ∈ rootRun, a.2.WellFormed := by decide
  have hr₁ : ∀ a ∈ rootRun ++ [rootSubscription], a.2.WellFormed := by decide
  have hsub := step_afterRun 1 [0] rootRun rootSubscription (by decide) (by decide)
  have hpub := step_afterRun 1 [0] (rootRun ++ [rootSubscription]) subscopePublication
    (by decide) (by decide)
  have hchildless : ∀ c, ¬ 0 ∈ (afterRun 1 [0] (rootRun ++ [rootSubscription])).fatherScopes
      (.scope c) := fun c hc => by
    obtain ⟨lab, hs⟩ := (reachable_afterRun 1 [0] hr₁).inv
    exact ListSet.not_mem_empty _ ((hs.child_iff (.scope c) 0).mpr hc)
  have hlast := view_matches (reachable_afterRun 1 [0] hr) hsub (by decide : ¬ Subscribed _ [0] 0)
    (by decide) (fun _ _ _ => rfl)
    (.next .start ⟨watch_step hpub (by decide) _, fun _ _ _ => rfl, keepsNames_of_childless hchildless⟩)
  exact ⟨_, _, by decide, hlast⟩

/-- An inner scope, to which host [2] subscribes. -/
def innerRun : List (NodeId × Request) :=
  [([1], ⟨.publishScope, frag 1, [], domainLocal⟩),
    ([1], ⟨.publishScope, frag 2, frag 1, domainLocal⟩),
    ([1], ⟨.publishScope, frag 4, [], domainLocal⟩)]

def innerSubscription : NodeId × Request := ([2], ⟨.subscribeScope, frag 2, frag 1, domainLocal⟩)

/-- A sub-scope appears below the inner scope, and the inner scope below another root scope. -/
def innerPublication : NodeId × Request :=
  ([1], ⟨.publishScope, frag 3, frag 1 ++ frag 2, domainLocal⟩)

def innerRepublication : NodeId × Request :=
  ([1], ⟨.publishScope, frag 1 ++ frag 2, frag 4, domainLocal⟩)

/-- Host [2] is not told the new id of the sub-scope. -/
theorem view_misses_new_ids : ¬ ∀ (s₀ s₁ s : LocalRV) (b : NodeId × Request) (h : NodeId) (f : Ptr)
    (V : Finset Id), s₀.Reachable → s₀.Step b s₁ → ¬ s₀.Subscribed h f → s₁.Subscribed h f →
    Runs.Reachable (Watch h f) (s₁, s₀.view s₁ h f ∅) (s, V) → ∀ X, X ∈ V ↔
      (∃ F ∈ s.ids (.scope f), ∃ x, x.length = pursuitIdLen ∧ X = F ++ x) ∧
        ∃ c, s.scopeIndex X = some c := by
  intro hall
  have hr : ∀ a ∈ innerRun, a.2.WellFormed := by decide
  have hsub := step_afterRun 3 [0] innerRun innerSubscription (by decide) (by decide)
  have hpub := step_afterRun 3 [0] (innerRun ++ [innerSubscription]) innerPublication
    (by decide) (by decide)
  have hrep := step_afterRun 3 [0] (innerRun ++ [innerSubscription] ++ [innerPublication])
    innerRepublication (by decide) (by decide)
  have hmiss := hall _ _ _ _ [2] 1 _ (reachable_afterRun 3 [0] hr) hsub (by decide) (by decide)
    ((Runs.Reachable.start.next (watch_step hpub (by decide) _)).next
      (watch_step hrep (by decide) _)) (frag 4 ++ frag 2 ++ frag 3)
  have hin := hmiss.mpr ⟨⟨frag 4 ++ frag 2, by decide, frag 3, by decide, rfl⟩, 3, by decide⟩
  exact absurd hin (by decide)

end LocalRV

end Blackadder
