import Blackadder.Lib.Runs
import Blackadder.Proxy.Disconnect

/-!
# Runs of the proxy
-/

namespace Blackadder

namespace LocalProxy

/-- What arrives at the proxy. A publication of an element to the notification id is a
`localNotification`. -/
inductive Input
  | request (type : HostType) (host : HostId) (r : Request)
  /-- A request of no known type only makes the host known. -/
  | unknown (type : HostType) (host : HostId)
  /-- The orders are those in which the two sets of the host are walked. -/
  | disconnect (type : HostType) (host : HostId) (pubOrder subOrder : List Id)
  | publication (type : HostType) (host : HostId) (ID : Id) (strategy : Strategy) (FID : Bitvector)
      (payload : List UInt8)
  | network (IDs : List Id) (payload : List UInt8)
  | notification (n : Notification)
  | localNotification (type : HostType) (host : HostId) (n : Notification)

/-- `push`. -/
def push (s : LocalProxy) : Input → Result (LocalProxy × List ProxyOutput)
  | .request type host r => return s.pushRequest type host r
  | .unknown type host => return (s.getLocalHost type host, [])
  | .disconnect type host pubOrder subOrder => s.disconnect pubOrder subOrder type host
  | .publication type host ID strategy FID payload =>
    return s.pushData type host ID strategy FID payload
  | .network IDs payload => return (s, s.handleNetworkPublication IDs payload)
  | .notification n => return s.handleRVNotification n
  | .localNotification type host n => return (s.getLocalHost type host).handleRVNotification n

/-- Ids are read in whole fragments, and sets are walked as a whole. -/
def Allowed (s : LocalProxy) : Input → Prop
  | .request _ _ r => r.Whole
  | .disconnect _ host pubOrder subOrder => s.Walks host pubOrder subOrder
  | _ => True

/-- One input with what it makes the proxy send. -/
def Step (s : LocalProxy) (a : Input × List ProxyOutput) (s' : LocalProxy) : Prop :=
  s.Allowed a.1 ∧ s.push a.1 = .ok (s', a.2)

/-- A host that leaves has no scope under the empty id, which the loops would miss. -/
def Orderly (s : LocalProxy) : Input → Prop
  | .disconnect _ host _ _ => s.Clear host
  | _ => True

/-- The states of the runs in which no such scope is left behind. -/
def Reachable (s : LocalProxy) : Prop :=
  ∃ gc, Runs.Reachable (Runs.Guarded Step fun s a => s.Orderly a.1) (init gc) s

/-- The requests of an input are those that the client library lets through. -/
def Input.Accepted : Input → Prop
  | .request _ _ r => r.Accepted
  | _ => True

variable {s s' : LocalProxy} {host h : HostId} {X : Id} {k : Key} {r : Request}
  {type : HostType} {ap ap' : ActivePublication} {outs : List ProxyOutput} {i : Input}
  {IDs l : List Id} {FID RVFID : Bitvector}

/-! ## Notifications leave the tables -/

theorem table_setPublication_same (hX : s.activePublicationIndex X = some ap)
    (hview : pubView ap' = pubView ap) : (s.setPublication X (some ap')).table = s.table := by
  rw [table_setPublication, Option.map_some, hview]
  have hentry : s.table.entry (.publisher, X) = some (pubView ap) := by simp [hX]
  rw [← hentry, Function.update_eq_self]

theorem table_startCheck (IDs : List Id) (FID : Bitvector) (l : List Id) :
    (startCheck IDs FID s l).2.table = s.table := by
  induction l generalizing s with
  | nil => rfl
  | cons X l ih =>
    unfold startCheck
    split
    · exact ih
    · next ap hX =>
      have hset : (s.setPublication X (some
          { ap with allKnownIDs := IDs, FIDToSubscribers := FID })).table = s.table :=
        table_setPublication_same hX rfl
      split
      · exact hset
      · exact ih.trans hset

theorem table_startNotify (l : List Id) : (startNotify s l).1.table = s.table := by
  induction l generalizing s with
  | nil => rfl
  | cons X l ih =>
    unfold startNotify
    split
    · exact ih
    · next ap hX =>
      split
      · exact ih
      · exact table_setPublication_same hX (pubView_startFirst X ap)

theorem table_handleStartPublish (IDs : List Id) (FID : Bitvector) :
    (s.handleStartPublish IDs FID).1.table = s.table := by
  have hcheck := table_startCheck (s := s) IDs FID IDs
  unfold handleStartPublish
  split
  · next t ht =>
    rw [ht] at hcheck
    exact hcheck
  · next t ht =>
    rw [ht] at hcheck
    exact (table_startNotify IDs).trans hcheck

theorem keys_stopPublishers (X : Id) (publishers : PublisherHashMap) :
    (stopPublishers X publishers).1.keys = publishers.keys := by
  unfold stopPublishers
  refine List.foldlRecOn publishers.keys _ (motive := fun (acc : PublisherHashMap × List ProxyOutput) =>
    acc.1.keys = publishers.keys) rfl
    fun acc hacc host _ => ?_
  split
  · rw [AList.keys_replace, hacc]
  · exact hacc

theorem table_handleStopPublish (IDs : List Id) : (s.handleStopPublish IDs).1.table = s.table := by
  unfold handleStopPublish
  refine List.foldlRecOn IDs _ (motive := fun (acc : LocalProxy × List ProxyOutput) =>
    acc.1.table = s.table) rfl
    fun acc hacc X _ => ?_
  split
  · exact hacc
  · next ap hX =>
    refine (table_setPublication_same hX ?_).trans hacc
    simp only [pubView, keys_stopPublishers]

theorem table_handleRVNotification (n : Notification) :
    (s.handleRVNotification n).1.table = s.table := by
  cases n with
  | scopePublished IDs => rfl
  | scopeUnpublished IDs => rfl
  | startPublish IDs FID => exact table_handleStartPublish IDs FID
  | stopPublish IDs => exact table_handleStopPublish IDs
  | updateBA RVFID TMFID => rfl

/-! ## What an input does to the tables -/

/-- A host joins an entry, leaves one or leaves all, or the tables stay. -/
inductive Moves (s : LocalProxy) : Input → Table → Prop
  | same (i : Input) : Moves s i s.table
  | join {type : HostType} {host : HostId} {r : Request} (RVFID : Bitvector)
      (hacc : accepts (keyOf r).1 r.strategy = true) :
      Moves s (.request type host r) (s.table.join (keyOf r) host (attrOf r RVFID))
  | leave (type : HostType) (host : HostId) (r : Request) :
      Moves s (.request type host r) (s.table.leave (keyOf r) host)
  | drop (type : HostType) (host : HostId) (pubOrder subOrder : List Id) :
      Moves s (.disconnect type host pubOrder subOrder) (s.table.drop host)

theorem Moves.same_of_eq {T : Table} (ht : T = s.table) : s.Moves i T := ht ▸ .same i

/-- What holds of all that requests register holds of all entries. -/
theorem Moves.attrs {P : Key → Attr → Prop} {T : Table} (hm : s.Moves i T)
    (hreq : ∀ type host r RVFID, i = .request type host r →
      accepts (keyOf r).1 r.strategy = true → P (keyOf r) (attrOf r RVFID))
    (hP : s.table.Attrs P) : T.Attrs P := by
  cases hm with
  | same => exact hP
  | @join type host r RVFID hacc => exact hP.join host (hreq type host r RVFID rfl hacc)
  | leave type host r => exact hP.leave (keyOf r) host
  | drop type host => exact hP.drop host

theorem Moves.linked {T : Table} (hm : s.Moves i T) (hl : s.table.Linked) : T.Linked := by
  cases hm with
  | same => exact hl
  | @join type host r RVFID hacc => exact hl.join (keyOf r) host (attrOf r RVFID)
  | leave type host r => exact hl.leave (keyOf r) host
  | drop type host => exact hl.drop host

/-! ## The invariant -/

theorem Sound.of_table (hs : s.Sound) (ht : s'.table = s.table) : s'.Sound where
  linked := ht ▸ hs.linked
  keyed := ht ▸ hs.keyed
  accepted := ht ▸ hs.accepted
  whole := ht ▸ hs.whole

theorem Moves.sound (hm : s.Moves i s'.table) (hs : s.Sound) (hi : s.Allowed i) : s'.Sound where
  linked := hm.linked hs.linked
  keyed := hm.attrs (fun _ _ _ _ _ _ => rfl) hs.keyed
  accepted := hm.attrs (fun _ _ _ _ _ hacc => hacc) hs.accepted
  whole := by
    refine hm.attrs (fun type host r RVFID heq _ => ?_) hs.whole
    subst heq
    exact Request.Whole.fullID_dvd hi

theorem Moves.named (hm : s.Moves i s'.table) (hs : s.Named) (hi : s.Allowed i) (ha : i.Accepted) :
    s'.Named where
  toSound := hm.sound hs.toSound hi
  named := by
    refine hm.attrs (fun type host r RVFID heq _ => ?_) hs.named
    subst heq
    exact Request.Accepted.fullID_length ha

theorem named_init (gc : GlobalConf) : (init gc).Named := by
  have htable : (init gc).table = Roster.empty := by
    refine Roster.ext' (fun k => ?_) fun h k => ?_
    · obtain ⟨_ | _, X⟩ := k <;> rfl
    · obtain ⟨_ | _, X⟩ := k <;>
        simp [init, publicationsOf, subscriptionsOf, Roster.empty]
  have hattrs : ∀ P : Key → Attr → Prop, (init gc).table.Attrs P := by
    intro P
    rw [htable]
    intro k a ms he
    cases he
  exact {
    linked := htable ▸ Roster.linked_empty
    keyed := hattrs _
    accepted := hattrs _
    whole := hattrs _
    named := hattrs _ }

theorem sound_init (gc : GlobalConf) : (init gc).Sound := (named_init gc).toSound

theorem Sound.accepted_of_entryAt (hs : s.Sound) {e : Entry} (he : s.entryAt k = some e) :
    accepts k.1 e.attr.strategy = true :=
  hs.accepted k e.attr e.hosts (by rw [table_entry, he]; rfl)

theorem Served.moves {b : Bool} (hserved : Served s host r RVFID b s') (hs : s.Sound) :
    s.Moves (.request type host r) s'.table := by
  unfold Served at hserved
  split at hserved
  · cases hserved with
    | refused => exact .same _
    | created hacc _ _ ht => exact ht ▸ .join RVFID hacc
    | joined hsome hst _ ht =>
      have hacc := hs.accepted_of_entryAt hsome
      rw [hst] at hacc
      exact ht ▸ .join RVFID hacc
  · cases hserved with
    | refused => exact .same _
    | last _ _ _ _ ht => exact ht ▸ .leave type host r
    | others _ _ _ _ ht => exact ht ▸ .leave type host r

theorem moves_congr {T : Table} (hm : s.Moves i T) (ht : s.table = s'.table) : s'.Moves i T := by
  cases hm with
  | same => exact .same_of_eq ht
  | join RVFID hacc => exact ht ▸ .join RVFID hacc
  | leave type host r => exact ht ▸ .leave type host r
  | drop type host pubOrder subOrder => exact ht ▸ .drop type host pubOrder subOrder

/-- The FID over which a request of a strategy is sent. -/
def rendezvousFID (gc : GlobalConf) (strategy : Strategy) : Bitvector :=
  if strategy = domainLocal then gc.defaultRVdl else 0

theorem pushRequest_spec (s : LocalProxy) (type : HostType) (host : HostId) (r : Request) :
    ∃ forward s', Served (s.getLocalHost type host) host r (rendezvousFID s.gc r.strategy) forward s' ∧
      s.pushRequest type host r =
        (s', if forward then [.toRV (rendezvousFID s.gc r.strategy) r] else []) := by
  have hserved := handleLocalRequest_spec (getLocalHost_ne_none s type host) r
    (rendezvousFID s.gc r.strategy)
  have hfid : (if r.strategy = domainLocal then s.gc.defaultRVdl else 0) =
      rendezvousFID s.gc r.strategy := rfl
  refine ⟨_, _, hserved, ?_⟩
  simp only [pushRequest, getLocalHost_gc, hfid]
  cases (s.getLocalHost type host).handleLocalRequest r.type host r.ID r.prefixID r.strategy
      (rendezvousFID s.gc r.strategy) with
  | mk forward t => cases forward <;> rfl

theorem pushData_fst (ID : Id) (strategy : Strategy) (FID : Bitvector) (payload : List UInt8) :
    (s.pushData type host ID strategy FID payload).1 = s.getLocalHost type host := by
  unfold pushData
  split
  · rfl
  · split <;> rfl

/-- An output that carries data. -/
def IsData : ProxyOutput → Prop
  | .deliver _ _ _ => True
  | .publish _ _ _ => True
  | _ => False

theorem deliver_data {α : Type} {l : List α} {f : α → HostId} {g : α → Id} {payload : List UInt8} :
    ∀ o ∈ l.map (fun e => ProxyOutput.deliver (f e) (g e) payload), IsData o := by
  intro o ho
  obtain ⟨e, -, rfl⟩ := List.mem_map.mp ho
  exact True.intro

theorem handleNetworkPublication_data {payload : List UInt8} :
    ∀ o ∈ s.handleNetworkPublication IDs payload, IsData o := deliver_data

theorem publish_data {c : Prop} [Decidable c] {payload : List UInt8} (houts : ∀ o ∈ outs, IsData o) :
    ∀ o ∈ (if c then outs else .publish IDs FID payload :: outs), IsData o := by
  split
  · exact houts
  · rintro o (_ | ⟨_, ho⟩)
    · exact True.intro
    · exact houts o ho

theorem pushData_data {ID : Id} {strategy : Strategy} {payload : List UInt8} :
    ∀ o ∈ (s.pushData type host ID strategy FID payload).2, IsData o := by
  have hFID : ∀ FID, ∀ o ∈ (s.getLocalHost type host).handleUserPublicationFID ID FID payload host,
      IsData o := by
    intro FID
    unfold handleUserPublicationFID
    dsimp only
    rw [← ite_not]
    exact publish_data deliver_data
  have hplain : ∀ o ∈ (s.getLocalHost type host).handleUserPublication ID payload host,
      IsData o := by
    unfold handleUserPublication
    dsimp only
    split
    · exact publish_data deliver_data
    · split
      · exact publish_data deliver_data
      · exact fun o ho => nomatch ho
  unfold pushData
  dsimp only
  split_ifs
  · exact hFID _
  · exact hFID _
  · exact hplain

/-- In a sound state every input is answered. -/
theorem push_moves (hs : s.Sound) (hi : s.Allowed i) (ho : s.Orderly i) :
    ∃ s' outs, s.push i = .ok (s', outs) ∧ s.Moves i s'.table := by
  have hhost : ∀ type host, (s.getLocalHost type host).table = s.table :=
    fun type host => table_getLocalHost type host
  cases i with
  | request type host r =>
    obtain ⟨forward, s', hserved, hrun⟩ := pushRequest_spec s type host r
    exact ⟨_, _, congrArg Except.ok hrun,
      moves_congr (hserved.moves (hs.of_table (hhost type host))) (hhost type host)⟩
  | unknown type host => exact ⟨_, _, rfl, .same_of_eq (hhost type host)⟩
  | disconnect type host pubOrder subOrder =>
    obtain ⟨s', keys, hrun, -, -, hin, hout, hhosts, -⟩ := disconnect_spec hs ho hi type
    refine ⟨_, _, hrun, ?_⟩
    rw [table_disconnect hs hin hout hhosts]
    exact .drop type host pubOrder subOrder
  | publication type host ID strategy FID payload =>
    refine ⟨(s.pushData type host ID strategy FID payload).1, _, rfl, .same_of_eq ?_⟩
    rw [pushData_fst]
    exact hhost type host
  | network IDs payload => exact ⟨_, _, rfl, .same _⟩
  | notification n => exact ⟨_, _, rfl, .same_of_eq (table_handleRVNotification n)⟩
  | localNotification type host n =>
    exact ⟨_, _, rfl, .same_of_eq ((table_handleRVNotification n).trans (hhost type host))⟩

theorem Step.moves {a : Input × List ProxyOutput} (h : s.Step a s') (hs : s.Sound)
    (ho : s.Orderly a.1) : s.Moves a.1 s'.table := by
  obtain ⟨t, outs, hrun, hm⟩ := push_moves hs h.1 ho
  obtain ⟨rfl, -⟩ := Prod.mk.inj (Except.ok.inj (hrun.symm.trans h.2))
  exact hm

theorem Step.sound {a : Input × List ProxyOutput} (h : s.Step a s') (hs : s.Sound)
    (ho : s.Orderly a.1) : s'.Sound :=
  (h.moves hs ho).sound hs h.1

theorem Named.orderly (hs : s.Named) (i : Input) : s.Orderly i := by
  cases i with
  | disconnect type host pubOrder subOrder => exact hs.clear host
  | request | unknown | publication | network | notification | localNotification => exact True.intro

theorem Step.named {a : Input × List ProxyOutput} (h : s.Step a s') (hs : s.Named)
    (ha : a.1.Accepted) : s'.Named :=
  (h.moves hs.toSound (hs.orderly a.1)).named hs h.1 ha

/-- In the runs of the client library no entry is stored under the empty id. -/
theorem named_of_run {gc : GlobalConf}
    (h : Runs.Reachable (Runs.Guarded Step fun _ a => a.1.Accepted) (init gc) s) : s.Named :=
  h.invariant (named_init gc) fun _ _ _ _ hs hstep => hstep.1.named hs hstep.2

theorem Reachable.sound (h : s.Reachable) : s.Sound := by
  obtain ⟨gc, h⟩ := h
  exact h.invariant (sound_init gc) fun _ _ _ _ hs hstep => hstep.1.sound hs hstep.2

theorem Reachable.request (hs : s.Reachable) (type : HostType) (host : HostId) (hr : r.Whole) :
    (s.pushRequest type host r).1.Reachable := by
  obtain ⟨gc, hs⟩ := hs
  exact ⟨gc, hs.next (a := (.request type host r, (s.pushRequest type host r).2))
    ⟨⟨hr, rfl⟩, True.intro⟩⟩

theorem Reachable.notification (hs : s.Reachable) (n : Notification) :
    (s.handleRVNotification n).1.Reachable := by
  obtain ⟨gc, hs⟩ := hs
  exact ⟨gc, hs.next (a := (.notification n, (s.handleRVNotification n).2))
    ⟨⟨True.intro, rfl⟩, True.intro⟩⟩

theorem reachable_init (gc : GlobalConf) : (init gc).Reachable := ⟨gc, .start⟩

/-! ## Consistency of the four maps -/

theorem Sound.publication (hs : s.Sound) (hX : s.activePublicationIndex X = some ap) :
    ap.fullID = X ∧ ap.publishers.keys ≠ [] := by
  have he : s.table.entry (.publisher, X) = some (pubView ap) := by simp [hX]
  refine ⟨hs.keyed _ _ _ he, fun hnil => ?_⟩
  exact (hs.linked.nonempty _ _ _ he).ne_empty (keys_eq_nil.mp hnil)

theorem Sound.subscription (hs : s.Sound) {sub : ActiveSubscription}
    (hX : s.activeSubscriptionIndex X = some sub) : sub.fullID = X ∧ sub.subscribers.size ≠ 0 := by
  have he : s.table.entry (.subscriber, X) = some (subView sub) := by simp [hX]
  refine ⟨hs.keyed _ _ _ he, fun hzero => ?_⟩
  exact (hs.linked.nonempty _ _ _ he).ne_empty ((size_eq_zero_iff _).mp hzero)

/-- The scope under the empty id keeps the host, and nothing else does. -/
theorem left_behind_iff (hs : s.Sound)
    (hhas : ∀ k, s'.table.Has k host ↔ s.table.Has k host ∧ ¬ s.Met host k) :
    ((∀ X ap, s'.activePublicationIndex X = some ap → host ∉ ap.publishers) ∧
      ∀ X sub, s'.activeSubscriptionIndex X = some sub → ¬ host ∈ sub.subscribers) ↔
      s.Clear host := by
  have hgone : (∀ k, ¬ s'.table.Has k host) ↔ s.Clear host := by
    rw [clear_iff hs]
    refine forall_congr' fun k => ?_
    rw [hhas, hs.linked.mem_keysOf, not_and, not_not]
  rw [← hgone]
  constructor
  · rintro ⟨hpub, hsub⟩ ⟨_ | _, X⟩ hk
    · obtain ⟨ap, hX, hmem⟩ := has_publisher.mp hk
      exact hpub X ap hX hmem
    · obtain ⟨sub, hX, hmem⟩ := has_subscriber.mp hk
      exact hsub X sub hX hmem
  · intro hnone
    exact ⟨fun X ap hX hmem => hnone (.publisher, X) (has_publisher.mpr ⟨ap, hX, hmem⟩),
      fun X sub hX hmem => hnone (.subscriber, X) (has_subscriber.mpr ⟨sub, hX, hmem⟩)⟩

/-- The maps of the proxy agree in every run whose disconnections leave no scope under the empty id
behind. A disconnection finds all that it looks up and leaves the other hosts alone, and it takes
all traces of the host away exactly if the host has no such scope. -/
theorem maps_consistent (hs : s.Reachable) :
    (∀ host X, X ∈ s.publicationsOf host ↔
      ∃ ap, s.activePublicationIndex X = some ap ∧ host ∈ ap.publishers) ∧
    (∀ host X, X ∈ s.subscriptionsOf host ↔
      ∃ sub, s.activeSubscriptionIndex X = some sub ∧ host ∈ sub.subscribers) ∧
    (∀ X ap, s.activePublicationIndex X = some ap → ap.fullID = X ∧ ap.publishers.keys ≠ []) ∧
    (∀ X sub, s.activeSubscriptionIndex X = some sub → sub.fullID = X ∧ sub.subscribers.size ≠ 0) ∧
    ∀ type host pubOrder subOrder, s.Walks host pubOrder subOrder →
      ∃ s' outs, s.disconnect pubOrder subOrder type host = .ok (s', outs) ∧
        s'.localPubSubIndex host = none ∧
        (∀ h ≠ host, s'.localPubSubIndex h = s.localPubSubIndex h) ∧
        (∀ h ≠ host, ∀ k, s'.table.Has k h ↔ s.table.Has k h) ∧
        (((∀ X ap, s'.activePublicationIndex X = some ap → host ∉ ap.publishers) ∧
          ∀ X sub, s'.activeSubscriptionIndex X = some sub → ¬ host ∈ sub.subscribers) ↔
          s.Clear host) := by
  have hsound := hs.sound
  refine ⟨fun host X => ?_, fun host X => ?_, fun X ap hX => hsound.publication hX,
    fun X sub hX => hsound.subscription hX, fun type host pubOrder subOrder hw => ?_⟩
  · rw [← has_publisher, ← mem_keysOf_publisher]
    exact hsound.linked.mem_keysOf host _
  · rw [← has_subscriber, ← mem_keysOf_subscriber]
    exact hsound.linked.mem_keysOf host _
  · obtain ⟨s', keys, hrun, -, -, hin, hout, hhosts, -⟩ := disconnect_met hsound hw type
    refine ⟨s', _, hrun, ?_, ?_, ?_, left_behind_iff hsound fun k => ?_⟩
    · simp [hhosts]
    · intro h hne
      simp [hhosts, hne]
    · intro h hne k
      rw [has_disconnect hin hout]
      simp [hne]
    · rw [has_disconnect hin hout]
      simp

/-- A configuration for runs on fixed inputs. -/
def exampleConf : GlobalConf := ⟨true, frag 0, 0, 0, none⟩

/-- Two applications that publish one scope. -/
def sharedScope : LocalProxy :=
  let r : Request := ⟨.publishScope, frag 1, [], domainLocal⟩
  (((init exampleConf).pushRequest .localProcess 1 r).1.pushRequest .localProcess 2 r).1

theorem reachable_sharedScope : sharedScope.Reachable :=
  ((reachable_init exampleConf).request .localProcess 1 (by decide)).request .localProcess 2
    (by decide)

theorem maps_consistent_sharedScope :
    (∃ ap, sharedScope.activePublicationIndex (frag 1) = some ap ∧ 1 ∈ ap.publishers) ∧
    ∃ s' outs, sharedScope.disconnect [frag 1] [] .localProcess 1 = .ok (s', outs) ∧
      s'.localPubSubIndex 1 = none ∧ s'.table.Has (.publisher, frag 1) 2 ∧
      ∀ X ap, s'.activePublicationIndex X = some ap → 1 ∉ ap.publishers := by
  obtain ⟨hpub, -, -, -, hdisc⟩ := maps_consistent reachable_sharedScope
  obtain ⟨s', outs, hrun, hnone, -, hothers, hgone⟩ := hdisc .localProcess 1 [frag 1] []
    ⟨by decide, by decide, by decide, by decide⟩
  refine ⟨(hpub 1 (frag 1)).mp (by decide), s', outs, hrun, hnone, ?_,
    (hgone.mpr ⟨nofun, nofun⟩).1⟩
  exact (hothers 2 (by decide) _).mpr (has_publisher.mpr ((hpub 2 (frag 1)).mp (by decide)))

/-- An application that published a scope under the empty id. -/
def emptyScope : LocalProxy :=
  ((init exampleConf).pushRequest .localProcess 1 ⟨.publishScope, [], [], domainLocal⟩).1

theorem reachable_emptyScope : emptyScope.Reachable :=
  (reachable_init exampleConf).request .localProcess 1 (by decide)

/-- The application disconnects, and the scope keeps it. -/
theorem maps_inconsistent :
    ∃ (s s' : LocalProxy) (outs : List ProxyOutput) (ap : ActivePublication),
      s.Reachable ∧ s.Walks 1 [[]] [] ∧
      s.disconnect [[]] [] .localProcess 1 = .ok (s', outs) ∧ s'.localPubSubIndex 1 = none ∧
      s'.activePublicationIndex [] = some ap ∧ 1 ∈ ap.publishers ∧ [] ∉ s'.publicationsOf 1 :=
  ⟨emptyScope, _, _, _, reachable_emptyScope, ⟨by decide, by decide, by decide, by decide⟩, rfl, rfl,
    rfl, by decide, by decide⟩

end LocalProxy

end Blackadder
