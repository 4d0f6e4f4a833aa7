import Blackadder.Api.Requests

/-!
# The request pipeline

From a call of the client library to the registration at the rendezvous element.
-/

namespace Blackadder

open Wire

namespace LocalProxy

/-! ## What a run keeps -/

variable {s s' : LocalProxy} {host : HostId} {X : Id} {k : Key} {r : Request} {type : HostType}
  {i : Input} {outs : List ProxyOutput} {IDs l : List Id} {FID : Bitvector}

theorem gc_handleLocalRequest (type : RequestType) (host : HostId) (ID P : Id) (strategy : Strategy)
    (RVFID : Bitvector) : (s.handleLocalRequest type host ID P strategy RVFID).2.gc = s.gc := by
  unfold handleLocalRequest
  cases type with
  | publishScope | publishInfo =>
    dsimp only
    unfold storeActivePublication
    split
    · split
      · rfl
      · split <;> rfl
    · rfl
  | unpublishScope | unpublishInfo =>
    dsimp only
    unfold removeActivePublication
    split
    · split
      · rfl
      · split
        · dsimp only
          split <;> rfl
        · rfl
    · rfl
  | subscribeScope | subscribeInfo =>
    dsimp only
    unfold storeActiveSubscription
    split
    · rfl
    · split <;> rfl
  | unsubscribeScope | unsubscribeInfo =>
    dsimp only
    unfold removeActiveSubscription
    split
    · rfl
    · split
      · dsimp only
        split <;> rfl
      · rfl

theorem gc_startCheck : (startCheck IDs FID s l).2.gc = s.gc := by
  induction l generalizing s with
  | nil => rfl
  | cons X l ih =>
    unfold startCheck
    split
    · exact ih
    · split
      · rfl
      · exact ih

theorem gc_startNotify : (startNotify s l).1.gc = s.gc := by
  induction l generalizing s with
  | nil => rfl
  | cons X l ih =>
    unfold startNotify
    split
    · exact ih
    · split
      · exact ih
      · rfl

theorem gc_handleStopPublish : (s.handleStopPublish IDs).1.gc = s.gc := by
  unfold handleStopPublish
  refine List.foldlRecOn IDs _ (motive := fun (acc : LocalProxy × List ProxyOutput) =>
    acc.1.gc = s.gc) rfl fun acc hacc X _ => ?_
  split <;> exact hacc

/-- A notification may replace forwarding identifiers, but not the label of the node. -/
theorem nodeID_handleRVNotification (n : Notification) :
    (s.handleRVNotification n).1.gc.nodeID = s.gc.nodeID := by
  cases n with
  | scopePublished IDs => rfl
  | scopeUnpublished IDs => rfl
  | startPublish IDs FID =>
    have hcheck : (startCheck IDs FID s IDs).2.gc = s.gc := gc_startCheck
    refine congrArg GlobalConf.nodeID ?_
    simp only [handleRVNotification]
    unfold handleStartPublish
    split
    · next t ht =>
      rw [ht] at hcheck
      exact hcheck
    · next t ht =>
      rw [ht] at hcheck
      exact gc_startNotify.trans hcheck
  | stopPublish IDs => exact congrArg GlobalConf.nodeID gc_handleStopPublish
  | updateBA RVFID TMFID => rfl

theorem gc_pushRequest : (s.pushRequest type host r).1.gc = s.gc := by
  have hgc := gc_handleLocalRequest (s := s.getLocalHost type host) r.type host r.ID r.prefixID
    r.strategy (rendezvousFID s.gc r.strategy)
  rw [getLocalHost_gc] at hgc
  have hfid : (if r.strategy = domainLocal then s.gc.defaultRVdl else 0) =
      rendezvousFID s.gc r.strategy := rfl
  simp only [pushRequest, getLocalHost_gc, hfid]
  cases hrun : (s.getLocalHost type host).handleLocalRequest r.type host r.ID r.prefixID r.strategy
      (rendezvousFID s.gc r.strategy) with
  | mk forward t =>
    rw [hrun] at hgc
    cases forward <;> exact hgc

theorem Step.nodeID {a : Input × List ProxyOutput} (h : s.Step a s') (hs : s.Sound) :
    s'.gc.nodeID = s.gc.nodeID := by
  obtain ⟨i, outs⟩ := a
  obtain ⟨hallowed, hrun⟩ := h
  cases i with
  | request type host r =>
    have hfst : (s.pushRequest type host r).1 = s' := congrArg Prod.fst (Except.ok.inj hrun)
    rw [← hfst, gc_pushRequest]
  | unknown type host =>
    have hfst : s.getLocalHost type host = s' := congrArg Prod.fst (Except.ok.inj hrun)
    rw [← hfst, getLocalHost_gc]
  | disconnect type host pubOrder subOrder =>
    obtain ⟨t, keys, hrun', -, -, -, -, -, hgc⟩ := disconnect_met hs hallowed type
    obtain ⟨rfl, -⟩ := Prod.mk.inj (Except.ok.inj (hrun.symm.trans hrun'))
    rw [hgc]
  | publication type host ID strategy FID payload =>
    have hfst : (s.pushData type host ID strategy FID payload).1 = s' :=
      congrArg Prod.fst (Except.ok.inj hrun)
    rw [← hfst, pushData_fst, getLocalHost_gc]
  | network IDs payload =>
    have hfst : s = s' := congrArg Prod.fst (Except.ok.inj hrun)
    rw [hfst]
  | notification n =>
    have hfst : (s.handleRVNotification n).1 = s' := congrArg Prod.fst (Except.ok.inj hrun)
    rw [← hfst, nodeID_handleRVNotification]
  | localNotification type host n =>
    have hfst : ((s.getLocalHost type host).handleRVNotification n).1 = s' :=
      congrArg Prod.fst (Except.ok.inj hrun)
    rw [← hfst, nodeID_handleRVNotification, getLocalHost_gc]

/-- What a disconnection sends to the rendezvous element withdraws the id of an entry. -/
theorem Entry.left_toRV {e : Entry} {RVFID : Bitvector} {r : Request}
    (h : .toRV RVFID r ∈ (e.left host).2) :
    ∃ t, r = LocalProxy.withdrawal t e.attr.fullID e.attr.strategy := by
  cases e with
  | inl ap =>
    change _ ∈ (publicationLeft _ host ap).2 at h
    unfold publicationLeft at h
    dsimp only at h
    split at h
    · exact ⟨_, toRV_eq_sendToRV (List.mem_singleton.mp h)⟩
    · split at h
      · unfold startFirst at h
        split at h
        · cases h
        · cases List.mem_singleton.mp h
      · cases h
  | inr sub =>
    change _ ∈ (subscriptionLeft _ host sub).2 at h
    unfold subscriptionLeft at h
    dsimp only at h
    split at h
    · dsimp only at h
      split at h
      · cases h
      · exact ⟨_, toRV_eq_sendToRV (List.mem_singleton.mp h)⟩
    · cases h

end LocalProxy

/-! ## Arrival -/

theorem lookup_foldl_insert {l : List HostId} {found : LocalProxy.LocalHostStringHashMap} {host : HostId}
    {ID : Id} (h : host ∈ l ∨ found.lookup host = some ID) :
    (l.foldl (fun found host => found.insert host ID) found).lookup host = some ID := by
  induction l generalizing found with
  | nil => simpa using h
  | cons first l ih =>
    refine ih ?_
    by_cases hfirst : host = first
    · subst hfirst
      exact Or.inr (AList.lookup_insert found)
    · rw [AList.lookup_insert_ne hfirst]
      simpa [hfirst] using h

/-- The rendezvous element gets what is published under its scope. -/
theorem deliver_rvElement {s : LocalProxy} {sub : ActiveSubscription} {gc : GlobalConf}
    (hgc : gc.nodeID.length = nodeIDLen)
    (hsub : s.activeSubscriptionIndex GlobalConf.RVScope = some sub) (hmem : rvElement ∈ sub.subscribers)
    (payload : List UInt8) :
    .deliver rvElement gc.nodeRVScope payload ∈
      s.handleNetworkPublication [gc.nodeRVScope] payload := by
  have hfather : fatherOf gc.nodeRVScope = GlobalConf.RVScope := fatherOf_append hgc
  have hfound : (s.findLocalSubscribers [gc.nodeRVScope]).lookup rvElement = some gc.nodeRVScope := by
    simp only [LocalProxy.findLocalSubscribers, List.foldl_cons, List.foldl_nil, hfather]
    rw [LocalProxy.addSubscribers, hsub]
    exact lookup_foldl_insert (Or.inl hmem)
  exact List.mem_map.mpr ⟨⟨rvElement, gc.nodeRVScope⟩, AList.mem_lookup_iff.mp hfound, rfl⟩

/-- A packet of the node of `gc` comes to the rendezvous element as the request: the element is
on port 1, or behind the network and the proxy of another node. -/
def Arrives (gc : GlobalConf) (r : Request) (RVFID : Bitvector) (sent : LocalProxy.Sent) : Prop :=
  (sent.port = 1 ∧ LocalRV.Reads sent.packet gc.nodeID r) ∨
  (sent.port = 2 ∧ ∃ q payload, sent.packet = RVFID.data ++ q ∧
    (∀ gcR, LocalProxy.readNetwork gcR q = some (some (.network [gc.nodeRVScope] payload))) ∧
    (∀ (remote : LocalProxy) sub, remote.activeSubscriptionIndex GlobalConf.RVScope = some sub →
      rvElement ∈ sub.subscribers → .deliver rvElement gc.nodeRVScope payload ∈
        remote.handleNetworkPublication [gc.nodeRVScope] payload) ∧
    ∀ fresh, ∃ event, LocalProxy.pushDataToLocalSubscriber fresh 1 gc.nodeRVScope payload =
      some ⟨1, event⟩ ∧ LocalRV.Reads event gc.nodeID r)

variable {gc : GlobalConf} {r : Request} {strOpt : List UInt8} {s s' : LocalProxy} {rv rv' : LocalRV}
  {host : HostId} {RVFID : Bitvector} {X : Id}

theorem arrives (hgc : gc.nodeID.length = nodeIDLen) (hID : Sendable r.ID)
    (hpre : Sendable r.prefixID) (RVFID : Bitvector) (post : List UInt8) :
    Arrives gc r RVFID ⟨rvPort gc RVFID, rvHeader gc RVFID ++ (r.bytes ++ post)⟩ := by
  have hreads : LocalRV.Reads (eventBytes gc.nodeRVScope (r.bytes ++ post)) gc.nodeID r :=
    reads_event hgc hID hpre
  unfold Arrives rvPort rvHeader
  split
  · exact Or.inl ⟨rfl, by simpa [eventBytes] using hreads⟩
  · refine Or.inr ⟨rfl, [1] ++ idBytes gc.nodeRVScope ++ (r.bytes ++ post), r.bytes ++ post,
      by simp, fun gcR => readNetwork_request hgc gcR _,
      fun remote sub hsub hmem => deliver_rvElement hgc hsub hmem _, fun fresh => ⟨_, ?_, hreads⟩⟩
    rw [LocalProxy.pushDataToLocalSubscriber, pushEvent_eq]
    rfl

/-! ## Registration -/

/-- The proxy has a new entry under an id, and the rendezvous element has registered the node
under the same id and nothing else. -/
structure Registered (s s' : LocalProxy) (rv rv' : LocalRV) (host : HostId) (r : Request) (X : Id) :
    Prop where
  stored : ∃ e, s'.entryAt (r.type.role, X) = some e ∧ e.attr.fullID = X ∧ host ∈ e.hosts
  others : ∀ k ≠ (r.type.role, X), s'.entryAt k = s.entryAt k
  paired : ∃ p, rv'.index r.type.kind X = some p ∧
    s.gc.nodeID ∈ rv'.pairAt ⟨r.type.kind, p⟩ X r.type.role
  recorded : ∀ h role k Y, Y ∈ rv'.record h role k ↔
    (k = r.type.kind ∧ Y = X ∧ role = r.type.role ∧ h = s.gc.nodeID) ∨ Y ∈ rv.record h role k

/-- The proxy has given up its entry under an id, and the rendezvous element the record of it. -/
structure Withdrawn (s s' : LocalProxy) (rv rv' : LocalRV) (r : Request) (X : Id) : Prop where
  stored : ∃ e, s.entryAt (r.type.role, X) = some e ∧ e.attr.fullID = X
  gone : s'.entryAt (r.type.role, X) = none
  others : ∀ k ≠ (r.type.role, X), s'.entryAt k = s.entryAt k
  recorded : X ∈ rv.record s.gc.nodeID r.type.role r.type.kind
  dropped : ∀ k, X ∉ rv'.record s.gc.nodeID r.type.role k

theorem attr_fullID_of_entryAt (hs : s.Sound) {k : LocalProxy.Key} {e : LocalProxy.Entry}
    (he : s.entryAt k = some e) : e.attr.fullID = k.2 :=
  hs.keyed k e.attr e.hosts (by rw [LocalProxy.table_entry, he]; rfl)

/-- A withdrawal that succeeds ends a registration that was recorded. -/
theorem LocalRV.Effect.was_recorded {lab : Node → Id} {h : NodeId}
    (he : LocalRV.Effect rv h r .success rv') (hinv : rv.Inv lab) (hrv : rv.RecordsAgree)
    (hent : r.type.enters = false) : r.fullID ∈ rv.record h r.type.role r.type.kind := by
  cases he with
  | refused hc => exact absurd rfl hc
  | entered ht _ => exact absurd ht (by simp [hent])
  | left _ _ hl =>
    obtain ⟨p, hl, -⟩ := hl
    exact (hrv _ _ _ _).mpr ⟨p, hl.mem⟩
  | @unpublished sc rv₁ _ ht _ _ hw hl =>
    have hmem := hl.mem
    rw [(hw.keepsScopes hinv).pairAt] at hmem
    rw [ht]
    exact (hrv _ _ _ _).mpr ⟨sc, hmem⟩

theorem new_attr (k : LocalProxy.Key) (host : HostId) (a : LocalProxy.Attr) :
    (LocalProxy.Entry.new k host a).attr = a ∧ host ∈ (LocalProxy.Entry.new k host a).hosts := by
  obtain ⟨_ | _, X⟩ := k
  · refine ⟨rfl, List.mem_toFinset.mpr (AList.mem_keys.mpr ?_)⟩
    simp [LocalProxy.findInsert]
  · refine ⟨rfl, List.mem_toFinset.mpr ?_⟩
    simp

/-- The id of a successful request is the same for the proxy and the rendezvous element. -/
theorem same_id (hs : s.Sound) (hr : r.Accepted) (hrv : rv.Reachable) {fuel : Nat}
    (hsent : .toRV RVFID r ∈ (s.pushRequest .localProcess host r).2)
    (hrun : LocalRV.handle fuel rv s.gc.nodeID r = .ok (.success, rv')) :
    ∃ X, if r.type.enters then Registered s (s.pushRequest .localProcess host r).1 rv rv' host r X
      else Withdrawn s (s.pushRequest .localProcess host r).1 rv rv' r X := by
  obtain ⟨lab, hinv⟩ := hrv.inv
  have hstep : rv.Step (s.gc.nodeID, r) rv' := ⟨hr.toWellFormed, fuel, _, hrun⟩
  have hagree := LocalRV.recordsAgree_of_reachable hrv
  have hagree' := LocalRV.recordsAgree_of_reachable (hrv.next hstep)
  obtain ⟨lab', hinv'⟩ := (hrv.next hstep).inv
  have he := LocalRV.handle_effect hinv hr.toWellFormed hrun
  obtain ⟨forward, t, hserved, hpush⟩ := LocalProxy.pushRequest_spec s .localProcess host r
  rw [hpush] at hsent ⊢
  obtain rfl : forward = true := by
    cases forward
    · simp at hsent
    · rfl
  unfold LocalProxy.Served at hserved
  refine ⟨r.fullID, ?_⟩
  split
  · next hent =>
    rw [if_pos hent] at hserved
    generalize hforward : true = b at hserved
    cases hserved with
    | refused => cases hforward
    | joined => cases hforward
    | created _ _ hentry _ =>
      rw [LocalProxy.entryAt_getLocalHost] at hentry
      have hrec : ∀ h role k Y, Y ∈ rv'.record h role k ↔
          (k = r.type.kind ∧ Y = r.fullID ∧ role = r.type.role ∧ h = s.gc.nodeID) ∨
            Y ∈ rv.record h role k := by
        intro h role k Y
        cases he with
        | refused hc => exact absurd rfl hc
        | entered _ he =>
          obtain ⟨p, he, -⟩ := he
          exact he.mem_record hinv
        | left ht => exact absurd hent (by simp [ht])
        | unpublished ht => exact absurd hent (by simp [ht, RequestType.enters])
      obtain ⟨hattr, hhost⟩ := new_attr (LocalProxy.keyOf r) host
        (LocalProxy.attrOf r (LocalProxy.rendezvousFID s.gc r.strategy))
      obtain ⟨p, hp⟩ := (hagree' _ _ _ _).mp ((hrec s.gc.nodeID r.type.role r.type.kind
        r.fullID).mpr (Or.inl ⟨rfl, rfl, rfl, rfl⟩))
      refine ⟨⟨_, ?_, congrArg LocalProxy.Attr.fullID hattr, hhost⟩, fun k hk => ?_,
        ⟨p, hinv'.index_of_mem (n := ⟨r.type.kind, p⟩) (LocalRV.mem_of_pairAt hp), hp⟩, hrec⟩
      · rw [hentry]
        exact Function.update_self _ _ _
      · rw [hentry]
        exact Function.update_of_ne hk _ _
  · next hent =>
    rw [if_neg hent] at hserved
    generalize hforward : true = b at hserved
    cases hserved with
    | refused => cases hforward
    | others => cases hforward
    | @last _ e hsome _ _ hentry _ =>
      rw [LocalProxy.entryAt_getLocalHost] at hentry hsome
      refine ⟨⟨e, hsome, attr_fullID_of_entryAt hs hsome⟩, ?_, fun k hk => ?_,
        he.was_recorded hinv hagree (by simpa using hent), fun k hk => ?_⟩
      · rw [hentry]
        exact Function.update_self _ _ _
      · rw [hentry]
        exact Function.update_of_ne hk _ _
      · exact hent ((he.settled hinv hinv' hagree hagree').mp hk).1

/-! ## The whole way -/

/-- The ids of a request come with their lengths in single bytes. -/
def LocalProxy.Input.Carried : LocalProxy.Input → Prop
  | .request _ _ r => Sendable r.ID ∧ Sendable r.prefixID
  | _ => True

/-- The runs of a proxy whose requests came in packets of the client library. -/
def LocalProxy.CarriedRun (gc : GlobalConf) (s : LocalProxy) : Prop :=
  Runs.Reachable (Runs.Guarded LocalProxy.Step fun _ a => a.1.Accepted ∧ a.1.Carried)
    (LocalProxy.init gc) s

theorem LocalProxy.CarriedRun.named (h : s.CarriedRun gc) : s.Named :=
  LocalProxy.named_of_run (h.mono fun _ _ _ hstep => ⟨hstep.1, hstep.2.1⟩)

theorem LocalProxy.CarriedRun.nodeID (h : s.CarriedRun gc) : s.gc.nodeID = gc.nodeID :=
  h.invariant (I := fun t => t.gc.nodeID = gc.nodeID) rfl fun _ _ _ hrun ih hstep =>
    (hstep.1.nodeID (LocalProxy.CarriedRun.named hrun).toSound).trans ih

/-- An id in the tables has a prefix that a byte can count. -/
theorem LocalProxy.CarriedRun.length (h : s.CarriedRun gc) :
    s.table.Attrs fun k _ => k.2.length ≤ 256 * pursuitIdLen := by
  refine h.invariant (I := fun t => t.table.Attrs fun k _ => k.2.length ≤ 256 * pursuitIdLen)
    ?_ fun t a t' hrun ih hstep => ?_
  · intro k a ms he
    obtain ⟨_ | _, X⟩ := k <;> cases he
  · have hs : t.Named := LocalProxy.CarriedRun.named hrun
    refine (hstep.1.moves hs.toSound (hs.orderly a.1)).attrs (fun type host r RVFID ha _ => ?_) ih
    have hcarried : a.1.Carried := hstep.2.2
    rw [ha] at hcarried
    have hpre := hcarried.2.length
    show (r.prefixID ++ suffixOf r.ID).length ≤ _
    simp only [List.length_append, suffixOf, List.length_drop, pursuitIdLen] at *
    omega

/-- The withdrawal of an id that is stored is split after the prefix. -/
theorem withdrawal_spec {X : Id} (hlen : pursuitIdLen ≤ X.length) (hdvd : pursuitIdLen ∣ X.length)
    (hle : X.length ≤ 256 * pursuitIdLen) (t : RequestType) (strategy : Strategy) :
    (LocalProxy.withdrawal t X strategy).prefixID ++ (LocalProxy.withdrawal t X strategy).ID = X ∧
      Sendable (LocalProxy.withdrawal t X strategy).ID ∧
      Sendable (LocalProxy.withdrawal t X strategy).prefixID ∧
      fragments (LocalProxy.withdrawal t X strategy).ID = 1 := by
  have hID : (suffixOf X).length = pursuitIdLen := suffixOf_length hlen
  have hpre : (fatherOf X).length = X.length - pursuitIdLen := by
    rw [fatherOf, List.length_take]
    omega
  refine ⟨fatherOf_append_suffixOf X, ⟨?_, ?_⟩, ⟨?_, ?_⟩, ?_⟩ <;> simp only [LocalProxy.withdrawal]
  · rw [hID]
  · rw [hID]
    decide
  · rw [hpre]
    exact Nat.dvd_sub hdvd (Nat.dvd_refl _)
  · rw [hpre]
    omega
  · rw [fragments, hID]
    rfl

/-- A request withdraws an id that the proxy has, and gets to the rendezvous element. -/
structure Withdraws (s : LocalProxy) (RVFID : Bitvector) (w : Request) : Prop where
  stored : ∃ k e, s.entryAt k = some e ∧ e.attr.fullID = w.prefixID ++ w.ID
  sent : ∀ fresh, ∃ sent, LocalProxy.createAndSendPacketToRV fresh s.gc w.type.code 1 w.ID
    (fragments w.prefixID) w.prefixID RVFID w.strategy = some sent ∧ Arrives s.gc w RVFID sent

theorem disconnect_withdraws (hgc : gc.nodeID.length = nodeIDLen) (h : s.CarriedRun gc) {type : HostType}
    {pubOrder subOrder : List Id} (hw : s.Walks host pubOrder subOrder) :
    ∃ s' outs, s.disconnect pubOrder subOrder type host = .ok (s', outs) ∧
      ∀ RVFID w, .toRV RVFID w ∈ outs → Withdraws s RVFID w := by
  have hs := h.named
  have hgc' : s.gc.nodeID.length = nodeIDLen := h.nodeID ▸ hgc
  obtain ⟨s', keys, hrun, -, -, -, -, -, -⟩ := LocalProxy.disconnect_met hs.toSound hw type
  refine ⟨s', _, hrun, fun RVFID w hout => ?_⟩
  obtain ⟨k, -, hout⟩ := List.mem_flatMap.mp hout
  unfold LocalProxy.departure at hout
  split at hout
  · cases hout
  · next e he =>
    obtain ⟨t, rfl⟩ := LocalProxy.Entry.left_toRV hout
    have hentry : s.table.entry k = some (e.attr, e.hosts) := by
      rw [LocalProxy.table_entry, he]
      rfl
    rw [attr_fullID_of_entryAt hs.toSound he]
    obtain ⟨happend, hID, hpre, hone⟩ := withdrawal_spec (hs.named k _ _ hentry)
      (hs.whole k _ _ hentry) (h.length k _ _ hentry) t e.attr.strategy
    refine ⟨⟨k, e, he, (attr_fullID_of_entryAt hs.toSound he).trans happend.symm⟩, fun fresh => ⟨_, ?_,
      arrives hgc' hID hpre RVFID []⟩⟩
    rw [← hone, createAndSendPacketToRV_eq hgc' hID hpre, List.append_nil]
    rfl

/-- A request that the library sends gets to the rendezvous element as it is, over both transports,
and both sides know it under one id. So do the requests that a disconnection sends. -/
theorem request_pipeline (hgc : gc.nodeID.length = nodeIDLen) (hs : s.CarriedRun gc) :
    (∀ pid r strOpt datagram, Library.send pid r strOpt = .ok datagram →
      r.ID.length ≤ 255 * pursuitIdLen → r.prefixID.length ≤ 255 * pursuitIdLen →
      (∀ host pubOrder subOrder, LocalProxy.readLocal s.gc .localProcess host pubOrder subOrder
        (FromNetlink.selected datagram) = some (some (.request .localProcess host r))) ∧
      (∀ RVFID fresh, ∃ sent, LocalProxy.publishReqToRV fresh s.gc (FromNetlink.selected datagram)
        RVFID = some sent ∧ Arrives s.gc r RVFID sent) ∧
      ∀ host RVFID rv fuel rv', .toRV RVFID r ∈ (s.pushRequest .localProcess host r).2 →
        rv.Reachable → LocalRV.handle fuel rv s.gc.nodeID r = .ok (.success, rv') →
        ∃ X, if r.type.enters then
            Registered s (s.pushRequest .localProcess host r).1 rv rv' host r X
          else Withdrawn s (s.pushRequest .localProcess host r).1 rv rv' r X) ∧
    ∀ type host pubOrder subOrder, s.Walks host pubOrder subOrder →
      ∃ s' outs, s.disconnect pubOrder subOrder type host = .ok (s', outs) ∧
        ∀ RVFID w, .toRV RVFID w ∈ outs → Withdraws s RVFID w := by
  have hgc' : s.gc.nodeID.length = nodeIDLen := hs.nodeID ▸ hgc
  refine ⟨fun pid r strOpt datagram hsend hIDlen hprefixlen => ?_,
    fun type host pubOrder subOrder hw => disconnect_withdraws hgc hs hw⟩
  obtain ⟨hr, rfl⟩ := send_ok_iff.mp hsend
  have hID : Sendable r.ID := ⟨hr.ID, hIDlen⟩
  have hpre : Sendable r.prefixID := ⟨hr.prefixID, hprefixlen⟩
  rw [selected_createAndSendBuffers]
  refine ⟨fun host pubOrder subOrder => readLocal_request hID hpre _ _ _ _,
    fun RVFID fresh => ⟨_, publishReqToRV_eq hgc' _ _, arrives hgc' hID hpre RVFID strOpt⟩,
    fun host RVFID rv fuel rv' hsent hrv hrun => same_id hs.named.toSound hr hrv hsent hrun⟩

/-- A request for an item, at a node that is its own rendezvous point. -/
def itemRequest : Request := ⟨.publishInfo, frag 2, frag 1, domainLocal⟩

/-- The rendezvous element of the node of `sharedScope`. -/
def sharedRV : LocalRV := LocalRV.afterRun 1 (frag 0) [(frag 0, ⟨.publishScope, frag 1, [], domainLocal⟩)]

theorem LocalProxy.CarriedRun.request (h : s.CarriedRun gc) (type : HostType) (host : HostId)
    (hwhole : r.Whole) (hr : r.Accepted) (hID : Sendable r.ID) (hpre : Sendable r.prefixID) :
    (s.pushRequest type host r).1.CarriedRun gc :=
  Runs.Reachable.next h (a := (.request type host r, (s.pushRequest type host r).2))
    ⟨⟨hwhole, rfl⟩, hr, hID, hpre⟩

theorem carriedRun_sharedScope : LocalProxy.sharedScope.CarriedRun LocalProxy.exampleConf := by
  have hstart : (LocalProxy.init LocalProxy.exampleConf).CarriedRun LocalProxy.exampleConf := .start
  have hID : Sendable (frag 1) := ⟨by decide, by decide⟩
  have hpre : Sendable [] := ⟨by decide, by decide⟩
  exact (hstart.request .localProcess 1 (by decide) (by decide) hID hpre).request .localProcess 2
    (by decide) (by decide) hID hpre

theorem request_pipeline_item :
    let s := LocalProxy.sharedScope
    (∃ sent, LocalProxy.publishReqToRV (fun _ => 0) s.gc (FromNetlink.selected
      (Library.createAndSendBuffers 7 1 (frag 2) (frag 1) domainLocal [])) 0 = some sent ∧
      Arrives s.gc itemRequest 0 sent) ∧
    (∃ rv' X, Registered s (s.pushRequest .localProcess 2 itemRequest).1 sharedRV rv' 2 itemRequest X) ∧
    ∃ s' outs, s.disconnect [frag 1] [] .localProcess 1 = .ok (s', outs) ∧
      ∀ RVFID w, .toRV RVFID w ∈ outs → Withdraws s RVFID w := by
  obtain ⟨hlib, hdisc⟩ := request_pipeline (by decide) carriedRun_sharedScope
  obtain ⟨-, hsent, hsame⟩ := hlib 7 itemRequest [] _ rfl (by decide) (by decide)
  have hrv : sharedRV.Reachable := LocalRV.reachable_afterRun 1 (frag 0) (by decide)
  obtain ⟨X, hX⟩ := hsame 2 0 sharedRV 1 _ (by decide) hrv rfl
  exact ⟨hsent 0 _, ⟨_, X, hX⟩, hdisc .localProcess 1 [frag 1] [] ⟨by decide, by decide, by decide, by decide⟩⟩

end Blackadder
