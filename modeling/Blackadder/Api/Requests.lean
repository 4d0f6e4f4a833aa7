import Blackadder.Api.Packets
import Blackadder.Rendezvous.Records

/-!
# Requests on their way to the rendezvous element
-/

namespace Blackadder

open Wire Bitvector

variable {p pre post strOpt : List UInt8} {ID prefixID X : Id} {k n : Nat} {t : UInt8}
  {strategy : Strategy} {r : Request} {gc : GlobalConf} {RVFID : Bitvector} {fresh : Nat → UInt8}

/-! ## Fields -/

/-- Whole fragments, and as many as a byte can count. -/
structure Sendable (ID : Id) : Prop where
  whole : pursuitIdLen ∣ ID.length
  length : ID.length ≤ 255 * pursuitIdLen

def idBytes (ID : Id) : List UInt8 := fragments ID :: ID

theorem Sendable.toNat_fragments (h : Sendable ID) : (fragments ID).toNat * pursuitIdLen = ID.length := by
  obtain ⟨⟨m, hm⟩, hlen⟩ := h
  rw [fragments, hm, Nat.mul_div_cancel_left _ (by decide), UInt8.toNat_ofNat']
  simp only [pursuitIdLen] at *
  omega

theorem readId_eq (hID : Sendable ID) (h : p.drop k = idBytes ID ++ post) : readId p k = some ID := by
  have hcount : p[k]? = some (fragments ID) := load_drop h
  have hid : p.drop (k + 1) = ID ++ post := drop_next (x := [fragments ID]) h rfl
  rw [readId, hcount]
  exact slice_drop hid hID.toNat_fragments

def requestBytes (t : UInt8) (ID prefixID : Id) (strategy : Strategy) : List UInt8 :=
  [t] ++ idBytes ID ++ idBytes prefixID ++ [strategy]

theorem readRequest_eq (hID : Sendable ID) (hpre : Sendable prefixID)
    (h : p.drop k = requestBytes t ID prefixID strategy ++ post) :
    readRequest p k = some ⟨t, ID, prefixID, strategy⟩ := by
  simp only [requestBytes, List.append_assoc] at h
  have h1 := drop_next (m := 1) h rfl
  have h2 := drop_next (m := ID.length + 1) h1 rfl
  have h3 := drop_next (m := prefixID.length + 1) h2 rfl
  rw [show k + 1 + (ID.length + 1) = k + 2 + ID.length by omega] at h2 h3
  rw [← Nat.add_assoc, Nat.add_right_comm] at h3
  have hstrategy : p[k + 2 + ID.length + 1 + prefixID.length]? = some strategy := load_drop h3
  simp only [readRequest, load_drop h, readId_eq hID h1, readId_eq hpre h2, hstrategy,
    Option.bind_eq_bind, Option.bind_some]
  rfl

/-! ## The client library -/

theorem length_nlmsghdr (len pid : Nat) : (nlmsghdr len pid).length = 16 := by simp [nlmsghdr]

theorem selected_createAndSendBuffers (pid : Nat) :
    FromNetlink.selected (Library.createAndSendBuffers pid t ID prefixID strategy strOpt) =
      requestBytes t ID prefixID strategy ++ strOpt := by
  simp only [FromNetlink.selected, Library.createAndSendBuffers, List.append_assoc]
  rw [drop_length rfl (length_nlmsghdr _ _).symm]
  simp [requestBytes, idBytes]

theorem checkSizes_ok {name : String} : Library.checkSizes name ID prefixID = .ok () ↔
    pursuitIdLen ∣ ID.length ∧ pursuitIdLen ∣ prefixID.length := by
  unfold Library.checkSizes
  simp only [Nat.dvd_iff_mod_eq_zero]
  split
  · next h => simp [h]
  · next h =>
    split <;> simp_all

theorem checkId_ok {name : String} : Library.checkId name ID = .ok () ↔ ID ≠ [] := by
  unfold Library.checkId
  split <;> simp_all

theorem checkPrefix_ok {name : String} : Library.checkPrefix name prefixID = .ok () ↔ prefixID ≠ [] := by
  unfold Library.checkPrefix
  split <;> simp_all

theorem checkSingle_ok {name : String} :
    Library.checkSingle name ID = .ok () ↔ ID.length / pursuitIdLen ≤ 1 := by
  unfold Library.checkSingle
  split <;> simp_all

theorem single_iff (hID : pursuitIdLen ∣ ID.length) (hne : ID ≠ []) :
    ID.length / pursuitIdLen ≤ 1 ↔ ID.length = pursuitIdLen := by
  have hpos := List.length_pos_iff.mpr hne
  obtain ⟨m, hm⟩ := hID
  rw [hm, Nat.mul_div_cancel_left _ (by decide)]
  simp only [pursuitIdLen] at *
  omega

theorem bind_unit_ok {x y : Except String Unit} :
    (do x; y) = .ok () ↔ x = .ok () ∧ y = .ok () := by
  cases x <;> simp [bind, Except.bind]

theorem checkScope_ok {name : String} : Library.checkScope name ID prefixID = .ok () ↔
    pursuitIdLen ∣ prefixID.length ∧ ID.length = pursuitIdLen := by
  unfold Library.checkScope
  rw [bind_unit_ok, bind_unit_ok, checkSizes_ok, checkId_ok, checkSingle_ok]
  constructor
  · rintro ⟨⟨hID, hpre⟩, hne, hsingle⟩
    exact ⟨hpre, (single_iff hID hne).mp hsingle⟩
  · rintro ⟨hpre, hID⟩
    have hne : ID ≠ [] := List.ne_nil_of_length_pos (by rw [hID]; decide)
    have hdvd : pursuitIdLen ∣ ID.length := hID ▸ Nat.dvd_refl _
    exact ⟨⟨hdvd, hpre⟩, hne, (single_iff hdvd hne).mpr hID⟩

theorem checkInfo_ok {name : String} : Library.checkInfo name ID prefixID = .ok () ↔
    pursuitIdLen ∣ prefixID.length ∧ ID.length = pursuitIdLen ∧ prefixID ≠ [] := by
  have hscope : Library.checkScope name ID prefixID = .ok () ↔ _ := checkScope_ok
  unfold Library.checkScope at hscope
  unfold Library.checkInfo
  simp only [bind_unit_ok, checkPrefix_ok] at *
  tauto

theorem accepted_scope (hk : r.type.kind = .scope) (h1 : r.type ≠ .publishScope) :
    r.Accepted ↔ pursuitIdLen ∣ r.prefixID.length ∧ r.ID.length = pursuitIdLen := by
  have h2 : r.type ≠ .publishInfo := fun h => by simp [h, RequestType.kind] at hk
  refine ⟨fun h => ⟨h.prefixID, h.single h1 h2⟩, fun ⟨hpre, hID⟩ => ⟨⟨⟨hID ▸ Nat.dvd_refl _,
    hpre⟩, fun _ _ => hID⟩, fun _ => List.ne_nil_of_length_pos (hID ▸ by decide), fun hi => ?_⟩⟩
  exact nomatch hk.symm.trans hi

theorem accepted_info (hk : r.type.kind = .item) (h2 : r.type ≠ .publishInfo) : r.Accepted ↔
    pursuitIdLen ∣ r.prefixID.length ∧ r.ID.length = pursuitIdLen ∧ r.prefixID ≠ [] := by
  have h1 : r.type ≠ .publishScope := fun h => by simp [h, RequestType.kind] at hk
  refine ⟨fun h => ⟨h.prefixID, h.single h1 h2, h.prefixed hk⟩, fun ⟨hpre, hID, hne⟩ =>
    ⟨⟨⟨hID ▸ Nat.dvd_refl _, hpre⟩, fun _ _ => hID⟩, fun hs => ?_, fun _ => hne⟩⟩
  exact nomatch hk.symm.trans hs

/-- The library sends exactly the requests that it is said to accept. -/
theorem check_ok_iff : Library.check r.type r.ID r.prefixID = .ok () ↔ r.Accepted := by
  obtain ⟨type, ID, prefixID, strategy⟩ := r
  cases type with
  | publishScope =>
    simp only [Library.check, Library.publishScope, bind_unit_ok, checkSizes_ok, checkId_ok]
    refine ⟨fun ⟨⟨hID, hpre⟩, hne⟩ => ?_, fun h => ⟨⟨h.ID, h.prefixID⟩, h.named rfl⟩⟩
    exact ⟨⟨⟨hID, hpre⟩, fun h => absurd rfl h⟩, fun _ => hne, nofun⟩
  | publishInfo =>
    simp only [Library.check, Library.publishInfo, bind_unit_ok, checkSizes_ok, checkPrefix_ok]
    refine ⟨fun ⟨⟨hID, hpre⟩, hne, _⟩ => ?_,
      fun h => ⟨⟨h.ID, h.prefixID⟩, h.prefixed rfl, h.prefixed rfl⟩⟩
    exact ⟨⟨⟨hID, hpre⟩, fun _ h => absurd rfl h⟩, nofun, fun _ => hne⟩
  | unpublishScope => exact checkScope_ok.trans (accepted_scope rfl (by simp)).symm
  | unpublishInfo => exact checkInfo_ok.trans (accepted_info rfl (by simp)).symm
  | subscribeScope => exact checkScope_ok.trans (accepted_scope rfl (by simp)).symm
  | subscribeInfo => exact checkInfo_ok.trans (accepted_info rfl (by simp)).symm
  | unsubscribeScope => exact checkScope_ok.trans (accepted_scope rfl (by simp)).symm
  | unsubscribeInfo => exact checkInfo_ok.trans (accepted_info rfl (by simp)).symm

theorem send_ok_iff {pid : Nat} {d : List UInt8} : Library.send pid r strOpt = .ok d ↔
    r.Accepted ∧ d = Library.createAndSendBuffers pid r.type.code r.ID r.prefixID r.strategy strOpt := by
  rw [← check_ok_iff, Library.send]
  cases Library.check r.type r.ID r.prefixID with
  | error msg => simp [bind, Except.bind]
  | ok u => simp [bind, Except.bind, pure, Except.pure, eq_comm]

/-- The bytes of a request as the proxy gets them. -/
def Request.bytes (r : Request) : List UInt8 := requestBytes r.type.code r.ID r.prefixID r.strategy

theorem readLocal_request (hID : Sendable r.ID) (hpre : Sendable r.prefixID) (type : HostType)
    (host : HostId) (pubOrder subOrder : List Id) :
    LocalProxy.readLocal gc type host pubOrder subOrder (r.bytes ++ strOpt) =
      some (some (.request type host r)) := by
  have hread : readRequest (r.bytes ++ strOpt) 0 = some ⟨r.type.code, r.ID, r.prefixID, r.strategy⟩ :=
    readRequest_eq hID hpre rfl
  have hcode : (r.bytes ++ strOpt)[0]? = some r.type.code := rfl
  have hdis : r.type.code ≠ Code.disconnect := by cases r.type <;> decide
  have hdata : r.type.code ≠ Code.publishData := by cases r.type <;> decide
  simp only [LocalProxy.readLocal, hcode, Option.bind_eq_bind, Option.bind_some, if_neg hdis,
    if_neg hdata, hread, RawRequest.request?, RequestType.ofCode_code, Option.map_some]
  rfl

/-! ## At the rendezvous element -/

/-- The element reads the request of a node. -/
def LocalRV.Reads (p : List UInt8) (node : NodeId) (r : Request) : Prop :=
  ∃ raw, LocalRV.readEvent p = some (some (node, raw)) ∧ raw.request? = some r

def eventBytes (ID : Id) (p : List UInt8) : List UInt8 := [Code.publishedData] ++ idBytes ID ++ p

theorem sendable_nodeRVScope (hgc : gc.nodeID.length = nodeIDLen) : Sendable gc.nodeRVScope := by
  have hlen : gc.nodeRVScope.length = 16 := by
    simp [GlobalConf.nodeRVScope, GlobalConf.RVScope, hgc, nodeIDLen]
  exact ⟨hlen ▸ by decide, hlen ▸ by decide⟩

theorem reads_event (hgc : gc.nodeID.length = nodeIDLen) (hID : Sendable r.ID)
    (hpre : Sendable r.prefixID) :
    LocalRV.Reads (eventBytes gc.nodeRVScope (r.bytes ++ post)) gc.nodeID r := by
  generalize hp : eventBytes gc.nodeRVScope (r.bytes ++ post) = p
  have h : p.drop 0 = [Code.publishedData] ++ (idBytes gc.nodeRVScope ++ (r.bytes ++ post)) := by
    rw [← hp]
    simp [eventBytes]
  have h1 := drop_next (m := 1) h rfl
  have h2 := drop_next (m := gc.nodeRVScope.length + 1) h1 rfl
  rw [show 0 + 1 + (gc.nodeRVScope.length + 1) = 1 + 1 + gc.nodeRVScope.length by omega] at h2
  have hnode : gc.nodeRVScope.drop pursuitIdLen = gc.nodeID := rfl
  refine ⟨⟨r.type.code, r.ID, r.prefixID, r.strategy⟩, ?_, ?_⟩
  · have hid : readId p 1 = some gc.nodeRVScope := readId_eq (sendable_nodeRVScope hgc) h1
    have hcode : p[0]? = some Code.publishedData := load_drop h
    simp only [LocalRV.readEvent, hcode, hid, Option.bind_eq_bind, Option.bind_some,
      readRequest_eq hID hpre h2, hnode]
    rfl
  · simp [RawRequest.request?]

theorem pushEvent_eq (ID : Id) (p : List UInt8) :
    LocalProxy.pushEvent fresh ID p = some (eventBytes ID p) := by
  have h0 : Front (1 + 1 + ID.length) [] p (LocalProxy.room fresh (1 + 1 + ID.length) p) :=
    front_nil (by simp)
  obtain ⟨p1, hrun1, h1⟩ := h0.store (a := Code.publishedData) (k := 0) rfl (by omega)
  obtain ⟨p2, hrun2, h2⟩ := h1.store (a := fragments ID) (k := 1) rfl (by omega)
  obtain ⟨p3, hrun3, h3⟩ := h2.blit (x := ID) (k := 2) rfl (by omega)
  have hdone : p3 = eventBytes ID p := by
    rw [h3.eq (by simp; omega)]
    simp [eventBytes, idBytes]
  simp only [LocalProxy.pushEvent, hrun1, hrun2, hrun3, hdone, Option.bind_eq_bind, Option.bind_some]

/-! ## Over the network -/

theorem readNetwork_request (hgc : gc.nodeID.length = nodeIDLen) (gcR : GlobalConf)
    (payload : List UInt8) :
    LocalProxy.readNetwork gcR ([1] ++ idBytes gc.nodeRVScope ++ payload) =
      some (some (.network [gc.nodeRVScope] payload)) := by
  generalize hp : [1] ++ idBytes gc.nodeRVScope ++ payload = p
  have h : p.drop 0 = [1] ++ (idBytes gc.nodeRVScope ++ payload) := by
    rw [← hp]
    simp
  have h1 := drop_next (m := 1) h rfl
  have h2 := drop_next (m := gc.nodeRVScope.length + 1) h1 rfl
  rw [show 0 + 1 + (gc.nodeRVScope.length + 1) = 1 + 1 + gc.nodeRVScope.length by omega] at h2
  have hid : readId p 1 = some gc.nodeRVScope := readId_eq (sendable_nodeRVScope hgc) h1
  have hother : [gc.nodeRVScope] ≠ [gcR.notificationIID] := by
    intro h
    have hhead := congrArg (List.take 8) (List.singleton_inj.mp h)
    simp [GlobalConf.nodeRVScope, GlobalConf.notificationIID, GlobalConf.RVScope,
      GlobalConf.notificationScope] at hhead
  have hcount : p[0]? = some 1 := load_drop h
  have hids : readIds p 1 (1 : UInt8).toNat = some ([gc.nodeRVScope], 1 + 1 + gc.nodeRVScope.length) := by
    show readIds p 1 1 = _
    simp [readIds, hid]
  simp only [LocalProxy.readNetwork, hcount, hids, Option.bind_eq_bind, Option.bind_some,
    if_neg hother, h2]
  rfl

@[simp]
theorem Bitvector.length_data (v : Bitvector) : v.data.length = 32 := by simp [data]

/-- What a packet for the rendezvous element of `gc` holds in front of the request. -/
def rvHeader (gc : GlobalConf) (RVFID : Bitvector) : List UInt8 :=
  if RVFID = 0 ∨ RVFID = gc.iLID then [Code.publishedData] ++ idBytes gc.nodeRVScope
  else RVFID.data ++ ([1] ++ idBytes gc.nodeRVScope)

def rvPort (gc : GlobalConf) (RVFID : Bitvector) : Nat := if RVFID = 0 ∨ RVFID = gc.iLID then 1 else 2

theorem length_nodeRVScope (hgc : gc.nodeID.length = nodeIDLen) : gc.nodeRVScope.length = 16 := by
  simp [GlobalConf.nodeRVScope, GlobalConf.RVScope, hgc, nodeIDLen]

theorem fragments_nodeRVScope (hgc : gc.nodeID.length = nodeIDLen) : fragments gc.nodeRVScope = 2 := by
  rw [fragments, length_nodeRVScope hgc]
  rfl

theorem front_room (fresh : Nat → UInt8) (n : Nat) (p : List UInt8) :
    Front n [] p (LocalProxy.room fresh n p) := front_nil (by simp)

theorem appendAll_room (fresh : Nat → UInt8) (p : List UInt8) {xs : List (List UInt8)}
    (h : xs.flatten.length = n) : appendAll (LocalProxy.room fresh n p) 0 xs = some (xs.flatten ++ p) :=
  appendAll_front (by simpa using h)

theorem publishReqToRV_eq (hgc : gc.nodeID.length = nodeIDLen) (p : List UInt8) (RVFID : Bitvector) :
    LocalProxy.publishReqToRV fresh gc p RVFID =
      some ⟨rvPort gc RVFID, rvHeader gc RVFID ++ p⟩ := by
  unfold LocalProxy.publishReqToRV rvPort rvHeader
  split
  · rw [pushEvent_eq]
    rfl
  · have hlen := length_nodeRVScope hgc
    obtain ⟨p1, hrun1, h1⟩ := (front_room fresh 18 p).store (a := 1) (k := 0) rfl (by omega)
    obtain ⟨p2, hrun2, h2⟩ := h1.store (a := 2) (k := 1) rfl (by omega)
    obtain ⟨p3, hrun3, h3⟩ := h2.blit (x := gc.nodeRVScope) (k := 2) rfl (by omega)
    have hp3 := h3.eq (by simp [hlen])
    obtain ⟨p4, hrun4, h4⟩ := (front_room fresh 32 p3).blit (x := RVFID.data) (k := 0) rfl (by simp)
    have hp4 := h4.eq (by simp)
    simp only [pursuitIdLen, fidLen, hrun1, hrun2, hrun3, hrun4, Option.bind_eq_bind, Option.bind_some]
    simp [hp4, hp3, idBytes, fragments_nodeRVScope hgc]

/-! ## Requests of the proxy itself -/

theorem putRequest_eq (h : Front n pre [] p) (hoff : k = pre.length)
    (hn : n = k + 1 + 1 + ID.length + 1 + prefixID.length + 1) :
    LocalProxy.putRequest p k t (fragments ID) ID (fragments prefixID) prefixID strategy =
      some (pre ++ requestBytes t ID prefixID strategy) := by
  obtain ⟨p1, hrun1, h1⟩ := h.store (a := t) hoff (by omega)
  obtain ⟨p2, hrun2, h2⟩ := h1.store (a := fragments ID) (k := k + 1) (by simp [hoff]) (by omega)
  obtain ⟨p3, hrun3, h3⟩ := h2.blit (x := ID) (k := k + 1 + 1) (by simp [hoff]) (by omega)
  obtain ⟨p4, hrun4, h4⟩ := h3.store (a := fragments prefixID) (k := k + 1 + 1 + ID.length)
    (by simp [hoff]; omega) (by omega)
  obtain ⟨p5, hrun5, h5⟩ := h4.blit (x := prefixID) (k := k + 1 + 1 + ID.length + 1)
    (by simp [hoff]; omega) (by omega)
  obtain ⟨p6, hrun6, h6⟩ := h5.store (a := strategy)
    (k := k + 1 + 1 + ID.length + 1 + prefixID.length) (by simp [hoff]; omega) (by omega)
  have hp6 := h6.eq (by simp; omega)
  simp only [LocalProxy.putRequest, hrun1, hrun2, hrun3, hrun4, hrun5, hrun6, hp6,
    Option.bind_eq_bind, Option.bind_some]
  simp [requestBytes, idBytes]

theorem createAndSendPacketToRV_eq (hgc : gc.nodeID.length = nodeIDLen) (hID : Sendable ID)
    (hpre : Sendable prefixID) (RVFID : Bitvector) :
    LocalProxy.createAndSendPacketToRV fresh gc t (fragments ID) ID (fragments prefixID) prefixID
      RVFID strategy =
      some ⟨rvPort gc RVFID, rvHeader gc RVFID ++ requestBytes t ID prefixID strategy⟩ := by
  have hlen := length_nodeRVScope hgc
  unfold LocalProxy.createAndSendPacketToRV rvPort rvHeader
  simp only [hID.toNat_fragments, hpre.toNat_fragments]
  simp only [pursuitIdLen, fidLen]
  generalize hsize : 1 + 1 + 2 * 8 + 1 + 1 + ID.length + 1 + prefixID.length + 1 = size
  split
  · obtain ⟨p1, hrun1, h1⟩ := (front_room fresh size []).store (a := Code.publishedData) (k := 0) rfl
      (by omega)
    obtain ⟨p2, hrun2, h2⟩ := h1.store (a := fragments gc.nodeRVScope) (k := 1) rfl (by omega)
    obtain ⟨p3, hrun3, h3⟩ := h2.blit (x := gc.nodeRVScope) (k := 1 + 1) rfl (by omega)
    have hput : LocalProxy.putRequest p3 (1 + 1 + gc.nodeRVScope.length) t (fragments ID) ID
        (fragments prefixID) prefixID strategy = _ := putRequest_eq h3 (by simp; omega) (by omega)
    simp only [hrun1, hrun2, hrun3, hput, Option.bind_eq_bind, Option.bind_some]
    simp [idBytes]
  · obtain ⟨p1, hrun1, h1⟩ := (front_room fresh (32 + size) []).blit (x := RVFID.data) (k := 0) rfl
      (by simp)
    obtain ⟨p2, hrun2, h2⟩ := h1.store (a := 1) (k := 32) (by simp) (by omega)
    obtain ⟨p3, hrun3, h3⟩ := h2.store (a := 2) (k := 32 + 1) (by simp) (by omega)
    obtain ⟨p4, hrun4, h4⟩ := h3.blit (x := gc.nodeRVScope.take (2 * 8)) (k := 32 + 1 + 1) (by simp)
      (by simp [hlen]; omega)
    have hput : LocalProxy.putRequest p4 (32 + 1 + 1 + 2 * 8) t (fragments ID) ID
        (fragments prefixID) prefixID strategy = _ := putRequest_eq h4 (by simp [hlen]) (by omega)
    simp only [hrun1, hrun2, hrun3, hrun4, hput, Option.bind_eq_bind, Option.bind_some]
    simp [idBytes, fragments_nodeRVScope hgc, List.take_of_length_le hlen.le]

end Blackadder
