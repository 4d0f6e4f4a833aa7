import Blackadder.Api.Manager

/-!
# From the rendezvous element over the manager to a node

The manager cuts the ids off the end of a request and puts them behind the type of its response, so
that the proxy of a node reads what the rendezvous element wrote.
-/

namespace Blackadder

open Wire
open LocalProxy (room)
open TMIgraph (calculateFIDs)

variable {p post rest tail beyond request : List UInt8} {IDs I : List Id} {P S nodes : List NodeId}
  {k n len : Nat} {t : UInt8} {strategy : Strategy} {FID : Bitvector} {fresh : Nat → UInt8}
  {gc gcP : GlobalConf} {node : NodeId} {tm : Manager}

/-! ## Forwarding identifiers in memory -/

theorem Bitvector.ofData_data (v : Bitvector) : ofData v.data = v := by
  have hsame : v.data = littleEndian fidLen v.toNat := rfl
  rw [ofData, hsame, foldr_littleEndian, show 256 ^ fidLen = 2 ^ fidBits by decide,
    Nat.mod_eq_of_lt v.isLt, BitVec.ofNat_toNat, BitVec.setWidth_eq]

/-- Any bytes of the length of an identifier are one. -/
theorem Bitvector.data_ofData (h : rest.length = fidLen) : (ofData rest).data = rest := by
  have hlt := foldr_lt rest
  rw [h, show 256 ^ fidLen = 2 ^ fidBits by decide] at hlt
  have hsame : (ofData rest).data = littleEndian fidLen (ofData rest).toNat := rfl
  rw [hsame, ofData, BitVec.toNat_ofNat, Nat.mod_eq_of_lt hlt, ← h, littleEndian_foldr]

theorem readFID_eq (h : p.drop k = FID.data ++ post) : readFID p k = some FID := by
  rw [readFID, slice_drop h (by simp), Option.map_some, Bitvector.ofData_data]

/-! ## Reads of several ids -/

theorem readIds_eq (hIDs : ∀ ID ∈ IDs, Sendable ID) (h : p.drop k = IDs.flatMap idBytes ++ post) :
    readIds p k IDs.length = some (IDs, k + (IDs.flatMap idBytes).length) := by
  induction IDs generalizing k with
  | nil => rfl
  | cons ID IDs ih =>
    rw [List.forall_mem_cons] at hIDs
    rw [List.flatMap_cons, List.append_assoc] at h
    have hnext := drop_next (m := ID.length + 1) h rfl
    rw [Nat.add_comm ID.length 1, ← Nat.add_assoc] at hnext
    simp only [List.length_cons, readIds, readId_eq hIDs.1 h, ih hIDs.2 hnext,
      Option.bind_eq_bind, Option.bind_some]
    rw [List.flatMap_cons, List.length_append, idBytes, List.length_cons]
    simp only [pure, Option.some.injEq, Prod.mk.injEq, true_and]
    omega

theorem toNat_count (h : IDs.length ≤ 255) : (UInt8.ofNat IDs.length).toNat = IDs.length := by
  rw [UInt8.toNat_ofNat', Nat.mod_eq_of_lt (by omega)]

theorem length_idsBytes : (idsBytes IDs).length = 1 + (IDs.flatMap idBytes).length := by
  rw [idsBytes, List.length_cons, Nat.add_comm]

theorem reads_ids (hcount : I.length ≤ 255) (hI : ∀ ID ∈ I, Sendable ID)
    (h : p.drop k = idsBytes I ++ rest) : ∃ count : UInt8, p[k]? = some count ∧
      readIds p (k + 1) count.toNat = some (I, k + (idsBytes I).length) ∧
      p.drop (k + (idsBytes I).length) = rest := by
  have hnext := drop_next (m := 1) (x := [UInt8.ofNat I.length]) h rfl
  refine ⟨_, load_drop h, ?_, drop_next h rfl⟩
  rw [toNat_count hcount, readIds_eq hI hnext, length_idsBytes, Nat.add_assoc]

/-! ## What a node reads -/

/-- A response of the manager. The rest is the forwarding identifier, or what nobody wrote. -/
def responseBytes (t : UInt8) (I : List Id) (rest : List UInt8) : List UInt8 := [t] ++ idsBytes I ++ rest

def ScopeEvent.code : ScopeEvent → UInt8
  | .scopePublished => Code.scopePublished
  | .scopeUnpublished => Code.scopeUnpublished

def ScopeEvent.notification : ScopeEvent → List Id → Notification
  | .scopePublished => .scopePublished
  | .scopeUnpublished => .scopeUnpublished

/-- What the manager tells a publisher with this entry in the result. -/
def answer (I : List Id) : Option Bitvector → Notification
  | none => .stopPublish I
  | some FID => .startPublish I FID

theorem response_reads (hcount : I.length ≤ 255) (hI : ∀ ID ∈ I, Sendable ID)
    (hp : p = responseBytes t I rest) : ∃ count : UInt8, p[0]? = some t ∧ p[1]? = some count ∧
      readIds p 2 count.toNat = some (I, 1 + (idsBytes I).length) ∧
      p.drop (1 + (idsBytes I).length) = rest := by
  have hfront : p.drop 1 = idsBytes I ++ rest := by simp [hp, responseBytes]
  obtain ⟨count, h1, h2, h3⟩ := reads_ids hcount hI hfront
  exact ⟨count, by rw [hp]; rfl, h1, h2, h3⟩

theorem readNotification_scope (event : ScopeEvent) (hcount : I.length ≤ 255)
    (hI : ∀ ID ∈ I, Sendable ID) :
    LocalProxy.readNotification (responseBytes event.code I rest) =
      some (some (event.notification I)) := by
  generalize hp : responseBytes event.code I rest = p
  obtain ⟨count, h0, h1, h2, -⟩ := response_reads hcount hI hp.symm
  simp only [LocalProxy.readNotification, h0, h1, h2, Option.bind_eq_bind, Option.bind_some]
  cases event <;> rfl

theorem readNotification_stop (hcount : I.length ≤ 255) (hI : ∀ ID ∈ I, Sendable ID) :
    LocalProxy.readNotification (responseBytes Code.stopPublish I rest) =
      some (some (answer I none)) := by
  generalize hp : responseBytes Code.stopPublish I rest = p
  obtain ⟨count, h0, h1, h2, -⟩ := response_reads hcount hI hp.symm
  simp only [LocalProxy.readNotification, h0, h1, h2, Option.bind_eq_bind, Option.bind_some]
  rfl

theorem readNotification_start (hcount : I.length ≤ 255) (hI : ∀ ID ∈ I, Sendable ID) :
    LocalProxy.readNotification (responseBytes Code.startPublish I FID.data) =
      some (some (answer I (some FID))) := by
  generalize hp : responseBytes Code.startPublish I FID.data = p
  obtain ⟨count, h0, h1, h2, h3⟩ := response_reads hcount hI hp.symm
  rw [← List.append_nil FID.data] at h3
  have hFID := readFID_eq h3
  simp only [LocalProxy.readNotification, h0, h1, h2, hFID, Option.bind_eq_bind, Option.bind_some]
  rfl

/-- The notification that arrives, if one does. -/
def LocalProxy.Input.notification? : LocalProxy.Input → Option Notification
  | .notification n | .localNotification _ _ n => some n
  | _ => none

/-- A publication of the manager on node `gc`, as the proxy of node `gcP` reads it: from the manager
itself, or from the network. -/
def LocalProxy.receives (fresh : Nat → UInt8) (pid : Nat) (host : HostId) (gc gcP : GlobalConf)
    (pub : Publication) : Option (Option LocalProxy.Input) := do
  match ← readLocal gc .localProcess host [] [] (FromNetlink.selected (Library.publishData pid pub)) with
  | some (.publication _ _ ID _ FID payload) =>
    let p ← pushDataToRemoteSubscribers fresh [ID] FID payload
    readNetwork gcP (p.drop fidLen)
  | i => return i

theorem selected_publishData (pid : Nat) (pub : Publication) :
    FromNetlink.selected (Library.publishData pid pub) =
      [Code.publishData] ++ (idBytes pub.id ++ ([pub.strategy] ++ (pub.strOpt.data ++ pub.data))) := by
  simp only [FromNetlink.selected, Library.publishData, List.append_assoc]
  rw [drop_length rfl (length_nlmsghdr _ _).symm]
  simp [idBytes]

theorem readLocal_publication (FID : Bitvector) (rest : List UInt8) (gc : GlobalConf) (type : HostType)
    (host : HostId) {ID : Id} (hID : Sendable ID) : LocalProxy.readLocal gc type host [] []
      ([Code.publishData] ++ (idBytes ID ++ ([implicitRendezvous] ++ (FID.data ++ rest)))) =
      if ID = gc.notificationIID then
        (LocalProxy.readNotification rest).map (·.map (.localNotification type host))
      else some (some (.publication type host ID implicitRendezvous FID rest)) := by
  generalize hp : [Code.publishData] ++ (idBytes ID ++ ([implicitRendezvous] ++ (FID.data ++ rest))) = p
  have h : p.drop 0 = [Code.publishData] ++ (idBytes ID ++ ([implicitRendezvous] ++ (FID.data ++ rest))) := by
    rw [← hp, List.drop_zero]
  have h1 := drop_next (m := 1) h rfl
  have h2 := drop_next (m := ID.length + 1) h1 rfl
  rw [show 0 + 1 + (ID.length + 1) = 2 + ID.length by omega] at h2
  have h3 := drop_next (m := 1) h2 rfl
  have h4 := drop_next (m := fidLen) h3 (by simp)
  have hcode : p[0]? = some Code.publishData := load_drop h
  have hid : readId p 1 = some ID := readId_eq hID h1
  have hstrategy : p[2 + ID.length]? = some implicitRendezvous := load_drop h2
  have hFID : readFID p (2 + ID.length + 1) = some FID := readFID_eq h3
  have hdis : Code.publishData ≠ Code.disconnect := by decide
  simp only [LocalProxy.readLocal, LocalProxy.readPublication, hcode, hid, hstrategy, hFID, h4,
    Option.bind_eq_bind, Option.bind_some, if_neg hdis, if_true]
  split
  · cases LocalProxy.readNotification rest <;> rfl
  · rfl

/-- The ids as `pushDataToRemoteSubscribers` writes them. -/
def wireBytes (IDs : List Id) : List UInt8 := UInt8.ofNat IDs.length :: IDs.flatMap castBytes

theorem pushDataToRemoteSubscribers_cast (fresh : Nat → UInt8) (FID : Bitvector) (IDs : List Id)
    (rest : List UInt8) (hcount : IDs.length ≤ 255) :
    LocalProxy.pushDataToRemoteSubscribers fresh IDs FID rest =
      some (FID.data ++ (wireBytes IDs ++ rest)) := by
  have hparts : LocalProxy.pushDataToRemoteSubscribers fresh IDs FID rest =
      appendAll (room fresh (fidLen + 1 + IDs.length * 1 + (IDs.map List.length).sum) rest) 0
        ([FID.data, [UInt8.ofNat IDs.length]] ++ idParts IDs) := by
    simp only [LocalProxy.pushDataToRemoteSubscribers, putIDs_eq, toNat_count hcount, List.take_length,
      appendAll_append, appendAll, store, Option.bind_eq_bind, List.flatten_cons, List.flatten_nil,
      List.length_append, List.length_nil, List.length_singleton, Bitvector.length_data, fidLen,
      Option.bind_map, Function.comp_def, pure, Option.bind_fun_some, Option.bind_assoc, Nat.zero_add,
      Nat.add_zero]
  rw [hparts, appendAll_room]
  · simp [flatten_idParts, wireBytes]
  · simp only [List.flatten_append, List.length_append, flatten_idParts, length_flatMap_castBytes,
      List.length_flatten]
    simp [fidLen]
    omega

theorem pushDataToRemoteSubscribers_eq {ID : Id} (hID : ID.length < 256) :
    LocalProxy.pushDataToRemoteSubscribers fresh [ID] FID rest =
      some (FID.data ++ (idsBytes [ID] ++ rest)) := by
  have hwire : wireBytes [ID] = idsBytes [ID] := by
    rw [wireBytes, idsBytes, flatMap_castBytes (List.forall_mem_singleton.mpr hID)]
  rw [pushDataToRemoteSubscribers_cast fresh FID [ID] rest (by simp), hwire]

theorem sendable_notification (hnode : node.length = nodeIDLen) :
    Sendable (GlobalConf.notificationScope ++ node) := by
  have hlen : (GlobalConf.notificationScope ++ node).length = 16 := by
    simp [GlobalConf.notificationScope, hnode, nodeIDLen]
  exact ⟨hlen ▸ by decide, hlen ▸ by decide⟩

theorem readNetwork_notification (hnode : gcP.nodeID.length = nodeIDLen) :
    LocalProxy.readNetwork gcP (idsBytes [gcP.notificationIID] ++ rest) =
      (LocalProxy.readNotification rest).map (·.map .notification) := by
  have hID : Sendable gcP.notificationIID := sendable_notification hnode
  have hfront : (idsBytes [gcP.notificationIID] ++ rest).drop 0 =
      idsBytes [gcP.notificationIID] ++ rest := rfl
  obtain ⟨count, h1, h2, h3⟩ := reads_ids (by simp) (by simpa using hID) hfront
  simp only [LocalProxy.readNetwork, h1, h2, h3, Option.bind_eq_bind, Option.bind_some, if_true]
  cases LocalProxy.readNotification rest <;> rfl

/-- The proxy of a node gets what the manager tells the node. -/
theorem receives_notification {pub : Publication} {n : Notification}
    (hnode : gcP.nodeID.length = nodeIDLen) (hid : pub.id = gcP.notificationIID)
    (hstrategy : pub.strategy = implicitRendezvous)
    (hdata : LocalProxy.readNotification pub.data = some (some n)) (pid : Nat) (host : HostId) :
    ∃ i, LocalProxy.receives fresh pid host gc gcP pub = some (some i) ∧ i.notification? = some n := by
  obtain ⟨id, strategy, strOpt, data⟩ := pub
  dsimp only at hid hstrategy hdata
  subst hid hstrategy
  have hlen : gcP.notificationIID.length = 16 := by
    simp [GlobalConf.notificationIID, GlobalConf.notificationScope, hnode, nodeIDLen]
  have hID : Sendable gcP.notificationIID := sendable_notification hnode
  unfold LocalProxy.receives
  rw [selected_publishData, readLocal_publication _ _ gc _ _ hID]
  split
  · exact ⟨_, by rw [hdata]; rfl, rfl⟩
  · have hshort : gcP.notificationIID.length < 256 := by omega
    refine ⟨.notification n, ?_, rfl⟩
    simp only [Option.bind_eq_bind, Option.bind_some, pushDataToRemoteSubscribers_eq hshort]
    rw [drop_length rfl (by simp), readNetwork_notification hnode, hdata]
    rfl

/-! ## What the manager reads -/

namespace Manager

theorem readNodeIDs_eq (hnodes : ∀ l ∈ nodes, l.length = nodeIDLen)
    (h : request.drop k = nodes.flatten ++ post) :
    readNodeIDs request k nodes.length = some nodes := by
  induction nodes generalizing k with
  | nil => rfl
  | cons node nodes ih =>
    rw [List.forall_mem_cons] at hnodes
    rw [List.flatten_cons, List.append_assoc] at h
    have hlen : pursuitIdLen = node.length := hnodes.1.symm
    have hnode := slice_drop h hlen
    have hrest := ih hnodes.2 (drop_next h hlen)
    simp only [List.length_cons, readNodeIDs, hnode, hrest, Option.bind_eq_bind, Option.bind_some]
    rfl

theorem toNat_nodes (h : nodes.length ≤ 255) : (UInt8.ofNat nodes.length).toNat = nodes.length := by
  rw [UInt8.toNat_ofNat', Nat.mod_eq_of_lt (by omega)]

theorem reads_labels (hcount : nodes.length ≤ 255) (hnodes : ∀ l ∈ nodes, l.length = nodeIDLen)
    (h : request.drop k = labelsBytes nodes ++ post) : ∃ count : UInt8,
      request[k]? = some count ∧ count.toNat = nodes.length ∧
      readNodeIDs request (k + 1) nodes.length = some nodes ∧
      request.drop (k + 1 + nodes.length * pursuitIdLen) = post := by
  have hnext : request.drop (k + 1) = nodes.flatten ++ post :=
    drop_next (x := [UInt8.ofNat nodes.length]) h rfl
  refine ⟨_, load_drop h, toNat_nodes hcount, readNodeIDs_eq hnodes hnext, ?_⟩
  exact drop_next hnext (length_flatten hnodes).symm

theorem size_eq (h : n = k + len) : size n k = some len := by
  subst h
  simp [size]

theorem copyIDs_eq (h : request.drop k = tail ++ beyond) (hlen : len = k + tail.length)
    (hn : 1 + tail.length ≤ n) :
    ∃ b, copyIDs fresh n t request len k = some b ∧ Front n ([t] ++ tail) [] b := by
  obtain ⟨b1, hrun1, h1⟩ := (front_room fresh n []).store (a := t) (k := 0) rfl (by omega)
  obtain ⟨b2, hrun2, h2⟩ := h1.blit (x := tail) (k := 1) rfl (by omega)
  refine ⟨b2, ?_, h2⟩
  simp only [copyIDs, size_eq hlen, hrun1, slice_drop h rfl, hrun2, Option.bind_eq_bind,
    Option.bind_some]

theorem stopResponse_eq (h : request.drop k = tail ++ beyond) (hlen : len = k + tail.length) :
    stopResponse fresh request len k = some ([Code.stopPublish] ++ tail) := by
  obtain ⟨b, hrun, hb⟩ : ∃ b, copyIDs fresh (len + 1 - k) Code.stopPublish request len k = some b ∧
      Front _ ([Code.stopPublish] ++ tail) [] b := copyIDs_eq h hlen (by omega)
  have hdone := hb.eq (by simp; omega)
  rw [stopResponse, hrun, hdone, List.append_nil]

theorem startResponse_eq (h : request.drop k = tail ++ beyond) (hlen : len = k + tail.length) :
    startResponse fresh request len k FID = some ([Code.startPublish] ++ tail ++ FID.data) := by
  obtain ⟨b, hrun, hb⟩ : ∃ b, copyIDs fresh (len + 1 + fidLen - k) Code.startPublish request len k =
      some b ∧ Front _ ([Code.startPublish] ++ tail) [] b := copyIDs_eq h hlen (by omega)
  obtain ⟨b', hrun', hb'⟩ := hb.blit (x := FID.data) (k := 1 + len - k) (by simp; omega)
    (by simp; omega)
  have hdone := hb'.eq (by simp; omega)
  simp only [startResponse, hrun, hrun', hdone, List.append_nil, Option.bind_eq_bind, Option.bind_some]

theorem match_reads (hP : P.length ≤ 255) (hPlen : ∀ l ∈ P, l.length = nodeIDLen)
    (hS : S.length ≤ 255) (hSlen : ∀ l ∈ S, l.length = nodeIDLen)
    (h : request = matchBytes strategy P S I ++ beyond) :
    ∃ npub nsub : UInt8, npub.toNat = P.length ∧ nsub.toNat = S.length ∧
      request[1 + 1]? = some npub ∧
      readNodeIDs request (1 + 1 + 1) P.length = some P ∧
      request[1 + 1 + 1 + P.length * pursuitIdLen]? = some nsub ∧
      readNodeIDs request (1 + 1 + 1 + 1 + P.length * pursuitIdLen) S.length = some S ∧
      request.drop (1 + 1 + 1 + P.length * pursuitIdLen + 1 + S.length * pursuitIdLen) =
        idsBytes I ++ beyond := by
  have h2 : request.drop (1 + 1) = labelsBytes P ++ (labelsBytes S ++ (idsBytes I ++ beyond)) := by
    simp [h, matchBytes]
  obtain ⟨npub, hp1, hp2, hp3, hp4⟩ := reads_labels hP hPlen h2
  obtain ⟨nsub, hs1, hs2, hs3, hs4⟩ := reads_labels hS hSlen hp4
  refine ⟨npub, nsub, hp2, hs2, hp1, hp3, hs1, ?_, hs4⟩
  rw [Nat.add_right_comm (1 + 1 + 1)]
  exact hs3

theorem length_matchBytes (strategy : Strategy) (I : List Id) (hPlen : ∀ l ∈ P, l.length = nodeIDLen)
    (hSlen : ∀ l ∈ S, l.length = nodeIDLen) : (matchBytes strategy P S I).length =
      1 + 1 + 1 + P.length * pursuitIdLen + 1 + S.length * pursuitIdLen + (idsBytes I).length := by
  have hP := length_flatten hPlen
  have hS := length_flatten hSlen
  simp only [matchBytes, labelsBytes, List.length_append, List.length_cons, List.length_nil, hP, hS,
    nodeIDLen, pursuitIdLen]
  omega

/-- What the manager reads when memory goes on behind the request. -/
theorem readMatch_some (hP : P.length ≤ 255) (hPlen : ∀ l ∈ P, l.length = nodeIDLen)
    (hS : S.length ≤ 255) (hSlen : ∀ l ∈ S, l.length = nodeIDLen) {ID : Id} (hID : Sendable ID)
    (hbeyond : 2 ≤ beyond.length) (h : request = matchBytes strategy P S (ID :: I) ++ beyond) :
    readMatch request (matchBytes strategy P S (ID :: I)).length = some {
      publishers := nodeSet P
      subscribers := nodeSet S
      ids_index := 1 + 1 + 1 + P.length * pursuitIdLen + 1 + S.length * pursuitIdLen
      no_ids := UInt8.ofNat (ID :: I).length
      IDLen := fragments ID
      ids := (ID ++ (I.flatMap idBytes ++ beyond)).take (idsBytes (ID :: I)).length
      ids_str := ID } := by
  obtain ⟨npub, nsub, hnpub, hnsub, h1, h2, h3, h4, h5⟩ := match_reads hP hPlen hS hSlen h
  have hlen := length_matchBytes strategy (ID :: I) hPlen hSlen
  generalize hk : 1 + 1 + 1 + P.length * pursuitIdLen + 1 + S.length * pursuitIdLen = k at h5 hlen
  have hIDs : idsBytes (ID :: I) ++ beyond =
      UInt8.ofNat (ID :: I).length :: fragments ID :: (ID ++ (I.flatMap idBytes ++ beyond)) := by
    simp [idsBytes, idBytes]
  rw [hIDs] at h5
  have hcount : request[k]? = some (UInt8.ofNat (ID :: I).length) := load_drop h5
  have h6 : request.drop (k + 1) = fragments ID :: (ID ++ (I.flatMap idBytes ++ beyond)) :=
    drop_next (x := [_]) h5 rfl
  have h7 : request.drop (k + 1 + 1) = ID ++ (I.flatMap idBytes ++ beyond) :=
    drop_next (x := [_]) h6 rfl
  -- the slice starts two places behind the number of ids and is as long as what starts there
  have hsize : (idsBytes (ID :: I)).length = 2 + ID.length + (I.flatMap idBytes).length := by
    simp only [length_idsBytes, List.flatMap_cons, List.length_append, idBytes, List.length_cons]
    omega
  have hroom := congrArg List.length h7
  simp only [List.length_drop, List.length_append] at hroom
  have hids := slice_some (b := request) (k := k + 1 + 1) (m := (idsBytes (ID :: I)).length)
    (by omega)
  rw [h7] at hids
  have hstr : slice ((ID ++ (I.flatMap idBytes ++ beyond)).take (idsBytes (ID :: I)).length) 0
      ((fragments ID).toNat * pursuitIdLen) = some ID := by
    rw [hID.toNat_fragments, List.take_append, List.take_of_length_le (by omega)]
    exact slice_drop rfl rfl
  simp only [readMatch, h1, hnpub, h2, h3, hnsub, h4, hk, size_eq hlen, hcount, load_drop h6, hids,
    hstr, Option.bind_eq_bind, Option.bind_some]
  rfl

theorem readMatch_eq (hP : P.length ≤ 255) (hPlen : ∀ l ∈ P, l.length = nodeIDLen)
    (hS : S.length ≤ 255) (hSlen : ∀ l ∈ S, l.length = nodeIDLen) {ID : Id} (hID : Sendable ID)
    (hbeyond : 2 ≤ beyond.length) (h : request = matchBytes strategy P S (ID :: I) ++ beyond) :
    ∃ r, readMatch request (matchBytes strategy P S (ID :: I)).length = some r ∧
      r.publishers = nodeSet P ∧ r.subscribers = nodeSet S ∧
      (matchBytes strategy P S (ID :: I)).length = r.ids_index + (idsBytes (ID :: I)).length ∧
      request.drop r.ids_index = idsBytes (ID :: I) ++ beyond := by
  obtain ⟨-, -, -, -, -, -, -, -, hdrop⟩ := match_reads hP hPlen hS hSlen h
  exact ⟨_, readMatch_some hP hPlen hS hSlen hID hbeyond h, rfl, rfl,
    length_matchBytes strategy (ID :: I) hPlen hSlen, hdrop⟩

/-- Without it the manager reads behind the end of the request. -/
theorem readMatch_none (hP : P.length ≤ 255) (hPlen : ∀ l ∈ P, l.length = nodeIDLen)
    (hS : S.length ≤ 255) (hSlen : ∀ l ∈ S, l.length = nodeIDLen) :
    readMatch (matchBytes strategy P S I) (matchBytes strategy P S I).length = none := by
  generalize hr : matchBytes strategy P S I = request
  have hrequest : request = matchBytes strategy P S I ++ [] := by rw [hr, List.append_nil]
  obtain ⟨npub, nsub, hnpub, hnsub, h1, h2, h3, h4, h5⟩ := match_reads hP hPlen hS hSlen hrequest
  have hlen := length_matchBytes strategy I hPlen hSlen
  rw [hr] at hlen
  generalize hk : 1 + 1 + 1 + P.length * pursuitIdLen + 1 + S.length * pursuitIdLen = k at h5 hlen
  have hpos : (idsBytes I).length = _ := length_idsBytes
  have hids : slice request (k + 1 + 1) (idsBytes I).length = none := slice_none (by omega) (by omega)
  simp only [readMatch, h1, hnpub, h2, h3, hnsub, h4, hk, size_eq hlen, hids, Option.bind_eq_bind,
    Option.bind_some, Option.bind_none]
  cases request[k]? with
  | none => rfl
  | some no_ids => cases request[k + 1]? <;> rfl

theorem nodup_nodeSet : (nodeSet nodes).Nodup := StdSet.nodup_ofList

theorem toFinset_nodeSet : (nodeSet nodes).toFinset = nodes.toFinset := StdSet.toFinset_ofList

/-- What the manager publishes for one node. -/
structure Tells (node : NodeId) (n : Notification) (pub : Publication) : Prop where
  id : pub.id = GlobalConf.notificationScope ++ node
  strategy : pub.strategy = implicitRendezvous
  data : LocalProxy.readNotification pub.data = some (some n)

theorem notifyPublisher_eq (hcount : I.length ≤ 255) (hI : ∀ ID ∈ I, Sendable ID)
    (h : request.drop k = idsBytes I ++ beyond) (hlen : len = k + (idsBytes I).length)
    (e : NodeId × Option Bitvector) : ∃ pub, tm.notifyPublisher fresh request len k e = some pub ∧
      Tells e.1 (answer I e.2) pub := by
  obtain ⟨node, FID⟩ := e
  cases FID with
  | none =>
    have hread : LocalProxy.readNotification (responseBytes Code.stopPublish I []) = _ :=
      readNotification_stop hcount hI
    rw [responseBytes, List.append_nil] at hread
    refine ⟨⟨_, _, tm.toNode node, _⟩, ?_, rfl, rfl, hread⟩
    simp only [notifyPublisher, stopResponse_eq h hlen, Option.bind_eq_bind, Option.bind_some]
    rfl
  | some FID =>
    refine ⟨⟨_, _, tm.toNode node, _⟩, ?_, rfl, rfl, readNotification_start hcount hI⟩
    simp only [notifyPublisher, startResponse_eq h hlen, Option.bind_eq_bind, Option.bind_some]
    rfl

theorem notifyPublishers_eq (tm : Manager) (fresh : Nat → UInt8) (hcount : I.length ≤ 255)
    (hI : ∀ ID ∈ I, Sendable ID)
    (h : request.drop k = idsBytes I ++ beyond) (hlen : len = k + (idsBytes I).length)
    (result : List (NodeId × Option Bitvector)) :
    ∃ pubs, result.mapM (tm.notifyPublisher fresh request len k) = some pubs ∧
      List.Forall₂ (fun e pub => Tells e.1 (answer I e.2) pub) result pubs :=
  mapM_all fun e _ => notifyPublisher_eq hcount hI h hlen e

theorem slice_flatten {i : Nat} (hnodes : ∀ l ∈ nodes, l.length = nodeIDLen)
    (h : request.drop k = nodes.flatten ++ post) (hi : nodes[i]? = some node) :
    slice request (k + i * pursuitIdLen) pursuitIdLen = some node := by
  induction nodes generalizing k i with
  | nil => simp at hi
  | cons first nodes ih =>
    rw [List.forall_mem_cons] at hnodes
    rw [List.flatten_cons, List.append_assoc] at h
    have hlen : pursuitIdLen = first.length := hnodes.1.symm
    cases i with
    | zero =>
      obtain rfl : first = node := by simpa using hi
      rw [Nat.zero_mul]
      exact slice_drop h hlen
    | succ i =>
      have hnext := ih hnodes.2 (drop_next h hlen) (by simpa using hi)
      rwa [Nat.add_assoc, Nat.add_comm pursuitIdLen, ← Nat.succ_mul] at hnext

theorem notifySubscriber_eq (hcount : I.length ≤ 255) (hI : ∀ ID ∈ I, Sendable ID) {i : Nat}
    (hSlen : ∀ l ∈ S, l.length = nodeIDLen) (hlabels : request.drop (1 + 1 + 1) = S.flatten ++ post)
    (hk : 1 + 1 + 1 + S.length * pursuitIdLen = k) (h : request.drop k = idsBytes I ++ beyond)
    (event : ScopeEvent) (hi : S[i]? = some node) :
    ∃ pub, tm.notifySubscriber fresh request (k + (idsBytes I).length) S.length event.code i = some pub ∧
      Tells node (event.notification I) pub := by
  have hroom : 1 + (idsBytes I).length ≤ k + (idsBytes I).length + 1 + fidLen - k := by omega
  obtain ⟨b, hrun, post, hb, -⟩ : ∃ b, copyIDs fresh _ event.code request _ k = some b ∧
      Front _ ([event.code] ++ idsBytes I) [] b := copyIDs_eq h rfl hroom
  refine ⟨⟨_, _, tm.toNode node, b⟩, ?_, rfl, rfl, ?_⟩
  · simp only [notifySubscriber, hk, slice_flatten hSlen hlabels hi, hrun, Option.bind_eq_bind,
      Option.bind_some]
    rfl
  · rw [hb, List.append_nil]
    exact readNotification_scope event hcount hI

theorem length_scopeBytes (t : UInt8) (strategy : Strategy) (I : List Id)
    (hSlen : ∀ l ∈ S, l.length = nodeIDLen) : (scopeBytes t strategy S I).length =
      1 + 1 + 1 + S.length * pursuitIdLen + (idsBytes I).length := by
  have hflat := length_flatten hSlen
  simp only [scopeBytes, labelsBytes, List.length_append, List.length_cons, List.length_nil, hflat,
    nodeIDLen, pursuitIdLen]
  omega

theorem handleRequest_scope (tm : Manager) (fresh : Nat → UInt8) (hcount : I.length ≤ 255) (hI : ∀ ID ∈ I, Sendable ID)
    (hS : S.length ≤ 255) (hSlen : ∀ l ∈ S, l.length = nodeIDLen) (event : ScopeEvent)
    (hrequest : request = scopeBytes event.code strategy S I ++ beyond) :
    ∃ pubs, tm.handleRequest fresh request (scopeBytes event.code strategy S I).length = some pubs ∧
      List.Forall₂ (fun node pub => Tells node (event.notification I) pub) S pubs := by
  have h0 : request.drop 0 = event.code :: (strategy :: (labelsBytes S ++ (idsBytes I ++ beyond))) := by
    simp [hrequest, scopeBytes]
  have h1 : request.drop 1 = strategy :: (labelsBytes S ++ (idsBytes I ++ beyond)) :=
    drop_next (x := [event.code]) h0 rfl
  have h2 : request.drop (1 + 1) = labelsBytes S ++ (idsBytes I ++ beyond) :=
    drop_next (x := [strategy]) h1 rfl
  have h3 : request.drop (1 + 1 + 1) = S.flatten ++ (idsBytes I ++ beyond) :=
    drop_next (x := [UInt8.ofNat S.length]) h2 rfl
  obtain ⟨count, hread, hcountS, -, h4⟩ := reads_labels hS hSlen h2
  obtain ⟨pubs, hpubs, hall⟩ := mapM_places fun i node hi =>
    notifySubscriber_eq hcount hI hSlen h3 rfl h4 event hi
  refine ⟨pubs, ?_, hall⟩
  have htype : request[0]? = some event.code := load_drop h0
  have hstrategy : request[1]? = some strategy := load_drop h1
  have hmatch : event.code ≠ Code.matchPubSubs := by cases event <;> decide
  have hscope : event.code = Code.scopePublished ∨ event.code = Code.scopeUnpublished := by
    cases event <;> decide
  simp only [handleRequest, htype, hstrategy, hread, hcountS, length_scopeBytes _ _ _ hSlen,
    if_neg hmatch, if_pos hscope, Option.bind_eq_bind, Option.bind_some]
  exact hpubs

theorem handleRequest_match (tm : Manager) (fresh : Nat → UInt8) {r : MatchRequest}
    {m : TMIgraph.Matching NodeId} (hcount : I.length ≤ 255) (hI : ∀ ID ∈ I, Sendable ID)
    (hrequest : request = matchBytes strategy P S I ++ beyond)
    (hread : readMatch request len = some r) (hlen : len = r.ids_index + (idsBytes I).length)
    (h : request.drop r.ids_index = idsBytes I ++ beyond)
    (hm : calculateFIDs (tm.route r.ids_str) r.publishers r.subscribers = some m) :
    ∃ pubs, tm.handleRequest fresh request len = some pubs ∧
      List.Forall₂ (fun e pub => Tells e.1 (answer I e.2) pub) m.result pubs := by
  obtain ⟨pubs, hpubs, hall⟩ := notifyPublishers_eq tm fresh hcount hI h hlen m.result
  refine ⟨pubs, ?_, hall⟩
  have htype : request[0]? = some Code.matchPubSubs := by rw [hrequest]; rfl
  have hstrategy : request[1]? = some strategy := by rw [hrequest]; rfl
  simp only [handleRequest, htype, hstrategy, hread, hm, hpubs, if_true, Option.bind_eq_bind,
    Option.bind_some]

end Manager

end Blackadder
