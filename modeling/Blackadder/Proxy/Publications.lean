import Blackadder.Lib.Pool
import Blackadder.Lib.Wire
import Blackadder.Proxy.Names

/-!
# Publications and their packets

Three routines hand a packet over to the local subscribers and to the network. Who gets it is in a
table, and the last one gets the packet itself.
-/

namespace Blackadder

open Wire

namespace LocalProxy

/-- The packets of a publication, and what the outputs got. -/
abbrev DataPackets := Pool (List UInt8) ProxyOutput

namespace Objects

def pushDataToLocalSubscriber (x : DataPackets) (host : HostId) (ID : Id) (p : Nat) : Option DataPackets :=
  x.send p fun data => .deliver host ID data

def pushDataToRemoteSubscribers (x : DataPackets) (IDs : List Id) (FID : Bitvector) (p : Nat) :
    Option DataPackets :=
  x.send p fun data => .publish IDs FID data

/-- `p->clone()->uniqueify()`. -/
def copy (x : DataPackets) (p : Nat) : Option (Nat × DataPackets) := do
  let (q, x) ← x.clone p
  x.renew q some

def copyToRemoteSubscribers (x : DataPackets) (IDs : List Id) (FID : Bitvector) (p : Nat) :
    Option DataPackets := do
  let (q, x) ← copy x p
  pushDataToRemoteSubscribers x IDs FID q

/-- One turn of the loop over `localSubscribers`. -/
def turn (p size : Nat) : DataPackets × Nat → HostId × Id → Option (DataPackets × Nat)
  | (x, counter), (host, ID) => do
    if counter = size then
      let x ← pushDataToLocalSubscriber x host ID p
      return (x, counter + 1)
    else
      let (q, x) ← copy x p
      let x ← pushDataToLocalSubscriber x host ID q
      return (x, counter + 1)

def toSubscribers (x : DataPackets) (localSubscribers : List (HostId × Id)) (p : Nat) :
    Option DataPackets := do
  let (x, _) ← localSubscribers.foldlM (turn p localSubscribers.length) (x, 1)
  return x

/-- `foundLocalSubscribers` is true when the table has an entry. -/
def handleNetworkPublication (s : LocalProxy) (IDs : List Id) (x : DataPackets) (p : Nat) :
    Option DataPackets :=
  let localSubscribers := (s.findLocalSubscribers IDs).entries.map fun e => (e.1, e.2)
  if localSubscribers ≠ [] then toSubscribers x localSubscribers p else x.kill p

/-- The four cases of `handleUserPublication`, with the ids that the subscribers are looked up for. -/
def pushUser (s : LocalProxy) (ID : Id) (x : DataPackets) (p : Nat) (host : HostId)
    (ap : ActivePublication) (IDs : List Id) : Option DataPackets := do
  let remoteSubscribersExist : Bool := ¬ (ap.FIDToSubscribers = 0 ∨ ap.FIDToSubscribers = s.gc.iLID)
  let localSubscribers := ((s.findLocalSubscribers IDs).erase host).keys.map fun host => (host, ID)
  if localSubscribers.length = 0 ∧ remoteSubscribersExist = false then x.kill p
  else if localSubscribers.length = 0 ∧ remoteSubscribersExist = true then
    pushDataToRemoteSubscribers x IDs ap.FIDToSubscribers p
  else if localSubscribers.length > 0 ∧ remoteSubscribersExist = false then
    toSubscribers x localSubscribers p
  else
    let x ← copyToRemoteSubscribers x IDs ap.FIDToSubscribers p
    toSubscribers x localSubscribers p

def handleUserPublication (s : LocalProxy) (ID : Id) (x : DataPackets) (p : Nat) (host : HostId) :
    Option DataPackets :=
  match s.activePublicationIndex ID with
  | some ap => pushUser s ID x p host ap ap.allKnownIDs
  | none =>
    match s.activePublicationIndex (fatherOf ID) with
    | some ap => pushUser s ID x p host ap [ID]
    | none => x.kill p

def handleUserPublicationFID (s : LocalProxy) (ID : Id) (FID : Bitvector) (x : DataPackets) (p : Nat)
    (host : HostId) : Option DataPackets := do
  let fatherIDs := match s.activePublicationIndex (fatherOf ID) with
    | none => []
    | some ap => (ap.allKnownIDs.map (· ++ suffixOf ID)).filter (· ≠ ID)
  let IDs := fatherIDs ++ [ID]
  let localSubscribers := ((s.findLocalSubscribers IDs).erase host).keys.map fun host => (host, ID)
  if localSubscribers.length = 0 then pushDataToRemoteSubscribers x IDs FID p
  else
    let x ← (if s.gc.TMFID = some 0 ∨ s.gc.TMFID ≠ some FID then copyToRemoteSubscribers x IDs FID p
      else some x)
    toSubscribers x localSubscribers p

end Objects

/-! ## The packet -/

variable {s : LocalProxy} {x : DataPackets} {p : Nat} {data payload : List UInt8} {host g : HostId}
  {ID K : Id} {IDs : List Id} {l : List (HostId × Id)} {FID : Bitvector} {outs : List ProxyOutput}

namespace Objects

theorem copy_spec (hx : x.Owns [(p, data)]) :
    ∃ q x', copy x p = some (q, x') ∧ x'.Owns [(q, data), (p, data)] ∧ x'.out = x.out := by
  obtain ⟨q, x₁, h₁, hx₁, hout₁⟩ := hx.clone
  obtain ⟨q', x₂, h₂, hx₂, hout₂⟩ := hx₁.renew (f := some) rfl
  refine ⟨q', x₂, ?_, hx₂, hout₂.trans hout₁⟩
  simp only [copy, h₁, h₂, Option.bind_eq_bind, Option.bind_some]

/-- The packet is there until the last subscriber gets it. -/
theorem toSubscribers_spec (hne : l ≠ []) (hx : x.Owns [(p, data)]) :
    ∃ x', toSubscribers x l p = some x' ∧ x'.Owns [] ∧
      x'.out = x.out ++ l.map fun e => .deliver e.1 e.2 data := by
  have hpos := List.length_pos_of_ne_nil hne
  obtain ⟨⟨x', counter⟩, hrun, -, howns, hout⟩ := foldlM_all (l := l) (f := turn p l.length)
    (I := fun done s => s.2 = done.length + 1 ∧
      s.1.Owns (if done.length < l.length then [(p, data)] else []) ∧
      s.1.out = x.out ++ done.map fun e => .deliver e.1 e.2 data)
    (s := (x, 1)) ⟨rfl, (if_pos hpos).symm ▸ hx, by simp⟩ (by
      rintro done ⟨host, ID⟩ rest ⟨y, counter⟩ hl ⟨rfl, howns, hout⟩
      dsimp only at howns hout
      have hmore : done.length < l.length := by simp [hl]
      rw [if_pos hmore] at howns
      by_cases hlast : done.length + 1 = l.length
      · obtain ⟨y₁, h₁, hy₁, hout₁⟩ := howns.send fun data => .deliver host ID data
        refine ⟨(y₁, done.length + 1 + 1), ?_, by simp, ?_, ?_⟩
        · simp only [turn, hlast, if_true, pushDataToLocalSubscriber, h₁, Option.bind_eq_bind,
            Option.bind_some]
          rfl
        · rw [if_neg (by simp [hlast])]
          exact hy₁
        · simp [hout₁, hout]
      · obtain ⟨q, y₁, h₁, hy₁, hout₁⟩ := copy_spec howns
        obtain ⟨y₂, h₂, hy₂, hout₂⟩ := hy₁.send fun data => .deliver host ID data
        refine ⟨(y₂, done.length + 1 + 1), ?_, by simp, ?_, ?_⟩
        · simp only [turn, hlast, if_false, pushDataToLocalSubscriber, h₁, h₂, Option.bind_eq_bind,
            Option.bind_some]
          rfl
        · rw [if_pos (by rw [List.length_append, List.length_singleton]; omega)]
          exact hy₂
        · simp [hout₂, hout₁, hout])
  refine ⟨x', ?_, ?_, hout⟩
  · simp only [toSubscribers, hrun, Option.bind_eq_bind, Option.bind_some]
    rfl
  · rwa [if_neg (Nat.lt_irrefl _)] at howns

theorem both_spec (IDs : List Id) (FID : Bitvector) (hne : l ≠ []) (hx : x.Owns [(p, data)]) :
    ∃ x', ((copyToRemoteSubscribers x IDs FID p).bind fun x => toSubscribers x l p) = some x' ∧ x'.Owns [] ∧
      x'.out = x.out ++ .publish IDs FID data :: l.map fun e => .deliver e.1 e.2 data := by
  obtain ⟨q, x₁, h₁, hx₁, hout₁⟩ := copy_spec hx
  obtain ⟨x₂, h₂, hx₂, hout₂⟩ := hx₁.send fun data => ProxyOutput.publish IDs FID data
  obtain ⟨x₃, h₃, hx₃, hout₃⟩ := toSubscribers_spec hne hx₂
  refine ⟨x₃, ?_, hx₃, by simp [hout₃, hout₂, hout₁]⟩
  simp only [copyToRemoteSubscribers, h₁, pushDataToRemoteSubscribers, h₂, h₃, Option.bind_eq_bind,
    Option.bind_some]

theorem handleNetworkPublication_spec (s : LocalProxy) (IDs : List Id) (payload : List UInt8) :
    ∃ x', handleNetworkPublication s IDs (Pool.single payload) 0 = some x' ∧ x'.Owns [] ∧
      x'.out = s.handleNetworkPublication IDs payload := by
  have howns := Pool.owns_single (O := ProxyOutput) payload
  unfold handleNetworkPublication LocalProxy.handleNetworkPublication
  dsimp only
  split
  · next hne =>
    obtain ⟨x', hrun, hleft, hout⟩ := toSubscribers_spec hne howns
    exact ⟨x', hrun, hleft, by simp [hout, Pool.single]⟩
  · next hnil =>
    obtain ⟨x', hrun, hleft, hout⟩ := howns.kill
    refine ⟨x', hrun, hleft, ?_⟩
    have hentries : (s.findLocalSubscribers IDs).entries = [] := by simpa using hnil
    rw [hout, hentries]
    rfl

theorem pushUser_spec (s : LocalProxy) (ID : Id) (payload : List UInt8) (host : HostId)
    (ap : ActivePublication) (IDs : List Id) :
    ∃ x', pushUser s ID (Pool.single payload) 0 host ap IDs = some x' ∧ x'.Owns [] ∧
      x'.out = if ap.FIDToSubscribers = 0 ∨ ap.FIDToSubscribers = s.gc.iLID then
          ((s.findLocalSubscribers IDs).erase host).keys.map (fun host => .deliver host ID payload)
        else .publish IDs ap.FIDToSubscribers payload ::
          ((s.findLocalSubscribers IDs).erase host).keys.map (fun host => .deliver host ID payload) := by
  have howns := Pool.owns_single (O := ProxyOutput) payload
  unfold pushUser
  generalize ((s.findLocalSubscribers IDs).erase host).keys = hosts
  generalize hremote : decide (¬ (ap.FIDToSubscribers = 0 ∨ ap.FIDToSubscribers = s.gc.iLID)) = remote
  have hlen : (hosts.map fun host => (host, ID)).length = 0 ↔ hosts = [] := by simp
  have hpos : (hosts.map fun host => (host, ID)).length > 0 ↔ ¬ hosts = [] := by
    rw [← hlen]
    exact Nat.pos_iff_ne_zero
  simp only [hlen, hpos]
  cases remote with
  | false =>
    rw [if_pos (not_not.mp (of_decide_eq_false hremote))]
    by_cases hnil : hosts = []
    · obtain ⟨x', hrun, hleft, hout⟩ := howns.kill
      exact ⟨x', by simpa [hnil] using hrun, hleft, by simp [hout, hnil, Pool.single]⟩
    · obtain ⟨x', hrun, hleft, hout⟩ := toSubscribers_spec (mt List.map_eq_nil_iff.mp hnil) howns
      exact ⟨x', by simpa [hnil] using hrun, hleft, by simp [hout, Pool.single]⟩
  | true =>
    rw [if_neg (of_decide_eq_true hremote)]
    by_cases hnil : hosts = []
    · obtain ⟨x', hrun, hleft, hout⟩ := howns.send fun data => .publish IDs ap.FIDToSubscribers data
      refine ⟨x', ?_, hleft, by simp [hout, hnil, Pool.single]⟩
      simpa [hnil, pushDataToRemoteSubscribers] using hrun
    · obtain ⟨x', hrun, hleft, hout⟩ := both_spec IDs ap.FIDToSubscribers (mt List.map_eq_nil_iff.mp hnil) howns
      exact ⟨x', by simpa [hnil] using hrun, hleft, by simp [hout, Pool.single]⟩

theorem handleUserPublication_spec (s : LocalProxy) (ID : Id) (payload : List UInt8) (host : HostId) :
    ∃ x', handleUserPublication s ID (Pool.single payload) 0 host = some x' ∧ x'.Owns [] ∧
      x'.out = s.handleUserPublication ID payload host := by
  unfold handleUserPublication LocalProxy.handleUserPublication
  cases s.activePublicationIndex ID with
  | some ap => exact pushUser_spec s ID payload host ap ap.allKnownIDs
  | none =>
    cases s.activePublicationIndex (fatherOf ID) with
    | some ap => exact pushUser_spec s ID payload host ap [ID]
    | none => exact (Pool.owns_single payload).kill

theorem handleUserPublicationFID_spec (s : LocalProxy) (ID : Id) (FID : Bitvector) (payload : List UInt8)
    (host : HostId) :
    ∃ x', handleUserPublicationFID s ID FID (Pool.single payload) 0 host = some x' ∧ x'.Owns [] ∧
      x'.out = s.handleUserPublicationFID ID FID payload host := by
  have howns := Pool.owns_single (O := ProxyOutput) payload
  unfold handleUserPublicationFID LocalProxy.handleUserPublicationFID
  dsimp only
  generalize (match s.activePublicationIndex (fatherOf ID) with
    | none => []
    | some ap => (ap.allKnownIDs.map (· ++ suffixOf ID)).filter (· ≠ ID)) ++ [ID] = IDs
  generalize ((s.findLocalSubscribers IDs).erase host).keys = hosts
  have hlen : (hosts.map fun host => (host, ID)).length = 0 ↔ hosts = [] := by simp
  simp only [hlen]
  by_cases hnil : hosts = []
  · obtain ⟨x', hrun, hleft, hout⟩ := howns.send fun data => .publish IDs FID data
    refine ⟨x', (if_pos hnil).trans hrun, hleft, ?_⟩
    rw [if_pos (Or.inl hnil), hout, hnil]
    rfl
  have hne := mt (List.map_eq_nil_iff (f := fun host => (host, ID))).mp hnil
  rw [if_neg hnil]
  by_cases hremote : s.gc.TMFID = some 0 ∨ s.gc.TMFID ≠ some FID
  · rw [if_pos hremote, if_pos (Or.inr hremote)]
    obtain ⟨x', hrun, hleft, hout⟩ := both_spec IDs FID hne howns
    exact ⟨x', hrun, hleft, by simp [hout, Pool.single]⟩
  · rw [if_neg hremote, if_neg (not_or.mpr ⟨hnil, hremote⟩)]
    obtain ⟨x', hrun, hleft, hout⟩ := toSubscribers_spec hne howns
    exact ⟨x', hrun, hleft, by simp [hout, Pool.single]⟩

end Objects

/-! ## The table -/

def SubscribedTo (s : LocalProxy) (host : HostId) (X : Id) : Prop :=
  ∃ sub, s.activeSubscriptionIndex X = some sub ∧ host ∈ sub.subscribers

/-- To the item, or to the scope that it is in. -/
def Subscribed (s : LocalProxy) (host : HostId) (ID : Id) : Prop :=
  s.SubscribedTo host ID ∨ s.SubscribedTo host (fatherOf ID)

variable {found : LocalHostStringHashMap} {X : Id}

theorem lookup_foldl_insert (hosts : List HostId) (found : LocalHostStringHashMap) (knownID : Id) :
    (hosts.foldl (fun found host => found.insert host knownID) found).lookup g =
      if g ∈ hosts then some knownID else found.lookup g := by
  induction hosts generalizing found with
  | nil => simp
  | cons host hosts ih =>
    rw [List.foldl_cons, ih]
    by_cases hg : g ∈ hosts
    · rw [if_pos hg, if_pos (List.mem_cons_of_mem _ hg)]
    · by_cases hsame : g = host
      · subst hsame
        simp [hg]
      · rw [if_neg hg, AList.lookup_insert_ne hsame, if_neg (by simp [hg, hsame])]

theorem lookup_addSubscribers_of_pos (h : s.SubscribedTo g X) :
    (s.addSubscribers ID X found).lookup g = some ID := by
  obtain ⟨sub, hsub, hg⟩ := h
  rw [addSubscribers, hsub]
  exact (lookup_foldl_insert _ _ _).trans (if_pos hg)

theorem lookup_addSubscribers_of_neg (h : ¬ s.SubscribedTo g X) :
    (s.addSubscribers ID X found).lookup g = found.lookup g := by
  unfold addSubscribers
  split
  · rfl
  · next sub hsub => exact (lookup_foldl_insert _ _ _).trans (if_neg fun hg => h ⟨sub, hsub, hg⟩)

/-- A host is in the table with an id that it is subscribed to, if there is one. -/
theorem lookup_findLocalSubscribers (s : LocalProxy) (IDs : List Id) (g : HostId) :
    (∃ K ∈ IDs, s.Subscribed g K ∧ (s.findLocalSubscribers IDs).lookup g = some K) ∨
    ((∀ K ∈ IDs, ¬ s.Subscribed g K) ∧ (s.findLocalSubscribers IDs).lookup g = none) := by
  suffices ∀ found : LocalHostStringHashMap,
      (∃ K ∈ IDs, s.Subscribed g K ∧ (IDs.foldl (fun found knownID => s.addSubscribers knownID
        (fatherOf knownID) (s.addSubscribers knownID knownID found)) found).lookup g = some K) ∨
      ((∀ K ∈ IDs, ¬ s.Subscribed g K) ∧ (IDs.foldl (fun found knownID => s.addSubscribers knownID
        (fatherOf knownID) (s.addSubscribers knownID knownID found)) found).lookup g = found.lookup g) from
    this ∅
  induction IDs with
  | nil => exact fun found => Or.inr ⟨nofun, rfl⟩
  | cons ID IDs ih =>
    intro found
    rw [List.foldl_cons]
    rcases ih (s.addSubscribers ID (fatherOf ID) (s.addSubscribers ID ID found)) with
      ⟨K, hK, hsub, hlookup⟩ | ⟨hnone, hlookup⟩
    · exact Or.inl ⟨K, List.mem_cons_of_mem _ hK, hsub, hlookup⟩
    · rw [hlookup]
      by_cases hfather : s.SubscribedTo g (fatherOf ID)
      · exact Or.inl ⟨ID, List.mem_cons_self, Or.inr hfather, lookup_addSubscribers_of_pos hfather⟩
      · rw [lookup_addSubscribers_of_neg hfather]
        by_cases hitem : s.SubscribedTo g ID
        · exact Or.inl ⟨ID, List.mem_cons_self, Or.inl hitem, lookup_addSubscribers_of_pos hitem⟩
        · rw [lookup_addSubscribers_of_neg hitem]
          exact Or.inr ⟨List.forall_mem_cons.mpr ⟨not_or.mpr ⟨hitem, hfather⟩, hnone⟩, rfl⟩

theorem mem_findLocalSubscribers :
    g ∈ (s.findLocalSubscribers IDs).keys ↔ ∃ K ∈ IDs, s.Subscribed g K := by
  rw [← AList.mem_keys, ← AList.lookup_isSome]
  rcases s.lookup_findLocalSubscribers IDs g with ⟨K, hK, hsub, hlookup⟩ | ⟨hnone, hlookup⟩
  · simpa [hlookup] using ⟨K, hK, hsub⟩
  · simpa [hlookup] using hnone

theorem lookup_findLocalSubscribers_some (h : (s.findLocalSubscribers IDs).lookup g = some K) :
    K ∈ IDs ∧ s.Subscribed g K := by
  rcases s.lookup_findLocalSubscribers IDs g with ⟨K', hK', hsub, hlookup⟩ | ⟨-, hlookup⟩
  · obtain rfl := Option.some.inj (hlookup.symm.trans h)
    exact ⟨hK', hsub⟩
  · rw [hlookup] at h
    cases h

/-! ## What is delivered -/

/-- The host that gets an output with data. -/
def receiver : ProxyOutput → Option HostId
  | .deliver host _ _ => some host
  | _ => none

def isPublish : ProxyOutput → Bool
  | .publish _ _ _ => true
  | _ => false

/-- Each subscriber but the publisher gets the data once, with an id that it is subscribed to, and the
network gets it at most once. -/
structure Delivered (s : LocalProxy) (publisher : Option HostId) (IDs : List Id) (payload : List UInt8)
    (outs : List ProxyOutput) : Prop where
  receivers : ∀ g, g ∈ outs.filterMap receiver ↔
    publisher ≠ some g ∧ ∃ K ∈ IDs, s.Subscribed g K
  once : (outs.filterMap receiver).Nodup
  names : ∀ g K data, .deliver g K data ∈ outs → data = payload ∧ K ∈ IDs ∧ s.Subscribed g K
  network : outs.countP isPublish ≤ 1
  published : ∀ ids FID data, .publish ids FID data ∈ outs → data = payload ∧ ids = IDs

theorem filterMap_receiver_deliver (l : List (HostId × Id)) (payload : List UInt8) :
    (l.map fun e => ProxyOutput.deliver e.1 e.2 payload).filterMap receiver = l.map Prod.fst := by
  rw [List.filterMap_map, ← List.filterMap_eq_map]
  rfl

theorem countP_deliver (l : List (HostId × Id)) (payload : List UInt8) :
    (l.map fun e => ProxyOutput.deliver e.1 e.2 payload).countP isPublish = 0 := by
  rw [List.countP_eq_zero]
  intro o ho
  obtain ⟨e, -, rfl⟩ := List.mem_map.mp ho
  simp [isPublish]

theorem handleNetworkPublication_delivered (s : LocalProxy) (IDs : List Id) (payload : List UInt8) :
    s.Delivered none IDs payload (s.handleNetworkPublication IDs payload) := by
  have houts : s.handleNetworkPublication IDs payload =
      ((s.findLocalSubscribers IDs).entries.map fun e => (e.1, e.2)).map
        fun e => .deliver e.1 e.2 payload := by
    rw [handleNetworkPublication, List.map_map]
    rfl
  have hkeys : ((s.findLocalSubscribers IDs).entries.map fun e => (e.1, e.2)).map Prod.fst =
      (s.findLocalSubscribers IDs).keys := by
    rw [List.map_map]
    rfl
  rw [houts]
  refine ⟨fun g => ?_, ?_, fun g K data h => ?_, ?_, fun ids FID data h => ?_⟩
  · rw [filterMap_receiver_deliver, hkeys, mem_findLocalSubscribers]
    simp
  · rw [filterMap_receiver_deliver, hkeys]
    exact AList.keys_nodup _
  · obtain ⟨e, he, heq⟩ := List.mem_map.mp h
    obtain ⟨e', he', rfl⟩ := List.mem_map.mp he
    injection heq with hg hK hdata
    subst hg hK hdata
    exact ⟨rfl, lookup_findLocalSubscribers_some (AList.mem_lookup_iff.mpr he')⟩
  · rw [countP_deliver]
    exact Nat.zero_le 1
  · obtain ⟨e, -, heq⟩ := List.mem_map.mp h
    cases heq

/-- Nobody is subscribed to a local publication under another id only. -/
def SameName (s : LocalProxy) (host : HostId) (ID : Id) (IDs : List Id) : Prop :=
  ∀ g ≠ host, (∃ K ∈ IDs, s.Subscribed g K) → ID ∈ IDs ∧ s.Subscribed g ID

/-- A routine that names the published id in each copy. -/
theorem delivered_iff_named (FID : Bitvector) {hosts : List HostId} {before : List ProxyOutput}
    (hbefore : before = [] ∨ before = [.publish IDs FID payload]) (hnodup : hosts.Nodup)
    (hhosts : ∀ g, g ∈ hosts ↔ g ≠ host ∧ ∃ K ∈ IDs, s.Subscribed g K) :
    s.Delivered (some host) IDs payload (before ++ hosts.map fun g => .deliver g ID payload) ↔
      s.SameName host ID IDs := by
  have hmap : (hosts.map fun g => ProxyOutput.deliver g ID payload) =
      (hosts.map fun g => (g, ID)).map fun e => .deliver e.1 e.2 payload := by
    rw [List.map_map]
    rfl
  have hfirst : before.filterMap receiver = [] ∧ before.countP isPublish ≤ 1 ∧
      (∀ g K data, .deliver g K data ∉ before) ∧
      ∀ ids FID data, .publish ids FID data ∈ before → data = payload ∧ ids = IDs := by
    rcases hbefore with rfl | rfl
    · simp
    · refine ⟨rfl, le_rfl, by simp, fun ids FID data h => ?_⟩
      injection List.mem_singleton.mp h with hids _ hdata
      exact ⟨hdata, hids⟩
  obtain ⟨hnone, hcount, hquiet, hdata⟩ := hfirst
  have hreceivers : (before ++ hosts.map fun g => ProxyOutput.deliver g ID payload).filterMap receiver =
      hosts := by
    rw [List.filterMap_append, hnone, hmap, filterMap_receiver_deliver, List.map_map]
    exact List.map_id _
  constructor
  · intro h g hne hsub
    have hin : ProxyOutput.deliver g ID payload ∈
        before ++ hosts.map fun g => ProxyOutput.deliver g ID payload :=
      List.mem_append_right _ (List.mem_map_of_mem ((hhosts g).mpr ⟨hne, hsub⟩))
    exact (h.names g ID payload hin).2
  · intro h
    refine ⟨fun g => ?_, ?_, fun g K data hin => ?_, ?_, fun ids FID data hin => ?_⟩
    · rw [hreceivers, hhosts g, ne_comm, Ne, Ne, Option.some_inj]
    · rwa [hreceivers]
    · rcases List.mem_append.mp hin with hin | hin
      · exact absurd hin (hquiet g K data)
      · obtain ⟨g', hg', heq⟩ := List.mem_map.mp hin
        injection heq with hg hK hdata
        subst hg hK hdata
        obtain ⟨hne, hsub⟩ := (hhosts g').mp hg'
        exact ⟨rfl, h g' hne hsub⟩
    · rw [List.countP_append, hmap, countP_deliver]
      exact hcount
    · rcases List.mem_append.mp hin with hin | hin
      · exact hdata ids FID data hin
      · obtain ⟨g', -, heq⟩ := List.mem_map.mp hin
        cases heq

theorem mem_keys_erase (host g : HostId) :
    g ∈ ((s.findLocalSubscribers IDs).erase host).keys ↔ g ≠ host ∧ ∃ K ∈ IDs, s.Subscribed g K := by
  rw [← AList.mem_keys, AList.mem_erase, AList.mem_keys, mem_findLocalSubscribers]

/-- The three routines. -/
inductive Handling
  | network (IDs : List Id)
  | user (ID : Id) (host : HostId)
  | userFID (ID : Id) (FID : Bitvector) (host : HostId)

namespace Handling

/-- The ids that an item is known under. -/
def knownIDs (s : LocalProxy) : Handling → List Id
  | network IDs => IDs
  | user ID _ =>
    match s.activePublicationIndex ID with
    | some ap => ap.allKnownIDs
    | none => match s.activePublicationIndex (fatherOf ID) with
      | some _ => [ID]
      | none => []
  | userFID ID _ _ => (match s.activePublicationIndex (fatherOf ID) with
    | none => []
    | some ap => (ap.allKnownIDs.map (· ++ suffixOf ID)).filter (· ≠ ID)) ++ [ID]

def publisher : Handling → Option HostId
  | network _ => none
  | user _ host => some host
  | userFID _ _ host => some host

def run (s : LocalProxy) (payload : List UInt8) : Handling → Option DataPackets
  | network IDs => Objects.handleNetworkPublication s IDs (Pool.single payload) 0
  | user ID host => Objects.handleUserPublication s ID (Pool.single payload) 0 host
  | userFID ID FID host => Objects.handleUserPublicationFID s ID FID (Pool.single payload) 0 host

def SameName (s : LocalProxy) : Handling → Prop
  | network _ => True
  | user ID host => s.SameName host ID ((user ID host).knownIDs s)
  | userFID ID FID host => s.SameName host ID ((userFID ID FID host).knownIDs s)

end Handling

theorem publish_delivered {c : Prop} [Decidable c] (IDs : List Id) (FID : Bitvector) :
    s.Delivered (some host) IDs payload
      (if c then ((s.findLocalSubscribers IDs).erase host).keys.map (fun g => .deliver g ID payload)
        else .publish IDs FID payload ::
          ((s.findLocalSubscribers IDs).erase host).keys.map (fun g => .deliver g ID payload)) ↔
      s.SameName host ID IDs := by
  split
  · exact delivered_iff_named FID (Or.inl rfl) (AList.keys_nodup _) (mem_keys_erase host)
  · exact delivered_iff_named FID (Or.inr rfl) (AList.keys_nodup _) (mem_keys_erase host)

theorem handleUserPublication_delivered (s : LocalProxy) (ID : Id) (payload : List UInt8) (host : HostId) :
    s.Delivered (some host) ((Handling.user ID host).knownIDs s) payload
      (s.handleUserPublication ID payload host) ↔ (Handling.user ID host).SameName s := by
  cases hap : s.activePublicationIndex ID with
  | some ap =>
    simp only [Handling.SameName, Handling.knownIDs, handleUserPublication, hap]
    exact publish_delivered ap.allKnownIDs ap.FIDToSubscribers
  | none =>
    cases hfather : s.activePublicationIndex (fatherOf ID) with
    | some ap =>
      simp only [Handling.SameName, Handling.knownIDs, handleUserPublication, hap, hfather]
      exact publish_delivered [ID] ap.FIDToSubscribers
    | none =>
      simp only [Handling.SameName, Handling.knownIDs, handleUserPublication, hap, hfather]
      exact delivered_iff_named 0 (Or.inl rfl) List.nodup_nil (by simp)

theorem handleUserPublicationFID_delivered (s : LocalProxy) (ID : Id) (FID : Bitvector)
    (payload : List UInt8) (host : HostId) :
    s.Delivered (some host) ((Handling.userFID ID FID host).knownIDs s) payload
      (s.handleUserPublicationFID ID FID payload host) ↔ (Handling.userFID ID FID host).SameName s := by
  unfold Handling.SameName Handling.knownIDs handleUserPublicationFID
  dsimp only
  rw [← ite_not]
  exact publish_delivered _ FID

/-- The packet is used once, and the two copies of `handleUserPublication` do the same as
`handleNetworkPublication` if and only if the id of the publisher is good for everybody. -/
theorem delivered_iff (s : LocalProxy) (h : Handling) (payload : List UInt8) :
    ∃ x', h.run s payload = some x' ∧ x'.Owns [] ∧
      (s.Delivered h.publisher (h.knownIDs s) payload x'.out ↔ h.SameName s) := by
  cases h with
  | network IDs =>
    obtain ⟨x', hrun, hleft, hout⟩ := Objects.handleNetworkPublication_spec s IDs payload
    exact ⟨x', hrun, hleft, iff_of_true (hout ▸ s.handleNetworkPublication_delivered IDs payload) trivial⟩
  | user ID host =>
    obtain ⟨x', hrun, hleft, hout⟩ := Objects.handleUserPublication_spec s ID payload host
    exact ⟨x', hrun, hleft, hout ▸ s.handleUserPublication_delivered ID payload host⟩
  | userFID ID FID host =>
    obtain ⟨x', hrun, hleft, hout⟩ := Objects.handleUserPublicationFID_spec s ID FID payload host
    exact ⟨x', hrun, hleft, hout ▸ s.handleUserPublicationFID_delivered ID FID payload host⟩

/-- An application publishes an item that is known under two names, and another one is subscribed to
the second. -/
def twoAliases : LocalProxy :=
  ((((init exampleConf).publishesName 1 2).handleRVNotification
    (.startPublish [frag 1 ++ frag 2, frag 5 ++ frag 6] 1)).1.pushRequest .localProcess 2
      ⟨.subscribeInfo, frag 6, frag 5, domainLocal⟩).1

theorem reachable_twoAliases : twoAliases.Reachable :=
  (((reachable_init exampleConf).request .localProcess _ (by decide)).notification _).request
    .localProcess _ (by decide)

/-- It gets the data under the first name. -/
theorem not_delivered : ∃ s ID host payload x', s.Reachable ∧
    (Handling.user ID host).run s payload = some x' ∧
    ¬ s.Delivered (some host) ((Handling.user ID host).knownIDs s) payload x'.out := by
  obtain ⟨x', hrun, -, hout⟩ := Objects.handleUserPublication_spec twoAliases (frag 1 ++ frag 2) [7] 1
  refine ⟨twoAliases, frag 1 ++ frag 2, 1, [7], x', reachable_twoAliases, hrun, fun h => ?_⟩
  have hin : .deliver 2 (frag 1 ++ frag 2) [7] ∈ x'.out := by
    rw [hout]
    decide +kernel
  obtain ⟨-, -, hsub⟩ := h.names _ _ _ hin
  have hnone : (twoAliases.activeSubscriptionIndex (frag 1 ++ frag 2)).isNone = true ∧
      (twoAliases.activeSubscriptionIndex (fatherOf (frag 1 ++ frag 2))).isNone = true := by
    decide +kernel
  rw [Option.isNone_iff_eq_none, Option.isNone_iff_eq_none] at hnone
  rcases hsub with ⟨sub, hindex, -⟩ | ⟨sub, hindex, -⟩
  · rw [hnone.1] at hindex
    cases hindex
  · rw [hnone.2] at hindex
    cases hindex

end LocalProxy

end Blackadder
