import Blackadder.Api.Requests

/-!
# Messages to the topology manager

The rendezvous element publishes them as any other publisher, under the scope of its manager.
The hosts and the ids come in the order in which the hash tables are walked.
-/

namespace Blackadder

open Wire (blit store)
open LocalProxy (room)

/-- The `memcpy` of one string behind the other, and how many bytes that makes. -/
def putLabels (p : List UInt8) (k : Nat) (labels : List NodeId) : Option (List UInt8 × Nat) :=
  labels.foldlM (fun (p, index) label => do
    let p ← blit p (k + index) label
    return (p, index + label.length)) (p, 0)

/-- The loop over the ids of a message. -/
def putIDs (p : List UInt8) (k : Nat) (IDs : List Id) : Option (List UInt8 × Nat) :=
  IDs.foldlM (fun (p, index) ID => do
    -- the cast is done before the division
    let IDLength := UInt8.ofNat (ID.length % 256 / pursuitIdLen)
    let p ← store p (k + index) IDLength
    let p ← blit p (k + index + 1) ID
    return (p, index + (1 + ID.length))) (p, 0)

namespace LocalRV

/-- `IDs_total_bytes`, an `unsigned char`. -/
def IDsTotalBytes (IDs : List Id) : UInt8 :=
  IDs.foldl (fun total ID => total + UInt8.ofNat ID.length) 0

/-- What both functions write "For the API". -/
def putAPI (gc : GlobalConf) (p : List UInt8) : Option (List UInt8) := do
  let TMFID ← gc.TMFID
  let p ← store p 0 Code.publishData
  let p ← store p 1 2
  let p ← blit p (1 + 1) gc.nodeTMScope
  let p ← store p (1 + 1 + gc.nodeTMScope.length) implicitRendezvous
  blit p (1 + 1 + gc.nodeTMScope.length + 1) TMFID.data

def requestTMAssistanceForRendezvous (fresh : Nat → UInt8) (gc : GlobalConf) (strategy : Strategy)
    (publishers subscribers : List NodeId) (IDs : List Id) : Option (List UInt8) := do
  let packet_len := 1 + 1 + 2 * pursuitIdLen + 1 + fidLen + 1 + 1 + 1 + publishers.length * nodeIDLen +
    1 + subscribers.length * nodeIDLen + 1 + IDs.length * 1 + (IDsTotalBytes IDs).toNat
  let p ← putAPI gc (room fresh packet_len [])
  let k := 1 + 1 + gc.nodeTMScope.length + 1 + fidLen
  let p ← store p k Code.matchPubSubs
  let p ← store p (k + 1) strategy
  let p ← store p (k + 1 + 1) (UInt8.ofNat publishers.length)
  let (p, publisher_index) ← putLabels p (k + 1 + 1 + 1) publishers
  let p ← store p (k + 1 + 1 + 1 + publisher_index) (UInt8.ofNat subscribers.length)
  let (p, subscriber_index) ← putLabels p (k + 1 + 1 + 1 + publisher_index + 1) subscribers
  let p ← store p (k + 1 + 1 + 1 + publisher_index + 1 + subscriber_index) (UInt8.ofNat IDs.length)
  let (p, _) ← putIDs p (k + 1 + 1 + 1 + publisher_index + 1 + subscriber_index + 1) IDs
  return p

def requestTMAssistanceForNotifyingSubscribers (fresh : Nat → UInt8) (gc : GlobalConf)
    (request_type : UInt8) (IDs : List Id) (subscribers : List NodeId) (strategy : Strategy) :
    Option (List UInt8) := do
  let packet_len := 1 + 1 + gc.nodeTMScope.length + 1 + fidLen + 1 + 1 + 1 +
    subscribers.length * nodeIDLen + 1 + IDs.length * 1 + (IDsTotalBytes IDs).toNat
  let p ← putAPI gc (room fresh packet_len [])
  let k := 1 + 1 + gc.nodeTMScope.length + 1 + fidLen
  let p ← store p k request_type
  let p ← store p (k + 1) strategy
  let p ← store p (k + 1 + 1) (UInt8.ofNat subscribers.length)
  let (p, subscriber_index) ← putLabels p (k + 1 + 1 + 1) subscribers
  let p ← store p (k + 1 + 1 + 1 + subscriber_index) (UInt8.ofNat IDs.length)
  let (p, _) ← putIDs p (k + 1 + 1 + 1 + subscriber_index + 1) IDs
  return p

end LocalRV

open Wire

variable {p pre post : List UInt8} {L publishers subscribers : List NodeId} {I IDs : List Id}
  {ID : Id} {k n : Nat} {gc : GlobalConf} {TMFID : Bitvector} {fresh : Nat → UInt8}
  {request_type : UInt8} {strategy : Strategy}

/-! ## What the loops write -/

theorem putLabels_eq (p : List UInt8) (k : Nat) (L : List NodeId) :
    putLabels p k L = (appendAll p k L).map fun p => (p, L.flatten.length) := by
  have hloop := foldlM_appendAll (k := k) (b := p) (l := L) (f := fun (p, index) label => do
      let p ← blit p (k + index) label
      return (p, index + label.length)) (fun label => [label]) (fun p i label => by
        simp only [appendAll, Option.bind_fun_some, List.flatten_singleton]
        cases blit p (k + i) label <;> rfl) 0
  simpa [putLabels, List.flatMap_singleton'] using hloop

/-- An id as the loop writes it. -/
def castBytes (ID : Id) : List UInt8 := UInt8.ofNat (ID.length % 256 / pursuitIdLen) :: ID

def idParts (IDs : List Id) : List (List UInt8) :=
  IDs.flatMap fun ID => [[UInt8.ofNat (ID.length % 256 / pursuitIdLen)], ID]

theorem flatten_idParts (IDs : List Id) : (idParts IDs).flatten = IDs.flatMap castBytes := by
  induction IDs with
  | nil => rfl
  | cons ID IDs ih => simpa [idParts, castBytes] using ih

theorem putIDs_eq (p : List UInt8) (k : Nat) (I : List Id) :
    putIDs p k I = (appendAll p k (idParts I)).map fun p => (p, (I.flatMap castBytes).length) := by
  have hloop := foldlM_appendAll (k := k) (b := p) (l := I) (f := fun (p, index) ID => do
      let IDLength := UInt8.ofNat (ID.length % 256 / pursuitIdLen)
      let p ← store p (k + index) IDLength
      let p ← blit p (k + index + 1) ID
      return (p, index + (1 + ID.length)))
    (fun ID => [[UInt8.ofNat (ID.length % 256 / pursuitIdLen)], ID]) (fun p i ID => by
        simp only [appendAll, store, Option.bind_fun_some, Option.map_bind]
        cases blit p (k + i) [UInt8.ofNat (ID.length % 256 / pursuitIdLen)] with
        | none => rfl
        | some p =>
          simp only [Option.bind_eq_bind, Option.bind_some, List.length_singleton, Function.comp_apply]
          cases blit p (k + i + 1) ID with
          | none => rfl
          | some p => simp [Nat.add_comm 1]) 0
  rw [← flatten_idParts]
  simpa [putIDs, idParts] using hloop

/-- The length of an id that is short enough is not changed by the cast. -/
theorem castBytes_eq (h : ID.length < 256) : castBytes ID = idBytes ID := by
  rw [castBytes, idBytes, fragments, Nat.mod_eq_of_lt h]

theorem flatMap_castBytes (h : ∀ ID ∈ I, ID.length < 256) : I.flatMap castBytes = I.flatMap idBytes :=
  List.flatMap_congr fun ID hID => castBytes_eq (h ID hID)

theorem length_flatMap_castBytes (I : List Id) :
    (I.flatMap castBytes).length = I.length + I.flatten.length := by
  induction I with
  | nil => rfl
  | cons ID I ih =>
    simp only [List.flatMap_cons, List.length_append, ih, castBytes, List.length_cons, List.flatten_cons]
    omega

/-! ## The messages -/

/-- A number of labels and the labels. -/
def labelsBytes (labels : List NodeId) : List UInt8 := UInt8.ofNat labels.length :: labels.flatten

/-- A number of ids and the ids. -/
def idsBytes (IDs : List Id) : List UInt8 := UInt8.ofNat IDs.length :: IDs.flatMap idBytes

def matchBytes (strategy : Strategy) (publishers subscribers : List NodeId) (IDs : List Id) :
    List UInt8 :=
  [Code.matchPubSubs, strategy] ++ labelsBytes publishers ++ labelsBytes subscribers ++ idsBytes IDs

def scopeBytes (request_type : UInt8) (strategy : Strategy) (subscribers : List NodeId)
    (IDs : List Id) : List UInt8 :=
  [request_type, strategy] ++ labelsBytes subscribers ++ idsBytes IDs

/-- A publication of an element: the id, the strategy and the forwarding identifier in front. -/
def publicationBytes (ID : Id) (FID : Bitvector) (payload : List UInt8) : List UInt8 :=
  [Code.publishData] ++ idBytes ID ++ [implicitRendezvous] ++ FID.data ++ payload

theorem length_flatten (hL : ∀ l ∈ L, l.length = nodeIDLen) :
    L.flatten.length = L.length * nodeIDLen := by
  rw [List.length_flatten, List.map_congr_left hL, List.map_const', List.sum_replicate_nat]

theorem length_nodeTMScope (hgc : gc.nodeID.length = nodeIDLen) : gc.nodeTMScope.length = 16 := by
  simp [GlobalConf.nodeTMScope, GlobalConf.TMScope, hgc, nodeIDLen]

theorem fragments_nodeTMScope (hgc : gc.nodeID.length = nodeIDLen) : fragments gc.nodeTMScope = 2 := by
  rw [fragments, length_nodeTMScope hgc]
  rfl

theorem toNat_IDsTotalBytes (IDs : List Id) :
    (LocalRV.IDsTotalBytes IDs).toNat = IDs.flatten.length % 256 := by
  suffices ∀ total : UInt8, (IDs.foldl (fun t ID => t + UInt8.ofNat ID.length) total) =
      total + UInt8.ofNat IDs.flatten.length by
    rw [LocalRV.IDsTotalBytes, this, UInt8.zero_add, UInt8.toNat_ofNat']
  induction IDs with
  | nil => simp
  | cons ID IDs ih =>
    intro total
    rw [List.foldl_cons, ih, List.flatten_cons, List.length_append, UInt8.ofNat_add,
      UInt8.add_assoc]

/-- What both functions write first. -/
def apiParts (gc : GlobalConf) (TMFID : Bitvector) : List (List UInt8) :=
  [[Code.publishData], [2], gc.nodeTMScope, [implicitRendezvous], TMFID.data]

theorem putAPI_eq (hTM : gc.TMFID = some TMFID) (p : List UInt8) :
    LocalRV.putAPI gc p = appendAll p 0 (apiParts gc TMFID) := by
  simp only [LocalRV.putAPI, hTM, apiParts, appendAll, store, Option.bind_eq_bind, Option.bind_some,
    List.length_singleton, Nat.zero_add, Option.bind_fun_some]

theorem length_apiParts :
    (apiParts gc TMFID).flatten.length = 1 + 1 + gc.nodeTMScope.length + 1 + fidLen := by
  simp [apiParts, fidLen]
  omega

theorem flatten_apiParts (hgc : gc.nodeID.length = nodeIDLen) :
    (apiParts gc TMFID).flatten = publicationBytes gc.nodeTMScope TMFID [] := by
  simp [apiParts, publicationBytes, idBytes, fragments_nodeTMScope hgc]

def matchParts (gc : GlobalConf) (TMFID : Bitvector) (strategy : Strategy)
    (publishers subscribers : List NodeId) (IDs : List Id) : List (List UInt8) :=
  apiParts gc TMFID ++ ([[Code.matchPubSubs], [strategy], [UInt8.ofNat publishers.length]] ++
    (publishers ++ ([[UInt8.ofNat subscribers.length]] ++
      (subscribers ++ ([[UInt8.ofNat IDs.length]] ++ idParts IDs)))))

theorem requestTMAssistanceForRendezvous_parts (hTM : gc.TMFID = some TMFID) :
    LocalRV.requestTMAssistanceForRendezvous fresh gc strategy publishers subscribers IDs =
      appendAll (room fresh (1 + 1 + 2 * pursuitIdLen + 1 + fidLen + 1 + 1 + 1 +
        publishers.length * nodeIDLen + 1 + subscribers.length * nodeIDLen + 1 + IDs.length * 1 +
        (LocalRV.IDsTotalBytes IDs).toNat) []) 0
        (matchParts gc TMFID strategy publishers subscribers IDs) := by
  simp only [matchParts, LocalRV.requestTMAssistanceForRendezvous, putAPI_eq hTM, putLabels_eq,
    putIDs_eq, appendAll_append, length_apiParts, Option.bind_eq_bind, appendAll, store, Nat.zero_add,
    List.length_singleton, List.flatten_cons, List.flatten_nil, List.length_append, List.length_nil,
    Option.bind_assoc, Option.bind_map, Function.comp_def, pure, Option.bind_fun_some, Nat.add_zero,
    Nat.add_assoc]

def scopeParts (gc : GlobalConf) (TMFID : Bitvector) (request_type : UInt8) (strategy : Strategy)
    (subscribers : List NodeId) (IDs : List Id) : List (List UInt8) :=
  apiParts gc TMFID ++ ([[request_type], [strategy], [UInt8.ofNat subscribers.length]] ++
    (subscribers ++ ([[UInt8.ofNat IDs.length]] ++ idParts IDs)))

theorem requestTMAssistanceForNotifyingSubscribers_parts (hTM : gc.TMFID = some TMFID) :
    LocalRV.requestTMAssistanceForNotifyingSubscribers fresh gc request_type IDs subscribers strategy =
      appendAll (room fresh (1 + 1 + gc.nodeTMScope.length + 1 + fidLen + 1 + 1 + 1 +
        subscribers.length * nodeIDLen + 1 + IDs.length * 1 + (LocalRV.IDsTotalBytes IDs).toNat) []) 0
        (scopeParts gc TMFID request_type strategy subscribers IDs) := by
  simp only [scopeParts, LocalRV.requestTMAssistanceForNotifyingSubscribers, putAPI_eq hTM,
    putLabels_eq, putIDs_eq, appendAll_append, length_apiParts, Option.bind_eq_bind, appendAll, store,
    Nat.zero_add, List.length_singleton, List.flatten_cons, List.flatten_nil, List.length_append,
    List.length_nil, Option.bind_assoc, Option.bind_map, Function.comp_def, pure, Option.bind_fun_some,
    Nat.add_zero, Nat.add_assoc]

/-- The bounds under which the message is written without a loss. -/
structure Fits (IDs : List Id) (nodes : List NodeId) : Prop where
  hosts : ∀ l ∈ nodes, l.length = nodeIDLen
  hostCount : nodes.length ≤ 255
  whole : ∀ ID ∈ IDs, pursuitIdLen ∣ ID.length
  short : ∀ ID ∈ IDs, ID.length < 32 * pursuitIdLen
  idCount : IDs.length ≤ 255
  total : IDs.flatten.length < 256

theorem requestTMAssistanceForRendezvous_eq (hgc : gc.nodeID.length = nodeIDLen)
    (hTM : gc.TMFID = some TMFID) (hpubs : ∀ l ∈ publishers, l.length = nodeIDLen)
    (hsubs : Fits IDs subscribers) :
    LocalRV.requestTMAssistanceForRendezvous fresh gc strategy publishers subscribers IDs =
      some (publicationBytes gc.nodeTMScope TMFID
        (matchBytes strategy publishers subscribers IDs)) := by
  have hflat := flatMap_castBytes fun ID hID => hsubs.short ID hID
  rw [requestTMAssistanceForRendezvous_parts hTM, appendAll_room]
  · simp only [matchParts, List.flatten_append, flatten_apiParts hgc, flatten_idParts, hflat]
    simp [publicationBytes, matchBytes, labelsBytes, idsBytes]
  · simp only [matchParts, List.flatten_append, List.length_append, length_apiParts, flatten_idParts,
      length_flatMap_castBytes, length_nodeTMScope hgc, length_flatten hpubs,
      length_flatten hsubs.hosts, toNat_IDsTotalBytes,
      Nat.mod_eq_of_lt hsubs.total]
    simp [pursuitIdLen]
    omega

theorem requestTMAssistanceForNotifyingSubscribers_eq (hgc : gc.nodeID.length = nodeIDLen)
    (hTM : gc.TMFID = some TMFID) (hsubs : Fits IDs subscribers) :
    LocalRV.requestTMAssistanceForNotifyingSubscribers fresh gc request_type IDs subscribers strategy =
      some (publicationBytes gc.nodeTMScope TMFID
        (scopeBytes request_type strategy subscribers IDs)) := by
  have hflat := flatMap_castBytes fun ID hID => hsubs.short ID hID
  rw [requestTMAssistanceForNotifyingSubscribers_parts hTM, appendAll_room]
  · simp only [scopeParts, List.flatten_append, flatten_apiParts hgc, flatten_idParts, hflat]
    simp [publicationBytes, scopeBytes, labelsBytes, idsBytes]
  · simp only [scopeParts, List.flatten_append, List.length_append, length_apiParts, flatten_idParts,
      length_flatMap_castBytes, length_nodeTMScope hgc, length_flatten hsubs.hosts,
      toNat_IDsTotalBytes,
      Nat.mod_eq_of_lt hsubs.total]
    simp
    omega

end Blackadder
