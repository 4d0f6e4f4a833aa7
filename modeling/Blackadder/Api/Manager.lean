import Blackadder.Api.Assistance
import Blackadder.Lib.StdSet
import Blackadder.Lipsin.Matching

/-!
# The topology manager

`handleRequest` answers the rendezvous element with publications under the notification scope. A
request is a pointer into memory and a length.
-/

namespace Blackadder

open Wire (slice blit store)
open LocalProxy (room)
open TMIgraph (Matching calculateFIDs)

/-- The arguments of `publish_data`. -/
structure Publication where
  id : Id
  strategy : Strategy
  strOpt : Bitvector
  data : List UInt8

/-- `publish_data`. The kernel sends the parts of `iov` one behind the other. -/
def Library.publishData (pid : Nat) (pub : Publication) : List UInt8 :=
  let nlmsg_len := 16 + 1 + 1 + pub.id.length + 1 + fidLen + pub.data.length
  nlmsghdr nlmsg_len pid ++ [Code.publishData] ++ [fragments pub.id] ++ pub.id ++ [pub.strategy] ++
    pub.strOpt.data ++ pub.data

/-- The packet with the ids in front, and the forwarding identifier in front of those. -/
def LocalProxy.pushDataToRemoteSubscribers (fresh : Nat → UInt8) (IDs : List Id) (FID : Bitvector)
    (p : List UInt8) : Option (List UInt8) := do
  let numberOfIDs := UInt8.ofNat IDs.length
  let totalIDsLength := (IDs.map List.length).sum
  let p ← blit (room fresh (fidLen + 1 + numberOfIDs.toNat * 1 + totalIDsLength) p) 0 FID.data
  let p ← store p fidLen numberOfIDs
  let (p, _) ← putIDs p (fidLen + 1) (IDs.take numberOfIDs.toNat)
  return p

/-- What `handleRequest` uses of the manager. -/
structure Manager where
  /-- `calculateFID(getNodeID(), node)`. -/
  toNode : NodeId → Bitvector
  /-- The routes by hops, or those by the weights for the priority of the item. -/
  route : Id → NodeId → NodeId → TMIgraph.Route NodeId

namespace Manager

/-- A size that is computed as an `int`. A negative one is an access outside. -/
def size (n k : Nat) : Option Nat := if k ≤ n then some (n - k) else none

/-- The loops over the nodes of a request. -/
def readNodeIDs (request : List UInt8) (k : Nat) : Nat → Option (List NodeId)
  | 0 => some []
  | n + 1 => do
    let nodeID ← slice request k pursuitIdLen
    let nodeIDs ← readNodeIDs request (k + pursuitIdLen) n
    return nodeID :: nodeIDs

/-- A `set<string>`. -/
def nodeSet (nodeIDs : List NodeId) : List NodeId := StdSet.ofList (· ≤ ·) nodeIDs

/-- The locals that are read from a request of type `MATCH_PUB_SUBS`. -/
structure MatchRequest where
  publishers : List NodeId
  subscribers : List NodeId
  ids_index : Nat
  no_ids : UInt8
  IDLen : UInt8
  ids : List UInt8
  ids_str : Id

def readMatch (request : List UInt8) (request_len : Nat) : Option MatchRequest := do
  let no_publishers ← request[1 + 1]?
  let publishers ← readNodeIDs request (1 + 1 + 1) no_publishers.toNat
  let idx := no_publishers.toNat * pursuitIdLen
  let no_subscribers ← request[1 + 1 + 1 + idx]?
  let subscribers ← readNodeIDs request (1 + 1 + 1 + 1 + idx) no_subscribers.toNat
  let ids_index := 1 + 1 + 1 + no_publishers.toNat * pursuitIdLen + 1 +
    no_subscribers.toNat * pursuitIdLen
  let ids_size ← size request_len ids_index
  let no_ids ← request[ids_index]?
  let IDLen ← request[ids_index + 1]?
  -- as many bytes as the request has from `no_ids` on, but from two places further on
  let ids ← slice request (ids_index + 1 + 1) ids_size
  let ids_str ← slice ids 0 (IDLen.toNat * pursuitIdLen)
  return ⟨nodeSet publishers, nodeSet subscribers, ids_index, no_ids, IDLen, ids, ids_str⟩

/-- A type and the end of the request, in a buffer of `response_size` bytes. -/
def copyIDs (fresh : Nat → UInt8) (response_size : Nat) (response_type : UInt8) (request : List UInt8)
    (request_len ids_index : Nat) : Option (List UInt8) := do
  let n ← size request_len ids_index
  let response ← store (room fresh response_size []) 0 response_type
  blit response 1 (← slice request ids_index n)

def startResponse (fresh : Nat → UInt8) (request : List UInt8) (request_len ids_index : Nat)
    (FID : Bitvector) : Option (List UInt8) := do
  let response_size := request_len + 1 + fidLen - ids_index
  let response ← copyIDs fresh response_size Code.startPublish request request_len ids_index
  blit response (1 + request_len - ids_index) FID.data

def stopResponse (fresh : Nat → UInt8) (request : List UInt8) (request_len ids_index : Nat) :
    Option (List UInt8) :=
  copyIDs fresh (request_len + 1 - ids_index) Code.stopPublish request request_len ids_index

/-- One turn of the loop over the result. -/
def notifyPublisher (tm : Manager) (fresh : Nat → UInt8) (request : List UInt8)
    (request_len ids_index : Nat) (e : NodeId × Option Bitvector) : Option Publication := do
  let response ← match e.2 with
    | none => stopResponse fresh request request_len ids_index
    | some FID => startResponse fresh request request_len ids_index FID
  return ⟨GlobalConf.notificationScope ++ e.1, implicitRendezvous, tm.toNode e.1, response⟩

/-- One turn of the loop over the subscribers of a scope. -/
def notifySubscriber (tm : Manager) (fresh : Nat → UInt8) (request : List UInt8)
    (request_len no_subscribers : Nat) (request_type : UInt8) (i : Nat) : Option Publication := do
  let nodeID ← slice request (1 + 1 + 1 + i * pursuitIdLen) pursuitIdLen
  let ids_index := 1 + 1 + 1 + no_subscribers * pursuitIdLen
  let response_size := request_len + 1 + fidLen - ids_index
  let response ← copyIDs fresh response_size request_type request request_len ids_index
  return ⟨GlobalConf.notificationScope ++ nodeID, implicitRendezvous, tm.toNode nodeID, response⟩

/-- `handleRequest` without `RESI`. II metadata and unknown requests make no publication. -/
def handleRequest (tm : Manager) (fresh : Nat → UInt8) (request : List UInt8) (request_len : Nat) :
    Option (List Publication) := do
  let request_type ← request[0]?
  let _strategy ← request[1]?
  if request_type = Code.matchPubSubs then
    let r ← readMatch request request_len
    let m ← calculateFIDs (tm.route r.ids_str) r.publishers r.subscribers
    m.result.mapM (tm.notifyPublisher fresh request request_len r.ids_index)
  else if request_type = Code.scopePublished ∨ request_type = Code.scopeUnpublished then
    let no_subscribers ← request[1 + 1]?
    (List.range no_subscribers.toNat).mapM
      (tm.notifySubscriber fresh request request_len no_subscribers.toNat request_type)
  else return []

end Manager

end Blackadder
