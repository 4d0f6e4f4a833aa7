import Blackadder.Proxy.LocalProxy

/-!
# Notifications and publications

What the rendezvous element or the topology manager tells the proxy, and data that comes from
local hosts or from the network. The notifications are decoded already.
-/

namespace Blackadder

/-- The notifications of `handleRVNotification`. -/
inductive Notification
  | scopePublished (IDs : List Id)
  | scopeUnpublished (IDs : List Id)
  | startPublish (IDs : List Id) (FID : Bitvector)
  | stopPublish (IDs : List Id)
  | updateBA (RVFID TMFID : Bitvector)

namespace LocalProxy

/-! ## Scopes -/

def findActiveSubscriptions (s : LocalProxy) (ID : Id) : List HostId :=
  match s.activeSubscriptionIndex (fatherOf ID) with
  | none => []
  | some sub => if sub.isScope then sub.subscribers.toList else []

def notifyScopes (s : LocalProxy) (event : LocalEvent) (IDs : List Id) : List ProxyOutput :=
  IDs.flatMap (fun ID => (s.findActiveSubscriptions ID).map (fun host => .notify event host ID))

/-! ## Start and stop -/

/-- The first loop of `START_PUBLISH`: it ends at an entry with a publisher that was told. -/
def startCheck (IDs : List Id) (FID : Bitvector) (s : LocalProxy) : List Id → Bool × LocalProxy
  | [] => (false, s)
  | X :: rest =>
    match s.activePublicationIndex X with
    | none => startCheck IDs FID s rest
    | some ap =>
      let s := s.setPublication X (some { ap with allKnownIDs := IDs, FIDToSubscribers := FID })
      if ap.publishers.keys.any (fun host => ap.publishers.lookup host = some .startPublish) then
        (true, s)
      else startCheck IDs FID s rest

/-- The second loop: the first publisher that is found is told. -/
def startNotify (s : LocalProxy) : List Id → LocalProxy × List ProxyOutput
  | [] => (s, [])
  | X :: rest =>
    match s.activePublicationIndex X with
    | none => startNotify s rest
    | some ap =>
      if ap.publishers.keys = [] then startNotify s rest
      else (s.setPublication X (some (startFirst X ap).1), (startFirst X ap).2)

def handleStartPublish (s : LocalProxy) (IDs : List Id) (FID : Bitvector) :
    LocalProxy × List ProxyOutput :=
  match startCheck IDs FID s IDs with
  | (true, s) => (s, [])
  | (false, s) => startNotify s IDs

/-- All publishers that were told to start are told to stop. -/
def stopPublishers (X : Id) (publishers : PublisherHashMap) : PublisherHashMap × List ProxyOutput :=
  publishers.keys.foldl (fun acc host =>
    if acc.1.lookup host = some .startPublish then
      (acc.1.replace host .stopPublish, acc.2 ++ [.notify .stopPublish host X])
    else acc) (publishers, [])

def handleStopPublish (s : LocalProxy) (IDs : List Id) : LocalProxy × List ProxyOutput :=
  IDs.foldl (fun acc X =>
    match acc.1.activePublicationIndex X with
    | none => acc
    | some ap => (acc.1.setPublication X (some { ap with
        allKnownIDs := IDs
        FIDToSubscribers := 0
        publishers := (stopPublishers X ap.publishers).1 }),
      acc.2 ++ (stopPublishers X ap.publishers).2)) (s, [])

def handleRVNotification (s : LocalProxy) : Notification → LocalProxy × List ProxyOutput
  | .scopePublished IDs => (s, s.notifyScopes .scopePublished IDs)
  | .scopeUnpublished IDs => (s, s.notifyScopes .scopeUnpublished IDs)
  | .startPublish IDs FID => s.handleStartPublish IDs FID
  | .stopPublish IDs => s.handleStopPublish IDs
  | .updateBA RVFID TMFID =>
    ({ s with gc := { s.gc with defaultRVdl := RVFID, TMFID := some TMFID } }, [])

/-! ## Publications -/

/-- The table of `findLocalSubscribers`: a subscriber is kept with the last id that matches. -/
abbrev LocalHostStringHashMap := AList (fun _ : HostId => Id)

def addSubscribers (s : LocalProxy) (knownID key : Id) (found : LocalHostStringHashMap) :
    LocalHostStringHashMap :=
  match s.activeSubscriptionIndex key with
  | none => found
  | some sub => sub.subscribers.toList.foldl (fun found host => found.insert host knownID) found

def findLocalSubscribers (s : LocalProxy) (IDs : List Id) : LocalHostStringHashMap :=
  IDs.foldl (fun found knownID =>
    s.addSubscribers knownID (fatherOf knownID) (s.addSubscribers knownID knownID found)) ∅

def handleNetworkPublication (s : LocalProxy) (IDs : List Id) (payload : List UInt8) :
    List ProxyOutput :=
  (s.findLocalSubscribers IDs).entries.map (fun e => .deliver e.1 e.2 payload)

/-- `handleUserPublication` without a forwarding identifier. -/
def handleUserPublication (s : LocalProxy) (ID : Id) (payload : List UInt8) (host : HostId) :
    List ProxyOutput :=
  let push := fun (ap : ActivePublication) (IDs : List Id) =>
    let localSubscribers := (s.findLocalSubscribers IDs).erase host
    let outs := localSubscribers.keys.map (fun host => ProxyOutput.deliver host ID payload)
    if ap.FIDToSubscribers = 0 ∨ ap.FIDToSubscribers = s.gc.iLID then outs
    else .publish IDs ap.FIDToSubscribers payload :: outs
  match s.activePublicationIndex ID with
  | some ap => push ap ap.allKnownIDs
  | none =>
    match s.activePublicationIndex (fatherOf ID) with
    | some ap => push ap [ID]
    | none => []

/-- `handleUserPublication` with the identifier that the publisher gave. -/
def handleUserPublicationFID (s : LocalProxy) (ID : Id) (FID : Bitvector) (payload : List UInt8)
    (host : HostId) : List ProxyOutput :=
  let fatherIDs := match s.activePublicationIndex (fatherOf ID) with
    | none => []
    | some ap => (ap.allKnownIDs.map (· ++ suffixOf ID)).filter (· ≠ ID)
  let IDs := fatherIDs ++ [ID]
  let localSubscribers := (s.findLocalSubscribers IDs).erase host
  let outs := localSubscribers.keys.map (fun host => ProxyOutput.deliver host ID payload)
  -- a vector without a bit compares as `NULL`
  if localSubscribers.keys = [] ∨ s.gc.TMFID = some 0 ∨ s.gc.TMFID ≠ some FID then
    .publish IDs FID payload :: outs
  else outs

/-- The part of `push` for `PUBLISH_DATA`. Only some strategies come with an identifier. -/
def pushData (s : LocalProxy) (type : HostType) (host : HostId) (ID : Id) (strategy : Strategy)
    (FID : Bitvector) (payload : List UInt8) : LocalProxy × List ProxyOutput :=
  let s := s.getLocalHost type host
  if strategy = implicitRendezvous ∨ strategy = linkLocal then
    (s, s.handleUserPublicationFID ID FID payload host)
  else if strategy = broadcastIf then
    (s, s.handleUserPublicationFID ID (BitVec.allOnes fidBits) payload host)
  else (s, s.handleUserPublication ID payload host)

end LocalProxy

end Blackadder
