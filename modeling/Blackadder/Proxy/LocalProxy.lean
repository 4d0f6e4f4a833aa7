import Mathlib.Data.Finset.Lattice.Fold
import Mathlib.Tactic.Simps.Basic
import Blackadder.Lib.Cells
import Blackadder.Lipsin.Forwarder
import Blackadder.Rendezvous.Basic

/-!
# The local proxy of a node

Applications and Click elements register here, and only the first and the last
registration for an id goes on to the rendezvous element.
-/

namespace Blackadder

/-- The netlink id of an application, or the port of a Click element. -/
abbrev HostId := Int

/-- `LOCAL_PROCESS` and `CLICK_ELEMENT`. -/
inductive HostType
  | localProcess
  | clickElement
deriving DecidableEq, Repr

structure LocalHost where
  type : HostType
  id : HostId
  activePublications : Finset Id
  activeSubscriptions : Finset Id

/-- `START_PUBLISH` and `STOP_PUBLISH`. -/
inductive PublishState
  | startPublish
  | stopPublish
deriving DecidableEq, Repr

/-- `begin()` of `publishers` is the head of the list. -/
abbrev PublisherHashMap := AList (fun _ : HostId => PublishState)

structure ActivePublication where
  fullID : Id
  strategy : Strategy
  publishers : PublisherHashMap
  allKnownIDs : List Id
  FIDToSubscribers : Bitvector
  RVFID : Bitvector
  isScope : Bool

structure ActiveSubscription where
  fullID : Id
  strategy : Strategy
  subscribers : ListSet HostId
  RVFID : Bitvector
  isScope : Bool

/-- The notifications that a local host can get. -/
inductive LocalEvent
  | startPublish
  | stopPublish
  | scopePublished
  | scopeUnpublished
deriving DecidableEq, Repr

/-- What the proxy pushes to its outputs. -/
inductive ProxyOutput
  /-- A pub/sub request for the rendezvous element that `RVFID` leads to. -/
  | toRV (RVFID : Bitvector) (r : Request)
  /-- What `createAndSendPacketToRV` makes of the empty id: one fragment of id and 255 of prefix are
  announced, and their bytes are not set. -/
  | unsetToRV (RVFID : Bitvector) (type : RequestType) (strategy : Strategy)
  /-- `sendNotificationLocally`. -/
  | notify (event : LocalEvent) (host : HostId) (ID : Id)
  /-- `pushDataToLocalSubscriber`. -/
  | deliver (host : HostId) (ID : Id) (payload : List UInt8)
  /-- `pushDataToRemoteSubscribers`. -/
  | publish (IDs : List Id) (FID : Bitvector) (payload : List UInt8)
deriving DecidableEq

structure LocalProxy where
  gc : GlobalConf
  localPubSubIndex : HostId → Option LocalHost
  activePublicationIndex : Id → Option ActivePublication
  activeSubscriptionIndex : Id → Option ActiveSubscription

namespace LocalProxy

def init (gc : GlobalConf) : LocalProxy := ⟨gc, fun _ => none, fun _ => none, fun _ => none⟩

@[simps]
def setHost (s : LocalProxy) (id : HostId) (host : Option LocalHost) : LocalProxy :=
  { s with localPubSubIndex := Function.update s.localPubSubIndex id host }

@[simps]
def setPublication (s : LocalProxy) (X : Id) (ap : Option ActivePublication) : LocalProxy :=
  { s with activePublicationIndex := Function.update s.activePublicationIndex X ap }

@[simps]
def setSubscription (s : LocalProxy) (X : Id) (sub : Option ActiveSubscription) : LocalProxy :=
  { s with activeSubscriptionIndex := Function.update s.activeSubscriptionIndex X sub }

/-- A write through the pointer of a host. -/
def modifyHost (s : LocalProxy) (id : HostId) (f : LocalHost → LocalHost) : LocalProxy :=
  s.setHost id ((s.localPubSubIndex id).map f)

def addActivePublication (s : LocalProxy) (host : HostId) (fullID : Id) : LocalProxy :=
  s.modifyHost host fun h => { h with activePublications := insert fullID h.activePublications }

def eraseActivePublication (s : LocalProxy) (host : HostId) (fullID : Id) : LocalProxy :=
  s.modifyHost host fun h => { h with activePublications := h.activePublications.erase fullID }

def addActiveSubscription (s : LocalProxy) (host : HostId) (fullID : Id) : LocalProxy :=
  s.modifyHost host fun h => { h with activeSubscriptions := insert fullID h.activeSubscriptions }

def eraseActiveSubscription (s : LocalProxy) (host : HostId) (fullID : Id) : LocalProxy :=
  s.modifyHost host fun h => { h with activeSubscriptions := h.activeSubscriptions.erase fullID }

/-- A new host has no publications and no subscriptions. -/
def getLocalHost (s : LocalProxy) (type : HostType) (id : HostId) : LocalProxy :=
  match s.localPubSubIndex id with
  | none => s.setHost id (some ⟨type, id, ∅, ∅⟩)
  | some _ => s

/-! ## Requests -/

/-- `find_insert` leaves the state of a publisher that is already there. -/
def findInsert (publishers : PublisherHashMap) (host : HostId) (state : PublishState) :
    PublisherHashMap :=
  if host ∈ publishers then publishers else publishers.insert host state

def storeActivePublication (s : LocalProxy) (publisher : HostId) (fullID : Id) (strategy : Strategy)
    (RVFID : Bitvector) (isScope : Bool) : Bool × LocalProxy :=
  if strategy = nodeLocal ∨ strategy = domainLocal then
    match s.activePublicationIndex fullID with
    | none => (true, (s.setPublication fullID (some {
        fullID := fullID
        strategy := strategy
        publishers := findInsert ∅ publisher .stopPublish
        allKnownIDs := []
        FIDToSubscribers := 0
        RVFID := RVFID
        isScope := isScope })).addActivePublication publisher fullID)
    | some ap =>
      if ap.strategy = strategy then
        (false, (s.setPublication fullID (some { ap with
          publishers := findInsert ap.publishers publisher .stopPublish })).addActivePublication
            publisher fullID)
      else (false, s)
  else (false, s)

def removeActivePublication (s : LocalProxy) (publisher : HostId) (fullID : Id)
    (strategy : Strategy) : Bool × LocalProxy :=
  if strategy = nodeLocal ∨ strategy = domainLocal then
    match s.activePublicationIndex fullID with
    | none => (false, s)
    | some ap =>
      if ap.strategy = strategy then
        let s := s.eraseActivePublication publisher fullID
        let publishers := ap.publishers.erase publisher
        if publishers.keys = [] then (true, s.setPublication fullID none)
        else (false, s.setPublication fullID (some { ap with publishers := publishers }))
      else (false, s)
  else (false, s)

/-- The strategies for which subscriptions stay on the node. -/
def staysLocal (strategy : Strategy) : Bool :=
  strategy = implicitRendezvous ∨ strategy = linkLocal ∨ strategy = broadcastIf

def storeActiveSubscription (s : LocalProxy) (subscriber : HostId) (fullID : Id)
    (strategy : Strategy) (RVFID : Bitvector) (isScope : Bool) : Bool × LocalProxy :=
  match s.activeSubscriptionIndex fullID with
  | none => (!staysLocal strategy, (s.setSubscription fullID (some {
      fullID := fullID
      strategy := strategy
      subscribers := ListSet.insert ∅ subscriber
      RVFID := RVFID
      isScope := isScope })).addActiveSubscription subscriber fullID)
  | some sub =>
    if sub.strategy = strategy then
      (false, (s.setSubscription fullID (some { sub with
        subscribers := sub.subscribers.insert subscriber })).addActiveSubscription subscriber fullID)
    else (false, s)

def removeActiveSubscription (s : LocalProxy) (subscriber : HostId) (fullID : Id)
    (strategy : Strategy) : Bool × LocalProxy :=
  match s.activeSubscriptionIndex fullID with
  | none => (false, s)
  | some sub =>
    if sub.strategy = strategy then
      let s := s.eraseActiveSubscription subscriber fullID
      let subscribers := sub.subscribers.erase subscriber
      if subscribers.size = 0 then (!staysLocal strategy, s.setSubscription fullID none)
      else (false, s.setSubscription fullID (some { sub with subscribers := subscribers }))
    else (false, s)

def handleLocalRequest (s : LocalProxy) (type : RequestType) (host : HostId) (ID prefixID : Id)
    (strategy : Strategy) (RVFID : Bitvector) : Bool × LocalProxy :=
  let fullID := if ID.length = pursuitIdLen then prefixID ++ ID else prefixID ++ suffixOf ID
  match type with
  | .publishScope => s.storeActivePublication host fullID strategy RVFID true
  | .publishInfo => s.storeActivePublication host fullID strategy RVFID false
  | .unpublishScope => s.removeActivePublication host fullID strategy
  | .unpublishInfo => s.removeActivePublication host fullID strategy
  | .subscribeScope => s.storeActiveSubscription host fullID strategy RVFID true
  | .subscribeInfo => s.storeActiveSubscription host fullID strategy RVFID false
  | .unsubscribeScope => s.removeActiveSubscription host fullID strategy
  | .unsubscribeInfo => s.removeActiveSubscription host fullID strategy

/-- The part of `push` for a pub/sub request of a local host. -/
def pushRequest (s : LocalProxy) (type : HostType) (host : HostId) (r : Request) :
    LocalProxy × List ProxyOutput :=
  let s := s.getLocalHost type host
  let RVFID := if r.strategy = domainLocal then s.gc.defaultRVdl else 0
  match s.handleLocalRequest r.type host r.ID r.prefixID r.strategy RVFID with
  | (true, s) => (s, [.toRV RVFID r])
  | (false, s) => (s, [])

/-! ## Disconnection -/

/-- The request that `createAndSendPacketToRV` is given for an id. -/
def withdrawal (type : RequestType) (fullID : Id) (strategy : Strategy) : Request :=
  ⟨type, suffixOf fullID, fatherOf fullID, strategy⟩

def sendToRV (RVFID : Bitvector) (type : RequestType) (fullID : Id)
    (strategy : Strategy) : ProxyOutput :=
  if fullID.length < pursuitIdLen then .unsetToRV RVFID type strategy
  else .toRV RVFID (withdrawal type fullID strategy)

def unpublishType : Kind → RequestType
  | .scope => .unpublishScope
  | .item => .unpublishInfo

def unsubscribeType : Kind → RequestType
  | .scope => .unsubscribeScope
  | .item => .unsubscribeInfo

/-- `START_PUBLISH` for the first publisher. -/
def startFirst (X : Id) (ap : ActivePublication) : ActivePublication × List ProxyOutput :=
  match ap.publishers.keys with
  | [] => (ap, [])
  | first :: _ => ({ ap with publishers := ap.publishers.replace first .startPublish },
      [.notify .startPublish first X])

/-- What becomes of an entry when a disconnected publisher leaves it. Only for an item the
next publisher is told to start. -/
def publicationLeft (k : Kind) (publisher : HostId) (ap : ActivePublication) :
    Option ActivePublication × List ProxyOutput :=
  let shouldNotify := ap.publishers.lookup publisher ≠ some .stopPublish
  let left := { ap with publishers := ap.publishers.erase publisher }
  if left.publishers.keys = [] then
    (none, [sendToRV ap.RVFID (unpublishType k) ap.fullID ap.strategy])
  else if k = .item ∧ shouldNotify then
    (some (startFirst ap.fullID left).1, (startFirst ap.fullID left).2)
  else (some left, [])

def subscriptionLeft (k : Kind) (subscriber : HostId) (sub : ActiveSubscription) :
    Option ActiveSubscription × List ProxyOutput :=
  let left := { sub with subscribers := sub.subscribers.erase subscriber }
  if left.subscribers.size = 0 then
    (none, if staysLocal sub.strategy then []
      else [sendToRV sub.RVFID (unsubscribeType k) sub.fullID sub.strategy])
  else (some left, [])

/-- One turn of `deleteAllActiveInformationItemPublications` or
`deleteAllActiveScopePublications`. -/
def deletePublication (k : Kind) (publisher : HostId) (s : LocalProxy) (X : Id) :
    Result (LocalProxy × List ProxyOutput) := do
  let ap ← deref (s.activePublicationIndex X)
  if ap.isScope ≠ (k = .scope) then return (s, [])
  let s := s.eraseActivePublication publisher X
  match publicationLeft k publisher ap with
  | (none, outs) => return (s.setPublication ap.fullID none, outs)
  | (some left, outs) => return (s.setPublication X (some left), outs)

/-- The same for subscriptions. -/
def deleteSubscription (k : Kind) (subscriber : HostId) (s : LocalProxy) (X : Id) :
    Result (LocalProxy × List ProxyOutput) := do
  let sub ← deref (s.activeSubscriptionIndex X)
  if sub.isScope ≠ (k = .scope) then return (s, [])
  let s := s.eraseActiveSubscription subscriber X
  match subscriptionLeft k subscriber sub with
  | (none, outs) => return (s.setSubscription sub.fullID none, outs)
  | (some left, outs) => return (s.setSubscription X (some left), outs)

/-- The ids of a set in the order of its hash table. -/
def visit (order : List Id) (IDs : Finset Id) : List Id := order.filter (· ∈ IDs)

def publicationsOf (s : LocalProxy) (host : HostId) : Finset Id :=
  match s.localPubSubIndex host with
  | none => ∅
  | some h => h.activePublications

def subscriptionsOf (s : LocalProxy) (host : HostId) : Finset Id :=
  match s.localPubSubIndex host with
  | none => ∅
  | some h => h.activeSubscriptions

/-- The length of an id in fragments. -/
def level (X : Id) : Nat := X.length / pursuitIdLen

/-- The highest level of the ids that belong to scopes. -/
def maxLevel (isScope : Id → Option Bool) (IDs : List Id) : Result Nat :=
  IDs.foldlM (fun max_level X => do
    let scope ← deref (isScope X)
    return if scope ∧ max_level < level X then level X else max_level) 0

/-- One pass over the ids for each level, from the highest down. -/
def levelPasses (max_level : Nat) (IDs : List Id) : List Id :=
  (List.range max_level).reverse.flatMap (fun i => IDs.filter (level · = i + 1))

def deleteAllActiveInformationItemPublications (order : List Id) (publisher : HostId)
    (s : LocalProxy) : Result (LocalProxy × List ProxyOutput) :=
  Cells.collect (deletePublication .item publisher) s (visit order (s.publicationsOf publisher))

def deleteAllActiveInformationItemSubscriptions (order : List Id) (subscriber : HostId)
    (s : LocalProxy) : Result (LocalProxy × List ProxyOutput) :=
  Cells.collect (deleteSubscription .item subscriber) s (visit order (s.subscriptionsOf subscriber))

def deleteAllActiveScopePublications (order : List Id) (publisher : HostId) (s : LocalProxy) :
    Result (LocalProxy × List ProxyOutput) := do
  let IDs := visit order (s.publicationsOf publisher)
  let max_level ← maxLevel (fun X => (s.activePublicationIndex X).map (·.isScope)) IDs
  Cells.collect (deletePublication .scope publisher) s (levelPasses max_level IDs)

def deleteAllActiveScopeSubscriptions (order : List Id) (subscriber : HostId) (s : LocalProxy) :
    Result (LocalProxy × List ProxyOutput) := do
  let IDs := visit order (s.subscriptionsOf subscriber)
  let max_level ← maxLevel (fun X => (s.activeSubscriptionIndex X).map (·.isScope)) IDs
  Cells.collect (deleteSubscription .scope subscriber) s (levelPasses max_level IDs)

/-- The part of `push` for `DISCONNECT`, with the orders in which the two sets of the host
are walked. -/
def disconnect (pubOrder subOrder : List Id) (s : LocalProxy) (type : HostType) (host : HostId) :
    Result (LocalProxy × List ProxyOutput) := do
  let s := s.getLocalHost type host
  let (s, outs₁) ← s.deleteAllActiveInformationItemPublications pubOrder host
  let (s, outs₂) ← s.deleteAllActiveInformationItemSubscriptions subOrder host
  let (s, outs₃) ← s.deleteAllActiveScopePublications pubOrder host
  let (s, outs₄) ← s.deleteAllActiveScopeSubscriptions subOrder host
  return (s.setHost host none, outs₁ ++ outs₂ ++ outs₃ ++ outs₄)

end LocalProxy

end Blackadder
