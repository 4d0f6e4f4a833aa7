import Blackadder.Rendezvous.Graph

/-!
# The requests of `LocalRV`

Every request returns the code of `helper.hh` and the new state. The blocks that the
source repeats (the rendezvous over all fathers, the deletion of a scope or of one of
its branches) are stated once and called under the names of their functions.
-/

namespace Blackadder

namespace LocalRV

/-! ## Messages -/

/-- What `rendezvous` sends for an item with these subscribers, if anything. -/
def rendezvousMessage (s : LocalRV) (pub : Ptr) (subscribers : Finset NodeId) : Option Emission :=
  let publishers := s.getPublishers pub
  if publishers = ∅ then none
  else if s.strategy (.item pub) = nodeLocal then
    if subscribers = ∅ then some (.stopPublish pub (s.getIDs (.item pub)))
    else some (.startPublish pub (s.getIDs (.item pub)))
  else if s.strategy (.item pub) = domainLocal then
    some (.matchPubSubs pub (s.strategy (.item pub)) publishers subscribers (s.getIDs (.item pub)))
  else none

def rendezvous (s : LocalRV) (pub : Ptr) (subscribers : Finset NodeId) : LocalRV :=
  match s.rendezvousMessage pub subscribers with
  | some e => s.emit e
  | none => s

/-- The subscribers of an item and of all its father scopes. -/
def allSubscribers (s : LocalRV) (pub : Ptr) : Finset NodeId :=
  (s.fatherScopes (.item pub)).toList.foldl
    (fun subscribers father => subscribers ∪ s.getSubscribers (.scope father))
    (s.getSubscribers (.item pub))

def rendezvousItem (s : LocalRV) (pub : Ptr) : LocalRV := s.rendezvous pub (s.allSubscribers pub)

/-- The rendezvous for every item under a scope. -/
def rendezvousItems (s : LocalRV) (sc : Ptr) : LocalRV :=
  (s.informationitems sc).toList.foldl rendezvousItem s

def notifySubscribers (s : LocalRV) (event : ScopeEvent) (IDs : Finset Id) (strategy : Strategy)
    (subscribers : Finset NodeId) : LocalRV :=
  if strategy = nodeLocal then
    if s.nodeID ∈ subscribers then s.emit (.scopeToProxy event IDs) else s
  else if subscribers = ∅ then s
  else s.emit (.scopeToTM event IDs subscribers strategy)

/-- Tells one new subscriber about the subscopes of a scope. -/
def notifySubscopes (s : LocalRV) (sc : Ptr) (subscriber : NodeId) : LocalRV :=
  (s.childrenScopes sc).toList.foldl (fun s subscope =>
    s.notifySubscribers .scopePublished (s.getIDs (.scope subscope)) (s.strategy (.scope subscope))
      {subscriber}) s

/-! ## Registrations -/

/-- Enters `fullID` in one of the four sets of a `RemoteHost`. -/
def addRecord (s : LocalRV) (h : NodeId) (role : Role) (k : Kind) (fullID : Id) : LocalRV :=
  s.setRecord h role k (insert fullID (s.record h role k))

/-- `updatePublishers` or `updateSubscribers`, and the host's own record when it was new. -/
def register (s : LocalRV) (n : Node) (role : Role) (fullID : Id) (h : NodeId) : Bool × LocalRV :=
  match s.updateHosts n role fullID h with
  | (true, s) => (true, s.addRecord h role n.kind fullID)
  | (false, s) => (false, s)

/-- Removes a host from a pair and the id from the host. -/
def eraseHost (s : LocalRV) (n : Node) (role : Role) (fullID : Id) (pair : RemoteHostPair)
    (h : NodeId) : LocalRV :=
  (s.setIds n ((s.ids n).insert fullID
    (fun role' => if role' = role then (pair role').erase h else pair role'))).setRecord h role
    n.kind ((s.record h role n.kind).erase fullID)

/-! ## Deletions -/

def eraseChild (s : LocalRV) (father : Ptr) (n : Node) : LocalRV :=
  s.setChildren father n.kind ((s.children father n.kind).erase n.ptr)

/-- Erases all ids of a node from its index, and deletes it. -/
def deleteNode (s : LocalRV) (n : Node) : LocalRV :=
  ((s.ids n).keys.foldl (fun s ID => s.setIndex n.kind ID none) s).free n

/-- Takes one branch of a node away: the link to `father` and the ids below the father's. -/
def deleteBranch (s : LocalRV) (n : Node) (father : Ptr) : Result LocalRV := do
  let s := (s.eraseChild father n).setFathers n ((s.fatherScopes n).erase father)
  let suffixID ← s.firstSuffix n
  return (s.ids (.scope father)).keys.foldl (fun s ID =>
    (s.setIds n ((s.ids n).erase (ID ++ suffixID))).setIndex n.kind (ID ++ suffixID) none) s

/-- The deletion of a scope after a host left it, in `unpublish_scope` and `unsubscribe_scope`. -/
def tryDeleteScope (s : LocalRV) (sc father : Ptr) (fullID : Id) : Result LocalRV := do
  if (s.childrenScopes sc).size = 0 ∧ (s.informationitems sc).size = 0 then
    let inUse ← s.checkForOtherPubSub (.scope sc) father
    if inUse then return s
    -- The number of fathers decides, not the number of ids.
    if (s.fatherScopes (.scope sc)).size = 1 then
      let s := s.notifySubscribers .scopeUnpublished (s.getIDs (.scope sc))
        (s.strategy (.scope sc)) (s.getSubscribers (.scope father))
      return (s.eraseChild father (.scope sc)).deleteNode (.scope sc)
    else
      -- Only `fullID` stays in the announced set.
      let s := s.notifySubscribers .scopeUnpublished ((s.getIDs (.scope sc)).filter (· = fullID))
        (s.strategy (.scope sc)) (s.getSubscribers (.scope father))
      s.deleteBranch (.scope sc) father
  else return s

/-- The same for a root scope. -/
def tryDeleteRootScope (s : LocalRV) (sc : Ptr) : Result LocalRV := do
  if (s.childrenScopes sc).size = 0 ∧ (s.informationitems sc).size = 0 then
    let inUse ← s.checkForOtherPubSubRoot sc
    return if inUse then s else s.deleteNode (.scope sc)
  else return s

/-- The choice between the two. A root scope has no father in the index. -/
def tryDelete (s : LocalRV) (sc : Ptr) (fatherScope : Option Ptr) (fullID : Id) : Result LocalRV :=
  match fatherScope with
  | some fatherScope => s.tryDeleteScope sc fatherScope fullID
  | none => s.tryDeleteRootScope sc

/-- The deletion of an item after a publisher left it. The rendezvous runs after it. -/
def tryDeleteUnpublishedInfo (s : LocalRV) (pub father : Ptr) : Result LocalRV := do
  let inUse ← s.checkForOtherPubSub (.item pub) father
  if (s.fatherScopes (.item pub)).size = 1 then
    if inUse then return s.rendezvousItem pub
    else return (s.eraseChild father (.item pub)).deleteNode (.item pub)
  else
    let s ← if inUse then pure s else s.deleteBranch (.item pub) father
    return s.rendezvousItem pub

/-- The deletion of an item after a subscriber left it. The rendezvous runs before it. -/
def tryDeleteUnsubscribedInfo (s : LocalRV) (pub father : Ptr) : Result LocalRV := do
  let s := s.rendezvousItem pub
  let inUse ← s.checkForOtherPubSub (.item pub) father
  if inUse then return s
  if (s.fatherScopes (.item pub)).size = 1 then
    return (s.eraseChild father (.item pub)).deleteNode (.item pub)
  else s.deleteBranch (.item pub) father

/-! ## Publications of scopes -/

/-- A publication of a scope that is already there. Its subscribers already know about it. -/
def publishExistingScope (s : LocalRV) (publisher : NodeId) (sc : Ptr) (fullID : Id)
    (strategy : Strategy) : ReturnCode × LocalRV :=
  if s.strategy (.scope sc) = strategy then
    match s.register (.scope sc) .publisher fullID publisher with
    | (true, s) => (.success, s)
    | (false, s) => (.exists_, s)
  else (.strategyMismatch, s)

def publishRootScope (s : LocalRV) (publisher : NodeId) (ID : Id) (strategy : Strategy) :
    ReturnCode × LocalRV :=
  match s.scopeIndex ID with
  | none =>
    let sc := s.next
    let s := (s.newRootScope strategy).setIndex .scope ID sc
    match s.register (.scope sc) .publisher ID publisher with
    | (true, s) => (.success, s)
    | (false, s) => (.exists_, s)
  | some sc => s.publishExistingScope publisher sc ID strategy

def publishInnerScope (fuel : Nat) (s : LocalRV) (publisher : NodeId) (ID prefixID : Id)
    (strategy : Strategy) : Result (ReturnCode × LocalRV) :=
  let fullID := prefixID ++ ID
  match s.pubIndex fullID with
  | some _ => return (.infoItemWithSameId, s)
  | none =>
  match s.scopeIndex prefixID with
  | none => return (.fatherDoesNotExist, s)
  | some fatherScope =>
  match s.scopeIndex fullID with
  | none =>
    if s.strategy (.scope fatherScope) = strategy then do
      let sc := s.next
      let s ← (s.newUnder .scope strategy fatherScope).recursivelyUpdateIDs fuel sc (suffixOf fullID)
      match s.register (.scope sc) .publisher fullID publisher with
      | (true, s) =>
        return (.success, s.notifySubscribers .scopePublished (s.getIDs (.scope sc))
          (s.strategy (.scope sc)) (s.getSubscribers (.scope fatherScope)))
      | (false, s) => return (.exists_, s)
    else return (.strategyMismatch, s)
  | some sc => return s.publishExistingScope publisher sc fullID strategy

def republishInnerScope (fuel : Nat) (s : LocalRV) (publisher : NodeId) (ID prefixID : Id)
    (strategy : Strategy) : Result (ReturnCode × LocalRV) :=
  let suffixID := suffixOf ID
  let fullID := prefixID ++ suffixID
  let existingPrefixID := fatherOf ID
  match s.pubIndex fullID with
  | some _ => return (.infoItemWithSameId, s)
  | none =>
  match s.scopeIndex prefixID with
  | none => return (.fatherDoesNotExist, s)
  | some fatherScope =>
  match s.scopeIndex ID with
  | none => return (.scopeDoesNotExist, s)
  | some existingScope =>
  match s.scopeIndex fullID with
  | none =>
    -- The strategy of the existing scope is not compared.
    if s.strategy (.scope fatherScope) = strategy then do
      let s ← (s.link (.scope existingScope) fatherScope).recursivelyUpdateIDs fuel existingScope
        suffixID
      match s.register (.scope existingScope) .publisher fullID publisher with
      | (true, s) =>
        return (.success, s.notifySubscribers .scopePublished
          ((s.getIDs (.scope existingScope)).erase (existingPrefixID ++ suffixID))
          (s.strategy (.scope existingScope)) (s.getSubscribers (.scope fatherScope)))
      | (false, s) => return (.exists_, s)
    else return (.strategyMismatch, s)
  | some equivalentScope => return s.publishExistingScope publisher equivalentScope fullID strategy

def publishScope (fuel : Nat) (s : LocalRV) (publisher : NodeId) (ID prefixID : Id)
    (strategy : Strategy) : Result (ReturnCode × LocalRV) :=
  if prefixID.length = 0 ∧ ID.length = pursuitIdLen then
    return s.publishRootScope publisher ID strategy
  else if 0 < prefixID.length ∧ ID.length = pursuitIdLen then
    s.publishInnerScope fuel publisher ID prefixID strategy
  else if 0 < prefixID.length ∧ pursuitIdLen < ID.length then
    s.republishInnerScope fuel publisher ID prefixID strategy
  else return (.wrongIds, s)

/-! ## Publications of items -/

/-- A publication of an item that is already there: the rendezvous runs again. -/
def publishExistingInfo (s : LocalRV) (publisher : NodeId) (pub fatherScope : Ptr) (fullID : Id)
    (strategy : Strategy) : ReturnCode × LocalRV :=
  if s.strategy (.scope fatherScope) = strategy then
    match s.register (.item pub) .publisher fullID publisher with
    | (true, s) => (.success, s.rendezvousItem pub)
    | (false, s) => (.exists_, s)
  else (.strategyMismatch, s)

def advertiseInfo (s : LocalRV) (publisher : NodeId) (ID prefixID : Id) (strategy : Strategy) :
    ReturnCode × LocalRV :=
  let fullID := prefixID ++ ID
  match s.scopeIndex prefixID with
  | none => (.fatherDoesNotExist, s)
  | some fatherScope =>
  match s.pubIndex fullID with
  | none =>
    match s.scopeIndex fullID with
    | some _ => (.scopeWithSameId, s)
    | none =>
    if s.strategy (.scope fatherScope) = strategy then
      let pub := s.next
      let s := (s.newUnder .item (s.strategy (.scope fatherScope)) fatherScope).updateIDs (.item pub)
        (suffixOf fullID)
      match s.register (.item pub) .publisher fullID publisher with
      | (true, s) => (.success, s.rendezvous pub
          (s.getSubscribers (.item pub) ∪ s.getSubscribers (.scope fatherScope)))
      | (false, s) => (.exists_, s)
    else (.strategyMismatch, s)
  | some pub => s.publishExistingInfo publisher pub fatherScope fullID strategy

def readvertiseInfo (s : LocalRV) (publisher : NodeId) (ID prefixID : Id) (strategy : Strategy) :
    ReturnCode × LocalRV :=
  let suffixID := suffixOf ID
  let fullID := prefixID ++ suffixID
  match s.scopeIndex fullID with
  | some _ => (.scopeWithSameId, s)
  | none =>
  match s.scopeIndex prefixID with
  | none => (.fatherDoesNotExist, s)
  | some fatherScope =>
  match s.pubIndex ID with
  | none => (.infoDoesNotExist, s)
  | some existingPub =>
  match s.pubIndex fullID with
  | none =>
    if s.strategy (.scope fatherScope) = strategy then
      let s := (s.link (.item existingPub) fatherScope).updateIDs (.item existingPub) suffixID
      match s.register (.item existingPub) .publisher fullID publisher with
      | (true, s) => (.success, s.rendezvousItem existingPub)
      | (false, s) => (.exists_, s)
    else (.strategyMismatch, s)
  | some equivalentPub => s.publishExistingInfo publisher equivalentPub fatherScope fullID strategy

def publishInfo (s : LocalRV) (publisher : NodeId) (ID prefixID : Id) (strategy : Strategy) :
    ReturnCode × LocalRV :=
  if 0 < prefixID.length ∧ ID.length = pursuitIdLen then
    s.advertiseInfo publisher ID prefixID strategy
  else if 0 < prefixID.length ∧ pursuitIdLen < ID.length then
    s.readvertiseInfo publisher ID prefixID strategy
  else (.wrongIds, s)

/-! ## Withdrawals of publications -/

def unpublishInfo (s : LocalRV) (publisher : NodeId) (ID prefixID : Id) (strategy : Strategy) :
    Result (ReturnCode × LocalRV) :=
  let fullID := prefixID ++ ID
  match s.pubIndex fullID with
  | none => return (.infoDoesNotExist, s)
  | some pub => do
    let fatherScope ← deref (s.scopeIndex prefixID)
    if s.strategy (.scope fatherScope) ≠ strategy then return (.strategyMismatch, s)
    let pair ← deref ((s.ids (.item pub)).lookup fullID)
    if publisher ∉ pair .publisher then return (.doesNotExist, s)
    let s := s.eraseHost (.item pub) .publisher fullID pair publisher
    let s ← s.tryDeleteUnpublishedInfo pub fatherScope
    return (.success, s)

/-- The inner loop of `unpublish_scope`: one item, under all ids of the scope. -/
def unpublishItem (s : LocalRV) (publisher : NodeId) (pubSuffixID : Id) (strategy : Strategy)
    (scIDs : List Id) : Result LocalRV :=
  scIDs.foldlM (fun s scPrefixID => do
    let (_, s) ← s.unpublishInfo publisher pubSuffixID scPrefixID strategy
    return s) s

/-- The outer loop of `unpublish_scope`. Its iterator survives the erasure of its element. -/
def unpublishItems (s : LocalRV) (publisher : NodeId) (sc : Ptr) (strategy : Strategy) :
    Result LocalRV :=
  (s.informationitems sc).toList.foldlM (fun s pub => do
    let pubSuffixID ← s.firstSuffix (.item pub)
    s.unpublishItem publisher pubSuffixID strategy (s.ids (.scope sc)).keys) s

def unpublishScope (s : LocalRV) (publisher : NodeId) (ID prefixID : Id) (strategy : Strategy) :
    Result (ReturnCode × LocalRV) :=
  let fullID := prefixID ++ ID
  match s.scopeIndex fullID with
  | none => return (.scopeDoesNotExist, s)
  | some sc => do
    if s.strategy (.scope sc) ≠ strategy then return (.strategyMismatch, s)
    let fatherScope := s.scopeIndex prefixID
    let s ← s.unpublishItems publisher sc strategy
    let pair ← deref ((s.ids (.scope sc)).lookup fullID)
    if publisher ∉ pair .publisher then return (.doesNotExist, s)
    let s := s.eraseHost (.scope sc) .publisher fullID pair publisher
    let s ← s.tryDelete sc fatherScope fullID
    return (.success, s)

/-! ## Subscriptions -/

/-- A subscription to a scope that is already there. -/
def subscribeExistingScope (s : LocalRV) (subscriber : NodeId) (sc : Ptr) (fullID : Id)
    (strategy : Strategy) : ReturnCode × LocalRV :=
  if s.strategy (.scope sc) = strategy then
    match s.register (.scope sc) .subscriber fullID subscriber with
    | (true, s) => (.success, (s.notifySubscopes sc subscriber).rendezvousItems sc)
    | (false, s) => (.exists_, s)
  else (.strategyMismatch, s)

def subscribeRootScope (s : LocalRV) (subscriber : NodeId) (ID : Id) (strategy : Strategy) :
    ReturnCode × LocalRV :=
  match s.scopeIndex ID with
  | none =>
    let sc := s.next
    let s := (s.newRootScope strategy).setIndex .scope ID sc
    match s.register (.scope sc) .subscriber ID subscriber with
    | (true, s) => (.success, s)
    | (false, s) => (.exists_, s)
  | some sc => s.subscribeExistingScope subscriber sc ID strategy

def subscribeInnerScope (fuel : Nat) (s : LocalRV) (subscriber : NodeId) (ID prefixID : Id)
    (strategy : Strategy) : Result (ReturnCode × LocalRV) :=
  let fullID := prefixID ++ ID
  match s.pubIndex fullID with
  | some _ => return (.infoItemWithSameId, s)
  | none =>
  match s.scopeIndex prefixID with
  | none => return (.fatherDoesNotExist, s)
  | some fatherScope =>
  match s.scopeIndex fullID with
  | none =>
    if s.strategy (.scope fatherScope) = strategy then do
      let sc := s.next
      let s ← (s.newUnder .scope strategy fatherScope).recursivelyUpdateIDs fuel sc (suffixOf fullID)
      match s.register (.scope sc) .subscriber fullID subscriber with
      | (true, s) =>
        return (.success, s.notifySubscribers .scopePublished (s.getIDs (.scope sc))
          (s.strategy (.scope sc)) (s.getSubscribers (.scope fatherScope)))
      | (false, s) => return (.exists_, s)
    else return (.strategyMismatch, s)
  | some sc => return s.subscribeExistingScope subscriber sc fullID strategy

def subscribeScope (fuel : Nat) (s : LocalRV) (subscriber : NodeId) (ID prefixID : Id)
    (strategy : Strategy) : Result (ReturnCode × LocalRV) :=
  if prefixID.length = 0 ∧ ID.length = pursuitIdLen then
    return s.subscribeRootScope subscriber ID strategy
  else if 0 < prefixID.length ∧ ID.length = pursuitIdLen then
    s.subscribeInnerScope fuel subscriber ID prefixID strategy
  else return (.wrongIds, s)

def subscribeInfo (s : LocalRV) (subscriber : NodeId) (ID prefixID : Id) (strategy : Strategy) :
    ReturnCode × LocalRV :=
  if 0 < prefixID.length ∧ ID.length = pursuitIdLen then
    let fullID := prefixID ++ ID
    match s.scopeIndex prefixID with
    | none => (.fatherDoesNotExist, s)
    | some fatherScope =>
    match s.pubIndex fullID with
    | none =>
      match s.scopeIndex fullID with
      | some _ => (.scopeWithSameId, s)
      | none =>
      if s.strategy (.scope fatherScope) = strategy then
        let pub := s.next
        let s := (s.newUnder .item (s.strategy (.scope fatherScope)) fatherScope).updateIDs
          (.item pub) (suffixOf fullID)
        match s.register (.item pub) .subscriber fullID subscriber with
        | (true, s) => (.success, s)
        | (false, s) => (.exists_, s)
      else (.strategyMismatch, s)
    | some pub =>
      if s.strategy (.scope fatherScope) = strategy then
        match s.register (.item pub) .subscriber fullID subscriber with
        | (true, s) => (.success, s.rendezvousItem pub)
        | (false, s) => (.exists_, s)
      else (.strategyMismatch, s)
  else (.wrongIds, s)

/-! ## Withdrawals of subscriptions -/

def unsubscribeScope (s : LocalRV) (subscriber : NodeId) (ID prefixID : Id) (strategy : Strategy) :
    Result (ReturnCode × LocalRV) :=
  let fullID := prefixID ++ ID
  match s.scopeIndex fullID with
  | none => return (.scopeDoesNotExist, s)
  | some sc => do
    if s.strategy (.scope sc) ≠ strategy then return (.strategyMismatch, s)
    let fatherScope := s.scopeIndex prefixID
    let pair ← deref ((s.ids (.scope sc)).lookup fullID)
    if subscriber ∉ pair .subscriber then return (.doesNotExist, s)
    let s := (s.eraseHost (.scope sc) .subscriber fullID pair subscriber).rendezvousItems sc
    let s ← s.tryDelete sc fatherScope fullID
    return (.success, s)

def unsubscribeInfo (s : LocalRV) (subscriber : NodeId) (ID prefixID : Id) (strategy : Strategy) :
    Result (ReturnCode × LocalRV) :=
  let fullID := prefixID ++ ID
  match s.pubIndex fullID with
  | none => return (.infoDoesNotExist, s)
  | some pub => do
    let fatherScope ← deref (s.scopeIndex prefixID)
    if s.strategy (.scope fatherScope) ≠ strategy then return (.strategyMismatch, s)
    let pair ← deref ((s.ids (.item pub)).lookup fullID)
    if subscriber ∉ pair .subscriber then return (.doesNotExist, s)
    let s := s.eraseHost (.item pub) .subscriber fullID pair subscriber
    let s ← s.tryDeleteUnsubscribedInfo pub fatherScope
    return (.success, s)

/-! ## The request switch -/

/-- The switch of `LocalRV::push`, with the fuel of `recursivelyUpdateIDs`. -/
def handle (fuel : Nat) (s : LocalRV) (h : NodeId) (r : Request) : Result (ReturnCode × LocalRV) :=
  match r.type with
  | .publishScope => s.publishScope fuel h r.ID r.prefixID r.strategy
  | .publishInfo => return s.publishInfo h r.ID r.prefixID r.strategy
  | .unpublishScope => s.unpublishScope h r.ID r.prefixID r.strategy
  | .unpublishInfo => s.unpublishInfo h r.ID r.prefixID r.strategy
  | .subscribeScope => s.subscribeScope fuel h r.ID r.prefixID r.strategy
  | .subscribeInfo => return s.subscribeInfo h r.ID r.prefixID r.strategy
  | .unsubscribeScope => s.unsubscribeScope h r.ID r.prefixID r.strategy
  | .unsubscribeInfo => s.unsubscribeInfo h r.ID r.prefixID r.strategy

end LocalRV

end Blackadder
