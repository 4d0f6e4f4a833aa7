import Mathlib.Tactic.Simps.Basic
import Blackadder.Rendezvous.Basic

/-!
# The information graph and the methods of `Scope` and `InformationItem`

The objects live in a heap with one map for each field. The two classes have the
same `ids`, `fatherScopes` and `strategy`, so those maps take a `Node`.
-/

namespace Blackadder

/-- The state of a `LocalRV`, with the heap of its graph and what it pushed, latest first. -/
structure LocalRV where
  /-- `gc->nodeID`, the label of `localProxy`. -/
  nodeID : NodeId
  /-- `scopeIndex` and `pubIndex`. -/
  index : Kind → Id → Option Ptr
  ids : Node → IdsHashMap
  fatherScopes : Node → ListSet Ptr
  strategy : Node → Strategy
  /-- `childrenScopes` and `informationitems` of a scope. -/
  children : Ptr → Kind → ListSet Ptr
  isRoot : Ptr → Bool
  /-- The four sets of a `RemoteHost`, `publishedScopes` and so on. -/
  record : NodeId → Role → Kind → Finset Id
  /-- The next address that `new` returns. -/
  next : Ptr
  out : List Emission

namespace LocalRV

abbrev scopeIndex (s : LocalRV) : Id → Option Ptr := s.index .scope
abbrev pubIndex (s : LocalRV) : Id → Option Ptr := s.index .item
abbrev childrenScopes (s : LocalRV) (sc : Ptr) : ListSet Ptr := s.children sc .scope
abbrev informationitems (s : LocalRV) (sc : Ptr) : ListSet Ptr := s.children sc .item

def init (nodeID : NodeId) : LocalRV where
  nodeID := nodeID
  index := fun _ _ => none
  ids := fun _ => ∅
  fatherScopes := fun _ => ∅
  strategy := fun _ => 0
  children := fun _ _ => ∅
  isRoot := fun _ => false
  record := fun _ _ _ => ∅
  next := 0
  out := []

/-! ## Writes to one field -/

@[simps -fullyApplied]
def setIndex (s : LocalRV) (k : Kind) (ID : Id) (p : Option Ptr) : LocalRV :=
  { s with index := fun k' ID' => if k' = k ∧ ID' = ID then p else s.index k' ID' }

@[simps -fullyApplied]
def setIds (s : LocalRV) (n : Node) (ids : IdsHashMap) : LocalRV :=
  { s with ids := fun m => if m = n then ids else s.ids m }

@[simps -fullyApplied]
def setFathers (s : LocalRV) (n : Node) (fathers : ListSet Ptr) : LocalRV :=
  { s with fatherScopes := fun m => if m = n then fathers else s.fatherScopes m }

@[simps -fullyApplied]
def setChildren (s : LocalRV) (sc : Ptr) (k : Kind) (nodes : ListSet Ptr) : LocalRV :=
  { s with children := fun p k' => if p = sc ∧ k' = k then nodes else s.children p k' }

@[simps -fullyApplied]
def setRecord (s : LocalRV) (h : NodeId) (role : Role) (k : Kind) (IDs : Finset Id) : LocalRV :=
  { s with record := fun h' role' k' =>
      if h' = h ∧ role' = role ∧ k' = k then IDs else s.record h' role' k' }

@[simps -fullyApplied]
def emit (s : LocalRV) (e : Emission) : LocalRV := { s with out := e :: s.out }

/-! ## Constructors and destructor -/

/-- `fatherScopes.find_insert(father)` and the insertion of `n` in the father. -/
def link (s : LocalRV) (n : Node) (father : Ptr) : LocalRV :=
  (s.setFathers n ((s.fatherScopes n).insert father)).setChildren father n.kind
    ((s.children father n.kind).insert n.ptr)

/-- `Scope(_strategy, NULL)`. -/
@[simps -fullyApplied]
def newRootScope (s : LocalRV) (strategy : Strategy) : LocalRV :=
  { s with
    strategy := fun m => if m = .scope s.next then strategy else s.strategy m
    isRoot := fun p => if p = s.next then true else s.isRoot p
    next := s.next + 1 }

/-- `Scope(_strategy, _father_scope)` and `InformationItem(_strategy, _father_scope)`. -/
def newUnder (s : LocalRV) (k : Kind) (strategy : Strategy) (father : Ptr) : LocalRV :=
  let t : LocalRV := { s with
    strategy := fun m => if m = ⟨k, s.next⟩ then strategy else s.strategy m
    next := s.next + 1 }
  t.link ⟨k, s.next⟩ father

/-- `delete`: the destructor deletes the pairs. -/
def free (s : LocalRV) (n : Node) : LocalRV :=
  (s.setIds n ∅).setFathers n ∅

/-! ## Publishers and subscribers -/

/-- `updatePublishers` and `updateSubscribers`. The flag tells whether the host was new. -/
def updateHosts (s : LocalRV) (n : Node) (role : Role) (fullID : Id) (h : NodeId) :
    Bool × LocalRV :=
  match (s.ids n).lookup fullID with
  | some pair =>
    if h ∈ pair role then (false, s)
    else (true, s.setIds n ((s.ids n).insert fullID
      (fun role' => if role' = role then insert h (pair role') else pair role')))
  | none =>
    (true, s.setIds n ((s.ids n).insert fullID (fun role' => if role' = role then {h} else ∅)))

def updatePublishers (s : LocalRV) (n : Node) : Id → NodeId → Bool × LocalRV :=
  s.updateHosts n .publisher

def updateSubscribers (s : LocalRV) (n : Node) : Id → NodeId → Bool × LocalRV :=
  s.updateHosts n .subscriber

/-- All hosts of one role, over all ids of a node. -/
def hostsOf (s : LocalRV) (n : Node) (role : Role) : Finset NodeId :=
  (s.ids n).entries.foldr (fun e hosts => e.2 role ∪ hosts) ∅

def getPublishers (s : LocalRV) (ii : Ptr) : Finset NodeId := s.hostsOf (.item ii) .publisher

def getSubscribers (s : LocalRV) (n : Node) : Finset NodeId := s.hostsOf n .subscriber

def getIDs (s : LocalRV) (n : Node) : Finset Id := (s.ids n).keys.toFinset

/-! ## Identifiers -/

/-- The last fragment of `(*ids.begin()).first`. -/
def firstSuffix (s : LocalRV) (n : Node) : Result Id := do
  let first ← deref (s.ids n).keys.head?
  return suffixOf first

/-- Adds `fullID` to the node and to the index, unless the node has it. -/
def addID (s : LocalRV) (n : Node) (fullID : Id) : LocalRV :=
  if fullID ∈ s.ids n then s
  else (s.setIndex n.kind fullID n.ptr).setIds n ((s.ids n).insert fullID .new)

/-- The inner loop of `updateIDs`, over the ids of one father. -/
def addFatherIDs (s : LocalRV) (n : Node) (suffixID : Id) (father : Ptr) : LocalRV :=
  (s.ids (.scope father)).keys.foldl (fun s ID => s.addID n (ID ++ suffixID)) s

/-- `InformationItem::updateIDs`, and the first loop of `Scope::recursivelyUpdateIDs`. -/
def updateIDs (s : LocalRV) (n : Node) (suffixID : Id) : LocalRV :=
  (s.fatherScopes n).toList.foldl (fun s father => s.addFatherIDs n suffixID father) s

/-- `Scope::recursivelyUpdateIDs`. The fuel is the depth of the call stack. -/
def recursivelyUpdateIDs : Nat → LocalRV → Ptr → Id → Result LocalRV
  | 0, _, _, _ => .error .outOfFuel
  | fuel + 1, s, this, suffixID => do
    let s := s.updateIDs (.scope this) suffixID
    let s ← (s.childrenScopes this).toList.foldlM (fun s child => do
      let tempSuffix ← s.firstSuffix (.scope child)
      recursivelyUpdateIDs fuel s child tempSuffix) s
    (s.informationitems this).toList.foldlM (fun s ii => do
      let tempSuffix ← s.firstSuffix (.item ii)
      return s.updateIDs (.item ii) tempSuffix) s

/-- Whether a pair of `n` under one of `IDs` has a host. -/
def anyHosts (s : LocalRV) (n : Node) : List Id → Result Bool
  | [] => return false
  | ID :: IDs => do
    let pair ← deref ((s.ids n).lookup ID)
    if !pair.isEmpty then return true else anyHosts s n IDs

/-- `checkForOtherPubSub(fatherScope)` of both classes. -/
def checkForOtherPubSub (s : LocalRV) (n : Node) (father : Ptr) : Result Bool := do
  let suffixID ← s.firstSuffix n
  s.anyHosts n ((s.ids (.scope father)).keys.map (· ++ suffixID))

/-- `Scope::checkForOtherPubSub(NULL)`. -/
def checkForOtherPubSubRoot (s : LocalRV) (sc : Ptr) : Result Bool :=
  s.anyHosts (.scope sc) (s.ids (.scope sc)).keys

end LocalRV

end Blackadder
