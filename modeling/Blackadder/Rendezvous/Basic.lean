import Mathlib.Data.List.AList
import Mathlib.Data.Finset.Basic
import Blackadder.Lib.ListSet

/-!
# Identifiers, nodes and messages of the rendezvous element

The constants are those of `helper.hh`. A Click `String` is its list of bytes.
-/

namespace Blackadder

abbrev Id := List UInt8

/-- `PURSUIT_ID_LEN`: the bytes of one fragment. -/
def pursuitIdLen : Nat := 8

/-- `ID.substring(ID.length() - PURSUIT_ID_LEN, PURSUIT_ID_LEN)`. -/
def suffixOf (ID : Id) : Id := ID.drop (ID.length - pursuitIdLen)

/-- `ID.substring(0, ID.length() - PURSUIT_ID_LEN)`. -/
def fatherOf (ID : Id) : Id := ID.take (ID.length - pursuitIdLen)

theorem suffixOf_append {F X : Id} (hx : X.length = pursuitIdLen) : suffixOf (F ++ X) = X := by
  simp [suffixOf, hx]

theorem fatherOf_append {F X : Id} (hx : X.length = pursuitIdLen) : fatherOf (F ++ X) = F := by
  simp [fatherOf, hx]

theorem fatherOf_append_suffixOf (X : Id) : fatherOf X ++ suffixOf X = X :=
  List.take_append_drop _ X

theorem suffixOf_of_length {X : Id} (hX : X.length = pursuitIdLen) : suffixOf X = X := by
  simp [suffixOf, hX]

theorem suffixOf_length {X : Id} (hX : pursuitIdLen ≤ X.length) : (suffixOf X).length = pursuitIdLen := by
  simp [suffixOf]
  omega

/-- The label of a network node. `pub_sub_Index` has one `RemoteHost` for each label. -/
abbrev NodeId := List UInt8

abbrev Strategy := UInt8

def nodeLocal : Strategy := 0
def linkLocal : Strategy := 1
def domainLocal : Strategy := 2
def implicitRendezvous : Strategy := 3
def broadcastIf : Strategy := 4

/-- The return codes of `helper.hh` that a request can get. -/
inductive ReturnCode
  | success
  | wrongIds
  | strategyMismatch
  | exists_
  | fatherDoesNotExist
  | infoItemWithSameId
  | scopeDoesNotExist
  | scopeWithSameId
  | infoDoesNotExist
  | doesNotExist
deriving DecidableEq, Repr

/-! ## Nodes of the information graph -/

abbrev Ptr := Nat

/-- `Scope` and `InformationItem`. -/
inductive Kind
  | scope
  | item
deriving DecidableEq, Repr

/-- A typed pointer to an object of the graph. -/
@[ext]
structure Node where
  kind : Kind
  ptr : Ptr
deriving DecidableEq, Repr

abbrev Node.scope (p : Ptr) : Node := ⟨.scope, p⟩
abbrev Node.item (p : Ptr) : Node := ⟨.item, p⟩

/-- The two halves of a `RemoteHostPair`. -/
inductive Role
  | publisher
  | subscriber
deriving DecidableEq, Repr

/-- `pair->first` is the set at `publisher`, `pair->second` the one at `subscriber`. -/
abbrev RemoteHostPair := Role → Finset NodeId

def RemoteHostPair.new : RemoteHostPair := fun _ => ∅

def RemoteHostPair.isEmpty (pair : RemoteHostPair) : Bool :=
  pair .publisher = ∅ ∧ pair .subscriber = ∅

/-- A Click hash table from identifiers to pairs. `begin()` is the head of the list. -/
abbrev IdsHashMap := AList (fun _ : Id => RemoteHostPair)

/-! ## Messages -/

/-- `SCOPE_PUBLISHED` and `SCOPE_UNPUBLISHED`. -/
inductive ScopeEvent
  | scopePublished
  | scopeUnpublished
deriving DecidableEq, Repr

/-- What the element pushes to its output. The item that a rendezvous is about is kept beside it. -/
inductive Emission
  /-- `MATCH_PUB_SUBS`, to the topology manager. -/
  | matchPubSubs (pub : Ptr) (strategy : Strategy) (publishers subscribers : Finset NodeId)
      (IDs : Finset Id)
  /-- `START_PUBLISH` or `STOP_PUBLISH`, to the local proxy. -/
  | startPublish (pub : Ptr) (IDs : Finset Id)
  | stopPublish (pub : Ptr) (IDs : Finset Id)
  /-- A scope event that the topology manager passes on to `subscribers`. -/
  | scopeToTM (event : ScopeEvent) (IDs : Finset Id) (subscribers : Finset NodeId)
      (strategy : Strategy)
  /-- A scope event for the local proxy. -/
  | scopeToProxy (event : ScopeEvent) (IDs : Finset Id)
deriving DecidableEq

/-! ## Faults -/

/-- What can go wrong in the C++ code: `NULL` is followed, or a call does not return. -/
inductive Fault
  | nullPointer
  | outOfFuel
deriving DecidableEq, Repr

abbrev Result := Except Fault

/-- Follows a pointer that a hash table returned. -/
def deref {α : Type} : Option α → Result α
  | some a => .ok a
  | none => .error .nullPointer

@[simp]
theorem deref_some {α : Type} (a : α) : deref (some a) = .ok a := rfl

@[simp]
theorem deref_none {α : Type} : deref (none : Option α) = .error .nullPointer := rfl

/-! ## Requests -/

/-- The eight pub/sub requests. -/
inductive RequestType
  | publishScope
  | publishInfo
  | unpublishScope
  | unpublishInfo
  | subscribeScope
  | subscribeInfo
  | unsubscribeScope
  | unsubscribeInfo
deriving DecidableEq, Repr

structure Request where
  type : RequestType
  ID : Id
  prefixID : Id
  strategy : Strategy
deriving DecidableEq, Repr

namespace RequestType

def kind : RequestType → Kind
  | .publishScope | .unpublishScope | .subscribeScope | .unsubscribeScope => .scope
  | .publishInfo | .unpublishInfo | .subscribeInfo | .unsubscribeInfo => .item

def role : RequestType → Role
  | .publishScope | .publishInfo | .unpublishScope | .unpublishInfo => .publisher
  | .subscribeScope | .subscribeInfo | .unsubscribeScope | .unsubscribeInfo => .subscriber

/-- Publications and subscriptions. -/
def enters : RequestType → Bool
  | .publishScope | .publishInfo | .subscribeScope | .subscribeInfo => true
  | .unpublishScope | .unpublishInfo | .unsubscribeScope | .unsubscribeInfo => false

end RequestType

/-- A fragment for runs on fixed inputs. -/
def frag (b : UInt8) : Id := [0, 0, 0, 0, 0, 0, 0, b]

namespace Request

/-- The id that a request is about. A republication has the old id in `ID`. -/
def fullID (r : Request) : Id := r.prefixID ++ suffixOf r.ID

/-- The ids of a request are read from its packet in whole fragments. -/
structure Whole (r : Request) : Prop where
  ID : pursuitIdLen ∣ r.ID.length
  prefixID : pursuitIdLen ∣ r.prefixID.length

instance (r : Request) : Decidable r.Whole :=
  decidable_of_iff (pursuitIdLen ∣ r.ID.length ∧ pursuitIdLen ∣ r.prefixID.length)
    ⟨fun ⟨h1, h2⟩ => ⟨h1, h2⟩, fun h => ⟨h.ID, h.prefixID⟩⟩

/-- What the client library lets through: one fragment in all but publications. -/
structure WellFormed (r : Request) : Prop extends r.Whole where
  single : r.type ≠ .publishScope → r.type ≠ .publishInfo → r.ID.length = pursuitIdLen

instance (r : Request) : Decidable r.WellFormed :=
  decidable_of_iff (r.Whole ∧
      (r.type ≠ .publishScope → r.type ≠ .publishInfo → r.ID.length = pursuitIdLen))
    ⟨fun ⟨h1, h2⟩ => ⟨h1, h2⟩, fun h => ⟨h.toWhole, h.single⟩⟩

/-- All that the client library asks: a scope has an id and an item has a prefix. -/
structure Accepted (r : Request) : Prop extends r.WellFormed where
  named : r.type.kind = .scope → r.ID ≠ []
  prefixed : r.type.kind = .item → r.prefixID ≠ []

instance (r : Request) : Decidable r.Accepted :=
  decidable_of_iff (r.WellFormed ∧ (r.type.kind = .scope → r.ID ≠ []) ∧
      (r.type.kind = .item → r.prefixID ≠ []))
    ⟨fun ⟨h1, h2, h3⟩ => ⟨h1, h2, h3⟩, fun h => ⟨h.toWellFormed, h.named, h.prefixed⟩⟩

theorem WellFormed.single_of_not_enters {r : Request} (hr : r.WellFormed)
    (ht : r.type.enters = false) : r.ID.length = pursuitIdLen := by
  refine hr.single (fun h => ?_) fun h => ?_ <;> simp [h, RequestType.enters] at ht

theorem length_of_dvd {X : Id} (hX : pursuitIdLen ∣ X.length) (hne : X ≠ []) :
    pursuitIdLen ≤ X.length :=
  Nat.le_of_dvd (List.length_pos_iff.mpr hne) hX

theorem Accepted.fullID_length {r : Request} (hr : r.Accepted) : pursuitIdLen ≤ r.fullID.length := by
  rw [fullID, List.length_append]
  cases hk : r.type.kind with
  | scope =>
    have hlen := suffixOf_length (length_of_dvd hr.ID (hr.named hk))
    omega
  | item =>
    have hlen := length_of_dvd hr.prefixID (hr.prefixed hk)
    omega

theorem Whole.fullID_dvd {r : Request} (hr : r.Whole) : pursuitIdLen ∣ r.fullID.length := by
  rw [fullID, List.length_append]
  refine (Nat.dvd_add_right hr.prefixID).mpr ?_
  by_cases hne : r.ID = []
  · simp [hne, suffixOf]
  · have hlen := suffixOf_length (length_of_dvd hr.ID hne)
    exact hlen ▸ Nat.dvd_refl _

theorem fullID_of_single {r : Request} (h : r.ID.length = pursuitIdLen) :
    r.fullID = r.prefixID ++ r.ID := by
  rw [fullID, suffixOf_of_length h]

end Request

end Blackadder
