import Blackadder.AccessControl.Transport

/-!
# Publish and subscribe with payloads

`PubSubWPayloadAPI.cpp`: requests that carry a payload to a rendezvous point behind a scope, the messages that come
back from there, and the maps between the identifiers of the application and those below. `none` stands for a read
beyond what there is, or a call through a null pointer.
-/

namespace Blackadder

namespace PubSub

open Code (startPublish stopPublish publishedData)
open Delimited (upTo)

/-! ## Strings -/

/-- `";"`. -/
def semicolon : UInt8 := 0x3b

/-- `PUBLICATION_MATCH`. -/
def publicationMatch : List UInt8 := [0x31, 0x30]

/-- `SUBSCRIPTION_MATCH`. -/
def subscriptionMatch : List UInt8 := [0x31, 0x31]

/-- `ACK_SCOPEID`. -/
def ackScopeId : Id := [0x41, 0x43, 0x4b, 0x53, 0x49, 0x44, 0x43, 0x48]

/-- What a function that takes a C string sees of a string. -/
def cString (str : List UInt8) : List UInt8 := str.takeWhile (· ≠ 0)

/-- `data.find(";", si)`. -/
def find (data : List UInt8) (si : Nat) : Int :=
  if semicolon ∈ data.drop si then si + ((data.drop si).takeWhile (· ≠ semicolon)).length else -1

/-- `data.substr(si, ei-si)`, where a negative length is a huge one. -/
def substr (data : List UInt8) (si : Nat) (ei : Int) : List UInt8 :=
  if si ≤ ei then (data.drop si).take (ei - si).toNat else data.drop si

/-- The field at `si`, and the next `si`. Behind the last field that is the beginning again. -/
def field (data : List UInt8) (si : Nat) : List UInt8 × Nat :=
  let ei := find data si
  (substr data si ei, (ei + 1).toNat)

/-! ## State -/

/-- `infoId`. -/
structure InfoId where
  RId : Id
  SId : Id
deriving DecidableEq

/-- `publication`. -/
structure Publication where
  RId : Id
  SId : Id
  payload : List UInt8
  strategy : Strategy
  size : Nat
  immutable : Bool
deriving DecidableEq

/-- An event for an upper layer. The data of some is `NULL`. -/
structure Event where
  type : UInt8
  id : Id
  data : Option (List UInt8)
deriving DecidableEq

/-- A `CommChannel*` that is not null. -/
abbrev Channel := Nat

/-- What is asked of `Transport`, and what the upper layers are told. -/
inductive Output
  | request (type : RequestType) (id prefix_id : Id) (strategy : Strategy)
  | publishData (id : Id) (strategy : Strategy) (data : List UInt8) (data_len : Nat)
  | fromLowerLayer (uplayer : Channel) (ev : Event)
deriving DecidableEq

/-- The order of the keys of a map. -/
def before : Id → Id → Bool
  | _, [] => false
  | [], _ :: _ => true
  | a :: x, b :: y => a < b || (a = b && before x y)

/-- A map in the order of its keys. -/
abbrev Channels := List (Id × Channel)

def Channels.set (key : Id) (uplayer : Channel) : Channels → Channels
  | [] => [(key, uplayer)]
  | (k, c) :: rest =>
    if key = k then (key, uplayer) :: rest
    else if before key k then (key, uplayer) :: (k, c) :: rest
    else (k, c) :: Channels.set key uplayer rest

structure State where
  payloadRVSId : Id
  RVSIds : Channels
  buffer : Id → Option Publication
  AppIDtoLowerID : Id → Option InfoId
  LowerIDtoAppId : Id → Option Id
  bastrategy : Strategy

/-- The state the constructor leaves. -/
def State.init (bastrategy : Strategy) : State where
  payloadRVSId := []
  RVSIds := []
  buffer := fun _ => none
  AppIDtoLowerID := fun _ => none
  LowerIDtoAppId := fun _ => none
  bastrategy := bastrategy

/-- `AppIDtoLowerID[key]`, which makes an empty entry where there is none. -/
def State.lowerID (s : State) (key : Id) : InfoId × State :=
  let entry := (s.AppIDtoLowerID key).getD ⟨[], []⟩
  (entry, { s with AppIDtoLowerID := Function.update s.AppIDtoLowerID key (some entry) })

/-- `LowerIDtoAppId[key]`. -/
def State.appId (s : State) (key : Id) : Id × State :=
  let entry := (s.LowerIDtoAppId key).getD []
  (entry, { s with LowerIDtoAppId := Function.update s.LowerIDtoAppId key (some entry) })

def setRVSId (s : State) (RVSId : Id) (uplayer : Channel) : State :=
  { s with RVSIds := s.RVSIds.set RVSId uplayer, payloadRVSId := RVSId }

/-! ## Requests with a payload -/

/-- The operations that send a payload. -/
inductive Operation
  | publishScope
  | publishInfo
  | subscribeInfo
deriving DecidableEq

/-- `PUBLISH_SCOPE_WITH_PAYLOAD`, `PUBLISH_INFO_WITH_PAYLOAD`, `SUBSCRIBE_INFO_WITH_PAYLOAD`. -/
def Operation.code : Operation → List UInt8
  | .publishScope => [0x31]
  | .publishInfo => [0x32]
  | .subscribeInfo => [0x34]

def getResponseRId (rid : Id) : Id := rid.reverse

/-- What is stored for a request. The header and the payload are appended as C strings. Behind the payload there is
more memory to read. -/
def publicationFor (op : Operation) (payloadRVSId id prefix_id payload beyond RId : List UInt8)
    (strategy : Strategy) : Option Publication := do
  let header := op.code ++ [semicolon] ++ id ++ [semicolon] ++ prefix_id ++ [semicolon]
  let text ← upTo 0 (payload ++ beyond)
  return {
    RId := RId
    SId := payloadRVSId
    payload := cString header ++ text
    strategy := strategy
    size := header.length + payload.length
    immutable := false }

def publishScopeWpl (s : State) (payloadRVSId id prefix_id payload beyond RId : List UInt8)
    (strategy : Strategy) : Option (State × List Output) := do
  let pub ← publicationFor .publishScope payloadRVSId id prefix_id payload beyond RId strategy
  let responseRId := getResponseRId RId
  return ({ s with buffer := Function.update s.buffer (payloadRVSId ++ RId) (some pub) }, [
    .request .subscribeInfo responseRId payloadRVSId strategy,
    .request .subscribeInfo responseRId (payloadRVSId ++ ackScopeId) strategy,
    .request .publishInfo RId payloadRVSId strategy])

/-- What `publish_info_wpl` and `subscribe_info_wpl` have in common. -/
def infoWpl (op : Operation) (s : State) (payloadRVSId id prefix_id payload beyond RId : List UInt8)
    (strategy : Strategy) : Option (State × List Output) := do
  let pub ← publicationFor op payloadRVSId id prefix_id payload beyond RId strategy
  let responseRId := getResponseRId RId
  return ({ s with buffer := Function.update s.buffer (payloadRVSId ++ RId) (some pub) }, [
    .request .subscribeInfo responseRId (payloadRVSId ++ ackScopeId) strategy,
    .request .subscribeInfo responseRId payloadRVSId strategy,
    .request .publishInfo RId payloadRVSId strategy])

def publishInfoWpl := infoWpl .publishInfo

def subscribeInfoWpl := infoWpl .subscribeInfo

def Operation.wpl : Operation → State → (payloadRVSId id prefix_id payload beyond RId : List UInt8) →
    Strategy → Option (State × List Output)
  | .publishScope => publishScopeWpl
  | .publishInfo => publishInfoWpl
  | .subscribeInfo => subscribeInfoWpl

/-! ## Messages from below -/

inductive MatchKind
  | publication
  | subscription
deriving DecidableEq

/-- What a match registers. -/
def MatchKind.registers : MatchKind → RequestType
  | .publication => .publishInfo
  | .subscription => .subscribeInfo

structure Match where
  SId : Id
  RId : Id
  AppSIdRId : Id
  msgToHL : List UInt8
deriving DecidableEq

def readMatch (data : List UInt8) (si : Nat) : Match :=
  let SId := field data si
  let RId := field data SId.2
  let AppSIdRId := field data RId.2
  let msgToHL := field data AppSIdRId.2
  ⟨SId.1, RId.1, AppSIdRId.1, msgToHL.1⟩

/-- The commands from a rendezvous point. -/
def command (data : List UInt8) : Option (MatchKind × Match) :=
  let type := field data 0
  if type.1 = publicationMatch then some (.publication, readMatch data type.2)
  else if type.1 = subscriptionMatch then some (.subscription, readMatch data type.2)
  else none

/-- A message of a match, for the upper layer of the rendezvous point. -/
def tellMessage (s : State) (uplayer : Channel) (id : Id) (msgToHL : List UInt8) :
    State × List Output :=
  if msgToHL ≠ [] then
    let (appId, s) := s.appId id
    (s, [.fromLowerLayer uplayer ⟨publishedData, appId, some msgToHL⟩])
  else (s, [])

def onMatch (s : State) (uplayer : Channel) (id : Id) (kind : MatchKind) (m : Match) :
    State × List Output :=
  if m.SId ≠ [] ∧ m.RId ≠ [] then
    let s := { s with
      AppIDtoLowerID := Function.update s.AppIDtoLowerID m.AppSIdRId (some ⟨m.RId, m.SId⟩)
      LowerIDtoAppId := Function.update s.LowerIDtoAppId (m.SId ++ m.RId) (some m.AppSIdRId)
      RVSIds := s.RVSIds.set (m.SId ++ m.RId) uplayer }
    let (s, told) := tellMessage s uplayer id m.msgToHL
    (s, .request kind.registers m.RId m.SId s.bastrategy :: told)
  else tellMessage s uplayer id m.msgToHL

/-- The first of the upper layers is told to start, also where the event was to stop. -/
def tellStart (s : State) (id : Id) : Option (State × List Output) := do
  let (_, uplayer) ← s.RVSIds.head?
  let (appId, s) := s.appId id
  return (s, [.fromLowerLayer uplayer ⟨startPublish, appId, none⟩])

def evsid (s : State) (id : Id) : Id := id.take s.payloadRVSId.length

/-- `PUBLISHED_DATA`, from a rendezvous point or from a publisher. -/
def onData (s : State) (id : Id) (data : List UInt8) : Option (State × List Output) :=
  match s.RVSIds.lookup (evsid s id) with
  | some uplayer =>
    match command data with
    | some (kind, m) => some (onMatch s uplayer id kind m)
    | none => some (s, [.fromLowerLayer uplayer ⟨publishedData, id, some data⟩])
  | none => do
    let (appId, s) := s.appId id
    let uplayer ← s.RVSIds.lookup id
    return (s, [.fromLowerLayer uplayer ⟨publishedData, appId, some data⟩])

def fromLowerLayer (s : State) (ev : Transport.RVEvent) : Option (State × List Output) :=
  if ev.type = stopPublish then tellStart s ev.id
  else if ev.type = startPublish then
    match s.buffer ev.id with
    | none => tellStart s ev.id
    | some pub =>
      let sent := Output.publishData ev.id pub.strategy pub.payload pub.size
      if pub.immutable then some (s, [sent])
      else some ({ s with buffer := Function.update s.buffer ev.id none },
        [sent, .request .unpublishInfo pub.RId pub.SId pub.strategy])
  else if ev.type = publishedData then onData s ev.id (cString ev.data)
  else some (s, [])

/-! ## Requests of the application -/

def publishData (s : State) (id : Id) (strategy : Strategy) (data : List UInt8) (data_len : Nat) :
    State × List Output :=
  match s.AppIDtoLowerID id with
  | none => (s, [.publishData id strategy data data_len])
  | some _ =>
    let (forSId, s) := s.lowerID id
    let (forRId, s) := s.lowerID id
    (s, [.publishData (forSId.SId ++ forRId.RId) strategy data data_len])

def unpublishInfo (s : State) (id prefix_id : Id) (strategy : Strategy) : State × List Output :=
  let key := prefix_id ++ id
  match s.AppIDtoLowerID key with
  | none => (s, [.request .unpublishInfo id prefix_id strategy])
  | some _ =>
    let (forRId, s) := s.lowerID key
    let (forSId, s) := s.lowerID id
    (s, [.request .unpublishInfo forRId.RId forSId.SId strategy])

def unsubscribeInfo (s : State) (id prefix_id : Id) (strategy : Strategy) : State × List Output :=
  let key := prefix_id ++ id
  match s.AppIDtoLowerID key with
  | none => (s, [.request .unpublishInfo id prefix_id strategy])
  | some _ =>
    let (forRId, s) := s.lowerID key
    let (forSId, s) := s.lowerID key
    (s, [.request .unpublishInfo forRId.RId forSId.SId strategy])

def publishInfo (s : State) (id prefix_id : Id) (strategy : Strategy) : State × List Output :=
  let key := prefix_id ++ id
  ({ s with LowerIDtoAppId := Function.update s.LowerIDtoAppId key (some key) },
    [.request .publishInfo id prefix_id strategy])

end PubSub

end Blackadder
