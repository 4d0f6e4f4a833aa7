import Blackadder.Lib.Wire
import Blackadder.Proxy.Runs

/-!
# Packets of the elements of a node

What the client library, the local proxy and the rendezvous element write into packets and read
from them. `none` stands for an access outside the packet.
-/

namespace Blackadder

open Wire (slice blit store)

/-! ## Constants -/

def RequestType.code : RequestType → UInt8
  | .publishScope => 0
  | .publishInfo => 1
  | .unpublishScope => 2
  | .unpublishInfo => 3
  | .subscribeScope => 4
  | .subscribeInfo => 5
  | .unsubscribeScope => 6
  | .unsubscribeInfo => 7

def RequestType.ofCode (b : UInt8) : Option RequestType :=
  [.publishScope, .publishInfo, .unpublishScope, .unpublishInfo, .subscribeScope, .subscribeInfo,
    .unsubscribeScope, .unsubscribeInfo].find? (fun t => t.code = b)

@[simp]
theorem RequestType.ofCode_code (t : RequestType) : ofCode t.code = some t := by
  cases t <;> rfl

namespace Code

def publishData : UInt8 := 8
def disconnect : UInt8 := 13
def updateBA : UInt8 := 55
def startPublish : UInt8 := 100
def stopPublish : UInt8 := 101
def scopePublished : UInt8 := 102
def scopeUnpublished : UInt8 := 103
def publishedData : UInt8 := 104
def matchPubSubs : UInt8 := 105

end Code

/-- `RV_ELEMENT`, the port of the rendezvous element. -/
def rvElement : HostId := 1

/-- `FID_LEN`. -/
@[simp]
abbrev fidLen : Nat := 32

namespace GlobalConf

def RVScope : Id := List.replicate 8 255
def TMScope : Id := List.replicate 7 255 ++ [254]
def notificationScope : Id := List.replicate 7 255 ++ [253]

def nodeRVScope (gc : GlobalConf) : Id := RVScope ++ gc.nodeID
def nodeTMScope (gc : GlobalConf) : Id := TMScope ++ gc.nodeID
def notificationIID (gc : GlobalConf) : Id := notificationScope ++ gc.nodeID

end GlobalConf

/-- `_data` in memory, on a machine that keeps the low byte of a word first. -/
def Bitvector.data (v : Bitvector) : List UInt8 :=
  (List.range fidLen).map fun k => UInt8.ofNat (v.toNat / 256 ^ k % 256)

def Bitvector.ofData (data : List UInt8) : Bitvector :=
  BitVec.ofNat fidBits (data.foldr (fun b n => b.toNat + 256 * n) 0)

/-- The length of an id in fragments, as an `unsigned char`. -/
def fragments (ID : Id) : UInt8 := UInt8.ofNat (ID.length / pursuitIdLen)

/-! ## The client library -/

/-- The integer in `n` bytes, the low one first. -/
def littleEndian (n v : Nat) : List UInt8 := (List.range n).map fun k => UInt8.ofNat (v / 256 ^ k % 256)

@[simp]
theorem length_littleEndian (n v : Nat) : (littleEndian n v).length = n := by simp [littleEndian]

theorem littleEndian_succ (n v : Nat) :
    littleEndian (n + 1) v = UInt8.ofNat (v % 256) :: littleEndian n (v / 256) := by
  unfold littleEndian
  rw [List.range_succ_eq_map, List.map_cons, List.map_map, Nat.pow_zero, Nat.div_one]
  refine congrArg _ (List.map_congr_left fun i _ => ?_)
  rw [Function.comp_apply, Nat.pow_succ', Nat.div_div_eq_div_mul]

theorem foldr_littleEndian (n v : Nat) :
    (littleEndian n v).foldr (fun b m => b.toNat + 256 * m) 0 = v % 256 ^ n := by
  induction n generalizing v with
  | zero => simp [littleEndian, Nat.mod_one]
  | succ n ih =>
    rw [littleEndian_succ, List.foldr_cons, ih, UInt8.toNat_ofNat', Nat.mod_mod, Nat.pow_succ',
      Nat.mod_mul]

theorem littleEndian_foldr (l : List UInt8) :
    littleEndian l.length (l.foldr (fun b m => b.toNat + 256 * m) 0) = l := by
  induction l with
  | nil => rfl
  | cons b l ih =>
    have hb : b.toNat < 256 := b.toNat_lt
    rw [List.length_cons, littleEndian_succ, List.foldr_cons, Nat.add_mul_mod_self_left,
      Nat.mod_eq_of_lt hb, Nat.add_mul_div_left _ _ (by omega), Nat.div_eq_of_lt hb, Nat.zero_add, ih,
      UInt8.ofNat_toNat]

theorem foldr_lt (l : List UInt8) : l.foldr (fun b m => b.toNat + 256 * m) 0 < 256 ^ l.length := by
  induction l with
  | nil => simp
  | cons b l ih =>
    have hb : b.toNat < 256 := b.toNat_lt
    rw [List.foldr_cons, List.length_cons, Nat.pow_succ']
    omega

/-- `struct nlmsghdr`: length, type, flags, sequence number and process. -/
def nlmsghdr (nlmsg_len pid : Nat) : List UInt8 :=
  littleEndian 4 nlmsg_len ++ littleEndian 2 0 ++ littleEndian 2 1 ++ littleEndian 4 0 ++
    littleEndian 4 pid

namespace Library

/-- `create_and_send_buffers`. The kernel sends the parts of `iov` one behind the other. -/
def createAndSendBuffers (pid : Nat) (type : UInt8) (id prefixID : Id) (strategy : Strategy)
    (strOpt : List UInt8) : List UInt8 :=
  let nlmsg_len := 16 + 1 + 1 + id.length + 1 + prefixID.length + 1 + strOpt.length
  nlmsghdr nlmsg_len pid ++ [type] ++ [fragments id] ++ id ++ [fragments prefixID] ++ prefixID ++
    [strategy] ++ strOpt

/-- The message of a request that is not sent. -/
def couldNotSend (name reason : String) : String :=
  "Blackadder Library: Could not send " ++ name ++ " request - " ++ reason

/-- The test that the functions of the library begin with. -/
def checkSizes (name : String) (id prefixID : Id) : Except String Unit :=
  if id.length % pursuitIdLen ≠ 0 then .error (couldNotSend name "wrong ID size")
  else if prefixID.length % pursuitIdLen ≠ 0 then
    .error (couldNotSend name "wrong prefix_id size")
  else .ok ()

def checkId (name : String) (id : Id) : Except String Unit :=
  if id.length = 0 then .error (couldNotSend name "id cannot be empty") else .ok ()

def checkPrefix (name : String) (prefixID : Id) : Except String Unit :=
  if prefixID.length = 0 then .error (couldNotSend name "prefix_id cannot be empty") else .ok ()

def checkSingle (name : String) (id : Id) : Except String Unit :=
  if 1 < id.length / pursuitIdLen then
    .error (couldNotSend name "id cannot consist of multiple fragments")
  else .ok ()

/-- A request about a scope with one fragment. -/
def checkScope (name : String) (id prefixID : Id) : Except String Unit := do
  checkSizes name id prefixID
  checkId name id
  checkSingle name id

/-- A request about an item with one fragment. -/
def checkInfo (name : String) (id prefixID : Id) : Except String Unit := do
  checkSizes name id prefixID
  checkId name id
  checkPrefix name prefixID
  checkSingle name id

def publishScope (id prefixID : Id) : Except String Unit := do
  checkSizes "PUBLISH_SCOPE" id prefixID
  checkId "PUBLISH_SCOPE" id

/-- The id is not tested, and the prefix is tested twice. -/
def publishInfo (id prefixID : Id) : Except String Unit := do
  checkSizes "PUBLISH_INFO" id prefixID
  checkPrefix "PUBLISH_INFO" prefixID
  checkPrefix "PUBLISH_INFO" prefixID

def unpublishScope := checkScope "UNPUBLISH_SCOPE"
def unpublishInfo := checkInfo "UNPUBLISH_INFO"
def subscribeScope := checkScope "SUBSCRIBE_SCOPE"
def subscribeInfo := checkInfo "SUBSCRIBE_INFO"
def unsubscribeScope := checkScope "UNSUBSCRIBE_SCOPE"
def unsubscribeInfo := checkInfo "UNSUBSCRIBE_INFO"

def check : RequestType → Id → Id → Except String Unit
  | .publishScope => publishScope
  | .publishInfo => publishInfo
  | .unpublishScope => unpublishScope
  | .unpublishInfo => unpublishInfo
  | .subscribeScope => subscribeScope
  | .subscribeInfo => subscribeInfo
  | .unsubscribeScope => unsubscribeScope
  | .unsubscribeInfo => unsubscribeInfo

/-- The call of an application: the message that is printed or the datagram that is sent. -/
def send (pid : Nat) (r : Request) (strOpt : List UInt8) : Except String (List UInt8) := do
  check r.type r.ID r.prefixID
  return createAndSendBuffers pid r.type.code r.ID r.prefixID r.strategy strOpt

end Library

/-- `FromNetlink::selected` passes on what is behind the header. -/
def FromNetlink.selected (datagram : List UInt8) : List UInt8 := datagram.drop 16

/-! ## Reads -/

/-- A length in fragments and the id behind it. -/
def readId (p : List UInt8) (off : Nat) : Option Id := do
  let IDLength ← p[off]?
  slice p (off + 1) (IDLength.toNat * pursuitIdLen)

/-- The loop over the ids of a message, and where they end. -/
def readIds (p : List UInt8) : Nat → Nat → Option (List Id × Nat)
  | off, 0 => some ([], off)
  | off, n + 1 => do
    let ID ← readId p off
    let (IDs, off) ← readIds p (off + 1 + ID.length) n
    return (ID :: IDs, off)

/-- A request with its type as a byte. -/
structure RawRequest where
  type : UInt8
  ID : Id
  prefixID : Id
  strategy : Strategy

def RawRequest.request? (r : RawRequest) : Option Request :=
  (RequestType.ofCode r.type).map fun t => ⟨t, r.ID, r.prefixID, r.strategy⟩

/-- The reads of a pub/sub request in `LocalProxy::push` and in `LocalRV::push`. -/
def readRequest (p : List UInt8) (off : Nat) : Option RawRequest := do
  let type ← p[off]?
  let ID ← readId p (off + 1)
  let prefixID ← readId p (off + 2 + ID.length)
  let strategy ← p[off + 2 + ID.length + 1 + prefixID.length]?
  return ⟨type, ID, prefixID, strategy⟩

def readFID (p : List UInt8) (off : Nat) : Option Bitvector :=
  (slice p off fidLen).map Bitvector.ofData

namespace LocalProxy

/-- The reads of `handleRVNotification`. The inner `none` is a type that it does not know. -/
def readNotification (p : List UInt8) : Option (Option Notification) := do
  let type ← p[0]?
  let numberOfIDs ← p[1]?
  let (IDs, index) ← readIds p 2 numberOfIDs.toNat
  if type = Code.scopePublished then return some (.scopePublished IDs)
  else if type = Code.scopeUnpublished then return some (.scopeUnpublished IDs)
  else if type = Code.startPublish then return some (.startPublish IDs (← readFID p index))
  else if type = Code.updateBA then
    return some (.updateBA (← readFID p 1) (← readFID p (1 + fidLen)))
  else if type = Code.stopPublish then return some (.stopPublish IDs)
  else return none

/-- The reads of `push` on port 2. -/
def readNetwork (gc : GlobalConf) (p : List UInt8) : Option (Option Input) := do
  let numberOfIDs ← p[0]?
  let (IDs, index) ← readIds p 1 numberOfIDs.toNat
  let payload := p.drop index
  if IDs = [gc.notificationIID] then
    return (← readNotification payload).map .notification
  else return some (.network IDs payload)

/-- The reads of `push` on another port for `PUBLISH_DATA`. -/
def readPublication (gc : GlobalConf) (type : HostType) (host : HostId) (p : List UInt8) :
    Option (Option Input) := do
  let ID ← readId p 1
  let strategy ← p[2 + ID.length]?
  let off := 2 + ID.length + 1
  if strategy = implicitRendezvous then
    let FID ← readFID p off
    let payload := p.drop (off + fidLen)
    if ID = gc.notificationIID then
      return (← readNotification payload).map (.localNotification type host)
    else return some (.publication type host ID strategy FID payload)
  else if strategy = linkLocal then
    let FID ← readFID p off
    return some (.publication type host ID strategy FID (p.drop (off + fidLen)))
  else return some (.publication type host ID strategy 0 (p.drop off))

/-- The reads of `push` on another port, with the orders for `DISCONNECT`. -/
def readLocal (gc : GlobalConf) (type : HostType) (host : HostId) (pubOrder subOrder : List Id)
    (p : List UInt8) : Option (Option Input) := do
  let code ← p[0]?
  if code = Code.disconnect then return some (.disconnect type host pubOrder subOrder)
  else if code = Code.publishData then readPublication gc type host p
  else
    let r ← readRequest p 0
    match r.request? with
    | some r => return some (.request type host r)
    | none => return some (.unknown type host)

/-! ## Writes -/

/-- A packet at an output of the proxy. -/
structure Sent where
  port : Nat
  packet : List UInt8
deriving DecidableEq

/-- `Packet::make` and `push` of a packet: `n` bytes with what was in memory, and then `p`. -/
def room (fresh : Nat → UInt8) (n : Nat) (p : List UInt8) : List UInt8 := (List.range n).map fresh ++ p

/-- The header of an event for a subscriber in front of `p`. -/
def pushEvent (fresh : Nat → UInt8) (ID : Id) (p : List UInt8) : Option (List UInt8) := do
  let p ← store (room fresh (1 + 1 + ID.length) p) 0 Code.publishedData
  let p ← store p 1 (fragments ID)
  blit p 2 ID

def pushDataToLocalSubscriber (fresh : Nat → UInt8) (port : Nat) (ID : Id) (p : List UInt8) :
    Option Sent := do
  return ⟨port, ← pushEvent fresh ID p⟩

def publishReqToRV (fresh : Nat → UInt8) (gc : GlobalConf) (p : List UInt8) (RVFID : Bitvector) :
    Option Sent := do
  if RVFID = 0 ∨ RVFID = gc.iLID then return ⟨1, ← pushEvent fresh gc.nodeRVScope p⟩
  else
    let p ← store (room fresh (1 + 1 + 2 * pursuitIdLen) p) 0 1
    let p ← store p 1 2
    let p ← blit p 2 gc.nodeRVScope
    let p ← blit (room fresh fidLen p) 0 RVFID.data
    return ⟨2, p⟩

/-- The writes of a request by `createAndSendPacketToRV`. -/
def putRequest (p : List UInt8) (off : Nat) (type IDLength : UInt8) (ID : Id) (prefixIDLength : UInt8)
    (prefixID : Id) (strategy : Strategy) : Option (List UInt8) := do
  let p ← store p off type
  let p ← store p (off + 1) IDLength
  let p ← blit p (off + 1 + 1) ID
  let p ← store p (off + 1 + 1 + ID.length) prefixIDLength
  let p ← blit p (off + 1 + 1 + ID.length + 1) prefixID
  store p (off + 1 + 1 + ID.length + 1 + prefixID.length) strategy

/-- The lengths are arguments of their own. -/
def createAndSendPacketToRV (fresh : Nat → UInt8) (gc : GlobalConf) (type IDLength : UInt8) (ID : Id)
    (prefixIDLength : UInt8) (prefixID : Id) (RVFID : Bitvector) (strategy : Strategy) :
    Option Sent := do
  let size := 1 + 1 + 2 * pursuitIdLen + 1 + 1 + IDLength.toNat * pursuitIdLen + 1 +
    prefixIDLength.toNat * pursuitIdLen + 1
  if RVFID = 0 ∨ RVFID = gc.iLID then
    let p ← store (room fresh size []) 0 Code.publishedData
    let p ← store p 1 (fragments gc.nodeRVScope)
    let p ← blit p (1 + 1) gc.nodeRVScope
    return ⟨1, ← putRequest p (1 + 1 + gc.nodeRVScope.length) type IDLength ID prefixIDLength prefixID
      strategy⟩
  else
    let p ← blit (room fresh (fidLen + size) []) 0 RVFID.data
    let p ← store p fidLen 1
    let p ← store p (fidLen + 1) 2
    let p ← blit p (fidLen + 1 + 1) (gc.nodeRVScope.take (2 * pursuitIdLen))
    return ⟨2, ← putRequest p (fidLen + 1 + 1 + 2 * pursuitIdLen) type IDLength ID prefixIDLength
      prefixID strategy⟩

end LocalProxy

/-- The reads of `LocalRV::push`. The inner `none` is an event that it does not expect. -/
def LocalRV.readEvent (p : List UInt8) : Option (Option (NodeId × RawRequest)) := do
  let typeOfAPIEvent ← p[0]?
  let IDOfAPIEvent ← readId p 1
  if typeOfAPIEvent = Code.publishedData then
    let r ← readRequest p (1 + 1 + IDOfAPIEvent.length)
    return some (IDOfAPIEvent.drop pursuitIdLen, r)
  else return none

end Blackadder
