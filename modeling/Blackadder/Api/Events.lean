import Blackadder.Api.Requests

/-!
# Events on their way to an application

The proxy writes a notification or data for a host, `ToNetlink` puts a netlink header in front, and
a client library makes an `Event` of the datagram. `none` stands for an access outside the datagram.
-/

namespace Blackadder

open Wire

variable {d : List UInt8} {ev ev' : Event} {o : ProxyOutput} {fresh : Nat → UInt8} {pid : Nat}

/-! ## The proxy and `ToNetlink` -/

def LocalEvent.code : LocalEvent → UInt8
  | .startPublish => Code.startPublish
  | .stopPublish => Code.stopPublish
  | .scopePublished => Code.scopePublished
  | .scopeUnpublished => Code.scopeUnpublished

theorem LocalEvent.code_ne (event : LocalEvent) : event.code ≠ Code.publishedData := by
  cases event <;> decide

def LocalProxy.sendNotificationLocally (fresh : Nat → UInt8) (port : Nat) (type : UInt8) (ID : Id) :
    Option Sent := do
  let p := room fresh (1 + 1 + ID.length) []
  let IDLength := fragments ID
  let p ← store p 0 type
  let p ← store p 1 IDLength
  let p ← blit p (1 + 1) (ID.take (IDLength.toNat * pursuitIdLen))
  return ⟨port, p⟩

/-- The length that `push` puts into the header is the size of a length. In the kernel `pid` is 0, and
in user space 9999. -/
def ToNetlink.push (pid : Nat) (p : List UInt8) : List UInt8 := nlmsghdr 4 pid ++ p

/-- The datagram for the application that an output of the proxy is for. -/
def ProxyOutput.datagram (fresh : Nat → UInt8) (pid : Nat) (o : ProxyOutput) : Option (List UInt8) := do
  match o with
  | .notify event _ ID =>
    let s ← LocalProxy.sendNotificationLocally fresh 0 event.code ID
    return ToNetlink.push pid s.packet
  | .deliver _ ID payload =>
    let s ← LocalProxy.pushDataToLocalSubscriber fresh 0 ID payload
    return ToNetlink.push pid s.packet
  | _ => none

/-! ## The libraries -/

/-- `UNDEF_EVENT`. -/
def Code.undefEvent : UInt8 := 0

/-- `data` is `none` for the null pointer, and otherwise what it points to in `buffer`. -/
structure Event where
  type : UInt8
  id : Id
  data : Option (List UInt8)
  buffer : List UInt8
deriving DecidableEq

/-- The copy constructor. -/
def Event.copy (ev : Event) : Option Event := do
  let data_len := (ev.data.getD []).length
  let buffer ← slice ev.buffer 0 (16 + 1 + 1 + ev.id.length + data_len)
  return ⟨ev.type, ev.id, some (buffer.drop (16 + 1 + 1 + ev.id.length)), buffer⟩

/-- What the selector of `NB_Blackadder` makes of a datagram. -/
def NBLibrary.readEvent (d : List UInt8) : Option Event := do
  let type ← d[16]?
  let id_len ← d[17]?
  let id ← slice d 18 (id_len.toNat * pursuitIdLen)
  let ptr := 18 + id_len.toNat * pursuitIdLen
  return ⟨type, id, if type = Code.publishedData then some (d.drop ptr) else none, d⟩

/-- What `getEvent` of `Blackadder` writes into `ev` for a datagram. -/
def Library.getEvent (ev : Event) (d : List UInt8) : Option Event := do
  if d.length < 16 then return { ev with type := Code.undefEvent }
  else
    let type ← d[16]?
    let id_len ← d[17]?
    let id ← slice d 18 (id_len.toNat * pursuitIdLen)
    let ptr := 18 + id_len.toNat * pursuitIdLen
    return ⟨type, id, if type = Code.publishedData then some (d.drop ptr) else none, d⟩

/-! ## What is told -/

/-- The type, the id and the data. -/
def Event.told (ev : Event) : UInt8 × Id × Option (List UInt8) := (ev.type, ev.id, ev.data)

/-- What the proxy has to say to a host. -/
def ProxyOutput.told : ProxyOutput → Option (UInt8 × Id × Option (List UInt8))
  | .notify event _ ID => some (event.code, ID, none)
  | .deliver _ ID payload => some (Code.publishedData, ID, some payload)
  | _ => none

theorem readEvent_cases (h : NBLibrary.readEvent d = some ev) :
    ∃ id_len : UInt8, d[16]? = some ev.type ∧ d[17]? = some id_len ∧
      slice d 18 (id_len.toNat * pursuitIdLen) = some ev.id ∧ ev.buffer = d ∧
      ev.data = if ev.type = Code.publishedData then some (d.drop (18 + ev.id.length)) else none := by
  unfold NBLibrary.readEvent at h
  simp only [Option.bind_eq_bind, Option.bind_eq_some_iff] at h
  obtain ⟨type, htype, id_len, hlen, id, hid, h⟩ := h
  obtain rfl := Option.some.inj h
  refine ⟨id_len, htype, hlen, hid, rfl, ?_⟩
  rw [slice_length hid]

/-- No event has another id than one that a length of one byte can count. -/
theorem sendable_of_readEvent (h : NBLibrary.readEvent d = some ev) : Sendable ev.id := by
  obtain ⟨id_len, -, -, hid, -, -⟩ := readEvent_cases h
  have hlen := slice_length hid
  have hbyte := id_len.toNat_lt
  refine ⟨⟨id_len.toNat, by rw [hlen, Nat.mul_comm]⟩, ?_⟩
  rw [hlen]
  exact Nat.mul_le_mul_right _ (by omega)

theorem readEvent_eq_none (h : d.length ≤ 16) : NBLibrary.readEvent d = none := by
  unfold NBLibrary.readEvent
  rw [List.getElem?_eq_none h]
  rfl

/-- The libraries differ only where there is no header, and `NB_Blackadder` reads behind the end. -/
theorem getEvent_eq_iff : Library.getEvent ev d = NBLibrary.readEvent d ↔ 16 ≤ d.length := by
  constructor
  · intro h
    by_contra hlt
    rw [readEvent_eq_none (by omega), Library.getEvent, if_pos (by omega)] at h
    cases h
  · intro h
    rw [Library.getEvent, if_neg (by omega)]
    rfl

theorem length_of_readEvent (h : NBLibrary.readEvent d = some ev) : 18 + ev.id.length ≤ d.length := by
  obtain ⟨id_len, -, hlen, hid, -, -⟩ := readEvent_cases h
  obtain ⟨hlt, -⟩ := List.getElem?_eq_some_iff.mp hlen
  have hslice := slice_length hid
  unfold slice at hid
  split at hid
  case isTrue hall =>
    rw [List.length_take, List.length_drop] at hall
    omega
  case isFalse => cases hid

/-- A copy of an event that was read says the same, where no data are data of no length. Nothing
behind the datagram is read for it. -/
theorem readEvent_copy (h : NBLibrary.readEvent d = some ev) :
    ∃ c, ev.copy = some c ∧ c.type = ev.type ∧ c.id = ev.id ∧ c.data = some (ev.data.getD []) ∧
      c.buffer <+: d := by
  have hfits := length_of_readEvent h
  obtain ⟨-, -, -, -, hbuffer, hdata⟩ := readEvent_cases h
  -- the buffer is copied up to the end of the data
  have hlen : 18 + ev.id.length + (ev.data.getD []).length ≤ d.length := by
    rw [hdata]
    split
    · simp only [Option.getD_some, List.length_drop]
      omega
    · simpa using hfits
  have hslice : slice ev.buffer 0 (16 + 1 + 1 + ev.id.length + (ev.data.getD []).length) =
      some (d.take (18 + ev.id.length + (ev.data.getD []).length)) := by
    rw [hbuffer, slice, if_pos (by simp; omega)]
    rfl
  unfold Event.copy
  simp only [hslice, Option.bind_eq_bind, Option.bind_some]
  refine ⟨_, rfl, rfl, rfl, ?_, List.take_prefix _ _⟩
  show some (List.drop (18 + ev.id.length) _) = _
  rw [List.drop_take, Nat.add_sub_cancel_left, hdata]
  split
  · rw [Option.getD_some, List.take_length]
  · rfl

/-! ## Round trips -/

theorem sendNotificationLocally_eq (port : Nat) (type : UInt8) {ID : Id} (hID : Sendable ID) :
    LocalProxy.sendNotificationLocally fresh port type ID = some ⟨port, [type] ++ idBytes ID⟩ := by
  have hall : ID.take ((fragments ID).toNat * pursuitIdLen) = ID := by
    rw [hID.toNat_fragments, List.take_length]
  obtain ⟨p1, hrun1, h1⟩ := (front_room fresh (1 + 1 + ID.length) []).store (a := type) (k := 0) rfl
    (by omega)
  obtain ⟨p2, hrun2, h2⟩ := h1.store (a := fragments ID) (k := 1) rfl (by omega)
  obtain ⟨p3, hrun3, h3⟩ := h2.blit (x := ID) (k := 1 + 1) rfl (by omega)
  have hdone := h3.eq (by simp; omega)
  simp only [LocalProxy.sendNotificationLocally, hrun1, hrun2, hall, hrun3, hdone,
    Option.bind_eq_bind, Option.bind_some]
  simp [idBytes]

theorem exists_sendNotificationLocally (fresh : Nat → UInt8) (port : Nat) (type : UInt8) (ID : Id) :
    ∃ s, LocalProxy.sendNotificationLocally fresh port type ID = some s := by
  obtain ⟨p1, hrun1, h1⟩ := (front_room fresh (1 + 1 + ID.length) []).store (a := type) (k := 0) rfl
    (by omega)
  obtain ⟨p2, hrun2, h2⟩ := h1.store (a := fragments ID) (k := 1) rfl (by omega)
  obtain ⟨p3, hrun3, -⟩ := h2.blit (x := ID.take ((fragments ID).toNat * pursuitIdLen)) (k := 1 + 1)
    rfl (by simp)
  refine ⟨⟨port, p3⟩, ?_⟩
  simp only [LocalProxy.sendNotificationLocally, hrun1, hrun2, hrun3, Option.bind_eq_bind,
    Option.bind_some]
  rfl

theorem readEvent_push (pid : Nat) (type : UInt8) {ID : Id} (p : List UInt8) (hID : Sendable ID) :
    NBLibrary.readEvent (ToNetlink.push pid ([type] ++ idBytes ID ++ p)) =
      some ⟨type, ID, if type = Code.publishedData then some p else none,
        ToNetlink.push pid ([type] ++ idBytes ID ++ p)⟩ := by
  generalize hd : ToNetlink.push pid ([type] ++ idBytes ID ++ p) = d
  have h : d.drop 16 = [type] ++ (idBytes ID ++ p) := by
    rw [← hd, ToNetlink.push, List.drop_left' (length_nlmsghdr 4 pid), List.append_assoc]
  have h1 : d.drop 17 = [fragments ID] ++ (ID ++ p) := drop_next (m := 1) h rfl
  have h2 : d.drop 18 = ID ++ p := drop_next (m := 1) h1 rfl
  have h3 : d.drop (18 + ID.length) = p := drop_next h2 rfl
  unfold NBLibrary.readEvent
  simp only [load_drop h, load_drop h1, hID.toNat_fragments, slice_drop h2 rfl, h3,
    Option.bind_eq_bind, Option.bind_some]
  rfl

theorem readEvent_datagram (fresh : Nat → UInt8) (pid : Nat) {t : UInt8 × Id × Option (List UInt8)} (h : o.told = some t)
    (hID : Sendable t.2.1) : ∃ d, o.datagram fresh pid = some d ∧
      (NBLibrary.readEvent d).map Event.told = some t := by
  cases o with
  | toRV RVFID r => cases h
  | unsetToRV RVFID type strategy => cases h
  | publish IDs FID payload => cases h
  | notify event host ID =>
    obtain rfl := Option.some.inj h
    have hread := readEvent_push pid event.code [] hID
    rw [List.append_nil, if_neg event.code_ne] at hread
    refine ⟨_, by rw [ProxyOutput.datagram, sendNotificationLocally_eq 0 event.code hID]; rfl, ?_⟩
    rw [hread]
    rfl
  | deliver host ID payload =>
    obtain rfl := Option.some.inj h
    have hread := readEvent_push pid Code.publishedData payload hID
    rw [if_pos rfl] at hread
    refine ⟨ToNetlink.push pid (eventBytes ID payload), ?_, ?_⟩
    · rw [ProxyOutput.datagram, LocalProxy.pushDataToLocalSubscriber, pushEvent_eq]
      rfl
    · rw [eventBytes, hread]
      rfl

theorem exists_datagram (fresh : Nat → UInt8) (pid : Nat) {t : UInt8 × Id × Option (List UInt8)} (h : o.told = some t) :
    ∃ d, o.datagram fresh pid = some d ∧ 16 ≤ d.length := by
  cases o with
  | toRV RVFID r => cases h
  | unsetToRV RVFID type strategy => cases h
  | publish IDs FID payload => cases h
  | notify event host ID =>
    obtain ⟨s, hs⟩ := exists_sendNotificationLocally fresh 0 event.code ID
    refine ⟨ToNetlink.push pid s.packet, by rw [ProxyOutput.datagram, hs]; rfl, ?_⟩
    simp [ToNetlink.push, length_nlmsghdr]
  | deliver host ID payload =>
    refine ⟨ToNetlink.push pid (eventBytes ID payload), ?_, by simp [ToNetlink.push, length_nlmsghdr]⟩
    rw [ProxyOutput.datagram, LocalProxy.pushDataToLocalSubscriber, pushEvent_eq]
    rfl

/-- Both libraries tell an application what the proxy has to say exactly when the id is whole fragments,
and as many as a byte counts. -/
theorem datagram_told_iff (fresh : Nat → UInt8) (pid : Nat) (o : ProxyOutput)
    (t : UInt8 × Id × Option (List UInt8)) (h : o.told = some t) :
    ∃ d, o.datagram fresh pid = some d ∧
      ((NBLibrary.readEvent d).map Event.told = some t ↔ Sendable t.2.1) ∧
      (∀ ev, Library.getEvent ev d = NBLibrary.readEvent d) ∧
      ∀ ev, NBLibrary.readEvent d = some ev → ∃ c, ev.copy = some c ∧ c.type = ev.type ∧
        c.id = ev.id ∧ c.data = some (ev.data.getD []) ∧ c.buffer <+: d := by
  obtain ⟨d, hd, hlen⟩ := exists_datagram fresh pid h
  refine ⟨d, hd, ⟨fun htold => ?_, fun hID => ?_⟩, fun ev => getEvent_eq_iff.mpr hlen,
    fun ev => readEvent_copy⟩
  · obtain ⟨ev, hev, rfl⟩ := Option.map_eq_some_iff.mp htold
    exact sendable_of_readEvent hev
  · obtain ⟨d', hd', hread⟩ := readEvent_datagram fresh pid h hID
    rw [Option.some.inj (hd.symm.trans hd')]
    exact hread

/-- Two bytes for the subscriber 7 of an id of one fragment. -/
theorem datagram_told_iff_deliver :
    ∃ d, (ProxyOutput.deliver 7 (List.replicate 8 1) [2, 3]).datagram (fun _ => 0) 9999 = some d ∧
      ((NBLibrary.readEvent d).map Event.told =
          some (Code.publishedData, List.replicate 8 1, some [2, 3]) ↔
        Sendable (List.replicate 8 1)) ∧
      (∀ ev, Library.getEvent ev d = NBLibrary.readEvent d) ∧
      ∀ ev, NBLibrary.readEvent d = some ev → ∃ c, ev.copy = some c ∧ c.type = ev.type ∧
        c.id = ev.id ∧ c.data = some (ev.data.getD []) ∧ c.buffer <+: d :=
  datagram_told_iff (fun _ => 0) 9999 (.deliver 7 (List.replicate 8 1) [2, 3])
    (Code.publishedData, List.replicate 8 1, some [2, 3]) rfl

end Blackadder
