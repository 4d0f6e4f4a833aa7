import Mathlib.Data.List.Basic
import Mathlib.Logic.Function.Basic
import Mathlib.Tactic.Common
import Blackadder.Api.Packets
import Blackadder.Lib.Delimited

/-!
# The transport of the access control

`Transport.cpp`: payloads are sent in datagrams of 1000 bytes, two of them a counter, and put together
again behind a map from identifiers to what has arrived. `none` stands for an exception or for a read
beyond what there is.
-/

namespace Blackadder

namespace Transport

open Code (publishedData)
open Delimited (upTo)

/-- `MAX_PACKET_SIZE`. -/
def maxPacketSize : Nat := 1000

/-- `append(str, pos, n)`. -/
def substr (str : List UInt8) (pos n : Nat) : Option (List UInt8) :=
  if pos ≤ str.length then some ((str.drop pos).take n) else none

/-- `n` bytes from `c_str()` on. -/
def readBytes (str : List UInt8) (n : Nat) : Option (List UInt8) :=
  if n ≤ str.length + 1 then some ((str ++ [0]).take n) else none

/-! ## The sender -/

/-- The datagrams from the loop on. The bytes of the counter are of type `char`, so that neither ever equals
256. -/
def sendFrom (sdata : List UInt8) (firstbyte secondbyte : UInt8) (offset data_len : Nat) :
    Option (List (List UInt8)) :=
  if maxPacketSize - 2 ≤ data_len then do
    let chunk ← substr sdata (offset * (maxPacketSize - 2)) (maxPacketSize - 2)
    let datagram ← readBytes (firstbyte :: secondbyte :: chunk) maxPacketSize
    let rest ← sendFrom sdata firstbyte (secondbyte + 1) (offset + 1) (data_len - (maxPacketSize - 2))
    return datagram :: rest
  else do
    let chunk ← if 0 < data_len then substr sdata (offset * (maxPacketSize - 2)) data_len else some []
    let datagram ← readBytes (firstbyte :: secondbyte :: chunk) (data_len + 2)
    return [datagram]
termination_by data_len
decreasing_by
  unfold maxPacketSize at *
  omega

/-- `publish_data`. Behind the payload there is more memory to read. -/
def publishData (id payload beyond : List UInt8) : Option (List (List UInt8 × List UInt8)) := do
  let sdata ← upTo 0 (payload ++ beyond)
  let datagrams ← sendFrom sdata 0 1 0 payload.length
  return datagrams.map fun datagram => (id, datagram)

/-! ## The receiver -/

/-- `packet`: what has arrived so far. -/
structure Packet where
  data_len : Nat
  data : List UInt8

structure Event where
  type : UInt8
  id : List UInt8
  data : List UInt8
deriving DecidableEq

/-- What the upper layer gets. -/
structure RVEvent where
  type : UInt8
  id : List UInt8
  data : List UInt8
  data_len : Nat
deriving DecidableEq

/-- `packetBuffer`. -/
abbrev Buffer := List UInt8 → Option Packet

def Packet.add (p : Packet) (data : List UInt8) : Packet :=
  if 2 < data.length then ⟨p.data_len + data.length - 2, p.data ++ data.drop 2⟩ else p

def eventHandler (buffer : Buffer) (ev : Event) : Buffer × List RVEvent :=
  if ev.type = publishedData then
    let p := ((buffer ev.id).getD ⟨0, []⟩).add ev.data
    if ev.data.length < maxPacketSize then
      (Function.update buffer ev.id none, [⟨publishedData, ev.id, p.data, p.data_len⟩])
    else (Function.update buffer ev.id (some p), [])
  else (buffer, [⟨ev.type, ev.id, ev.data, ev.data.length⟩])

/-- The events come one after the other. -/
def run (buffer : Buffer) : List Event → Buffer × List RVEvent
  | [] => (buffer, [])
  | ev :: events =>
    let step := eventHandler buffer ev
    let rest := run step.1 events
    (rest.1, step.2 ++ rest.2)

/-! ## What is sent -/

/-- Full datagrams and a shorter last one, which carry the payload behind the counters. -/
structure Fragments (ds : List (List UInt8)) (payload : List UInt8) : Prop where
  split : ∃ full last, ds = full ++ [last] ∧ (∀ d ∈ full, d.length = maxPacketSize) ∧
    2 ≤ last.length ∧ last.length < maxPacketSize
  payload : ds.flatMap (List.drop 2) = payload

variable {sdata payload beyond rest datagram : List UInt8} {ds : List (List UInt8)}
  {firstbyte secondbyte : UInt8} {offset data_len k n : Nat}

theorem Fragments.cons (hd : datagram.length = maxPacketSize) (h : Fragments ds payload) :
    Fragments (datagram :: ds) (datagram.drop 2 ++ payload) where
  split := by
    obtain ⟨full, last, rfl, hfull, hlast⟩ := h.split
    exact ⟨datagram :: full, last, rfl, List.forall_mem_cons.mpr ⟨hd, hfull⟩, hlast⟩
  payload := by rw [List.flatMap_cons, h.payload]

/-- The `n` bytes of the string from `k` on, the last one possibly the zero at its end. -/
def window (sdata : List UInt8) (k n : Nat) : List UInt8 := ((sdata ++ [0]).drop k).take n

/-- The datagrams of `id`, which may come between other events. -/
def datagramsOf (id : List UInt8) (events : List Event) : List (List UInt8 × List UInt8) :=
  (events.filter fun ev => ev.type = publishedData ∧ ev.id = id).map fun ev => (ev.id, ev.data)

/-- What the upper layer gets as data of `id`. -/
def deliveriesOf (id : List UInt8) (out : List RVEvent) : List RVEvent :=
  out.filter fun ev => ev.type = publishedData ∧ ev.id = id

/-- What has been put together from datagrams. -/
def Packet.of (ds : List (List UInt8)) : Packet where
  data_len := (ds.flatMap (List.drop 2)).length
  data := ds.flatMap (List.drop 2)

/-- What has arrived of `id`. -/
def Arrived (buffer : Buffer) (id : List UInt8) (ds : List (List UInt8)) : Prop :=
  (buffer id).getD ⟨0, []⟩ = Packet.of ds

variable {buffer : Buffer} {events before after : List Event} {ev : Event} {id : List UInt8}
  {full : List (List UInt8)} {last : List UInt8}

@[simp] theorem datagramsOf_append (id : List UInt8) (xs ys : List Event) :
    datagramsOf id (xs ++ ys) = datagramsOf id xs ++ datagramsOf id ys := by
  simp [datagramsOf]

@[simp] theorem deliveriesOf_append (id : List UInt8) (xs ys : List RVEvent) :
    deliveriesOf id (xs ++ ys) = deliveriesOf id xs ++ deliveriesOf id ys := by
  simp [deliveriesOf]

theorem Packet.add_of (ds : List (List UInt8)) (data : List UInt8) :
    (Packet.of ds).add data = Packet.of (ds ++ [data]) := by
  unfold Packet.add Packet.of
  split
  · simp
    omega
  · next h => simp [List.drop_eq_nil_of_le (Nat.le_of_not_lt h)]

theorem run_append (buffer : Buffer) (xs ys : List Event) :
    run buffer (xs ++ ys) = ((run (run buffer xs).1 ys).1,
      (run buffer xs).2 ++ (run (run buffer xs).1 ys).2) := by
  induction xs generalizing buffer with
  | nil => rfl
  | cons ev xs ih => simp [run, ih]

theorem eventHandler_other (buffer : Buffer) (h : ¬(ev.type = publishedData ∧ ev.id = id)) :
    (eventHandler buffer ev).1 id = buffer id ∧ deliveriesOf id (eventHandler buffer ev).2 = [] := by
  unfold eventHandler
  split
  · next htype =>
    have hid : ¬ev.id = id := fun hid => h ⟨htype, hid⟩
    have hne : id ≠ ev.id := fun heq => hid heq.symm
    split
    · exact ⟨Function.update_of_ne hne _ _, by simp [deliveriesOf, hid]⟩
    · exact ⟨Function.update_of_ne hne _ _, rfl⟩
  · next htype => exact ⟨rfl, by simp [deliveriesOf, htype]⟩

theorem eventHandler_full (harrived : Arrived buffer ev.id ds) (htype : ev.type = publishedData)
    (hfull : ev.data.length = maxPacketSize) :
    Arrived (eventHandler buffer ev).1 ev.id (ds ++ [ev.data]) ∧ (eventHandler buffer ev).2 = [] := by
  have hshort : ¬ev.data.length < maxPacketSize := by omega
  rw [eventHandler, if_pos htype]
  simp only [if_neg hshort, and_true]
  rw [Arrived, Function.update_self, Option.getD_some, harrived, Packet.add_of]

theorem eventHandler_last (harrived : Arrived buffer ev.id ds) (htype : ev.type = publishedData)
    (hshort : ev.data.length < maxPacketSize) :
    (eventHandler buffer ev).1 ev.id = none ∧ (eventHandler buffer ev).2 =
      [⟨publishedData, ev.id, (Packet.of (ds ++ [ev.data])).data, (Packet.of (ds ++ [ev.data])).data_len⟩] := by
  rw [eventHandler, if_pos htype]
  simp only [if_pos hshort]
  rw [harrived, Packet.add_of]
  exact ⟨Function.update_self _ _ _, rfl⟩

theorem run_other (buffer : Buffer) (h : datagramsOf id events = []) :
    (run buffer events).1 id = buffer id ∧ deliveriesOf id (run buffer events).2 = [] := by
  induction events generalizing buffer with
  | nil => exact ⟨rfl, rfl⟩
  | cons ev events ih =>
    rw [← List.singleton_append, datagramsOf_append, List.append_eq_nil_iff] at h
    obtain ⟨hev, hevents⟩ := h
    have hother : ¬(ev.type = publishedData ∧ ev.id = id) := by simpa [datagramsOf] using hev
    obtain ⟨hbuffer, hout⟩ := eventHandler_other buffer hother
    obtain ⟨hrest, hrestOut⟩ := ih (eventHandler buffer ev).1 hevents
    exact ⟨hrest.trans hbuffer, by rw [run, deliveriesOf_append, hout, hrestOut, List.append_nil]⟩

theorem run_full (harrived : Arrived buffer id ds) (h : datagramsOf id events = full.map (Prod.mk id))
    (hfull : ∀ d ∈ full, d.length = maxPacketSize) :
    Arrived (run buffer events).1 id (ds ++ full) ∧ deliveriesOf id (run buffer events).2 = [] := by
  induction events generalizing buffer ds full with
  | nil =>
    obtain rfl : full = [] := by simpa [datagramsOf] using h.symm
    exact ⟨by rwa [List.append_nil], rfl⟩
  | cons ev events ih =>
    rw [← List.singleton_append, datagramsOf_append] at h
    by_cases hev : ev.type = publishedData ∧ ev.id = id
    · obtain ⟨htype, rfl⟩ := hev
      obtain _ | ⟨d, full⟩ := full
      · simp [datagramsOf, htype] at h
      · obtain ⟨hd, hrest⟩ := List.forall_mem_cons.mp hfull
        have hhead : datagramsOf ev.id [ev] = [(ev.id, ev.data)] := by simp [datagramsOf, htype]
        rw [hhead, List.map_cons, List.singleton_append, List.cons.injEq, Prod.mk.injEq] at h
        obtain ⟨⟨-, rfl⟩, htail⟩ := h
        obtain ⟨hstep, hout⟩ := eventHandler_full harrived htype hd
        obtain ⟨hrun, hrunOut⟩ := ih hstep htail hrest
        rw [List.append_assoc] at hrun
        exact ⟨hrun, by rw [run, deliveriesOf_append, hout, hrunOut]; rfl⟩
    · have hnone : datagramsOf id [ev] = [] := by simpa [datagramsOf] using hev
      rw [hnone, List.nil_append] at h
      obtain ⟨hbuffer, hout⟩ := eventHandler_other buffer hev
      have hstep : Arrived (eventHandler buffer ev).1 id ds := by rwa [Arrived, hbuffer]
      obtain ⟨hrun, hrunOut⟩ := ih hstep h hfull
      exact ⟨hrun, by rw [run, deliveriesOf_append, hout, hrunOut, List.append_nil]⟩

/-! ## The round trip -/

/-- The payload is sent, and whatever comes between the datagrams, it arrives once, after the last of them,
and nothing of it is kept. -/
def RoundTrip (id payload beyond : List UInt8) : Prop :=
  ∃ sent, publishData id payload beyond = some sent ∧
    ∀ buffer events, buffer id = none → datagramsOf id events = sent →
      deliveriesOf id (run buffer events).2 = [⟨publishedData, id, payload, payload.length⟩] ∧
      (run buffer events).1 id = none ∧
      ∀ before, before <+: events → datagramsOf id before ≠ sent →
        deliveriesOf id (run buffer before).2 = []

theorem split_last (h : datagramsOf id events = (full ++ [last]).map (Prod.mk id)) :
    ∃ before ev after, events = before ++ ev :: after ∧ ev.type = publishedData ∧ ev.id = id ∧
      ev.data = last ∧ datagramsOf id before = full.map (Prod.mk id) ∧ datagramsOf id after = [] := by
  rw [List.map_append, List.map_singleton] at h
  obtain ⟨xs, ys, hevents, hxs, hys⟩ := List.map_eq_append_iff.mp h
  obtain ⟨before, tail, rfl, hbefore, htail⟩ := List.filter_eq_append_iff.mp hevents
  obtain ⟨ev, zs, rfl, hev, hzs⟩ := List.map_eq_cons_iff.mp hys
  obtain ⟨skipped, after, rfl, hskipped, hp, hafter⟩ := List.filter_eq_cons_iff.mp htail
  obtain rfl : zs = [] := List.map_eq_nil_iff.mp hzs
  obtain ⟨htype, hid⟩ : ev.type = publishedData ∧ ev.id = id := by simpa using hp
  obtain ⟨-, hdata⟩ := Prod.mk.inj hev
  refine ⟨before ++ skipped, ev, after, by simp, htype, hid, hdata, ?_, ?_⟩
  · rw [datagramsOf_append]
    have hnone : datagramsOf id skipped = [] := by
      simpa [datagramsOf, List.filter_eq_nil_iff] using hskipped
    rw [hnone, List.append_nil, datagramsOf, hbefore, hxs]
  · rw [datagramsOf, hafter, List.map_nil]

theorem Fragments.delivered (h : Fragments ds payload) (hbuffer : buffer id = none)
    (hevents : datagramsOf id events = ds.map (Prod.mk id)) :
    deliveriesOf id (run buffer events).2 = [⟨publishedData, id, payload, payload.length⟩] ∧
      (run buffer events).1 id = none := by
  obtain ⟨full, last, rfl, hfull, -, hshort⟩ := h.split
  have hstart : Arrived buffer id [] := by rw [Arrived, hbuffer]; rfl
  obtain ⟨before, ev, after, rfl, htype, rfl, rfl, hbefore, hafter⟩ := split_last hevents
  obtain ⟨harrived, hnothing⟩ := run_full hstart hbefore hfull
  obtain ⟨herased, hout⟩ := eventHandler_last harrived htype hshort
  obtain ⟨hkept, hrest⟩ := run_other (eventHandler (run buffer before).1 ev).1 hafter
  rw [List.nil_append, Packet.of, h.payload] at hout
  rw [run_append, run]
  constructor
  · rw [deliveriesOf_append, deliveriesOf_append, hnothing, hout, hrest]
    simp [deliveriesOf]
  · exact hkept.trans herased

/-- Nothing comes out before the last datagram. -/
theorem Fragments.silent (h : Fragments ds payload) (hbuffer : buffer id = none)
    (hevents : datagramsOf id events <+: ds.map (Prod.mk id))
    (hne : datagramsOf id events ≠ ds.map (Prod.mk id)) :
    deliveriesOf id (run buffer events).2 = [] := by
  obtain ⟨full, last, rfl, hfull, -⟩ := h.split
  have hstart : Arrived buffer id [] := by rw [Arrived, hbuffer]; rfl
  rw [List.map_append, List.map_singleton] at hevents hne
  have hprefix := (List.prefix_concat_iff.mp hevents).resolve_left hne
  have htake : datagramsOf id events = (full.take (datagramsOf id events).length).map (Prod.mk id) := by
    rw [List.map_take]
    exact List.prefix_iff_eq_take.mp hprefix
  exact (run_full hstart htake fun d hd => hfull d (List.mem_of_mem_take hd)).2

end Transport

end Blackadder
