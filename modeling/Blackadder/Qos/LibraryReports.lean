import Blackadder.Qos.LongReports

/-!
# Link state reports of the library

The class of the library has an encoder of its own, for identifiers that are strings. It does not
move on behind the identifier.
-/

namespace Blackadder.LSMPacket

open Blackadder.ByteArray Wire

variable {fresh : Nat → UInt8} {data nodeID head links : Bytes} {bv : Bitvector} {q : QoSList}
  {count : UInt8} {e : Entry} {entries : List Entry} {pos i : Nat}

namespace Library

/-- `appendLinkStatus` of the library. -/
def appendLinkStatus (fresh : Nat → UInt8) (data lid : Bytes) (q : QoSList) : Option Bytes := do
  let len ← getLinksLen data
  let bytepos := data.length
  let data := extend fresh data (fidLen + 1 + q.size * qosItemSize)
  let data ← setString data lid bytepos 0
  let data ← store data bytepos (UInt8.ofNat q.size)
  let (data, _) ← q.entries.foldlM writeItem (data, bytepos + 1)
  setRepLen data (len + 1)

/-- `getLid_RAW`. -/
def getLidRaw (data : Bytes) (index : Nat) : Option Bytes := do
  let len ← getLinksLen data
  if len.toNat < index then return []
  getStrBytes data 32 (unsigned (← getLinkOffset data index)) 0

/-- A report of the library. -/
def report (fresh : Nat → UInt8) (nodeID : Bytes) (entries : List Entry) : Option Bytes := do
  let data ← new fresh
  let data ← setNodeId data nodeID
  entries.foldlM (fun data e => appendLinkStatus fresh data (lidBytes e.lid) e.status) data

/-- The report of the library gives the links back, and has the bytes of the forwarder's. -/
def Matches (fresh : Nat → UInt8) (nodeID : Bytes) (entries : List Entry) : Prop :=
  ∃ data, report fresh nodeID entries = some data ∧
    (∀ i e, entries[i]? = some e →
      getLidRaw data i = some (lidBytes e.lid) ∧ getLinkStatus data i = some e.status) ∧
    ∀ fresh', LSMPacket.report fresh' nodeID entries = some data

/-! ## The bytes of the library -/

/-- The list is written over the identifier. Behind that is what was left of it and what was in the
memory. -/
def entryBytes (fresh : Nat → UInt8) (pos : Nat) (e : Entry) : Bytes :=
  statusBytes e.status ++ (lidBytes e.lid ++
    (List.range (1 + e.status.size * 3)).map fun i => fresh (pos + (32 + i))).drop
      (1 + e.status.size * 3)

def linksBytes (fresh : Nat → UInt8) : Nat → List Entry → Bytes
  | _, [] => []
  | pos, e :: entries =>
    entryBytes fresh pos e ++ linksBytes fresh (pos + (33 + e.status.size * 3)) entries

theorem length_entryBytes : (entryBytes fresh pos e).length = 33 + e.status.size * 3 := by
  simp [entryBytes]
  omega

theorem appendLinkStatus_eq (hdata : data = head ++ ([count] ++ links)) (hhead : head.length = 9) :
    appendLinkStatus fresh data (lidBytes e.lid) e.status =
      some (head ++ ([count + 1] ++ (links ++ entryBytes fresh data.length e))) := by
  have hlen : getLinksLen data = some count := load_drop (drop_length hdata hhead.symm)
  let tail := (List.range (1 + e.status.size * 3)).map fun i => fresh (data.length + (32 + i))
  have hext : extend fresh data (32 + 1 + e.status.size * 3) = data ++
      ((List.range 32).map (fun i => fresh (data.length + i)) ++ tail) := by
    rw [extend, Nat.add_assoc, List.range_add, List.map_append, List.map_map]
    rfl
  have hlid : setString _ (lidBytes e.lid) data.length 0 = some (data ++ (lidBytes e.lid ++ tail)) :=
    setString_append hext rfl (by simp) (by simp)
  have hfront : Front (data.length + (1 + e.status.size * 3)) data
      ((lidBytes e.lid ++ tail).drop (1 + e.status.size * 3)) (data ++ (lidBytes e.lid ++ tail)) :=
    ⟨(lidBytes e.lid ++ tail).take (1 + e.status.size * 3), by rw [List.take_append_drop], by
      simp [tail]⟩
  obtain ⟨data₂, hrun₂, hf₂⟩ := hfront.store (a := UInt8.ofNat e.status.size) rfl (by omega)
  obtain ⟨s₃, hrun₃, hf₃⟩ := writeItems_front (l := e.status.entries) (k := data.length + 1) hf₂
    (by simp) (by rw [QoSList.size]; omega)
  have hfull : s₃.1 = head ++ ([count] ++ (links ++ entryBytes fresh data.length e)) := by
    have hlength : (data ++ [UInt8.ofNat e.status.size] ++
        e.status.entries.flatMap itemBytes).length = data.length + (1 + e.status.size * 3) := by
      rw [List.length_append, length_items, List.length_append, QoSList.size, Nat.add_assoc]
      rfl
    rw [hf₃.eq hlength]
    nth_rewrite 1 [hdata]
    simp [entryBytes, statusBytes, tail]
  have hset : setRepLen s₃.1 (count + 1) = some _ := blit_append hfull (by simp [hhead]) rfl
  simp only [appendLinkStatus, hlen, fidLen, qosItemSize, Option.bind_eq_bind, Option.bind_some,
    hlid, hrun₂, hrun₃, hset]

theorem linksBytes_concat : linksBytes fresh pos (entries ++ [e]) = linksBytes fresh pos entries ++
    entryBytes fresh (pos + (linksBytes fresh pos entries).length) e := by
  induction entries generalizing pos with
  | nil => simp [linksBytes]
  | cons e' entries ih =>
    rw [List.cons_append, linksBytes, linksBytes, ih, List.length_append, length_entryBytes,
      Nat.add_assoc, List.append_assoc]

theorem report_eq (hid : nodeID.length = 8) : report fresh nodeID entries = some (qosReport :: nodeID ++
    ([UInt8.ofNat entries.length] ++ linksBytes fresh 10 entries)) := by
  obtain ⟨s, hrun, rfl⟩ := Wire.foldlM_all (l := entries) (s := packet nodeID [])
    (f := fun data e => appendLinkStatus fresh data (lidBytes e.lid) e.status)
    (I := fun done s => s = qosReport :: nodeID ++ ([UInt8.ofNat done.length] ++
      linksBytes fresh 10 done)) rfl fun done e rest s _ hs => ⟨_, appendLinkStatus_eq hs
        (by simp [hid]), by
          rw [hs, linksBytes_concat]
          simp [hid, Nat.add_comm, ← Nat.add_assoc]⟩
  have hstart := setNodeId_new fresh hid
  obtain ⟨data, hnew, hset⟩ := Option.bind_eq_some_iff.mp hstart
  simp only [report, hnew, hset, hrun, Option.bind_eq_bind, Option.bind_some]

theorem entryBytes_of_links (h : linksBytes fresh pos entries = entries.flatMap Entry.bytes) :
    ∀ e ∈ entries, ∃ pos, entryBytes fresh pos e = e.bytes := by
  induction entries generalizing pos with
  | nil => exact nofun
  | cons e entries ih =>
    rw [linksBytes, List.flatMap_cons] at h
    obtain ⟨hfirst, hrest⟩ := List.append_inj h (length_entryBytes.trans Entry.length_bytes.symm)
    exact List.forall_mem_cons.mpr ⟨⟨pos, hfirst⟩, ih hrest⟩

/-- The first byte of the identifier is lost. -/
theorem head_entryBytes (h : entryBytes fresh pos e = e.bytes) :
    (lidBytes e.lid)[0]? = some (UInt8.ofNat e.status.size) := by
  have hzero := congrArg (·[0]?) h
  simp only [entryBytes, Entry.bytes] at hzero
  rw [List.getElem?_append_left (by simp), List.getElem?_append_left (by simp)] at hzero
  exact hzero.symm

/-- The last byte of the list is not written. -/
theorem last_entryBytes (h : entryBytes fresh pos e = e.bytes) :
    (statusBytes e.status)[e.status.size * 3]? = some (fresh (pos + (32 + e.status.size * 3))) := by
  have hlast := congrArg (·[32 + e.status.size * 3]?) h
  simp only [entryBytes, Entry.bytes] at hlast
  rw [List.getElem?_append_right (by simp), List.getElem?_drop,
    List.getElem?_append_right (by simp), List.getElem?_append_right (by simp),
    List.getElem?_map, List.getElem?_range (by simp)] at hlast
  simp only [length_statusBytes, length_lidBytes, Nat.add_sub_cancel_left, Option.map_some] at hlast
  rw [← hlast]
  congr 4
  omega

theorem report_matches (hid : nodeID.length = 8) (h : report fresh nodeID entries = some data)
    (h' : LSMPacket.report fresh nodeID entries = some data) :
    linksBytes fresh 10 entries = entries.flatMap Entry.bytes := by
  rw [report_eq hid] at h
  rw [LSMPacket.report_eq fresh hid] at h'
  have hdata := Option.some.inj (h.trans h'.symm)
  rw [packet, List.cons_append, List.cons_append] at hdata
  simpa using hdata

/-- The encoder of the library has the bytes of the forwarder's for whatever memory it gets exactly
when there is nothing to encode. For the memory it gets, the identifiers must begin with the sizes
of the lists. -/
theorem same_report_iff (hid : nodeID.length = 8) :
    ((∀ fresh, Matches fresh nodeID entries) ↔ entries = []) ∧
    ∀ fresh, Matches fresh nodeID entries →
      ∀ e ∈ entries, (lidBytes e.lid)[0]? = some (UInt8.ofNat e.status.size) := by
  have hbytes : ∀ {fresh}, Matches fresh nodeID entries →
      ∀ e ∈ entries, ∃ pos, entryBytes fresh pos e = e.bytes := fun ⟨_, h, _, h'⟩ =>
    entryBytes_of_links (report_matches hid h (h' _))
  refine ⟨⟨fun hall => ?_, ?_⟩, fun fresh h e he => ?_⟩
  · by_contra hne
    obtain ⟨e, he⟩ := List.exists_mem_of_ne_nil _ hne
    -- A memory that does not happen to hold the last byte of this list.
    have hlast : ∀ c : UInt8, (statusBytes e.status)[e.status.size * 3]? = some c := by
      intro c
      obtain ⟨pos, hpos⟩ := hbytes (hall fun _ => c) e he
      exact last_entryBytes hpos
    exact absurd ((hlast 0).symm.trans (hlast 1)) (by decide)
  · rintro rfl fresh
    exact ⟨_, report_eq hid, nofun, fun fresh' => LSMPacket.report_eq fresh' hid []⟩
  · obtain ⟨pos, hpos⟩ := hbytes h e he
    exact head_entryBytes hpos

/-- Two links with lists of one and of three values. -/
def exampleEntries : List Entry := [⟨0, firstKeys 1⟩, ⟨4, firstKeys 3⟩]

theorem same_report_iff_two : ((∀ fresh, Matches fresh (List.replicate 8 0) exampleEntries) ↔
    exampleEntries = []) ∧ ∀ fresh, Matches fresh (List.replicate 8 0) exampleEntries →
      ∀ e ∈ exampleEntries, (lidBytes e.lid)[0]? = some (UInt8.ofNat e.status.size) :=
  same_report_iff rfl

/-- One link, its identifier without a bit, with one value. The memory is clear. -/
theorem other_report_one : ¬ Matches (fun _ => 0) (List.replicate 8 0) [⟨0, firstKeys 1⟩] ∧
    lidBytes 0 = List.replicate 32 0 ∧
    ∃ data, report (fun _ => 0) (List.replicate 8 0) [⟨0, firstKeys 1⟩] = some data ∧
      getLidRaw data 0 = some (1 :: List.replicate 31 0) ∧
      getLinkStatus data 0 = some QoSList.empty := by
  have hid : (List.replicate 8 (0 : UInt8)).length = 8 := rfl
  have hreport : report (fun _ => 0) (List.replicate 8 0) [⟨0, firstKeys 1⟩] =
      some (qosReport :: List.replicate 8 0 ++ [1] ++ 1 :: List.replicate 35 0) := by
    decide +kernel
  have hraw : getLidRaw (qosReport :: List.replicate 8 0 ++ [1] ++ 1 :: List.replicate 35 0) 0 =
      some (1 :: List.replicate 31 0) := by
    decide +kernel
  have hzero : lidBytes 0 = List.replicate 32 0 := by decide +kernel
  refine ⟨?_, hzero, _, hreport, hraw, rfl⟩
  rintro ⟨data, hdata, hread, -⟩
  obtain rfl := Option.some.inj (hreport.symm.trans hdata)
  have hlid := (hread 0 _ rfl).1
  rw [hraw, hzero] at hlid
  exact absurd hlid (by decide)

end Library

end Blackadder.LSMPacket
