import Blackadder.Lib.Registers
import Blackadder.Lipsin.BitVector
import Blackadder.Qos.ByteArray

/-!
# Link state reports

A forwarder builds the report and the topology manager parses it. Each side has its own class.
-/

namespace Blackadder

/-- `map<uint8_t, uint16_t>`. -/
abbrev QoSList := UInt8 → Option UInt16

namespace QoSList

def empty : QoSList := fun _ => none

/-- The pairs in the order of the keys. -/
def entries (q : QoSList) : List (UInt8 × UInt16) :=
  (List.range 256).filterMap fun k => (q (UInt8.ofNat k)).map fun v => (UInt8.ofNat k, v)

def size (q : QoSList) : Nat := q.entries.length

end QoSList

/-- `Bitvector::to_string`. -/
def Bitvector.toString (v : Bitvector) : List Char :=
  (List.range fidBits).map fun i => if v.getLsbD (fidBits - i - 1) then '1' else '0'

namespace LSMPacket

open Blackadder.ByteArray Wire

@[simp]
abbrev nodeIdLen : Nat := 8

@[simp]
abbrev fidLen : Nat := 32

@[simp]
abbrev qosItemSize : Nat := 3

def qosReport : UInt8 := 107

/-- The type, the node id and the length of the list. -/
@[simp]
abbrev constHdrLen : Nat := 1 + nodeIdLen + 1

/-! ## The forwarder's side -/

def setType (data : Bytes) (type : UInt8) : Option Bytes := store data 0 type
def setRepLen (data : Bytes) (len : UInt8) : Option Bytes := store data (nodeIdLen + 1) len
def getRepLen (data : Bytes) : Option UInt8 := data[nodeIdLen + 1]?

/-- The constructor of an empty report. -/
def new (fresh : Nat → UInt8) : Option Bytes := do
  let data ← setType (extend fresh [] constHdrLen) qosReport
  setRepLen data 0

def setNodeId (data : Bytes) (nodeID : Bytes) : Option Bytes := setString data nodeID 1 0

/-- One turn of the loop over the bits: the array, the byte, its place and the bits in it. -/
def writeBit (bv : Bitvector) (s : Bytes × UInt8 × Nat × Nat) (i : Nat) :
    Option (Bytes × UInt8 × Nat × Nat) :=
  let (data, byte, bytepos, bitpos) := s
  let byte := pushBit byte (bv.getLsbD i)
  let bitpos := bitpos + 1
  if bitpos = 8 then do
    let data ← store data bytepos byte
    return (data, byte, bytepos + 1, 0)
  else return (data, byte, bytepos, bitpos)

/-- One turn of the loop over the list. -/
def writeItem (s : Bytes × Nat) (it : UInt8 × UInt16) : Option (Bytes × Nat) := do
  let (data, bytepos) := s
  let data ← store data bytepos it.1
  let data ← setBits data it.2.toUInt64 16 (bytepos + 1) 0
  return (data, bytepos + 3)

def appendLinkStatus (fresh : Nat → UInt8) (data : Bytes) (bv : Bitvector) (q : QoSList) :
    Option Bytes := do
  let len ← getRepLen data
  let bytepos := data.length
  let data := extend fresh data (fidLen + 1 + q.size * qosItemSize)
  let (data, _, bytepos, _) ← (List.range fidBits).foldlM (writeBit bv) (data, 0, bytepos, 0)
  let data ← store data bytepos (UInt8.ofNat q.size)
  let (data, _) ← q.entries.foldlM writeItem (data, bytepos + 1)
  setRepLen data (len + 1)

/-! ## The topology manager's side -/

def setData (fresh : Nat → UInt8) (data : Bytes) : Option Bytes :=
  setBytes (extend fresh [] data.length) data 0 0

def getLinksLen (data : Bytes) : Option UInt8 := data[nodeIdLen + 1]?

/-- One turn of the loop of `getLinkOffset`. The offset is a `uint16_t`. -/
def skipLink (data : Bytes) (offset : Nat) : Option Nat := do
  let offset := (offset + fidLen) % 2 ^ 16
  let count ← data[offset]?
  let offset := (offset + count.toNat * qosItemSize) % 2 ^ 16
  return (offset + 1) % 2 ^ 16

def getLinkOffset (data : Bytes) (index : Nat) : Option Int := do
  let len ← getLinksLen data
  if len.toNat < index then return -1
  let offset ← (List.range index).foldlM (fun offset _ => skipLink data offset) constHdrLen
  return offset

def getStatusListLen (data : Bytes) (index : Nat) : Option Int := do
  let offset ← getLinkOffset data index
  if offset = -1 then return -1
  let len ← data[(offset + fidLen).toNat]?
  return len.toNat

/-- An `int` as a `uint32_t`. -/
def unsigned (i : Int) : Nat := (i % 2 ^ 32).toNat

/-- One turn of the loop of `getLidStr` and of `getLid`: the vector and the byte. -/
def readBit (data : Bytes) (s : Bitvector × Nat) (bitpos : Nat) : Option (Bitvector × Nat) := do
  let (bv, bytepos) := s
  let bit ← getBits8OrLess data 1 bytepos (bitpos % 8)
  return (bv.setBit bitpos (bit ≠ 0), if (bitpos + 1) % 8 = 0 then bytepos + 1 else bytepos)

def readLid (data : Bytes) (bytepos : Nat) : Option Bitvector := do
  let (bv, _) ← (List.range fidBits).foldlM (readBit data) (0, bytepos)
  return bv

def getLidStr (data : Bytes) (index : Nat) : Option (List Char) := do
  let len ← getLinksLen data
  if len.toNat < index then return []
  let bv ← readLid data (unsigned (← getLinkOffset data index))
  return Bitvector.toString bv

/-- The inner `none` is the vector without bits. -/
def getLid (data : Bytes) (index : Nat) : Option (Option Bitvector) := do
  let len ← getLinksLen data
  if len.toNat < index then return none
  let bv ← readLid data (unsigned (← getLinkOffset data index))
  return some bv

/-- One turn of the loop of `getLinkStatus`: the list and the offset. -/
def readItem (data : Bytes) (s : QoSList × Nat) : Option (QoSList × Nat) := do
  let (q, offset) := s
  let key ← data[offset]?
  let value ← getBits data 16 (offset + 1) 0
  return (Registers.write q (key, some value.toUInt16), offset + qosItemSize)

def getLinkStatus (data : Bytes) (index : Nat) : Option QoSList := do
  let n ← getLinksLen data
  if n.toNat < index then return QoSList.empty
  let offset := unsigned ((← getLinkOffset data index) + fidLen)
  let len ← getStatusListLen data index
  if len = 0 then return QoSList.empty
  let (q, _) ← (List.range len.toNat).foldlM (fun s _ => readItem data s) (QoSList.empty, offset + 1)
  return q

/-! ## A report and what is parsed of it -/

structure Entry where
  lid : Bitvector
  status : QoSList

/-- The report of a forwarder about its links. -/
def report (fresh : Nat → UInt8) (nodeID : Bytes) (entries : List Entry) : Option Bytes := do
  let data ← new fresh
  let data ← setNodeId data nodeID
  entries.foldlM (fun data e => appendLinkStatus fresh data e.lid e.status) data

/-- All reads stay inside and give back what was reported. A link's string is the one it has in
the topology file. -/
structure Parsed (data : Bytes) (entries : List Entry) : Prop where
  len : (getLinksLen data).map UInt8.toNat = some entries.length
  lid : ∀ i e, entries[i]? = some e → getLid data i = some (some e.lid)
  lidStr : ∀ i e s, entries[i]? = some e → s.length = fidBits → (∀ c ∈ s, c = '0' ∨ c = '1') →
    Bitvector.parse s = e.lid → getLidStr data i = some s
  status : ∀ i e, entries[i]? = some e → getLinkStatus data i = some e.status

variable {fresh : Nat → UInt8} {data data' pre post nodeID : Bytes} {bv : Bitvector} {q : QoSList}
  {e : Entry} {entries : List Entry} {off i n : Nat}

/-! ## The bytes of a report -/

def lidBytes (bv : Bitvector) : Bytes :=
  (List.range fidLen).map fun k => pack fun j => bv.getLsbD (8 * k + j)

def itemBytes (it : UInt8 × UInt16) : Bytes := [it.1] ++ [highByte it.2] ++ [lowByte it.2]

def statusBytes (q : QoSList) : Bytes := UInt8.ofNat q.size :: q.entries.flatMap itemBytes

def Entry.bytes (e : Entry) : Bytes := lidBytes e.lid ++ statusBytes e.status

def packet (nodeID : Bytes) (entries : List Entry) : Bytes :=
  qosReport :: nodeID ++ (UInt8.ofNat entries.length :: entries.flatMap Entry.bytes)

@[simp]
theorem length_lidBytes : (lidBytes bv).length = 32 := by simp [lidBytes]

theorem length_items (l : List (UInt8 × UInt16)) : (l.flatMap itemBytes).length = l.length * 3 := by
  induction l with
  | nil => rfl
  | cons it l ih =>
    simp only [List.flatMap_cons, List.length_append, ih, itemBytes, List.length_cons,
      List.length_nil]
    omega

@[simp]
theorem length_statusBytes : (statusBytes q).length = 1 + q.size * 3 := by
  rw [statusBytes, List.length_cons, length_items, QoSList.size]
  omega

theorem Entry.length_bytes : e.bytes.length = 33 + e.status.size * 3 := by
  simp [Entry.bytes]
  omega

/-! ## What the forwarder builds -/

theorem new_eq (fresh : Nat → UInt8) : ∃ y : Bytes, y.length = 8 ∧ new fresh = some ([qosReport] ++ (y ++ [0])) := by
  refine ⟨(List.range' 1 8).map fresh, by simp, ?_⟩
  simp [new, setType, setRepLen, extend, store, blit, List.range, List.range.loop, List.range']

theorem setNodeId_new (fresh : Nat → UInt8) (hid : nodeID.length = 8) :
    (new fresh).bind (setNodeId · nodeID) = some (packet nodeID []) := by
  obtain ⟨y, hy, hnew⟩ := new_eq fresh
  have hset : setString ([qosReport] ++ (y ++ [0])) nodeID 1 0 = some ([qosReport] ++ (nodeID ++ [0])) :=
    setString_append rfl rfl (hid.trans hy.symm) (by omega)
  rw [hnew, Option.bind_some, setNodeId, hset]
  simp [packet]

theorem filled_extend (fresh : Nat → UInt8) (data : Bytes) (k : Nat) :
    Filled (data.length + k) data (extend fresh data k) :=
  ⟨List.prefix_append _ _, by simp [extend]⟩

theorem take_lidBytes (hi : i < 32) : (lidBytes bv).take (i + 1) =
    (lidBytes bv).take i ++ [pack fun j => bv.getLsbD (8 * i + j)] := by
  rw [List.take_succ_eq_append_getElem (by rwa [length_lidBytes])]
  simp [lidBytes]

/-- What the loop over the bits has done after `i` turns: the whole bytes are written. -/
structure BitsDone (bv : Bitvector) (n : Nat) (pre : Bytes) (i : Nat)
    (s : Bytes × UInt8 × Nat × Nat) : Prop where
  filled : Filled n (pre ++ (lidBytes bv).take (i / 8)) s.1
  byte : ∃ b, s.2.1 =
    (List.range (i % 8)).foldl (fun b j => pushBit b (bv.getLsbD (8 * (i / 8) + j))) b
  bytepos : s.2.2.1 = pre.length + i / 8
  bitpos : s.2.2.2 = i % 8

theorem BitsDone.next {s : Bytes × UInt8 × Nat × Nat} (h : BitsDone bv n pre i s) (hi : i < 256)
    (hroom : pre.length + 32 ≤ n) : ∃ s', writeBit bv s i = some s' ∧ BitsDone bv n pre (i + 1) s' := by
  obtain ⟨data, byte, bytepos, bitpos⟩ := s
  obtain ⟨hf, ⟨b, hb⟩, hpos, hbit⟩ := h
  dsimp only at hf hb hpos hbit
  have hpush : pushBit byte (bv.getLsbD i) = (List.range (i % 8 + 1)).foldl
      (fun b j => pushBit b (bv.getLsbD (8 * (i / 8) + j))) b := by
    rw [List.range_succ, List.foldl_append, ← hb]
    simp only [List.foldl_cons, List.foldl_nil]
    congr 2
    omega
  unfold writeBit
  by_cases hlast : i % 8 + 1 = 8
  · have hdiv : (i + 1) / 8 = i / 8 + 1 := by omega
    have hmod : (i + 1) % 8 = 0 := by omega
    have hbyte : pushBit byte (bv.getLsbD i) = pack fun j => bv.getLsbD (8 * (i / 8) + j) := by
      rw [hpush, hlast, foldl_pushBit]
    have hlen : ((lidBytes bv).take (i / 8)).length = i / 8 := by
      simp
      omega
    obtain ⟨data', hrun, hf'⟩ := hf.store (a := pushBit byte (bv.getLsbD i)) (k := bytepos)
      (by rw [List.length_append, hlen, hpos]) (by omega)
    refine ⟨(data', pushBit byte (bv.getLsbD i), bytepos + 1, 0), ?_, ?_, ?_, ?_, ?_⟩
    · simp [hbit, hlast, hrun]
    · rw [hdiv, take_lidBytes (by omega), ← hbyte, ← List.append_assoc]
      exact hf'
    · rw [hmod]
      exact ⟨_, rfl⟩
    · simp [hpos, hdiv]
      omega
    · exact hmod.symm
  · have hdiv : (i + 1) / 8 = i / 8 := by omega
    have hmod : (i + 1) % 8 = i % 8 + 1 := by omega
    refine ⟨(data, pushBit byte (bv.getLsbD i), bytepos, bitpos + 1), ?_, ?_, ⟨b, ?_⟩, ?_, ?_⟩
    · simp [hbit, hlast]
    · rwa [hdiv]
    · rw [hdiv, hmod]
      exact hpush
    · rw [hdiv]
      exact hpos
    · rw [hmod, ← hbit]

theorem writeBits (bv : Bitvector) (h : Filled n pre data) (hroom : pre.length + 32 ≤ n) :
    ∃ s, (List.range fidBits).foldlM (writeBit bv) (data, 0, pre.length, 0) = some s ∧
      Filled n (pre ++ lidBytes bv) s.1 ∧ s.2.2.1 = pre.length + 32 := by
  have h0 : BitsDone bv n pre 0 (data, 0, pre.length, 0) := ⟨by simpa using h, ⟨0, rfl⟩, rfl, rfl⟩
  obtain ⟨s, hrun, hf, -, hpos, -⟩ := Wire.foldlM_range (n := fidBits) h0
    fun i s hi h => h.next hi hroom
  refine ⟨s, hrun, ?_, hpos⟩
  rwa [List.take_of_length_le (by simp [fidBits])] at hf

theorem writeItems_front {l : List (UInt8 × UInt16)} {k : Nat} (h : Front n pre post data)
    (hoff : k = pre.length) (hroom : k + l.length * 3 ≤ n) :
    ∃ s, l.foldlM writeItem (data, k) = some s ∧ Front n (pre ++ l.flatMap itemBytes) post s.1 := by
  have hloop := Wire.foldlM_all (l := l) (f := writeItem) (s := (data, k))
    (I := fun done (s : Bytes × Nat) => Front n (pre ++ done.flatMap itemBytes) post s.1 ∧
      s.2 = k + done.length * 3) ?_ ?_
  · obtain ⟨s, hrun, hf, -⟩ := hloop
    exact ⟨s, hrun, hf⟩
  · exact ⟨by simpa using h, by simp⟩
  · rintro done it rest ⟨data, bytepos⟩ hl ⟨hf, hpos⟩
    dsimp only at hf hpos
    have hlen : (pre ++ done.flatMap itemBytes).length = bytepos := by
      rw [List.length_append, length_items, hpos, hoff]
    have hspace : bytepos + 3 ≤ n := by
      rw [hl, List.length_append, List.length_cons] at hroom
      omega
    obtain ⟨data₁, hrun₁, h₁⟩ := hf.store (a := it.1) hlen.symm (by omega)
    obtain ⟨data₂, hrun₂, h₂⟩ := setBits_front (v := it.2) (k := bytepos + 1) h₁
      (by rw [List.length_append, hlen]; rfl) (by omega)
    refine ⟨(data₂, bytepos + 3), ?_, ?_, ?_⟩
    · simp [writeItem, hrun₁, hrun₂]
    · simpa [itemBytes] using h₂
    · simp [hpos]
      omega

theorem writeItems {l : List (UInt8 × UInt16)} {k : Nat} (h : Filled n pre data) (hoff : k = pre.length)
    (hroom : k + l.length * 3 ≤ n) :
    ∃ s, l.foldlM writeItem (data, k) = some s ∧ Filled n (pre ++ l.flatMap itemBytes) s.1 := by
  obtain ⟨s, hrun, hs⟩ := writeItems_front (filled_iff.mp h) hoff hroom
  exact ⟨s, hrun, filled_iff.mpr hs⟩

theorem packet_concat (nodeID : Bytes) (entries : List Entry) (e : Entry) :
    packet nodeID (entries ++ [e]) = (qosReport :: nodeID) ++ ([UInt8.ofNat entries.length + 1] ++
      (entries.flatMap Entry.bytes ++ lidBytes e.lid ++ statusBytes e.status)) := by
  simp [packet, Entry.bytes]

theorem appendLinkStatus_packet (hid : nodeID.length = 8) :
    appendLinkStatus fresh (packet nodeID entries) e.lid e.status =
      some (packet nodeID (entries ++ [e])) := by
  generalize hold : packet nodeID entries = old
  have hcount : old = (qosReport :: nodeID) ++ (UInt8.ofNat entries.length :: entries.flatMap Entry.bytes) :=
    hold.symm
  have hlen : getRepLen old = some (UInt8.ofNat entries.length) :=
    load_drop (drop_length hcount (by simp [hid]))
  have hall := filled_extend fresh old (33 + e.status.size * 3)
  obtain ⟨s₁, hrun₁, hf₁, hpos⟩ := writeBits e.lid hall (by omega)
  obtain ⟨data₂, hrun₂, hf₂⟩ := hf₁.store (a := UInt8.ofNat e.status.size) (k := old.length + 32)
    (by simp) (by omega)
  obtain ⟨s₃, hrun₃, hf₃⟩ := writeItems (l := e.status.entries) (k := old.length + 33) hf₂
    (by simp) (by rw [QoSList.size]; omega)
  have hdata : s₃.1 = (qosReport :: nodeID) ++ ([UInt8.ofNat entries.length] ++
      (entries.flatMap Entry.bytes ++ lidBytes e.lid ++ statusBytes e.status)) := by
    have hfull : (old ++ lidBytes e.lid ++ [UInt8.ofNat e.status.size] ++
        e.status.entries.flatMap itemBytes).length = old.length + (33 + e.status.size * 3) := by
      rw [List.length_append, length_items, QoSList.size]
      simp
      omega
    rw [hf₃.eq hfull, hcount]
    simp [statusBytes]
  have hset : setRepLen s₃.1 (UInt8.ofNat entries.length + 1) = some (packet nodeID (entries ++ [e])) := by
    rw [packet_concat]
    exact blit_append hdata (by simp [hid]) rfl
  simp [appendLinkStatus, hlen, hrun₁, hpos, hrun₂, hrun₃, hset]

theorem report_eq (fresh : Nat → UInt8) (hid : nodeID.length = 8) (entries : List Entry) :
    report fresh nodeID entries = some (packet nodeID entries) := by
  obtain ⟨s, hrun, rfl⟩ := Wire.foldlM_all (l := entries) (s := packet nodeID [])
    (f := fun data e => appendLinkStatus fresh data e.lid e.status)
    (I := fun done s => s = packet nodeID done) rfl fun done e rest s _ hs =>
      ⟨_, hs ▸ appendLinkStatus_packet hid, rfl⟩
  have hstart := setNodeId_new fresh hid
  obtain ⟨data, hnew, hset⟩ := Option.bind_eq_some_iff.mp hstart
  simp [report, hnew, hset, hrun]

/-! ## What the topology manager reads -/

/-- Where the link is, for lists of the sizes. -/
def offset (sizes : List Nat) (i : Nat) : Nat :=
  constHdrLen + ((sizes.take i).map fun k => fidLen + 1 + k * qosItemSize).sum

def sizes (entries : List Entry) : List Nat := entries.map fun e => e.status.size

theorem length_links (entries : List Entry) : (entries.flatMap Entry.bytes).length =
    ((sizes entries).map fun k => fidLen + 1 + k * qosItemSize).sum := by
  induction entries with
  | nil => rfl
  | cons e entries ih =>
    rw [List.flatMap_cons, List.length_append, ih, Entry.length_bytes]
    simp [sizes]

/-- The header and the links before one of them. -/
def before (nodeID : Bytes) (entries : List Entry) (i : Nat) : Bytes :=
  qosReport :: nodeID ++ (UInt8.ofNat entries.length :: (entries.take i).flatMap Entry.bytes)

theorem packet_split (nodeID : Bytes) (entries : List Entry) (i : Nat) :
    packet nodeID entries = before nodeID entries i ++ (entries.drop i).flatMap Entry.bytes := by
  simp only [before, List.cons_append, List.append_assoc, ← List.flatMap_append,
    List.take_append_drop]
  rfl

theorem length_before (hid : nodeID.length = 8) (entries : List Entry) (i : Nat) :
    (before nodeID entries i).length = offset (sizes entries) i := by
  have hlinks := length_links (entries.take i)
  rw [sizes, List.map_take, ← sizes] at hlinks
  simp only [before, List.length_append, List.length_cons, hlinks, hid, offset]
  simp
  omega

theorem packet_drop (hid : nodeID.length = 8) (entries : List Entry) (i : Nat) :
    (packet nodeID entries).drop (offset (sizes entries) i) = (entries.drop i).flatMap Entry.bytes :=
  drop_length (packet_split nodeID entries i) (length_before hid entries i).symm

theorem skipLink_eq (h : data.drop off = e.bytes ++ post) (hsize : e.status.size ≤ 255)
    (hfits : off + 33 + e.status.size * 3 < 2 ^ 16) :
    skipLink data off = some (off + 33 + e.status.size * 3) := by
  have hcount : data[off + 32]? = some (UInt8.ofNat e.status.size) := by
    rw [Entry.bytes, List.append_assoc] at h
    exact load_drop (drop_next h (by simp))
  have hsize : (UInt8.ofNat e.status.size).toNat = e.status.size := by
    simp
    omega
  have h1 : (off + 32) % 2 ^ 16 = off + 32 := Nat.mod_eq_of_lt (by omega)
  have h2 : (off + 32 + e.status.size * 3) % 2 ^ 16 = off + 32 + e.status.size * 3 :=
    Nat.mod_eq_of_lt (by omega)
  have h3 : (off + 32 + e.status.size * 3 + 1) % 2 ^ 16 = off + 33 + e.status.size * 3 := by omega
  simp only [skipLink, fidLen, qosItemSize, h1, hcount, Option.bind_eq_bind, Option.bind_some, hsize,
    h2, h3]
  rfl

theorem readLid_eq (h : data.drop off = lidBytes bv ++ post) : readLid data off = some bv := by
  have hbyte : ∀ i < 32, data[off + i]? = some (pack fun j => bv.getLsbD (8 * i + j)) := by
    intro i hi
    rw [← List.getElem?_drop, h, List.getElem?_append_left (by simpa using hi)]
    simp [lidBytes, hi]
  have hloop := Wire.foldlM_range (n := fidBits) (f := readBit data) (s := (0, off))
    (I := fun i (s : Bitvector × Nat) => s.2 = off + i / 8 ∧
      ∀ j < fidBits, s.1.getLsbD j = (decide (j < i) && bv.getLsbD j)) ?_ ?_
  · obtain ⟨s, hrun, -, hbits⟩ := hloop
    have hbv : s.1 = bv := by
      apply BitVec.eq_of_getLsbD_eq
      intro j hj
      rw [hbits j hj, decide_eq_true hj, Bool.true_and]
    rw [readLid, hrun]
    exact congrArg some hbv
  · exact ⟨rfl, fun j _ => by simp⟩
  · rintro i ⟨v, bytepos⟩ hi ⟨hpos, hbits⟩
    dsimp only at hpos hbits
    have hi : i < 256 := hi
    have hread := getBits8OrLess_bit (k := i % 8) (by omega) (hbyte (i / 8) (by omega))
    have hbit := pack_bit (fun j => bv.getLsbD (8 * (i / 8) + j)) (k := i % 8) (by omega)
    rw [show 8 * (i / 8) + i % 8 = i by omega] at hbit
    refine ⟨_, by simp only [readBit, hpos, hread]; rfl, ?_, fun j hj => ?_⟩
    · dsimp only
      split <;> omega
    · dsimp only
      rw [Bitvector.getLsbD_setBit hj, hbits j hj]
      by_cases hij : j = i
      · subst hij
        simp [hbit]
      · have hlt : j < i + 1 ↔ j < i := by omega
        simp [hij, hlt]

theorem mem_entries {k : UInt8} {v : UInt16} : (k, v) ∈ q.entries ↔ q k = some v := by
  unfold QoSList.entries
  simp only [List.mem_filterMap, List.mem_range, Option.map_eq_some_iff, Prod.mk.injEq]
  constructor
  · rintro ⟨j, -, v', hq, rfl, rfl⟩
    exact hq
  · intro hq
    exact ⟨k.toNat, k.toNat_lt, v, by simpa using hq, by simp, rfl⟩

theorem replay_entries (q : QoSList) :
    Registers.replay QoSList.empty (q.entries.map fun it => (it.1, some it.2)) = q := by
  funext k
  cases hk : q k with
  | none =>
    refine Registers.replay_of_not_mem fun w hw hwk => ?_
    obtain ⟨⟨k', v⟩, hit, rfl⟩ := List.mem_map.mp hw
    obtain rfl : k' = k := hwk
    rw [mem_entries.mp hit] at hk
    cases hk
  | some v =>
    refine Registers.replay_of_const (fun w hw hwk => ?_) (Or.inr ⟨(k, some v), ?_, rfl⟩)
    · obtain ⟨⟨k', v'⟩, hit, rfl⟩ := List.mem_map.mp hw
      obtain rfl : k' = k := hwk
      exact (mem_entries.mp hit).symm.trans hk
    · exact List.mem_map.mpr ⟨(k, v), mem_entries.mpr hk, rfl⟩

theorem eq_empty_of_size (h : q.size = 0) : q = QoSList.empty := by
  have hempty := replay_entries q
  rw [List.length_eq_zero_iff.mp h] at hempty
  exact hempty.symm

theorem readItems {l : List (UInt8 × UInt16)} (h : data.drop off = l.flatMap itemBytes ++ post) :
    ∃ s, (List.range l.length).foldlM (fun s _ => readItem data s) (QoSList.empty, off) = some s ∧
      s.1 = Registers.replay QoSList.empty (l.map fun it => (it.1, some it.2)) := by
  have hloop := Wire.foldlM_range (n := l.length) (f := fun s _ => readItem data s)
    (s := (QoSList.empty, off))
    (I := fun i (s : QoSList × Nat) =>
      s.1 = Registers.replay QoSList.empty ((l.take i).map fun it => (it.1, some it.2)) ∧
      data.drop s.2 = (l.drop i).flatMap itemBytes ++ post) ?_ ?_
  · obtain ⟨s, hrun, hq, -⟩ := hloop
    rw [List.take_length] at hq
    exact ⟨s, hrun, hq⟩
  · exact ⟨rfl, h⟩
  · rintro i ⟨q, offset⟩ hi ⟨hq, hd⟩
    dsimp only at hq hd
    rw [List.drop_eq_getElem_cons hi, List.flatMap_cons, List.append_assoc] at hd
    generalize hit : l[i] = it at hd
    have hkey : data[offset]? = some it.1 := load_drop hd
    have hnext : data.drop (offset + 1) = highByte it.2 :: lowByte it.2 ::
        ((l.drop (i + 1)).flatMap itemBytes ++ post) := drop_next (x := [it.1]) hd rfl
    have hlow := drop_next (x := [highByte it.2]) (m := 1) hnext rfl
    obtain ⟨value, hvalue, hv⟩ := getBits_value (load_drop hnext) (load_drop hlow)
    refine ⟨(Registers.write q (it.1, some it.2), offset + 3), ?_, ?_, ?_⟩
    · simp [readItem, hkey, hvalue, hv]
    · rw [List.take_succ_eq_append_getElem hi, hit, List.map_append, Registers.replay_append, ← hq]
      rfl
    · exact drop_next hd rfl

/-- As many links as their number can say, with lists as long as theirs can. -/
structure Countable (entries : List Entry) : Prop where
  length : entries.length ≤ 255
  size : ∀ e ∈ entries, e.status.size ≤ 255

theorem offset_succ (hi : entries[i]? = some e) :
    offset (sizes entries) (i + 1) = offset (sizes entries) i + 33 + e.status.size * 3 := by
  have hsize : (sizes entries)[i]? = some e.status.size := by simp [sizes, hi]
  simp only [offset, List.take_add_one, hsize, Option.toList_some, List.map_append, List.sum_append]
  simp
  omega

theorem offset_mono (sizes : List Nat) (hin : i ≤ n) : offset sizes i ≤ offset sizes n := by
  obtain ⟨k, rfl⟩ := Nat.exists_eq_add_of_le hin
  simp [offset, List.take_add]

theorem getLinksLen_packet (hid : nodeID.length = 8) :
    getLinksLen (packet nodeID entries) = some (UInt8.ofNat entries.length) :=
  load_drop (drop_length (p := qosReport :: nodeID) rfl (by simp [hid]))

theorem link_drop (hid : nodeID.length = 8) (hi : entries[i]? = some e) :
    (packet nodeID entries).drop (offset (sizes entries) i) =
      e.bytes ++ (entries.drop (i + 1)).flatMap Entry.bytes := by
  obtain ⟨hlt, rfl⟩ := List.getElem?_eq_some_iff.mp hi
  rw [packet_drop hid, List.drop_eq_getElem_cons hlt, List.flatMap_cons]

/-- The loop finds every link that starts before the offset wraps. -/
theorem skipLinks (hid : nodeID.length = 8) (hc : Countable entries) (hi : i ≤ entries.length)
    (hfits : offset (sizes entries) i < 2 ^ 16) :
    (List.range i).foldlM (fun offset _ => skipLink (packet nodeID entries) offset) constHdrLen =
      some (offset (sizes entries) i) := by
  have hloop := Wire.foldlM_range (n := i)
    (f := fun offset _ => skipLink (packet nodeID entries) offset) (s := constHdrLen)
    (I := fun j s => s = offset (sizes entries) j) rfl fun j s hj hs => by
      subst hs
      obtain ⟨e, he⟩ : ∃ e, entries[j]? = some e := ⟨_, List.getElem?_eq_getElem (by omega)⟩
      have hnext := offset_succ he
      have hle : offset (sizes entries) (j + 1) ≤ _ := offset_mono (sizes entries) hj
      refine ⟨_, skipLink_eq (link_drop hid he) (hc.size e (List.mem_of_getElem? he)) (by omega), ?_⟩
      rw [hnext]
  obtain ⟨s, hrun, rfl⟩ := hloop
  exact hrun

theorem Countable.toNat (hc : Countable entries) :
    (UInt8.ofNat entries.length).toNat = entries.length := by
  have := hc.length
  simp
  omega

theorem getLinkOffset_packet (hid : nodeID.length = 8) (hc : Countable entries)
    (hi : i ≤ entries.length) (hfits : offset (sizes entries) i < 2 ^ 16) :
    getLinkOffset (packet nodeID entries) i = some (offset (sizes entries) i : Int) := by
  have hlen : ¬ (UInt8.ofNat entries.length).toNat < i := by
    rw [hc.toNat]
    omega
  simp only [getLinkOffset, getLinksLen_packet hid, Option.bind_eq_bind, Option.bind_some,
    if_neg hlen, skipLinks hid hc hi hfits]
  rfl

theorem toString_parse {s : List Char} (hs : s.length = fidBits)
    (hbin : ∀ c ∈ s, c = '0' ∨ c = '1') : Bitvector.toString (Bitvector.parse s) = s := by
  refine List.ext_getElem (by simp [Bitvector.toString, hs]) fun i hi hi' => ?_
  have hlt : i < fidBits := by simpa [Bitvector.toString] using hi
  have hbit := Bitvector.getLsbD_parse hs (i := fidBits - i - 1) (by omega)
  rw [show fidBits - 1 - (fidBits - i - 1) = i by omega, List.getElem?_eq_getElem hi'] at hbit
  simp only [Bitvector.toString, List.getElem_map, List.getElem_range, hbit]
  rcases hbin _ (List.getElem_mem hi') with h | h <;> simp [h]

theorem unsigned_natCast (h : n < 2 ^ 32) : unsigned n = n := by
  unfold unsigned
  omega

section

variable (hid : nodeID.length = 8) (hc : Countable entries) (hi : entries[i]? = some e)
  (hfits : offset (sizes entries) i < 2 ^ 16)

include hc hi in
theorem index_le : ¬ (UInt8.ofNat entries.length).toNat < i := by
  obtain ⟨hlt, -⟩ := List.getElem?_eq_some_iff.mp hi
  rw [hc.toNat]
  omega

include hid hc hi hfits

theorem readLid_packet : ((getLinkOffset (packet nodeID entries) i).bind fun offset =>
    readLid (packet nodeID entries) (unsigned offset)) = some e.lid := by
  have hle := index_le hc hi
  rw [hc.toNat] at hle
  have hlink := link_drop hid hi
  rw [Entry.bytes, List.append_assoc] at hlink
  rw [getLinkOffset_packet hid hc (by omega) hfits, Option.bind_some, unsigned_natCast (by omega)]
  exact readLid_eq hlink

theorem getLid_packet : getLid (packet nodeID entries) i = some (some e.lid) := by
  have hread := readLid_packet hid hc hi hfits
  obtain ⟨offset, hoffset, hread⟩ := Option.bind_eq_some_iff.mp hread
  simp only [getLid, getLinksLen_packet hid, Option.bind_eq_bind, Option.bind_some,
    if_neg (index_le hc hi), hoffset, hread]
  rfl

theorem getLidStr_packet : getLidStr (packet nodeID entries) i = some (Bitvector.toString e.lid) := by
  have hread := readLid_packet hid hc hi hfits
  obtain ⟨offset, hoffset, hread⟩ := Option.bind_eq_some_iff.mp hread
  simp only [getLidStr, getLinksLen_packet hid, Option.bind_eq_bind, Option.bind_some,
    if_neg (index_le hc hi), hoffset, hread]
  rfl

theorem getLinkStatus_packet : getLinkStatus (packet nodeID entries) i = some e.status := by
  have hle := index_le hc hi
  rw [hc.toNat] at hle
  have hlink := link_drop hid hi
  rw [Entry.bytes, List.append_assoc] at hlink
  have hstatus := drop_next (m := 32) hlink (by simp)
  rw [statusBytes, List.cons_append] at hstatus
  have hitems := drop_next (x := [_]) hstatus rfl
  have hsize : (UInt8.ofNat e.status.size).toNat = e.status.size := by
    have := hc.size e (List.mem_of_getElem? hi)
    simp
    omega
  have hoffset := getLinkOffset_packet hid hc (i := i) (by omega) hfits
  generalize LSMPacket.offset (sizes entries) i = off at *
  have hlen : getStatusListLen (packet nodeID entries) i = some (e.status.size : Int) := by
    have hpos : ((off : Int) + (fidLen : Nat)).toNat = off + 32 := by
      simp
      omega
    have hne : (off : Int) ≠ -1 := by omega
    simp only [getStatusListLen, hoffset, Option.bind_eq_bind, Option.bind_some, if_neg hne, hpos,
      load_drop hstatus]
    exact congrArg some (congrArg Nat.cast hsize)
  have hstart : unsigned ((off : Int) + (fidLen : Nat)) = off + 32 :=
    unsigned_natCast (n := off + 32) (by omega)
  obtain ⟨s, hrun, hs⟩ := readItems hitems
  rw [replay_entries] at hs
  simp only [getLinkStatus, getLinksLen_packet hid, Option.bind_eq_bind, Option.bind_some,
    if_neg (index_le hc hi), hoffset, hlen, hstart]
  split
  · next hzero =>
    exact congrArg some (eq_empty_of_size (Int.natCast_eq_zero.mp hzero)).symm
  · next hzero =>
    have hrun' : (List.range (e.status.size : Int).toNat).foldlM
        (fun s _ => readItem (packet nodeID entries) s) (QoSList.empty, off + 32 + 1) = some s := hrun
    rw [hrun', Option.bind_some]
    exact congrArg some hs

end

theorem parsed_packet (hid : nodeID.length = 8) (hc : Countable entries)
    (hfits : offset (sizes entries) (entries.length - 1) < 2 ^ 16) :
    Parsed (packet nodeID entries) entries := by
  have hlt : ∀ {i e}, entries[i]? = some e → offset (sizes entries) i < 2 ^ 16 := by
    intro i e hi
    obtain ⟨hlt, -⟩ := List.getElem?_eq_some_iff.mp hi
    exact Nat.lt_of_le_of_lt (offset_mono _ (by omega)) hfits
  refine ⟨?_, fun i e hi => getLid_packet hid hc hi (hlt hi), fun i e s hi hs hbin hparse => ?_,
    fun i e hi => getLinkStatus_packet hid hc hi (hlt hi)⟩
  · rw [getLinksLen_packet hid, Option.map_some, hc.toNat]
  · rw [getLidStr_packet hid hc hi (hlt hi), ← hparse, toString_parse hs hbin]

end LSMPacket

end Blackadder
