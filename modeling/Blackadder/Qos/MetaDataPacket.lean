import Blackadder.Qos.LongReports

/-!
# Metadata of an item

An application tells the topology manager about an item: its id and a list of values. The id is
written and read by loops with counters of 8 bits.
-/

namespace Blackadder.MetaDataPacket

open Blackadder.ByteArray Wire LSMPacket

@[simp]
abbrev pursuitIdLen : Nat := 8

def qosMetadata : UInt8 := 108

/-- The type, the length of the id and the number of items. -/
@[simp]
abbrev constHdrLen : Nat := 1 + 1 + 1

/-- The constructor of a packet with room for an id. -/
def new (fresh : Nat → UInt8) (idlen : UInt8) : Option Bytes := do
  let data := extend fresh [] (idlen.toNat * pursuitIdLen + constHdrLen)
  let data ← store data 0 qosMetadata
  let data ← store data 1 idlen
  store data (pursuitIdLen * idlen.toNat + 2) 0

def getIDLen (data : Bytes) : Option UInt8 := data[1]?

def getIDRaw (data : Bytes) : Option Bytes := do
  let idlen ← getIDLen data
  getStrBytes data (UInt8.ofNat (idlen.toNat * pursuitIdLen)) 2 0

def getItemNum (data : Bytes) : Option UInt8 := do
  let idlen ← getIDLen data
  data[constHdrLen + idlen.toNat * pursuitIdLen - 1]?

def getIIStatus (data : Bytes) : Option QoSList := do
  let idlen ← getIDLen data
  let len ← getItemNum data
  if len = 0 then return QoSList.empty
  let (q, _) ← (List.range len.toNat).foldlM (fun s _ => readItem data s)
    (QoSList.empty, constHdrLen + idlen.toNat * pursuitIdLen)
  return q

def setIDLen (data : Bytes) (len : UInt8) : Option Bytes := store data 1 len

def setID (data id : Bytes) : Option Bytes := do
  let data ← setIDLen data (UInt8.ofNat (id.length / pursuitIdLen))
  setString data id 2 0

def appendIIStatus (fresh : Nat → UInt8) (data : Bytes) (q : QoSList) : Option Bytes := do
  let idlen ← getIDLen data
  let bytepos := constHdrLen + idlen.toNat * pursuitIdLen - 1
  let data := extend fresh data (q.size * qosItemSize)
  let data ← store data bytepos (UInt8.ofNat q.size)
  let (data, _) ← q.entries.foldlM writeItem (data, bytepos + 1)
  return data

/-- What an application builds for an id. -/
def build (fresh : Nat → UInt8) (id : Bytes) (q : QoSList) : Option Bytes := do
  let data ← new fresh (UInt8.ofNat (id.length / pursuitIdLen))
  let data ← setID data id
  appendIIStatus fresh data q

/-- The packet ends, and what the other side parses is what was put in. -/
def RoundTrip (id : Bytes) (q : QoSList) : Prop :=
  ∀ fresh fresh', ∃ data data', build fresh id q = some data ∧
    setData fresh' data = some data' ∧ getIDRaw data' = some id ∧
    (getItemNum data').map UInt8.toNat = some q.size ∧ getIIStatus data' = some q

variable {fresh : Nat → UInt8} {data id : Bytes} {q : QoSList} {n : Nat}

/-! ## The bytes of a packet -/

def packet (n : Nat) (id : Bytes) (q : QoSList) : Bytes :=
  [qosMetadata, UInt8.ofNat n] ++ (id ++ statusBytes q)

theorem new_eq (fresh : Nat → UInt8) (hn : n ≤ 255) : ∃ y : Bytes, y.length = 8 * n ∧
    new fresh (UInt8.ofNat n) = some ([qosMetadata, UInt8.ofNat n] ++ (y ++ [0])) := by
  have hbyte : (UInt8.ofNat n).toNat = n := by
    simp
    omega
  obtain ⟨a, b, y, c, hy, hext⟩ : ∃ a b y c, y.length = 8 * n ∧
      extend fresh [] (n * 8 + 3) = [a] ++ ([b] ++ (y ++ [c])) := by
    have hsplit : n * 8 + 3 = 2 + (8 * n + 1) := by omega
    refine ⟨fresh 0, fresh 1, (List.range (8 * n)).map fun i => fresh (2 + i), fresh (2 + 8 * n),
      by simp, ?_⟩
    rw [extend, hsplit, List.range_add, List.range_succ (n := 8 * n)]
    simp [List.range_succ]
  have htype : store ([a] ++ ([b] ++ (y ++ [c]))) 0 qosMetadata =
      some ([qosMetadata] ++ ([b] ++ (y ++ [c]))) := blit_append (p := []) (y := [a]) rfl rfl rfl
  have hidlen : store ([qosMetadata] ++ ([b] ++ (y ++ [c]))) 1 (UInt8.ofNat n) =
      some ([qosMetadata] ++ ([UInt8.ofNat n] ++ (y ++ [c]))) := blit_append rfl rfl rfl
  have hitems : store ([qosMetadata] ++ ([UInt8.ofNat n] ++ (y ++ [c]))) (8 * n + 2) 0 =
      some ([qosMetadata, UInt8.ofNat n] ++ y ++ ([0] ++ [])) :=
    blit_append (p := [qosMetadata, UInt8.ofNat n] ++ y) (y := [c]) (by simp) (by simp [hy]) rfl
  refine ⟨y, hy, ?_⟩
  simp only [new, pursuitIdLen, constHdrLen, hbyte, hext, htype, hidlen, hitems, Option.bind_eq_bind,
    Option.bind_some]
  simp

theorem setIDLen_eq (post : Bytes) (n : UInt8) :
    setIDLen ([qosMetadata, n] ++ post) n = some ([qosMetadata, n] ++ post) :=
  blit_append (p := [qosMetadata]) (x := [n]) (y := [n]) rfl rfl rfl

theorem setID_eq (hid : id.length = 8 * n) (hn : n ≤ 31) {y : Bytes} (hy : y.length = 8 * n) :
    setID ([qosMetadata, UInt8.ofNat n] ++ (y ++ [0])) id =
      some ([qosMetadata, UInt8.ofNat n] ++ (id ++ [0])) := by
  have hdiv : id.length / 8 = n := by omega
  have hset : setString ([qosMetadata, UInt8.ofNat n] ++ (y ++ [0])) id 2 0 =
      some ([qosMetadata, UInt8.ofNat n] ++ (id ++ [0])) :=
    setString_append rfl rfl (hid.trans hy.symm) (by omega)
  simp only [setID, pursuitIdLen, hdiv, setIDLen_eq, hset, Option.bind_eq_bind, Option.bind_some]

theorem appendIIStatus_eq (hid : id.length = 8 * n) (hn : n ≤ 255) :
    appendIIStatus fresh ([qosMetadata, UInt8.ofNat n] ++ (id ++ [0])) q = some (packet n id q) := by
  have hbyte : (UInt8.ofNat n).toNat = n := by
    simp
    omega
  generalize hold : [qosMetadata, UInt8.ofNat n] ++ (id ++ [0]) = old
  have hlen : getIDLen old = some (UInt8.ofNat n) := by
    rw [← hold]
    rfl
  have hext : extend fresh old (q.size * 3) = ([qosMetadata, UInt8.ofNat n] ++ id) ++ ([0] ++
      (List.range (q.size * 3)).map fun i => fresh (old.length + i)) := by
    rw [extend]
    nth_rewrite 1 [← hold]
    simp
  have hcount : store (extend fresh old (q.size * 3)) (2 + n * 8) (UInt8.ofNat q.size) = _ :=
    blit_append hext (by simp [hid]; omega) rfl
  have hfront : Front (3 + 8 * n + q.size * 3)
      ([qosMetadata, UInt8.ofNat n] ++ id ++ [UInt8.ofNat q.size]) []
      ([qosMetadata, UInt8.ofNat n] ++ id ++ ([UInt8.ofNat q.size] ++
        (List.range (q.size * 3)).map fun i => fresh (old.length + i))) :=
    ⟨(List.range (q.size * 3)).map fun i => fresh (old.length + i), by simp, by simp [hid]; omega⟩
  obtain ⟨s, hrun, hs⟩ := writeItems_front (l := q.entries) (k := 3 + n * 8) hfront
    (by simp [hid]; omega) (by rw [QoSList.size]; omega)
  have hfull : s.1 = packet n id q := by
    have hlength : ([qosMetadata, UInt8.ofNat n] ++ id ++ [UInt8.ofNat q.size] ++
        q.entries.flatMap itemBytes).length = 3 + 8 * n + q.size * 3 := by
      rw [List.length_append, length_items, QoSList.size]
      simp [hid]
      omega
    rw [hs.eq hlength]
    simp [packet, statusBytes]
  have hpos : 2 + n * 8 + 1 = 3 + n * 8 := by omega
  have hpos' : 1 + 1 + 1 + n * 8 - 1 = 2 + n * 8 := by omega
  simp only [appendIIStatus, hlen, hbyte, pursuitIdLen, qosItemSize, constHdrLen, hpos', hcount,
    hpos, hrun, hfull, Option.bind_eq_bind, Option.bind_some]
  rfl

theorem build_eq (hid : id.length = 8 * n) (hn : n ≤ 31) : build fresh id q = some (packet n id q) := by
  have hdiv : id.length / 8 = n := by omega
  obtain ⟨y, hy, hnew⟩ := new_eq fresh (n := n) (by omega)
  simp only [build, pursuitIdLen, hdiv, hnew, Option.bind_eq_bind, Option.bind_some,
    setID_eq hid hn hy, appendIIStatus_eq hid (show n ≤ 255 by omega)]

/-- An id of 32 fragments has more bytes than the counter can count: the loop does not end. -/
theorem build_none (hid : id.length = 8 * n) (hn : n ≤ 255) (hlong : 31 < n) :
    build fresh id q = none := by
  have hdiv : id.length / 8 = n := by omega
  obtain ⟨y, hy, hnew⟩ := new_eq fresh hn
  have hset : setString ([qosMetadata, UInt8.ofNat n] ++ (y ++ [0])) id 2 0 = none := by
    unfold setString
    rw [if_neg (by simp [hy, hid]), if_pos (by omega)]
  simp only [build, setID, pursuitIdLen, hdiv, hnew, setIDLen_eq, hset, Option.bind_eq_bind,
    Option.bind_some, Option.bind_none]

theorem packet_read (hid : id.length = 8 * n) (hn : n ≤ 31) (hq : q.size ≤ 255) :
    getIDRaw (packet n id q) = some id ∧
    (getItemNum (packet n id q)).map UInt8.toNat = some q.size ∧
    getIIStatus (packet n id q) = some q := by
  have hbyte : (UInt8.ofNat n).toNat = n := by
    simp
    omega
  have hsize : (UInt8.ofNat q.size).toNat = q.size := by
    simp
    omega
  have hlen : getIDLen (packet n id q) = some (UInt8.ofNat n) := rfl
  have hdrop : (packet n id q).drop 2 = id ++ statusBytes q := rfl
  have hstatus := drop_next hdrop hid.symm
  have hnum : getItemNum (packet n id q) = some (UInt8.ofNat q.size) := by
    have hpos : 1 + 1 + 1 + n * 8 - 1 = 2 + 8 * n := by omega
    simp only [getItemNum, hlen, hbyte, pursuitIdLen, constHdrLen, hpos, Option.bind_eq_bind,
      Option.bind_some]
    exact load_drop hstatus
  refine ⟨?_, by rw [hnum, Option.map_some, hsize], ?_⟩
  · simp only [getIDRaw, hlen, hbyte, pursuitIdLen, Option.bind_eq_bind, Option.bind_some]
    exact getStrBytes_drop hdrop (by simp [hid]; omega)
  · rw [statusBytes] at hstatus
    have hitems : (packet n id q).drop (2 + 8 * n + 1) = q.entries.flatMap itemBytes ++ [] :=
      drop_next (x := [_]) (by simpa using hstatus) rfl
    obtain ⟨s, hrun, hs⟩ := readItems hitems
    rw [replay_entries] at hs
    have hpos : 1 + 1 + 1 + n * 8 = 2 + 8 * n + 1 := by omega
    simp only [getIIStatus, hlen, hnum, hbyte, hsize, pursuitIdLen, constHdrLen, hpos,
      Option.bind_eq_bind, Option.bind_some]
    split
    · next hzero =>
      have hnone : q.size = 0 := by rw [← hsize, hzero]; rfl
      exact congrArg some (eq_empty_of_size hnone).symm
    · have hrun' : (List.range q.size).foldlM (fun s _ => readItem (packet n id q) s)
          (QoSList.empty, 2 + 8 * n + 1) = some s := hrun
      rw [hrun', Option.bind_some]
      exact congrArg some hs

/-- The round trip of an id of `n` fragments. -/
theorem parsed_back_iff (hid : id.length = 8 * n) (hn : n ≤ 255) (hq : q.size ≤ 255) :
    RoundTrip id q ↔ n ≤ 31 := by
  constructor
  · intro h
    by_contra hlong
    obtain ⟨data, data', hbuild, -⟩ := h (fun _ => 0) fun _ => 0
    rw [build_none hid hn (by omega)] at hbuild
    cases hbuild
  · intro hshort fresh fresh'
    exact ⟨_, _, build_eq hid hshort, setData_eq fresh' _, packet_read hid hshort hq⟩

theorem parsed_back_iff_two : RoundTrip (List.replicate 16 7) (firstKeys 3) ↔ 2 ≤ 31 :=
  parsed_back_iff rfl (by decide) (by rw [size_firstKeys] <;> decide)

/-- An id of 32 fragments. -/
theorem not_parsed_back_long : (firstKeys 0).size ≤ 255 ∧
    (∀ fresh, build fresh (List.replicate (8 * 32) 0) (firstKeys 0) = none) ∧
    ¬ RoundTrip (List.replicate (8 * 32) 0) (firstKeys 0) := by
  have hnone : ∀ fresh, build fresh (List.replicate (8 * 32) 0) (firstKeys 0) = none := fun fresh =>
    build_none List.length_replicate (by decide) (by decide)
  refine ⟨by rw [size_firstKeys] <;> decide, hnone, fun h => ?_⟩
  obtain ⟨data, data', hbuild, -⟩ := h (fun _ => 0) fun _ => 0
  rw [hnone] at hbuild
  cases hbuild

end Blackadder.MetaDataPacket
