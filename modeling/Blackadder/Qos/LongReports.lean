import Blackadder.Qos.LSMPacket

/-!
# Link state reports that are too long

The offset of a link is a `uint16_t` where the reports are parsed.
-/

namespace Blackadder.LSMPacket

open Blackadder.ByteArray Wire

variable {data data' nodeID : Bytes} {q : QoSList} {e : Entry} {entries : List Entry} {off i : Nat}

/-- The same bytes up to a place. -/
def Agree (m : Nat) (data data' : Bytes) : Prop := ∀ k < m, data[k]? = data'[k]?

theorem skipLink_congr (h : Agree (2 ^ 16) data data') : skipLink data off = skipLink data' off := by
  simp only [skipLink, h _ (Nat.mod_lt (off + fidLen) (by decide : 0 < 2 ^ 16))]

theorem readLid_congr {m : Nat} (h : Agree m data data') (hoff : off + 32 ≤ m)
    (hm : m ≤ data.length) : readLid data off = readLid data' off := by
  have hloop := Wire.foldlM_range (n := fidBits) (f := readBit data) (s := (0, off))
    (I := fun i (s : Bitvector × Nat) => s.2 = off + i / 8 ∧
      (List.range i).foldlM (readBit data') (0, off) = some s) ⟨rfl, rfl⟩ ?_
  · obtain ⟨s, hrun, -, hrun'⟩ := hloop
    rw [readLid, readLid, hrun, hrun']
  · rintro i ⟨v, bytepos⟩ hi ⟨hpos, hrun⟩
    have hi : i < 256 := hi
    dsimp only at hpos
    have hbyte := List.getElem?_eq_getElem (l := data) (i := bytepos) (by omega)
    have hread := getBits8OrLess_bit (k := i % 8) (by omega) hbyte
    have hread' := getBits8OrLess_bit (k := i % 8) (by omega) ((h bytepos (by omega)).symm.trans hbyte)
    refine ⟨_, by simp only [readBit, hread]; rfl, ?_, ?_⟩
    · dsimp only
      split <;> omega
    · rw [List.range_succ, List.foldlM_append, hrun]
      simp [readBit, hread']

theorem skipLink_byte {b : UInt8} (hb : data[(off + 32) % 2 ^ 16]? = some b) : skipLink data off =
    some ((((off + 32) % 2 ^ 16 + b.toNat * 3) % 2 ^ 16 + 1) % 2 ^ 16) := by
  simp only [skipLink, fidLen, hb]
  rfl

theorem offset_lt_length (hid : nodeID.length = 8) (hi : entries[i]? = some e) :
    offset (sizes entries) i < (packet nodeID entries).length := by
  have hlink := congrArg List.length (link_drop hid hi)
  rw [List.length_drop, List.length_append, Entry.length_bytes] at hlink
  omega

theorem skipLink_wraps (hid : nodeID.length = 8) (hc : Countable entries)
    (hi : entries[i]? = some e) (hlow : offset (sizes entries) i < 2 ^ 16)
    (hhigh : 2 ^ 16 ≤ offset (sizes entries) (i + 1))
    (hlen : 2 ^ 16 ≤ (packet nodeID entries).length) :
    ∃ r : Nat, skipLink (packet nodeID entries) (offset (sizes entries) i) = some r ∧ r < 800 := by
  have hsize := hc.size e (List.mem_of_getElem? hi)
  have hlink := link_drop hid hi
  rw [offset_succ hi] at hhigh
  generalize offset (sizes entries) i = off at *
  obtain ⟨b, hb⟩ : ∃ b, (packet nodeID entries)[(off + 32) % 2 ^ 16]? = some b :=
    ⟨_, List.getElem?_eq_getElem (by omega)⟩
  refine ⟨_, skipLink_byte hb, ?_⟩
  by_cases hwrap : off + 32 < 2 ^ 16
  · rw [Nat.mod_eq_of_lt hwrap] at hb ⊢
    rw [Entry.bytes, List.append_assoc] at hlink
    have hcount := load_drop (drop_next (m := 32) hlink (by simp))
    have hbyte : b.toNat = e.status.size := by
      rw [← Option.some.inj (hcount.symm.trans hb)]
      simp
      omega
    omega
  · have := b.toNat_lt
    have hstart : (off + 32) % 2 ^ 16 < 32 := by omega
    rw [Nat.mod_eq_of_lt (by omega : (off + 32) % 2 ^ 16 + b.toNat * 3 < 2 ^ 16),
      Nat.mod_eq_of_lt (by omega)]
    omega

/-- Another identifier of a link leaves the bytes before it. -/
theorem agree_set (hid : nodeID.length = 8) (lid : Bitvector) :
    Agree (offset (sizes entries) i) (packet nodeID entries)
      (packet nodeID (entries.set i ⟨lid, q⟩)) := by
  have hsame : before nodeID (entries.set i ⟨lid, q⟩) i = before nodeID entries i := by
    simp [before, List.take_set_of_le]
  intro k hk
  rw [← length_before hid] at hk
  rw [packet_split nodeID entries i, packet_split nodeID (entries.set i _) i, hsame,
    List.getElem?_append_left hk, List.getElem?_append_left hk]

theorem sizes_set (lid : Bitvector) (hi : entries[i]? = some e) :
    sizes (entries.set i ⟨lid, e.status⟩) = sizes entries := by
  obtain ⟨hlt, rfl⟩ := List.getElem?_eq_some_iff.mp hi
  have hlt' : i < (sizes entries).length := by simpa [sizes] using hlt
  have hget : (sizes entries)[i] = entries[i].status.size := List.getElem_map _
  have hset := List.set_getElem_self hlt'
  rw [hget] at hset
  rw [sizes, List.map_set]
  exact hset

theorem Countable.congr {entries' : List Entry} (hc : Countable entries)
    (h : sizes entries' = sizes entries) : Countable entries' := by
  have hlen := congrArg List.length h
  simp only [sizes, List.length_map] at hlen
  refine ⟨hlen ▸ hc.length, fun e he => ?_⟩
  have hmem : e.status.size ∈ sizes entries := h ▸ List.mem_map_of_mem he
  obtain ⟨e', he', heq⟩ := List.mem_map.mp hmem
  exact heq ▸ hc.size e' he'

theorem getLinkOffset_succ (hid : nodeID.length = 8) (hc : Countable entries)
    (hi : i + 1 < entries.length) (hlow : offset (sizes entries) i < 2 ^ 16) :
    getLinkOffset (packet nodeID entries) (i + 1) =
      (skipLink (packet nodeID entries) (offset (sizes entries) i)).map Nat.cast := by
  have hlen : ¬ (UInt8.ofNat entries.length).toNat < i + 1 := by
    rw [hc.toNat]
    omega
  simp only [getLinkOffset, getLinksLen_packet hid, Option.bind_eq_bind, Option.bind_some,
    if_neg hlen]
  rw [List.range_succ, List.foldlM_append, skipLinks hid hc (by omega) hlow]
  simp only [List.foldlM_cons, List.foldlM_nil, Option.bind_eq_bind, Option.bind_some]
  cases skipLink (packet nodeID entries) (offset (sizes entries) i) <;> rfl

/-- What is read of the first link out of reach does not depend on its identifier. -/
theorem getLid_set (hid : nodeID.length = 8) (hc : Countable entries) (lid : Bitvector)
    (hi : entries[i + 1]? = some e) (hlow : offset (sizes entries) i < 2 ^ 16)
    (hhigh : 2 ^ 16 ≤ offset (sizes entries) (i + 1)) :
    getLid (packet nodeID (entries.set (i + 1) ⟨lid, e.status⟩)) (i + 1) =
      getLid (packet nodeID entries) (i + 1) := by
  obtain ⟨hlt, -⟩ := List.getElem?_eq_some_iff.mp hi
  obtain ⟨e', hi'⟩ : ∃ e', entries[i]? = some e' := ⟨_, List.getElem?_eq_getElem (by omega)⟩
  have hlength := offset_lt_length hid hi
  have hsizes := sizes_set lid hi
  have hagree : Agree (offset (sizes entries) (i + 1)) (packet nodeID entries)
      (packet nodeID (entries.set (i + 1) ⟨lid, e.status⟩)) := agree_set hid lid
  have hnear : Agree (2 ^ 16) (packet nodeID entries) _ := fun k hk => hagree k (by omega)
  obtain ⟨r, hskip, hr⟩ := skipLink_wraps hid hc hi' hlow hhigh (by omega)
  have hskip' := (skipLink_congr hnear).symm.trans hskip
  have hread : readLid (packet nodeID entries) r = readLid _ r :=
    readLid_congr hagree (by omega) (by omega)
  have hoff := getLinkOffset_succ hid hc hlt hlow
  have hoff' := getLinkOffset_succ (i := i) hid (hc.congr hsizes) (by simpa using hlt)
    (by rwa [hsizes])
  rw [hskip] at hoff
  rw [hsizes, hskip'] at hoff'
  simp only [getLid, getLinksLen_packet hid, List.length_set, hoff, hoff', Option.map_some,
    Option.bind_eq_bind, Option.bind_some, unsigned_natCast (n := r) (by omega), hread]

theorem not_parsed (hid : nodeID.length = 8) (hc : Countable entries)
    (hhigh : 2 ^ 16 ≤ offset (sizes entries) (entries.length - 1)) :
    ∃ entries', sizes entries' = sizes entries ∧ ¬ Parsed (packet nodeID entries') entries' := by
  classical
  have hfirst : ∃ i, 2 ^ 16 ≤ offset (sizes entries) i := ⟨_, hhigh⟩
  have hle := Nat.find_min' hfirst hhigh
  obtain ⟨hi, hbefore⟩ := (Nat.find_eq_iff hfirst).mp rfl
  generalize Nat.find hfirst = n at hi hbefore hle
  obtain _ | i := n
  · simp [offset] at hi
  · have hlow : offset (sizes entries) i < 2 ^ 16 := Nat.lt_of_not_le (hbefore i (Nat.lt_succ_self i))
    have hlt : i + 1 < entries.length := by omega
    have he := List.getElem?_eq_getElem hlt
    generalize entries[i + 1] = e at he
    by_contra hall
    push Not at hall
    have hboth : ∀ lid, getLid (packet nodeID entries) (i + 1) = some (some lid) := by
      intro lid
      have hparsed := hall _ (sizes_set lid he)
      rw [← getLid_set hid hc lid he hlow hi]
      exact hparsed.lid (i + 1) ⟨lid, e.status⟩ (by simp [hlt])
    have hsame : (0 : Bitvector) = 1 := by simpa using (hboth 0).symm.trans (hboth 1)
    exact absurd hsame (by decide)

/-- A list with the first keys. -/
def firstKeys (k : Nat) : QoSList := fun b => if b.toNat < k then some 0 else none

theorem size_firstKeys {k : Nat} (hk : k ≤ 255) : (firstKeys k).size = k := by
  have hsplit : List.range 256 = List.range k ++ (List.range (256 - k)).map (k + ·) := by
    rw [← List.range_add, Nat.add_sub_cancel' (by omega)]
  have hin : ∀ j ∈ List.range k, ((firstKeys k (UInt8.ofNat j)).map fun v => (UInt8.ofNat j, v)) =
      some (UInt8.ofNat j, 0) := by
    intro j hj
    have hj := List.mem_range.mp hj
    simp [firstKeys, Nat.mod_eq_of_lt (show j < 256 by omega), hj]
  have hout : ∀ j ∈ (List.range (256 - k)).map (k + ·),
      ((firstKeys k (UInt8.ofNat j)).map fun v => (UInt8.ofNat j, v)) = none := by
    intro j hj
    obtain ⟨m, hm, rfl⟩ := List.mem_map.mp hj
    have hm := List.mem_range.mp hm
    simp [firstKeys, Nat.mod_eq_of_lt (show k + m < 256 by omega)]
  rw [QoSList.size, QoSList.entries, hsplit, List.filterMap_append, List.filterMap_congr hin,
    List.filterMap_eq_nil_iff.mpr hout, List.append_nil]
  have hmap := congrFun (List.filterMap_eq_map (f := fun j => (UInt8.ofNat j, (0 : UInt16))))
    (List.range k)
  exact (congrArg List.length hmap).trans (by simp)

theorem setData_eq (fresh : Nat → UInt8) (data : Bytes) : setData fresh data = some data := by
  have hdata : extend fresh [] data.length = [] ++ (extend fresh [] data.length ++ []) := by simp
  have hset : setBytes _ data 0 0 = some ([] ++ (data ++ [])) :=
    setBytes_append hdata rfl (by simp [extend])
  simpa [setData] using hset

/-- The report of the links is parsed to the same links. -/
def RoundTrip (nodeID : Bytes) (entries : List Entry) : Prop :=
  ∀ fresh fresh', ∃ data data', report fresh nodeID entries = some data ∧
    setData fresh' data = some data' ∧ Parsed data' entries

theorem roundTrip_packet (hid : nodeID.length = 8) :
    RoundTrip nodeID entries ↔ Parsed (packet nodeID entries) entries := by
  constructor
  · intro h
    obtain ⟨data, data', hreport, hset, hparsed⟩ := h (fun _ => 0) fun _ => 0
    obtain rfl := Option.some.inj ((report_eq _ hid entries).symm.trans hreport)
    obtain rfl := Option.some.inj ((setData_eq _ _).symm.trans hset)
    exact hparsed
  · exact fun h fresh fresh' => ⟨_, _, report_eq fresh hid entries, setData_eq fresh' _, h⟩

/-- All reports with lists of the sizes are parsed back exactly when the last link starts where
the offset can say. -/
theorem roundTrip_iff (hid : nodeID.length = 8) {lens : List Nat} (hcount : lens.length ≤ 255)
    (hlens : ∀ k ∈ lens, k ≤ 255) :
    (∀ entries, sizes entries = lens → RoundTrip nodeID entries) ↔
      offset lens (lens.length - 1) < 2 ^ 16 := by
  have hcountable : ∀ {entries}, sizes entries = lens → Countable entries := by
    rintro entries rfl
    refine ⟨by simpa [sizes] using hcount, fun e he => hlens _ (List.mem_map_of_mem he)⟩
  have hlength : ∀ {entries}, sizes entries = lens → entries.length = lens.length := by
    rintro entries rfl
    simp [sizes]
  constructor
  · intro hall
    by_contra hlong
    have hsizes : sizes (lens.map fun k => ⟨0, firstKeys k⟩) = lens := by
      rw [sizes, List.map_map]
      exact (List.map_congr_left fun k hk => size_firstKeys (hlens k hk)).trans (List.map_id' _)
    obtain ⟨entries, hsame, hno⟩ := not_parsed hid (hcountable hsizes)
      (by rw [hsizes, hlength hsizes]; omega)
    exact hno ((roundTrip_packet hid).mp (hall entries (hsame.trans hsizes)))
  · rintro hfits entries rfl
    refine (roundTrip_packet hid).mpr (parsed_packet hid (hcountable rfl) ?_)
    rwa [hlength rfl]

theorem roundTrip_iff_two :
    (∀ entries, sizes entries = [1, 2] → RoundTrip (List.replicate 8 0) entries) ↔
      offset [1, 2] ([1, 2].length - 1) < 2 ^ 16 :=
  roundTrip_iff rfl (by decide) (by decide)

/-- 84 links with long lists. The last one starts at 65536. -/
def tooLong : List Entry :=
  List.replicate 13 ⟨0, firstKeys 253⟩ ++ List.replicate 70 ⟨0, firstKeys 252⟩ ++ [⟨0, firstKeys 0⟩]

/-- What the first 32 bytes of the report say as an identifier. -/
def headLid : Bitvector := 2 ^ 1 + 2 ^ 2 + 2 ^ 4 + 2 ^ 6 + 2 ^ 7 + 2 ^ 73 + 2 ^ 75 + 2 ^ 77

theorem sizes_tooLong :
    sizes tooLong = List.replicate 13 253 ++ List.replicate 70 252 ++ [0] := by
  simp [sizes, tooLong, size_firstKeys]

theorem getLid_tooLong :
    getLid (packet (List.replicate 8 0) tooLong) 83 = some (some headLid) := by
  have hid : (List.replicate 8 (0 : UInt8)).length = 8 := rfl
  have hc : Countable tooLong := ⟨by decide, fun e he => by
    rcases List.mem_append.mp he with he | he
    · rcases List.mem_append.mp he with he | he <;>
        simp [List.eq_of_mem_replicate he, size_firstKeys]
    · simp [List.mem_singleton.mp he, size_firstKeys]⟩
  have hi : tooLong[82]? = some ⟨0, firstKeys 252⟩ := rfl
  have hoff : offset (sizes tooLong) 82 = 64747 := by
    rw [sizes_tooLong]
    decide
  have hlink := link_drop hid hi
  rw [Entry.bytes, List.append_assoc, hoff] at hlink
  have hcount := load_drop (drop_next (m := 32) hlink (by simp))
  rw [size_firstKeys (by omega)] at hcount
  have hskip : skipLink (packet (List.replicate 8 0) tooLong) 64747 = some 0 := by
    rw [skipLink_byte (b := UInt8.ofNat 252) (by rw [Nat.mod_eq_of_lt (by omega)]; exact hcount)]
    rfl
  have hlast := getLinkOffset_succ hid hc (i := 82) (by decide) (by rw [hoff]; omega)
  rw [hoff, hskip] at hlast
  have hhead : lidBytes headLid = qosReport :: List.replicate 8 0 ++ 84 :: List.replicate 22 0 := by
    decide +kernel
  have hzero : lidBytes 0 = List.replicate 22 0 ++ List.replicate 10 0 := by
    decide +kernel
  have hstart : ∃ post, packet (List.replicate 8 0) tooLong = lidBytes headLid ++ post := by
    rw [hhead]
    simp only [packet, tooLong, List.replicate_succ (n := 12), List.cons_append, List.flatMap_cons,
      Entry.bytes, hzero, List.append_assoc]
    exact ⟨_, rfl⟩
  obtain ⟨post, hstart⟩ := hstart
  have hread : readLid (packet (List.replicate 8 0) tooLong) 0 = some headLid := readLid_eq hstart
  have hle : ¬ (UInt8.ofNat tooLong.length).toNat < 83 := by decide
  simp only [getLid, getLinksLen_packet hid, hlast, Option.map_some, Option.bind_eq_bind,
    Option.bind_some, if_neg hle, unsigned_natCast (n := 0) (by omega), hread]
  rfl

theorem not_roundTrip_tooLong : tooLong.length ≤ 255 ∧ (∀ k ∈ sizes tooLong, k ≤ 255) ∧
    ¬ RoundTrip (List.replicate 8 0) tooLong := by
  refine ⟨by decide, by rw [sizes_tooLong]; decide, fun h => ?_⟩
  have hparsed := ((roundTrip_packet rfl).mp h).lid 83 ⟨0, firstKeys 0⟩ rfl
  have hsame : headLid = 0 := by simpa using getLid_tooLong.symm.trans hparsed
  exact absurd hsame (by decide +kernel)

end Blackadder.LSMPacket
