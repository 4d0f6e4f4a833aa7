import Blackadder.Network.Push

/-!
# Publications on the network

The local proxy writes the ids of an item in front of the data, forwarders carry the packet, and the
proxy of another node reads the ids again.
-/

namespace Blackadder

open Wire

variable {p post rest payload b b' : List UInt8} {ID : Id} {IDs I : List Id} {k : Nat} {FID : Bitvector}
  {fresh : Nat → UInt8} {cs : Checksums} {useMac : Bool}

/-! ## Both ends -/

/-- The reads of `push` on port 2 before it looks at the ids. -/
def LocalProxy.readHeader (p : List UInt8) : Option (List Id × List UInt8) := do
  let numberOfIDs ← p[0]?
  let (IDs, index) ← readIds p 1 numberOfIDs.toNat
  return (IDs, p.drop index)

theorem readNetwork_eq (gc : GlobalConf) (p : List UInt8) : LocalProxy.readNetwork gc p = do
    let (IDs, payload) ← LocalProxy.readHeader p
    if IDs = [gc.notificationIID] then
      return (← LocalProxy.readNotification payload).map .notification
    else return some (.network IDs payload) := by
  simp only [LocalProxy.readNetwork, LocalProxy.readHeader, Option.bind_eq_bind, Option.bind_assoc]
  rfl

/-- An id that is read again is as long as its byte says. -/
theorem short_of_readIds {index : Nat} (h : p.drop k = I.flatMap castBytes ++ post)
    (hread : readIds p k I.length = some (I, index)) : ∀ ID ∈ I, ID.length < 256 := by
  induction I generalizing k index with
  | nil => exact nofun
  | cons ID I ih =>
    rw [List.flatMap_cons, List.append_assoc] at h
    have hbyte : p[k]? = some (UInt8.ofNat (ID.length % 256 / pursuitIdLen)) := load_drop h
    obtain ⟨ID', hid, hread⟩ := Option.bind_eq_some_iff.mp hread
    obtain ⟨⟨I', next⟩, hrest, hread⟩ := Option.bind_eq_some_iff.mp hread
    simp only [pure, Option.some.injEq, Prod.mk.injEq, List.cons.injEq] at hread
    obtain ⟨⟨rfl, rfl⟩, -⟩ := hread
    have hlen : ID'.length = ID'.length % 256 / pursuitIdLen * pursuitIdLen := by
      rw [readId, hbyte] at hid
      have hslice := slice_length hid
      rw [UInt8.toNat_ofNat', Nat.mod_eq_of_lt (by simp only [pursuitIdLen]; omega)] at hslice
      exact hslice
    have hnext : p.drop (k + 1 + ID'.length) = I'.flatMap castBytes ++ post := by
      rw [Nat.add_assoc]
      exact drop_next h (by rw [castBytes, List.length_cons, Nat.add_comm])
    refine List.forall_mem_cons.mpr ⟨?_, ih hnext hrest⟩
    simp only [pursuitIdLen] at hlen
    omega

/-- The reader finds the ids if and only if the cast kept their lengths. -/
theorem readIds_castBytes_iff (hI : ∀ ID ∈ I, pursuitIdLen ∣ ID.length)
    (h : p.drop k = I.flatMap castBytes ++ post) :
    (∃ index, readIds p k I.length = some (I, index) ∧ p.drop index = post) ↔
      ∀ ID ∈ I, ID.length < 256 := by
  constructor
  · rintro ⟨index, hread, -⟩
    exact short_of_readIds h hread
  · intro hshort
    rw [flatMap_castBytes hshort] at h
    have hsend : ∀ ID ∈ I, Sendable ID := fun ID hID =>
      ⟨hI ID hID, by have hlt := hshort ID hID; simp only [pursuitIdLen]; omega⟩
    exact ⟨_, readIds_eq hsend h, drop_next h rfl⟩

theorem readHeader_iff (hcount : IDs.length ≤ 255) (hIDs : ∀ ID ∈ IDs, pursuitIdLen ∣ ID.length) :
    LocalProxy.readHeader (wireBytes IDs ++ payload) = some (IDs, payload) ↔
      ∀ ID ∈ IDs, ID.length < 256 := by
  generalize hp : wireBytes IDs ++ payload = p
  have h : p.drop 0 = [UInt8.ofNat IDs.length] ++ (IDs.flatMap castBytes ++ payload) := hp.symm
  have hids := drop_next (m := 1) h rfl
  rw [← readIds_castBytes_iff hIDs hids]
  simp only [LocalProxy.readHeader, load_drop h, toNat_count hcount, Option.bind_eq_bind, Option.bind_some]
  constructor
  · intro hread
    obtain ⟨⟨I, index⟩, hI, hread⟩ := Option.bind_eq_some_iff.mp hread
    obtain ⟨rfl, rfl⟩ := Prod.mk.inj (Option.some.inj hread)
    exact ⟨index, hI, rfl⟩
  · rintro ⟨index, hI, hpost⟩
    rw [hI, Option.bind_some]
    exact congrArg (fun post => some (IDs, post)) hpost

/-! ## Between them -/

/-- The ports to other nodes are numbered from 1, and all nodes use one kind of header. -/
structure WireForwarder.Wired (n : WireForwarder) (useMac : Bool) : Prop where
  mode : n.gc.useMac = useMac
  ports : ∀ fe ∈ n.fwTable, fe.port ≠ 0

/-- What `push` hands over for one packet. -/
def WireForwarder.Hands (fresh : Nat → UInt8) (cs : Checksums) (n : WireForwarder) (in_port : Nat)
    (b : List UInt8) (o : Nat × List UInt8) : Prop :=
  ∃ _id x id', n.push fresh cs _id in_port (Pool.single b) 0 = some (x, id') ∧ o ∈ x.out

/-- The frames that a packet of a local proxy makes, over any number of nodes. -/
inductive Travels (fresh : Nat → UInt8) (cs : Checksums) (useMac : Bool) (b : List UInt8) :
    List UInt8 → Prop
  | depart {n : WireForwarder} {port : Nat} {c : List UInt8} :
      n.Wired useMac → n.Hands fresh cs 0 b (port, c) → Travels fresh cs useMac b c
  | relay {n : WireForwarder} {in_port port : Nat} {c d : List UInt8} : Travels fresh cs useMac b c →
      n.Wired useMac → 1 ≤ in_port → n.Hands fresh cs in_port c (port, d) → port ≠ 0 →
      Travels fresh cs useMac b d

/-- What the last one hands to its local proxy. -/
def Delivers (fresh : Nat → UInt8) (cs : Checksums) (useMac : Bool) (b p : List UInt8) : Prop :=
  ∃ (c : List UInt8) (n : WireForwarder) (in_port : Nat), Travels fresh cs useMac b c ∧ n.Wired useMac ∧
    1 ≤ in_port ∧ n.Hands fresh cs in_port c (0, p)

variable {n : WireForwarder} {in_port port : Nat} {c : List UInt8} {r : Received}

/-- One push, whatever is handed over. -/
theorem WireForwarder.Hands.cases (h : n.Hands fresh cs in_port b (port, c))
    (hr : r.Reads n.gc.useMac in_port b) :
    (∃ fe ∈ n.fwTable, port = fe.port ∧
      c.drop (headerLen n.gc.useMac) = r.FID.data ++ r.payload) ∨
    (r.Local n.gc ∧ port = 0 ∧ c = r.payload) := by
  obtain ⟨_id, x, id', hrun, hmem⟩ := h
  obtain ⟨x', id'', hrun', -, hall⟩ := n.push_spec fresh cs _id in_port hr
  obtain ⟨rfl, -⟩ := Prod.mk.inj (Option.some.inj (hrun.symm.trans hrun'))
  rw [Received.outputs_eq] at hall
  obtain ⟨o, ho, hrep⟩ := exists_of_forall₂ hall hmem
  rcases List.mem_append.mp ho with ho | ho
  · obtain ⟨fe, hfe, rfl⟩ := List.mem_map.mp ho
    obtain ⟨hport, -, -, hrest⟩ := hrep
    exact Or.inl ⟨fe, (List.mem_filter.mp hfe).1, hport, hrest⟩
  · split at ho
    · next hlocal =>
      obtain rfl := List.mem_singleton.mp ho
      obtain ⟨hport, hc⟩ := Prod.mk.inj hrep
      exact Or.inr ⟨hlocal, hport, hc⟩
    · cases ho

theorem Travels.carried (hb : b = FID.data ++ rest) (h : Travels fresh cs useMac b c) :
    c.drop (headerLen useMac) = FID.data ++ rest := by
  induction h with
  | @depart n port c hn hhands =>
    obtain ⟨rfl, hports⟩ := hn
    rcases hhands.cases (r := .fromProxy ⟨FID, rest⟩) ⟨rfl, hb⟩ with ⟨fe, -, -, hc⟩ | ⟨hlocal, -⟩
    · exact hc
    · exact hlocal.elim
  | @relay n in_port port c d _ hn hin hhands hport ih =>
    obtain ⟨rfl, hports⟩ := hn
    obtain ⟨dst, src, hreads⟩ := WireForwarder.reads_of_rest hin ih
    rcases hhands.cases hreads with ⟨fe, -, -, hd⟩ | ⟨-, hzero, -⟩
    · exact hd
    · exact absurd hzero hport

theorem Delivers.eq (hb : b = FID.data ++ rest) (h : Delivers fresh cs useMac b p) : p = rest := by
  obtain ⟨c, n, in_port, htravels, hn, hin, hhands⟩ := h
  have hrest := htravels.carried hb
  obtain ⟨rfl, hports⟩ := hn
  obtain ⟨dst, src, hreads⟩ := WireForwarder.reads_of_rest hin hrest
  rcases hhands.cases hreads with ⟨fe, hfe, hzero, -⟩ | ⟨-, -, hp⟩
  · exact absurd hzero.symm (hports fe hfe)
  · exact hp

theorem delivers_neighbour {n' : WireForwarder} {fe : ForwardingEntry (List UInt8)} (fresh : Nat → UInt8)
    (cs : Checksums) (hn : n.Wired useMac) (hn' : n'.Wired useMac) (hfe : fe ∈ n.fwTable)
    (hinc : FID.Includes fe.LID) (hlocal : FID.Includes n'.gc.iLID) :
    Delivers fresh cs useMac (FID.data ++ rest) rest := by
  obtain ⟨x, id, hrun, -, hall⟩ := n.push_spec fresh cs 0 0
    (r := .fromProxy ⟨FID, rest⟩) ⟨rfl, rfl⟩
  obtain ⟨⟨port, c⟩, hc, -, -, -, hrest⟩ := forall₂_made hall
    (Forwarder.network_mem_pushLocal (p := ⟨FID, rest⟩) hfe hinc)
  have hfirst : Travels fresh cs useMac (FID.data ++ rest) c := .depart hn ⟨0, x, id, hrun, hc⟩
  refine ⟨c, n', 1, hfirst, hn', le_rfl, ?_⟩
  obtain ⟨rfl, -⟩ := hn
  rw [← hn'.mode] at hrest
  obtain ⟨dst, src, hreads⟩ := WireForwarder.reads_of_rest (le_refl 1) hrest
  obtain ⟨x', id', hrun', -, hall'⟩ := n'.push_spec fresh cs 0 1 hreads
  have hmem : .localProxy rest ∈ n'.toForwarder.pushNetwork ⟨dst, src, FID, rest⟩ :=
    Forwarder.localProxy_mem_pushNetwork hlocal
  obtain ⟨o, ho, heq⟩ := forall₂_made hall' hmem
  exact ⟨0, x', id', hrun', heq ▸ ho⟩

/-! ## The round trip -/

theorem readHeader_delivered_iff (hcount : IDs.length ≤ 255) (hIDs : ∀ ID ∈ IDs, pursuitIdLen ∣ ID.length)
    (h : Delivers fresh cs useMac (FID.data ++ (wireBytes IDs ++ payload)) p) :
    LocalProxy.readHeader p = some (IDs, payload) ↔ ∀ ID ∈ IDs, ID.length < 256 := by
  rw [h.eq rfl]
  exact readHeader_iff hcount hIDs

/-- A publication is read as it was written, if the ids have at most 31 fragments. -/
theorem publication_roundTrip_iff (fresh : Nat → UInt8) (cs : Checksums) (useMac : Bool)
    (IDs : List Id) (FID : Bitvector) (payload : List UInt8) (hcount : IDs.length ≤ 255)
    (hIDs : ∀ ID ∈ IDs, ∃ m, 1 ≤ m ∧ m ≤ 255 ∧ ID.length = m * pursuitIdLen) :
    ∃ b, LocalProxy.pushDataToRemoteSubscribers fresh IDs FID payload = some b ∧
      ∀ p, Delivers fresh cs useMac b p →
        (LocalProxy.readHeader p = some (IDs, payload) ↔ ∀ ID ∈ IDs, ID.length ≤ 31 * pursuitIdLen) := by
  refine ⟨_, pushDataToRemoteSubscribers_cast fresh FID IDs payload hcount, fun p hp => ?_⟩
  have hwhole : ∀ ID ∈ IDs, pursuitIdLen ∣ ID.length := by
    intro ID hID
    obtain ⟨m, -, -, hm⟩ := hIDs ID hID
    exact ⟨m, hm.trans (Nat.mul_comm _ _)⟩
  rw [readHeader_delivered_iff hcount hwhole hp]
  refine forall₂_congr fun ID hID => ?_
  obtain ⟨m, -, -, hm⟩ := hIDs ID hID
  simp only [pursuitIdLen] at hm ⊢
  omega

/-- A node whose only link leads to `11:22:33:44:55:66`. -/
def oneLink : WireForwarder where
  gc := ⟨true, List.replicate 8 0, 1, 2, none⟩
  fwTable := [⟨[0, 0, 0, 0, 0, 1], [0x11, 0x22, 0x33, 0x44, 0x55, 0x66], 1, 4⟩]
  src_length := by decide
  dst_length := by decide

theorem oneLink_wired : oneLink.Wired true := ⟨rfl, by decide⟩

theorem delivers_oneLink (fresh : Nat → UInt8) (cs : Checksums) (rest : List UInt8) :
    Delivers fresh cs true ((6 : Bitvector).data ++ rest) rest :=
  delivers_neighbour fresh cs oneLink_wired oneLink_wired (List.mem_singleton_self _) (by decide)
    (by decide)

theorem publication_roundTrip_two : ∃ b p,
    LocalProxy.pushDataToRemoteSubscribers (fun _ => 0)
      [List.replicate 8 1, List.replicate 16 2] 6 [5, 6, 7] = some b ∧
    Delivers (fun _ => 0) ⟨fun _ => (0, 0), fun _ _ _ => (0, 0)⟩ true b p ∧
    LocalProxy.readHeader p = some ([List.replicate 8 1, List.replicate 16 2], [5, 6, 7]) := by
  obtain ⟨b, hb, hiff⟩ := publication_roundTrip_iff (fun _ => 0) ⟨fun _ => (0, 0), fun _ _ _ => (0, 0)⟩
    true [List.replicate 8 1, List.replicate 16 2] 6 [5, 6, 7] (by decide)
    (List.forall_mem_cons.mpr ⟨⟨1, by decide⟩, List.forall_mem_singleton.mpr ⟨2, by decide⟩⟩)
  have hwire := pushDataToRemoteSubscribers_cast (fun _ => 0) 6
    [List.replicate 8 1, List.replicate 16 2] [5, 6, 7] (by decide)
  obtain rfl := Option.some.inj (hb.symm.trans hwire)
  have hdelivers := delivers_oneLink (fun _ => 0) ⟨fun _ => (0, 0), fun _ _ _ => (0, 0)⟩
    (wireBytes [List.replicate 8 1, List.replicate 16 2] ++ [5, 6, 7])
  exact ⟨_, _, hb, hdelivers, (hiff _ hdelivers).mpr (by decide)⟩

/-- The length of an id of 32 fragments is written as 0. -/
theorem not_publication_roundTrip : ¬ ∀ (fresh : Nat → UInt8) (cs : Checksums) (useMac : Bool)
    (IDs : List Id) (FID : Bitvector) (payload p b : List UInt8), IDs.length ≤ 255 →
    (∀ ID ∈ IDs, ∃ m, 1 ≤ m ∧ m ≤ 255 ∧ ID.length = m * pursuitIdLen) →
    LocalProxy.pushDataToRemoteSubscribers fresh IDs FID payload = some b →
    Delivers fresh cs useMac b p → LocalProxy.readHeader p = some (IDs, payload) := by
  intro hall
  have hcount : [(List.replicate 256 1 : Id)].length ≤ 255 := by decide
  have hlen : ∀ ID ∈ [(List.replicate 256 1 : Id)], ID.length = 256 :=
    List.forall_mem_singleton.mpr List.length_replicate
  have hwire := pushDataToRemoteSubscribers_cast (fun _ => 0) 6 _ [5, 6, 7] hcount
  have hdelivers := delivers_oneLink (fun _ => 0) ⟨fun _ => (0, 0), fun _ _ _ => (0, 0)⟩
    (wireBytes [List.replicate 256 1] ++ [5, 6, 7])
  have hread := hall _ _ _ _ _ _ _ _ hcount
    (fun ID hID => ⟨32, by decide, by decide, hlen ID hID⟩) hwire hdelivers
  rw [readHeader_delivered_iff hcount (fun ID hID => ⟨32, hlen ID hID⟩) hdelivers] at hread
  have hshort := hread _ (List.mem_singleton_self _)
  rw [List.length_replicate] at hshort
  omega

end Blackadder
