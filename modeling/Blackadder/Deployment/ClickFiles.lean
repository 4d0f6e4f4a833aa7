import Blackadder.Deployment.LIDs
import Blackadder.Lipsin.Forwarder

/-!
# Forwarding tables in the configuration files

Of a configuration file the lines of `Forwarder` are kept. Addresses that are discovered between
`assignLIDs` and `writeClickFiles` change no identifier.
-/

namespace Blackadder.Deployment

/-- One entry of `fw::Forwarder(globalconf, ...)`. -/
structure ForwardingLine where
  port : Nat
  src : String
  dst : String
  LID : Bitvector
deriving DecidableEq

/-- `findOffset`, with `none` for `-1`. -/
def findOffset (unique : List String) (str : String) : Option Nat := unique.findIdx? (· = str)

/-- The port of an interface, which is listed when it is new. -/
def portOf (unique : List String) (str : String) : Nat × List String :=
  match findOffset unique str with
  | none => (unique.length + 1, unique ++ [str])
  | some offset => (offset + 1, unique)

/-- The turn of the loop for connection `j`. The lists are `unique_ifaces` and `unique_srcips`. -/
def writeLine (dm : Domain) (nn : NetworkNode) (j : Nat) (nc : NetworkConnection)
    (unique : List String × List String) : ForwardingLine × List String × List String :=
  if dm.overlay_mode = "mac" ∨ (dm.overlay_mode = "mac_ml" ∧ nn.type = "PN") then
    let dst_mac := if dm.overlay_mode = "mac_ml" ∧ nc.lnk_type ≠ "pp" then "00:00:00:00:00:00"
      else nc.dst_mac
    let (port, unique_ifaces) := portOf unique.1 nc.src_if
    (⟨port, nc.src_mac, dst_mac, nc.LID⟩, unique_ifaces, unique.2)
  else if dm.overlay_mode = "mac_qos" then (⟨j + 1, nc.src_mac, nc.dst_mac, nc.LID⟩, unique)
  else
    let (port, unique_srcips) := portOf unique.2 nc.src_ip
    (⟨port, nc.src_ip, nc.dst_ip, nc.LID⟩, unique.1, unique_srcips)

/-- The loop over the connections of a node in `Domain::writeClickFiles`. -/
def writeLines (dm : Domain) (nn : NetworkNode) :
    Nat → List NetworkConnection → List String × List String → List ForwardingLine
  | _, [], _ => []
  | j, nc :: ncs, unique =>
    let (line, unique) := writeLine dm nn j nc unique
    line :: writeLines dm nn (j + 1) ncs unique

/-- The forwarding table that is written for a node. -/
def Domain.fwTable (dm : Domain) (nn : NetworkNode) : List ForwardingLine :=
  writeLines dm nn 0 nn.connections ([], [])

/-- `unique_ifaces` and `unique_srcips` after the loop. -/
def listed (dm : Domain) (nn : NetworkNode) :
    Nat → List NetworkConnection → List String × List String → List String × List String
  | _, [], unique => unique
  | j, nc :: ncs, unique => listed dm nn (j + 1) ncs (writeLine dm nn j nc unique).2

/-- The lines that are written for all nodes. -/
def Domain.forwardingLines (dm : Domain) : List ForwardingLine := dm.network_nodes.flatMap dm.fwTable

/-- The lines that are written for the packet nodes. -/
def Domain.packetLines (dm : Domain) : List ForwardingLine :=
  (dm.network_nodes.filter (·.type = "PN")).flatMap dm.fwTable

/-- An entry that every identifier of its length matches. -/
def CatchAll (LID : Bitvector) : Prop := ∀ FID : Bitvector, FID.size = LID.size → FID.and LID = LID

variable {dm dm' : Domain} {nn : NetworkNode} {cfg : Config} {LIDs : List Bitvector}
  {draws draws' : List Nat} {l : Bitvector} {id : BitVec 64}

theorem catchAll_iff : CatchAll l ↔ l.zero := by
  obtain ⟨size, x⟩ := l
  constructor
  · intro h
    have hzero := h (.ofSize size) rfl
    rw [Bitvector.and, Bitvector.mk.injEq] at hzero
    have hnone : BitVec.ofNat size 0 &&& x.setWidth size = x := eq_of_heq hzero.2
    rw [BitVec.zero_and] at hnone
    exact hnone.symm
  · intro h FID hsize
    obtain ⟨size', y⟩ := FID
    obtain rfl : size' = size := hsize
    obtain rfl : x = 0 := h
    simp [Bitvector.and]

theorem parse_to_string (x : BitVec fidBits) :
    Blackadder.Bitvector.parse (Bitvector.to_string ⟨fidBits, x⟩) = x := by
  apply BitVec.eq_of_getLsbD_eq
  intro i hi
  have hlen : (Bitvector.to_string ⟨fidBits, x⟩).length = fidBits := by
    simp [Bitvector.to_string]
  rw [Blackadder.Bitvector.getLsbD_parse hlen hi]
  have hj : fidBits - 1 - i < fidBits := by omega
  have hback : fidBits - (fidBits - 1 - i) - 1 = i := by omega
  simp only [Bitvector.to_string, List.getElem?_map, List.getElem?_range hj, Option.map_some, hback]
  cases x.getLsbD i <;> rfl

/-- A line is a catch-all exactly if the forwarder sends every packet over its link. -/
theorem catchAll_iff_includes {line : ForwardingLine} (x : BitVec fidBits)
    (h : line.LID = ⟨fidBits, x⟩) : CatchAll line.LID ↔ ∀ FID : Blackadder.Bitvector,
      FID.Includes (LinkConf.entry ⟨line.port, line.src, line.dst, line.LID.to_string⟩).LID := by
  have hread : (LinkConf.entry ⟨line.port, line.src, line.dst, line.LID.to_string⟩).LID = x := by
    change Blackadder.Bitvector.parse line.LID.to_string = x
    rw [h, parse_to_string]
  rw [hread, catchAll_iff, h]
  constructor
  · intro hz FID
    have hz : x = BitVec.ofNat fidBits 0 := hz
    rw [hz, Blackadder.Bitvector.includes_iff]
    intro i hi
    rw [BitVec.getLsbD_zero] at hi
    cases hi
  · intro hall
    have hzero : BitVec.ofNat fidBits 0 &&& x = x := hall (BitVec.ofNat fidBits 0)
    rw [BitVec.zero_and] at hzero
    exact hzero.symm

theorem writeLine_LID (dm : Domain) (nn : NetworkNode) (j : Nat) (nc : NetworkConnection)
    (unique : List String × List String) : (writeLine dm nn j nc unique).1.LID = nc.LID := by
  unfold writeLine
  split
  · rfl
  · split <;> rfl

theorem fwTable_LID (dm : Domain) (nn : NetworkNode) :
    (dm.fwTable nn).map (·.LID) = nn.connections.map (·.LID) := by
  have hloop : ∀ (ncs : List NetworkConnection) j unique,
      (writeLines dm nn j ncs unique).map (·.LID) = ncs.map (·.LID) := by
    intro ncs
    induction ncs with
    | nil => intro j unique; rfl
    | cons nc ncs ih =>
      intro j unique
      rw [writeLines, List.map_cons, List.map_cons, ih, writeLine_LID]
  exact hloop _ _ _

/-! ## Connected ports -/

theorem forwardingLines_LID (dm : Domain) :
    dm.forwardingLines.map (·.LID) = dm.connections.map (·.LID) := by
  unfold Domain.forwardingLines Domain.connections
  rw [List.map_flatMap, List.map_flatMap]
  exact List.flatMap_congr fun nn _ => fwTable_LID dm nn

theorem packetLines_LID {line : ForwardingLine} (h : line ∈ dm.packetLines) :
    ∃ nn ∈ dm.network_nodes, nn.type = "PN" ∧ ∃ nc ∈ nn.connections, nc.LID = line.LID := by
  obtain ⟨nn, hnn, hline⟩ := List.mem_flatMap.mp h
  obtain ⟨hnn, htype⟩ := List.mem_filter.mp hnn
  have hLID : line.LID ∈ (dm.fwTable nn).map (·.LID) := List.mem_map_of_mem hline
  rw [fwTable_LID] at hLID
  exact ⟨nn, hnn, of_decide_eq_true htype, List.mem_map.mp hLID⟩

/-- The identifiers of the packet links are among those that were handed out. -/
theorem packetLinks_sublist (dm : Domain) :
    ((dm.connections.filter (·.lnk_type = "pp")).map (·.LID)).Sublist dm.identifiers := by
  unfold Domain.connections Domain.identifiers
  rw [List.filter_flatMap, List.map_flatMap]
  have hconn : ∀ ncs : List NetworkConnection, ((ncs.filter (·.lnk_type = "pp")).map (·.LID)).Sublist
      (ncs.flatMap (connectionLIDs dm.overlay_mode)) := by
    intro ncs
    induction ncs with
    | nil => exact .slnil
    | cons nc ncs ih =>
      by_cases hpp : nc.lnk_type = "pp"
      · have htakes : connectionLIDs dm.overlay_mode nc = [nc.LID] := if_neg fun h => h.2 hpp
        rw [List.filter_cons_of_pos (by simpa using hpp), List.flatMap_cons, htakes, List.map_cons]
        exact ih.cons_cons _
      · rw [List.filter_cons_of_neg (by simpa using hpp), List.flatMap_cons]
        exact ih.trans (List.sublist_append_right _ _)
  induction dm.network_nodes with
  | nil => exact .slnil
  | cons nn nns ih =>
    rw [List.flatMap_cons, List.flatMap_cons]
    exact ((hconn nn.connections).trans (List.sublist_append_right _ _)).append ih

theorem countP_forall₂ {α β : Type*} {R : α → β → Prop} {p : α → Bool} {q : β → Bool} {as : List α}
    {bs : List β} (h : List.Forall₂ R as bs) (hpq : ∀ a b, R a b → p a = q b) :
    as.countP p = bs.countP q := by
  induction h with
  | nil => rfl
  | cons hab _ ih => rw [List.countP_cons, List.countP_cons, ih, hpq _ _ hab]

/-- Where all other entries have one value, the values are distinct only if there is one other at most. -/
theorem nodup_map_iff_countP {α β : Type*} {f : α → β} {p : α → Bool} {z : β} {l : List α}
    (hnodup : ((l.filter p).map f).Nodup) (hne : ∀ a ∈ l, p a = true → f a ≠ z)
    (hz : ∀ a ∈ l, p a = false → f a = z) : (l.map f).Nodup ↔ l.countP (fun a => !p a) ≤ 1 := by
  induction l with
  | nil => simp
  | cons a l ih =>
    have hne' := fun b hb => hne b (List.mem_cons_of_mem a hb)
    have hz' := fun b hb => hz b (List.mem_cons_of_mem a hb)
    rw [List.map_cons, List.nodup_cons, List.countP_cons]
    cases hp : p a with
    | true =>
      rw [List.filter_cons_of_pos hp, List.map_cons, List.nodup_cons] at hnodup
      have hnew : f a ∉ l.map f := by
        intro hmem
        obtain ⟨b, hb, heq⟩ := List.mem_map.mp hmem
        cases hpb : p b with
        | true => exact hnodup.1 (heq ▸ List.mem_map_of_mem (List.mem_filter.mpr ⟨hb, hpb⟩))
        | false => exact hne a List.mem_cons_self hp (heq.symm.trans (hz' b hb hpb))
      simpa [hnew] using ih hnodup.2 hne' hz'
    | false =>
      rw [List.filter_cons_of_neg (by simp [hp])] at hnodup
      have hzero : f a = z := hz a List.mem_cons_self hp
      have hmem : f a ∉ l.map f ↔ l.countP (fun a => !p a) = 0 := by
        rw [List.countP_eq_zero, hzero]
        constructor
        · intro hnot b hb hpb
          exact hnot (hz' b hb (by simpa using hpb) ▸ List.mem_map_of_mem hb)
        · rintro hall hmem
          obtain ⟨b, hb, heq⟩ := List.mem_map.mp hmem
          exact hne' b hb (by simpa using hall b hb) heq
      have hother : (if (!false) = true then 1 else 0) = 1 := if_pos rfl
      rw [hmem, ih hnodup hne' hz', hother]
      omega

/-- The connections that the file lists. -/
def Config.connections (cfg : Config) : List ConnectionSetting :=
  cfg.listed.flatMap fun node => node.connections.getD []

/-- The nodes that are typed as packet nodes are no more than the list of packet nodes has, and all their
links are packet links. In the whole file one link at most is none. -/
def Config.PacketLinksOnly (cfg : Config) : Prop :=
  cfg.listed.countP (·.typeRead = "PN") ≤ cfg.plNodes ∧
    (∀ node ∈ cfg.listed, node.typeRead = "PN" →
      ∀ connection ∈ node.connections.getD [], connection.PacketLink) ∧
    cfg.connections.countP (fun connection => ¬ connection.PacketLink) ≤ 1

instance (cfg : Config) : Decidable cfg.PacketLinksOnly := inferInstanceAs (Decidable (_ ∧ _ ∧ _))

/-- What the parser and `assignLIDs` make of a connection. -/
def ConnectionSetting.Assigned (connection : ConnectionSetting) (nc : NetworkConnection) (size : Nat) :
    Prop :=
  (nc.lnk_type = "pp" ↔ connection.PacketLink) ∧ (nc.lnk_type ≠ "pp" → nc.LID = .ofSize size)

theorem assignConnection_ofSize {nc nc' : NetworkConnection} {c c' : Nat}
    (h : assignConnection dm LIDs nc c = some (nc', c')) (hmode : dm.overlay_mode = "mac_ml")
    (htype : nc.lnk_type ≠ "pp") : nc'.LID = .ofSize (dm.fid_len * 8) := by
  unfold assignConnection at h
  rw [if_pos ⟨hmode, htype⟩] at h
  cases h
  rfl

theorem assignNodes_assigned {nodes : List NetworkNode} {c : Nat} {listed : List NodeSetting}
    (hmode : dm.overlay_mode = "mac_ml")
    (hread : List.Forall₂ (NodeSetting.Read "mac_ml") listed dm.network_nodes)
    (h : assignNodes dm LIDs = some (nodes, c)) :
    List.Forall₂ (fun node nn => nn.type = node.typeRead ∧
      List.Forall₂ (ConnectionSetting.Assigned · · (dm.fid_len * 8)) (node.connections.getD [])
        nn.connections) listed nodes := by
  refine (Loops.forall₂_trans hread (assignNodes_forall₂ h)).imp ?_
  rintro node nn' ⟨nn, hr, heq, hconns⟩
  refine ⟨(congrArg NetworkNode.type heq).trans hr.type, ?_⟩
  refine (Loops.forall₂_trans hr.connections hconns).imp ?_
  rintro connection nc' ⟨nc, hpp, c, c', hassign⟩
  have htype : nc'.lnk_type = nc.lnk_type := by rw [assignConnection_eq hassign]
  rw [ConnectionSetting.Assigned, htype]
  exact ⟨hpp rfl, assignConnection_ofSize hassign hmode⟩

/-- A domain that was made of the file: nodes and links have the types that are read, the packet links have
identifiers of their own, and every other link has zero. -/
structure Domain.MadeOf (dm : Domain) (cfg : Config) (size : Nat) : Prop where
  nodes : List.Forall₂ (fun node nn => nn.type = node.typeRead ∧
    List.Forall₂ (ConnectionSetting.Assigned · · size) (node.connections.getD []) nn.connections)
      cfg.listed dm.network_nodes
  distinct : ((dm.connections.filter (·.lnk_type = "pp")).map (·.LID)).Nodup
  nonzero : ∀ nc ∈ dm.connections, nc.lnk_type = "pp" → ¬ nc.LID.zero

namespace Domain.MadeOf

variable {size : Nat}

theorem connections (h : dm.MadeOf cfg size) :
    List.Forall₂ (ConnectionSetting.Assigned · · size) cfg.connections dm.connections :=
  List.rel_flatMap h.nodes fun _ _ hr => hr.2

theorem nodup_forwardingLines_iff (h : dm.MadeOf cfg size) : (dm.forwardingLines.map (·.LID)).Nodup ↔
    cfg.connections.countP (fun connection => ¬ connection.PacketLink) ≤ 1 := by
  have hother : ∀ nc ∈ dm.connections, nc.lnk_type ≠ "pp" → nc.LID = .ofSize size := by
    intro nc hnc htype
    obtain ⟨connection, -, -, hz⟩ := Loops.forall₂_left h.connections hnc
    exact hz htype
  have hcounts : ∀ (connection : ConnectionSetting) (nc : NetworkConnection),
      connection.Assigned nc size → decide (¬ connection.PacketLink) = !decide (nc.lnk_type = "pp") := by
    intro connection nc hr
    rw [decide_eq_decide.mpr hr.1, decide_not]
  rw [forwardingLines_LID, nodup_map_iff_countP (p := (·.lnk_type = "pp")) h.distinct
    (fun nc hnc htype heq => h.nonzero nc hnc (of_decide_eq_true htype) (heq ▸ Bitvector.zero_ofSize _))
    (fun nc hnc htype => hother nc hnc (of_decide_eq_false htype)), countP_forall₂ h.connections hcounts]

theorem catchAll_packetLines_iff (h : dm.MadeOf cfg size) : (∀ line ∈ dm.packetLines, ¬ CatchAll line.LID) ↔
    ∀ node ∈ cfg.listed, node.typeRead = "PN" →
      ∀ connection ∈ node.connections.getD [], connection.PacketLink := by
  constructor
  · intro hno node hnode htype connection hc
    obtain ⟨nn, hnn, htypes, hr⟩ := Loops.forall₂_right h.nodes hnode
    obtain ⟨nc, hnc, hiff, hz⟩ := Loops.forall₂_right hr hc
    by_contra hnot
    -- the line of this connection is written with the identifier zero
    have hline : nc.LID ∈ (dm.fwTable nn).map (·.LID) := by
      rw [fwTable_LID]
      exact List.mem_map_of_mem hnc
    obtain ⟨line, hmem, hLID⟩ := List.mem_map.mp hline
    refine hno line (List.mem_flatMap.mpr ⟨nn, ?_, hmem⟩) ?_
    · exact List.mem_filter.mpr ⟨hnn, decide_eq_true (htypes.trans htype)⟩
    · rw [hLID, hz fun h => hnot (hiff.mp h)]
      exact catchAll_iff.mpr (Bitvector.zero_ofSize _)
  · intro hlinks line hline hcatch
    obtain ⟨nn, hnn, htype, nc, hnc, hLID⟩ := packetLines_LID hline
    obtain ⟨node, hnode, htypes, hr⟩ := Loops.forall₂_left h.nodes hnn
    obtain ⟨connection, hc, hiff, -⟩ := Loops.forall₂_left hr hnc
    have hlink := hiff.mpr (hlinks node hnode (htypes.symm.trans htype) connection hc)
    exact h.nonzero nc (List.mem_flatMap.mpr ⟨nn, hnn, hnc⟩) hlink (catchAll_iff.mp (hLID ▸ hcatch))

end Domain.MadeOf

/-- In `mac_ml` no packet node is given a catch-all, no two entries of the domain collide and the table of
identifiers does not end exactly if packet nodes have packet links only and there is one other link at
most. -/
theorem forwardingLines_distinct_iff (h : buildNetworkDomain (.new id) cfg = .ok dm)
    (hmode : dm.overlay_mode = "mac_ml") (hdraws : calculateLIDs dm draws = .ok (LIDs, draws')) :
    (dm.LIDCounter ≤ totalLIDs dm ∧ ∃ dm', assignLIDs dm draws = .ok dm' ∧
      (∀ line ∈ dm'.packetLines, ¬ CatchAll line.LID) ∧ (dm'.forwardingLines.map (·.LID)).Nodup) ↔
    cfg.PacketLinksOnly := by
  obtain ⟨hcount, hread⟩ := buildNetworkDomain_ml h hmode
  have hle : dm.LIDCounter ≤ totalLIDs dm ↔ cfg.listed.countP (·.typeRead = "PN") ≤ cfg.plNodes := by
    have htypes : cfg.listed.countP (·.typeRead = "PN") = dm.network_nodes.countP (·.type = "PN") :=
      countP_forall₂ hread fun node nn hr => by rw [hr.type]
    rw [LIDCounter_ml hmode, totalLIDs, if_pos hmode, hcount.pl_nodes, hcount.p_connections, htypes]
    omega
  rw [Config.PacketLinksOnly, ← hle]
  refine and_congr_right fun hcounter => ?_
  obtain ⟨hlen, hdistinct, hdrawn⟩ := calculateLIDs_spec hdraws
  rcases assignLIDs_cases hdraws with ⟨hlt, -⟩ | ⟨-, nodes, hnodes, hok, hids⟩
  · omega
  have hsub := packetLinks_sublist { dm with network_nodes := nodes }
  rw [hids] at hsub
  have hsub := hsub.trans (List.take_sublist _ _)
  have hmade : Domain.MadeOf { dm with network_nodes := nodes } cfg (dm.fid_len * 8) :=
    { nodes := assignNodes_assigned hmode hread hnodes
      distinct := hdistinct.sublist hsub
      nonzero := by
        -- a packet link has an identifier that was drawn
        intro nc hnc htype
        have hmem := hsub.subset (List.mem_map_of_mem (List.mem_filter.mpr ⟨hnc, decide_eq_true htype⟩))
        obtain ⟨i, hi⟩ := List.mem_iff_getElem?.mp hmem
        exact (hdrawn i _ hi).nonzero }
  rw [← hmade.catchAll_packetLines_iff, ← hmade.nodup_forwardingLines_iff]
  constructor
  · rintro ⟨dm', hok', hfirst, hlast⟩
    obtain rfl : { dm with network_nodes := nodes } = dm' := Except.ok.inj (hok.symm.trans hok')
    exact ⟨hfirst, hlast⟩
  · exact fun hgood => ⟨_, hok, hgood⟩

/-- A file with one overlay node `a`, and a packet node `b` with the given links. -/
def mlConfig (links : List ConnectionSetting) : Config where
  BLACKADDER_ID_LENGTH := some 1
  LIPSIN_ID_LENGTH := some 1
  OVERLAY_MODE := some "mac_ml"
  nodes := none
  ol_nodes := some [⟨some "a", some "ON", some "", some "user", none, none, some [
    { ConnectionSetting.blank with toLabel := some "b", out_pt := some "4", dst_if := some "tap0" }]⟩]
  pl_nodes := some [⟨some "b", some "PN", some "", some "user", none, some ["RV", "TM"], some links⟩]

def mlDomain (links : List ConnectionSetting) : Domain :=
  (buildNetworkDomain (.new 0) (mlConfig links)).toOption.getD (.new 0)

/-- A packet link. -/
def packetLink : ConnectionSetting :=
  { ConnectionSetting.blank with toLabel := some "c", src_if := some "tap0", dst_if := some "eth1" }

/-- The link of a packet node to the overlay node. -/
def crossLink : ConnectionSetting :=
  { ConnectionSetting.blank with toLabel := some "a", src_if := some "tap0", in_pt := some "4" }

theorem forwardingLines_distinct_iff_packet :
    ∃ dm', assignLIDs (mlDomain [packetLink, packetLink]) [5, 2, 7] = .ok dm' ∧
      (∀ line ∈ dm'.packetLines, ¬ CatchAll line.LID) ∧ (dm'.forwardingLines.map (·.LID)).Nodup := by
  have hbuilt : buildNetworkDomain (.new 0) (mlConfig [packetLink, packetLink]) =
      .ok (mlDomain [packetLink, packetLink]) := by decide +kernel
  have hdraws : calculateLIDs (mlDomain [packetLink, packetLink]) [5, 2, 7] =
      .ok ([.single 8 5, .single 8 2, .single 8 7], []) := by decide +kernel
  exact ((forwardingLines_distinct_iff hbuilt (by decide +kernel) hdraws).mpr (by decide +kernel)).2

/-- With the link to the overlay node the packet node forwards every packet over it. -/
theorem crossLink_catchAll : ∃ dm', buildNetworkDomain (.new 0) (mlConfig [packetLink, crossLink]) =
      .ok (mlDomain [packetLink, crossLink]) ∧
    assignLIDs (mlDomain [packetLink, crossLink]) [5, 2] = .ok dm' ∧
    ∃ line ∈ dm'.packetLines, CatchAll line.LID := by
  refine ⟨((assignLIDs (mlDomain [packetLink, crossLink]) [5, 2]).toOption.getD (.new 0)),
    by decide +kernel, by decide +kernel, ⟨1, "", "00:00:00:00:00:00", .ofSize 8⟩, by decide +kernel, ?_⟩
  exact catchAll_iff.mpr rfl

end Blackadder.Deployment
