import Blackadder.Deployment.GraphRepresentation
import Blackadder.Lipsin.Unicast

/-!
# The network of a deployed domain

Click configures the elements of every node from the file that is written for it. Addresses that
are discovered are an argument.
-/

namespace Blackadder.Deployment

open GraphRepresentation

/-! ## What Click reads -/

/-- The mode of `GlobalConf`. -/
def clickMode (overlay_mode : String) : Option Mode :=
  if overlay_mode = "mac" then some .mac
  else if overlay_mode = "mac_ml" then some .macMl
  else if overlay_mode = "mac_qos" then some .macQos
  else if overlay_mode = "ip" then some .ip
  else none

def labelBytes (label : String) : List UInt8 := label.toList.map fun c => UInt8.ofNat c.toNat

/-- `globalconf::GlobalConf(...)` of a node. -/
def clickConf (dm : Domain) (nn : NetworkNode) (FID_to_RV FID_to_TM : Bitvector) : Option GlobalConf := do
  let mode ← clickMode dm.overlay_mode
  GlobalConf.configure mode (labelBytes nn.label) FID_to_RV.to_string nn.iLid.to_string
    FID_to_TM.to_string

def ForwardingLine.conf (line : ForwardingLine) : LinkConf String :=
  ⟨line.port, line.src, line.dst, line.LID.to_string⟩

/-- What `discoverMacAddresses` leaves of a connection, where `macs` are the addresses. -/
def discovered (macs : NetworkConnection → String × String) (nc : NetworkConnection) : NetworkConnection :=
  { nc with src_mac := (macs nc).1, dst_mac := (macs nc).2 }

/-- The forwarding table that is written for a node when the addresses are known. -/
def clickLines (dm : Domain) (macs : NetworkConnection → String × String) (nn : NetworkNode) :
    List ForwardingLine :=
  dm.fwTable { nn with connections := nn.connections.map (discovered macs) }

section

variable {gr : GraphRepresentation}

/-- The label of a vertex. -/
abbrev GraphRepresentation.labelOf (gr : GraphRepresentation) (v : gr.Vertex) : String := gr.NODEID[v]

/-- A line of a table as a link. -/
def linkOf (gr : GraphRepresentation) (label : String) (line : ForwardingLine) (nc : NetworkConnection) :
    Option (Link gr.Vertex String) := do
  let source ← gr.NODEID.finIdxOf? label
  let target ← gr.NODEID.finIdxOf? nc.dst_label
  return ⟨line.conf, source, target⟩

def nodeLinks (gr : GraphRepresentation) (dm : Domain) (macs : NetworkConnection → String × String)
    (nn : NetworkNode) : List (Link gr.Vertex String) :=
  (List.zipWith (linkOf gr nn.label) (clickLines dm macs nn) nn.connections).reduceOption

/-- The lines of all tables. -/
def clickLinks (gr : GraphRepresentation) (dm : Domain) (macs : NetworkConnection → String × String) :
    List (Link gr.Vertex String) :=
  dm.network_nodes.flatMap (nodeLinks gr dm macs)

end

/-- The graph that the topology manager gets. -/
abbrev Domain.graph (dm : Domain) : GraphRepresentation := buildIGraphTopology dm

variable {dm dm' : Domain} {nn : NetworkNode} {nc : NetworkConnection}
  {macs : NetworkConnection → String × String} {gr : GraphRepresentation}

/-! ## A domain that was numbered -/

/-- What the parser and `assignLIDs` make of a file in which labels are unique and links lead to nodes. -/
structure Domain.Numbered (dm : Domain) : Prop where
  fid_len : dm.fid_len = 32
  mode : dm.overlay_mode = "mac" ∨ dm.overlay_mode = "mac_qos" ∨ dm.overlay_mode = "ip"
  labels : (dm.network_nodes.map (·.label)).Nodup
  lengths : ∀ nn ∈ dm.network_nodes, nn.label.length = nodeIDLen
  own : ∀ nn ∈ dm.network_nodes, ∀ nc ∈ nn.connections, nc.src_label = nn.label
  closed : ∀ nn ∈ dm.network_nodes, ∀ nc ∈ nn.connections, nc.dst_label ∈ dm.network_nodes.map (·.label)
  nodup : dm.allLIDs.Nodup
  single : ∀ l ∈ dm.allLIDs, ∃ i < fidBits, l = .single fidBits i

theorem Domain.Numbered.mode_ne (h : dm.Numbered) : dm.overlay_mode ≠ "mac_ml" := by
  obtain hm | hm | hm := h.mode <;> rw [hm] <;> decide

theorem Domain.Numbered.mem_NODEID (h : dm.Numbered) (x : String) :
    x ∈ dm.graph.NODEID ↔ x ∈ dm.network_nodes.map (·.label) := by
  rw [(buildIGraphTopology_built dm).numbers.mem, List.mem_flatMap, List.mem_map]
  constructor
  · rintro ⟨nn, hnn, hx⟩
    unfold nodeLabels at hx
    split at hx
    · exact ⟨nn, hnn, (List.mem_singleton.mp hx).symm⟩
    · obtain ⟨nc, hnc, hx⟩ := List.mem_flatMap.mp hx
      obtain rfl | hx := List.mem_cons.mp hx
      · exact ⟨nn, hnn, (h.own nn hnn nc hnc).symm⟩
      · obtain rfl := List.mem_singleton.mp hx
        exact List.mem_map.mp (h.closed nn hnn nc hnc)
  · rintro ⟨nn, hnn, rfl⟩
    refine ⟨nn, hnn, ?_⟩
    unfold nodeLabels
    split
    · exact List.mem_singleton_self _
    · next hne =>
      obtain ⟨nc, ncs, hncs⟩ := List.exists_cons_of_ne_nil hne
      have hnc : nc ∈ nn.connections := hncs ▸ List.mem_cons_self
      exact List.mem_flatMap.mpr ⟨nc, hnc, h.own nn hnn nc hnc ▸ List.mem_cons_self⟩

theorem finIdxOf?_iff {l : List String} (hl : l.Nodup) {x : String} {v : Fin l.length} :
    l.finIdxOf? x = some v ↔ l[v] = x := by
  rw [List.finIdxOf?_eq_some_iff]
  refine ⟨fun h => h.1, fun h => ⟨h, fun j hj heq => ?_⟩⟩
  have hinj := (List.Nodup.getElem_inj_iff hl).mp (heq.trans h.symm)
  omega

theorem Domain.Numbered.finIdxOf?_iff (_h : dm.Numbered) {x : String}
    {v : dm.graph.Vertex} :
    dm.graph.NODEID.finIdxOf? x = some v ↔ dm.graph.labelOf v = x :=
  Deployment.finIdxOf?_iff (buildIGraphTopology_built dm).numbers.nodup

/-- Every node has a vertex. -/
theorem Domain.Numbered.exists_vertex (h : dm.Numbered) (hnn : nn ∈ dm.network_nodes) :
    ∃ v : dm.graph.Vertex, dm.graph.labelOf v = nn.label := by
  obtain ⟨i, hi, hlabel⟩ := List.mem_iff_getElem.mp ((h.mem_NODEID _).mpr (List.mem_map_of_mem hnn))
  exact ⟨⟨i, hi⟩, hlabel⟩

/-- Every vertex is a node. -/
theorem Domain.Numbered.exists_node (h : dm.Numbered) (v : dm.graph.Vertex) :
    ∃ nn ∈ dm.network_nodes, nn.label = dm.graph.labelOf v :=
  List.mem_map.mp ((h.mem_NODEID _).mp (List.getElem_mem v.isLt))

theorem Domain.Numbered.iLID_eq (h : dm.Numbered) (hnn : nn ∈ dm.network_nodes)
    {v : dm.graph.Vertex} (hv : dm.graph.labelOf v = nn.label) :
    dm.graph.iLID v = nn.iLid.to_string := by
  refine setAttribute_eq (buildIGraphTopology_built dm).numbers.nodup h.labels hnn ?_
  rw [← hv]
  exact List.getElem?_eq_getElem v.isLt

/-! ## Links and edges -/

/-- A link of a connection. -/
structure Leads (gr : GraphRepresentation) (nc : NetworkConnection) (e : Link gr.Vertex String) : Prop where
  source : gr.labelOf e.source = nc.src_label
  target : gr.labelOf e.target = nc.dst_label
  LID : e.LID = nc.LID.to_string

theorem clickLines_LID (dm : Domain) (macs : NetworkConnection → String × String) (nn : NetworkNode) :
    List.Forall₂ (fun line nc => line.LID = nc.LID) (clickLines dm macs nn) nn.connections := by
  have hmap : (clickLines dm macs nn).map (·.LID) = nn.connections.map (·.LID) := by
    rw [clickLines, fwTable_LID, List.map_map]
    rfl
  rw [← List.forall₂_eq_eq_eq, List.forall₂_map_left_iff, List.forall₂_map_right_iff] at hmap
  exact hmap

theorem Domain.Numbered.linkOf (h : dm.Numbered) (hnn : nn ∈ dm.network_nodes) (hnc : nc ∈ nn.connections)
    {line : ForwardingLine} (hline : line.LID = nc.LID) :
    ∃ e, linkOf dm.graph nn.label line nc = some e ∧ Leads dm.graph nc e ∧
      e.toLinkConf = line.conf := by
  obtain ⟨nn', hnn', hlabel⟩ := List.mem_map.mp (h.closed nn hnn nc hnc)
  obtain ⟨v, hv⟩ := h.exists_vertex hnn
  obtain ⟨w, hw⟩ := h.exists_vertex hnn'
  refine ⟨⟨line.conf, v, w⟩, ?_, ⟨?_, hw.trans hlabel, ?_⟩, rfl⟩
  · rw [Deployment.linkOf, h.finIdxOf?_iff.mpr hv, h.finIdxOf?_iff.mpr (hw.trans hlabel)]
    rfl
  · exact hv.trans (h.own nn hnn nc hnc).symm
  · exact congrArg Bitvector.to_string hline

theorem forall₂_reduceOption {α β γ : Type*} {R : α → β → Prop} {P : α → γ → Prop} {Q : β → γ → Prop}
    {f : α → β → Option γ} {as : List α} {bs : List β} (h : List.Forall₂ R as bs)
    (hf : ∀ a, ∀ b ∈ bs, R a b → ∃ c, f a b = some c ∧ P a c ∧ Q b c) :
    List.Forall₂ P as (List.zipWith f as bs).reduceOption ∧
      List.Forall₂ Q bs (List.zipWith f as bs).reduceOption := by
  induction h with
  | nil => exact ⟨.nil, .nil⟩
  | @cons a b as bs hab _ ih =>
    obtain ⟨c, hc, hp, hq⟩ := hf a b List.mem_cons_self hab
    obtain ⟨ihp, ihq⟩ := ih fun a b hb => hf a b (List.mem_cons_of_mem _ hb)
    have hcons : (List.zipWith f (a :: as) (b :: bs)).reduceOption =
        c :: (List.zipWith f as bs).reduceOption := by
      rw [List.zipWith_cons_cons, hc]
      rfl
    rw [hcons]
    exact ⟨.cons hp ihp, .cons hq ihq⟩

/-- A node has one link for each connection, with the configuration of its line. -/
theorem Domain.Numbered.nodeLinks (h : dm.Numbered) (hnn : nn ∈ dm.network_nodes) :
    (nodeLinks dm.graph dm macs nn).map (·.toLinkConf) =
        (clickLines dm macs nn).map (·.conf) ∧
      List.Forall₂ (Leads dm.graph) nn.connections
        (nodeLinks dm.graph dm macs nn) := by
  obtain ⟨hconf, hleads⟩ := forall₂_reduceOption (clickLines_LID dm macs nn)
    (P := fun line e => line.conf = e.toLinkConf) (Q := Leads dm.graph)
    (f := Deployment.linkOf dm.graph nn.label) fun line nc hnc hline => by
      obtain ⟨e, he, hl, hc⟩ := h.linkOf hnn hnc hline
      exact ⟨e, he, hc.symm, hl⟩
  refine ⟨?_, hleads⟩
  rw [eq_comm, ← List.forall₂_eq_eq_eq, List.forall₂_map_left_iff, List.forall₂_map_right_iff]
  exact hconf

theorem Domain.Numbered.links (h : dm.Numbered) (macs : NetworkConnection → String × String) :
    List.Forall₂ (Leads dm.graph) dm.connections
      (clickLinks dm.graph dm macs) := by
  have hloop : ∀ nns : List NetworkNode, (∀ nn ∈ nns, nn ∈ dm.network_nodes) →
      List.Forall₂ (Leads dm.graph) (nns.flatMap (·.connections))
        (nns.flatMap (Deployment.nodeLinks dm.graph dm macs)) := by
    intro nns hnns
    induction nns with
    | nil => exact .nil
    | cons nn nns ih =>
      obtain ⟨hnn, hrest⟩ := List.forall_mem_cons.mp hnns
      exact List.rel_append (h.nodeLinks hnn).2 (ih hrest)
  exact hloop dm.network_nodes fun nn hnn => hnn

/-- An edge of the graph and the link of the same connection. -/
structure Matches (gr : GraphRepresentation) (e : IEdge) (l : Link gr.Vertex String) : Prop where
  source : e.source = l.source
  target : e.target = l.target
  LID : e.LID = l.LID

theorem matches_of_joins (hn : gr.NODEID.Nodup) {e : IEdge} {l : Link gr.Vertex String}
    (he : Joins gr.NODEID nc e) (hl : Leads gr nc l) : Matches gr e l := by
  have hvertex {i : Nat} {v : gr.Vertex} {x : String} (hi : gr.NODEID[i]? = some x)
      (hv : gr.labelOf v = x) : i = v := by
    have hsome : gr.NODEID[(v : Nat)]? = some x := by
      rw [← hv]
      exact List.getElem?_eq_getElem v.isLt
    exact (List.getElem?_inj (List.getElem?_eq_some_iff.mp hi).1 hn).mp (hi.trans hsome.symm)
  exact ⟨hvertex he.source hl.source, hvertex he.target hl.target, he.LID.trans hl.LID.symm⟩

/-- The graph has the links of the tables as its edges, in the same order. -/
theorem Domain.Numbered.edges (h : dm.Numbered) (macs : NetworkConnection → String × String) :
    List.Forall₂ (Matches dm.graph) dm.graph.edges
      (clickLinks dm.graph dm macs) := by
  have hbuilt := buildIGraphTopology_built dm
  have hcomp : ∀ {ncs : List NetworkConnection} {edges : List IEdge}
      {links : List (Link dm.graph.Vertex String)},
      List.Forall₂ (Joins dm.graph.NODEID) ncs edges →
      List.Forall₂ (Leads dm.graph) ncs links →
      List.Forall₂ (Matches dm.graph) edges links := by
    intro ncs edges links hj hl
    induction hj generalizing links with
    | nil =>
      cases hl
      exact .nil
    | cons hj _ ih =>
      cases hl with
      | cons hl hrest => exact .cons (matches_of_joins hbuilt.numbers.nodup hj hl) (ih hrest)
  exact hcomp hbuilt.edges (h.links macs)

/-! ## Identifiers -/

theorem allLIDs_perm (nns : List NetworkNode) :
    (nns.flatMap fun nn => nn.iLid :: nn.connections.map (·.LID)).Perm
      (nns.map (·.iLid) ++ (nns.flatMap (·.connections)).map (·.LID)) := by
  induction nns with
  | nil => exact .nil
  | cons nn nns ih =>
    rw [List.flatMap_cons, List.flatMap_cons, List.map_cons, List.map_append, List.cons_append,
      List.cons_append]
    refine .cons _ ?_
    refine (List.Perm.append_left _ ih).trans ?_
    rw [← List.append_assoc, ← List.append_assoc]
    exact List.Perm.append_right _ List.perm_append_comm

theorem parse_single {l : Bitvector} {i : Nat} (h : l = .single fidBits i) :
    Blackadder.Bitvector.parse l.to_string = BitVec.twoPow fidBits i := by
  rw [h, Bitvector.single_eq, parse_to_string]

namespace Domain.Numbered

theorem bit (h : dm.Numbered) {l : Bitvector} (hl : l ∈ dm.allLIDs) :
    ∃ i < fidBits, Blackadder.Bitvector.parse l.to_string = BitVec.twoPow fidBits i := by
  obtain ⟨i, hi, rfl⟩ := h.single l hl
  exact ⟨i, hi, parse_single rfl⟩

theorem parse_inj (h : dm.Numbered) {l l' : Bitvector} (hl : l ∈ dm.allLIDs) (hl' : l' ∈ dm.allLIDs)
    (heq : Blackadder.Bitvector.parse l.to_string = Blackadder.Bitvector.parse l'.to_string) : l = l' := by
  obtain ⟨i, hi, rfl⟩ := h.single l hl
  obtain ⟨j, -, rfl⟩ := h.single l' hl'
  rw [parse_single rfl, parse_single rfl] at heq
  rw [Blackadder.Bitvector.twoPow_inj hi heq]

theorem length_to_string (h : dm.Numbered) {l : Bitvector} (hl : l ∈ dm.allLIDs) :
    l.to_string.length = fidBits := by
  obtain ⟨i, -, rfl⟩ := h.single l hl
  simp [Bitvector.to_string, Bitvector.single]

theorem iLid_mem (hnn : nn ∈ dm.network_nodes) : nn.iLid ∈ dm.allLIDs :=
  List.mem_flatMap.mpr ⟨nn, hnn, List.mem_cons_self⟩

theorem LID_mem (hnc : nc ∈ dm.connections) : nc.LID ∈ dm.allLIDs := by
  obtain ⟨nn, hnn, hnc⟩ := List.mem_flatMap.mp hnc
  exact List.mem_flatMap.mpr ⟨nn, hnn, List.mem_cons_of_mem _ (List.mem_map_of_mem hnc)⟩

theorem all_nodup (h : dm.Numbered) : (dm.network_nodes.map (·.iLid) ++ dm.connections.map (·.LID)).Nodup :=
  (allLIDs_perm dm.network_nodes).nodup_iff.mp h.nodup

/-- Every link is that of a connection. -/
theorem exists_connection (h : dm.Numbered) {e : Link dm.graph.Vertex String}
    (he : e ∈ clickLinks dm.graph dm macs) : ∃ nc ∈ dm.connections, Leads dm.graph nc e := by
  obtain ⟨i, hi, rfl⟩ := List.mem_iff_getElem.mp he
  have hlinks := h.links macs
  have hlt : i < dm.connections.length := hlinks.length_eq ▸ hi
  exact ⟨_, List.getElem_mem hlt, hlinks.get hlt hi⟩

theorem LIDs_nodup (h : dm.Numbered) : ((clickLinks dm.graph dm macs).map (·.LID)).Nodup := by
  have hmap : (clickLinks dm.graph dm macs).map (·.LID) = (dm.connections.map (·.LID)).map (·.to_string) := by
    rw [eq_comm, List.map_map, ← List.forall₂_eq_eq_eq, List.forall₂_map_left_iff,
      List.forall₂_map_right_iff]
    exact (h.links macs).imp fun _ _ hl => hl.LID.symm
  rw [hmap]
  refine List.Nodup.map_on ?_ (List.nodup_append.mp h.all_nodup).2.1
  intro l hl l' hl' heq
  obtain ⟨nc, hnc, rfl⟩ := List.mem_map.mp hl
  obtain ⟨nc', hnc', rfl⟩ := List.mem_map.mp hl'
  exact h.parse_inj (LID_mem hnc) (LID_mem hnc') (congrArg Blackadder.Bitvector.parse heq)

end Domain.Numbered

/-! ## The configuration of a node -/

/-- `GlobalConf` of a node. The tool follows the pointers to the two special nodes. -/
def nodeConf (dm : Domain) (g : TMIgraph dm.graph.Vertex Nat) (nn : NetworkNode) : Option GlobalConf := do
  let RV_label ← dm.RV_node
  let TM_label ← dm.TM_node
  clickConf dm nn (calculateFID dm g nn.label RV_label) (calculateFID dm g nn.label TM_label)

theorem clickMode_of_numbered (h : dm.Numbered) : ∃ mode, clickMode dm.overlay_mode = some mode := by
  obtain hm | hm | hm := h.mode <;> rw [hm] <;> exact ⟨_, rfl⟩

theorem length_fid (x : BitVec fidBits) : (Bitvector.to_string ⟨fidBits, x⟩).length = fidBits := by
  simp [Bitvector.to_string]

theorem configure_eq (mode : Mode) {nodeID : List UInt8} {defRVFID internalLID TMFIDstr : List Char}
    (hnode : nodeID.length = nodeIDLen) (hRV : defRVFID.length = fidBits)
    (hiLID : internalLID.length = fidBits) (hTM : TMFIDstr.length = fidBits) :
    ∃ gc, GlobalConf.configure mode nodeID defRVFID internalLID TMFIDstr = some gc ∧
      gc.defaultRVdl = Blackadder.Bitvector.parse defRVFID ∧
      gc.TMFID = some (Blackadder.Bitvector.parse TMFIDstr) ∧
      gc.iLID = Blackadder.Bitvector.parse internalLID := by
  have hsome : TMFIDstr.length ≠ 0 := by rw [hTM]; decide
  unfold GlobalConf.configure
  rw [if_neg (not_not.mpr hnode), if_neg (not_not.mpr hRV), if_neg (not_not.mpr hiLID),
    if_neg (fun h => h.2 hTM), if_neg hsome]
  exact ⟨_, rfl, rfl, rfl, rfl⟩

/-- Click accepts the file of every node, and reads the identifiers that lead to the two special nodes. -/
theorem Domain.Numbered.nodeConf (h : dm.Numbered) (hnn : nn ∈ dm.network_nodes)
    {g : TMIgraph dm.graph.Vertex Nat} {v rv tm : dm.graph.Vertex} (hv : dm.graph.labelOf v = nn.label)
    (hrv : dm.RV_node = some (dm.graph.labelOf rv)) (htm : dm.TM_node = some (dm.graph.labelOf tm)) :
    ∃ mode gc, GlobalConf.configure mode (labelBytes nn.label) (Bitvector.to_string ⟨fidBits, g.calculateFID v rv⟩)
        nn.iLid.to_string (Bitvector.to_string ⟨fidBits, g.calculateFID v tm⟩) = some gc ∧
      nodeConf dm g nn = some gc ∧ gc.defaultRVdl = g.calculateFID v rv ∧
      gc.TMFID = some (g.calculateFID v tm) ∧ gc.iLID = Blackadder.Bitvector.parse nn.iLid.to_string := by
  obtain ⟨mode, hmode⟩ := clickMode_of_numbered h
  have hlabel : (labelBytes nn.label).length = nodeIDLen := by
    rw [labelBytes, List.length_map]
    exact h.lengths nn hnn
  have hiLid : nn.iLid.to_string.length = fidBits := h.length_to_string (iLid_mem hnn)
  obtain ⟨gc, hgc, hRV, hTM, hiLID⟩ := configure_eq mode hlabel (length_fid (g.calculateFID v rv)) hiLid
    (length_fid (g.calculateFID v tm))
  rw [parse_to_string] at hRV hTM
  have hFID (d : dm.graph.Vertex) : calculateFID dm g nn.label (dm.graph.labelOf d) =
      ⟨fidBits, g.calculateFID v d⟩ :=
    calculateFID_eq h.fid_len h.mode_ne (h.finIdxOf?_iff.mpr hv) (h.finIdxOf?_iff.mpr rfl)
  refine ⟨mode, gc, hgc, ?_, hRV, hTM, hiLID⟩
  unfold Deployment.nodeConf clickConf
  simp only [hrv, htm, hmode, hFID, Option.bind_eq_bind, Option.bind_some]
  exact hgc

/-! ## The topology -/

/-- A numbered domain with its two special nodes, in which every address of a table belongs to the
node at that end of the link. -/
structure Deployed (dm : Domain) (macs : NetworkConnection → String × String)
    (owner : String → dm.graph.Vertex) (rv tm : dm.graph.Vertex) : Prop extends dm.Numbered where
  RV : dm.RV_node = some (dm.graph.labelOf rv)
  TM : dm.TM_node = some (dm.graph.labelOf tm)
  src : ∀ e ∈ clickLinks dm.graph dm macs, owner e.src = e.source
  dst : ∀ e ∈ clickLinks dm.graph dm macs, owner e.dst = e.target

/-- The node with the label. -/
def Domain.nodeWith (dm : Domain) (label : String) : Option NetworkNode :=
  dm.network_nodes.find? (·.label = label)

theorem Domain.Numbered.nodeWith (h : dm.Numbered) (hnn : nn ∈ dm.network_nodes) :
    dm.nodeWith nn.label = some nn := by
  cases hfind : dm.nodeWith nn.label with
  | none => exact absurd (decide_eq_true rfl) (List.find?_eq_none.mp hfind nn hnn)
  | some nn' =>
    have hlabel := List.find?_some hfind
    rw [List.inj_on_of_nodup_map h.labels (List.mem_of_find?_eq_some hfind) hnn (of_decide_eq_true hlabel)]

variable {owner : String → dm.graph.Vertex} {rv tm : dm.graph.Vertex} {v : dm.graph.Vertex}

namespace Deployed

/-- The network of the forwarders that are configured from the files. -/
def topology (h : Deployed dm macs owner rv tm) (g : TMIgraph dm.graph.Vertex Nat) :
    Topology dm.graph.Vertex String where
  links := clickLinks dm.graph dm macs
  nodup := .of_map _ h.LIDs_nodup
  iLID v := dm.graph.iLID v
  globalConf v := ((dm.nodeWith (dm.graph.labelOf v)).bind (nodeConf dm g)).getD ⟨false, [], 0, 0, none⟩
  owner := owner
  LID_length e he := by
    obtain ⟨nc, hnc, hl⟩ := h.exists_connection he
    rw [hl.LID]
    exact h.length_to_string (Domain.Numbered.LID_mem hnc)
  configured v := by
    obtain ⟨nn, hnn, hlabel⟩ := h.exists_node v
    obtain ⟨mode, gc, hgc, hconf, -⟩ := h.nodeConf (g := g) hnn hlabel.symm h.RV h.TM
    rw [← hlabel, h.nodeWith hnn, Option.bind_some, hconf, h.iLID_eq hnn hlabel.symm]
    exact ⟨mode, _, _, _, hgc⟩
  src_owner := h.src
  dst_owner := h.dst

variable {h : Deployed dm macs owner rv tm} {g : TMIgraph dm.graph.Vertex Nat}

end Deployed

/-! ## What igraph finds -/

def GraphRepresentation.Adj (gr : GraphRepresentation) (u v : gr.Vertex) : Prop :=
  ∃ e ∈ gr.edges, e.source = u ∧ e.target = v

/-- igraph finds the number of an edge, and shortest paths. -/
structure Searches (gr : GraphRepresentation) (getShortestPath : gr.Vertex → gr.Vertex → List gr.Vertex)
    (getEid : gr.Vertex → gr.Vertex → Nat) : Prop where
  edges : ∀ u v, gr.Adj u v → ∃ e, gr.edges[getEid u v]? = some e ∧ e.source = u ∧ e.target = v
  paths : (gr.igraph getShortestPath getEid).FindsPaths gr.Adj

/-- The link of the edge that igraph finds. -/
def linkAt (links : List (Link gr.Vertex String)) (getEid : gr.Vertex → gr.Vertex → Nat)
    (u v : gr.Vertex) : Link gr.Vertex String :=
  links[getEid u v]?.getD ⟨⟨0, "", "", []⟩, u, v⟩

theorem forall₂_getElem? {α β : Type*} {R : α → β → Prop} {as : List α} {bs : List β}
    (h : List.Forall₂ R as bs) {i : Nat} {a : α} (ha : as[i]? = some a) : ∃ b, bs[i]? = some b ∧ R a b := by
  obtain ⟨hi, rfl⟩ := List.getElem?_eq_some_iff.mp ha
  have hi' : i < bs.length := h.length_eq ▸ hi
  exact ⟨_, List.getElem?_eq_getElem hi', h.get hi hi'⟩

variable {getShortestPath : dm.graph.Vertex → dm.graph.Vertex → List dm.graph.Vertex}
  {getEid : dm.graph.Vertex → dm.graph.Vertex → Nat} {u w : dm.graph.Vertex}

namespace Deployed

variable {g : TMIgraph dm.graph.Vertex Nat}

theorem adj_iff (h : Deployed dm macs owner rv tm) : (h.topology g).Adj u w ↔ dm.graph.Adj u w := by
  constructor
  · rintro ⟨l, hl, rfl, rfl⟩
    obtain ⟨e, he, hm⟩ := Loops.forall₂_left (h.edges macs) hl
    exact ⟨e, he, hm.source, hm.target⟩
  · rintro ⟨e, he, hs, ht⟩
    obtain ⟨l, hl, hm⟩ := Loops.forall₂_right (h.edges macs) he
    exact ⟨l, hl, Fin.ext (hm.source.symm.trans hs), Fin.ext (hm.target.symm.trans ht)⟩

theorem linkAt_spec (h : Deployed dm macs owner rv tm) (hs : Searches dm.graph getShortestPath getEid)
    (hadj : dm.graph.Adj u w) : ∃ e, dm.graph.edges[getEid u w]? = some e ∧
      linkAt (clickLinks dm.graph dm macs) getEid u w ∈ clickLinks dm.graph dm macs ∧
      (linkAt (clickLinks dm.graph dm macs) getEid u w).source = u ∧
      (linkAt (clickLinks dm.graph dm macs) getEid u w).target = w ∧
      e.LID = (linkAt (clickLinks dm.graph dm macs) getEid u w).LID := by
  obtain ⟨e, he, hsource, htarget⟩ := hs.edges u w hadj
  obtain ⟨l, hl, hm⟩ := forall₂_getElem? (h.edges macs) he
  have hlink : linkAt (clickLinks dm.graph dm macs) getEid u w = l := by
    rw [linkAt, hl]
    rfl
  rw [hlink]
  exact ⟨e, he, List.mem_of_getElem? hl, Fin.ext (hm.source.symm.trans hsource),
    Fin.ext (hm.target.symm.trans htarget), hm.LID⟩

theorem routes (h : Deployed dm macs owner rv tm) (hs : Searches dm.graph getShortestPath getEid) :
    (h.topology g).Routes getShortestPath (linkAt (clickLinks dm.graph dm macs) getEid) where
  edges l hl := by
    have hadj : dm.graph.Adj l.source l.target := (h.adj_iff (g := g)).mp ⟨l, hl, rfl, rfl⟩
    obtain ⟨e, -, hmem, hsource, htarget, -⟩ := h.linkAt_spec hs hadj
    exact ⟨hmem, hsource, htarget⟩
  paths := by
    have hadj : (h.topology g).Adj = dm.graph.Adj := by
      funext u w
      exact propext h.adj_iff
    rw [hadj]
    exact hs.paths

end Deployed

end Blackadder.Deployment
