import Blackadder.Deployment.Network
import Blackadder.Lib.Loops

/-!
# The parser of a configuration file

A setting is what `lookupValue` and `lookup` find in it. An error is the text that is printed
before the parser returns `-1`.
-/

namespace Blackadder.Deployment

/-! ## Settings -/

/-- `toLabel` is the value of `to`. -/
structure ConnectionSetting where
  toLabel : Option String
  src_if : Option String
  dst_if : Option String
  src_ip : Option String
  dst_ip : Option String
  src_mac : Option String
  dst_mac : Option String
  in_pt : Option String
  out_pt : Option String
  priority : Option Int
  rate_lim : Option Int
  Mtu : Option Int
  DataRate : Option String
  Delay : Option String
deriving DecidableEq

/-- A setting in which nothing is given. -/
def ConnectionSetting.blank : ConnectionSetting :=
  ⟨none, none, none, none, none, none, none, none, none, none, none, none, none, none⟩

structure NodeSetting where
  label : Option String
  type : Option String
  testbed_ip : Option String
  running_mode : Option String
  operating_system : Option String
  role : Option (List String)
  connections : Option (List ConnectionSetting)
deriving DecidableEq

/-- The options of the file that say what the domain is, and its lists of nodes. -/
structure Config where
  BLACKADDER_ID_LENGTH : Option Nat
  LIPSIN_ID_LENGTH : Option Nat
  OVERLAY_MODE : Option String
  nodes : Option (List NodeSetting)
  ol_nodes : Option (List NodeSetting)
  pl_nodes : Option (List NodeSetting)
deriving DecidableEq

/-! ## Connections -/

/-- The destination label, which every connection has. -/
def destination (dm : Domain) (connection : ConnectionSetting) (nn : NetworkNode) :
    Except String String :=
  match connection.toLabel with
  | some dst_label =>
    if dst_label.length ≠ dm.ba_id_len then
      throw ("destination label in the configuration file has BAD label size " ++
        toString dst_label.length)
    else pure dst_label
  | none => throw ("missing mandatory destination label parameter for connection of node " ++ nn.label)

/-- The source end, as the overlay mode asks for it. -/
def sourceEnd (dm : Domain) (connection : ConnectionSetting) (nn : NetworkNode)
    (nc : NetworkConnection) : Except String NetworkConnection :=
  if dm.overlay_mode = "mac" ∨ dm.overlay_mode = "mac_qos" then
    match connection.src_if with
    | some src_if => pure { nc with src_if := src_if }
    | none => throw ("missing mandatory src_if parameter for connection of node " ++ nn.label)
  else if dm.overlay_mode = "mac_ml" then
    match connection.out_pt, connection.src_if with
    | some out_pt, _ => pure { nc with out_pt := out_pt }
    | none, some src_if => pure { nc with src_if := src_if }
    | none, none =>
      throw ("missing mandatory in_pt or src_if parameter for connection of node " ++ nn.label)
  else
    match connection.src_ip with
    | some src_ip => pure { nc with src_ip := src_ip }
    | none => throw ("missing mandatory src_ip parameter for connection of node " ++ nn.label)

/-- The destination end. In `mac_ml` it may be missing. -/
def destinationEnd (dm : Domain) (connection : ConnectionSetting) (nn : NetworkNode)
    (nc : NetworkConnection) : Except String NetworkConnection :=
  if dm.overlay_mode = "mac" ∨ dm.overlay_mode = "mac_qos" then
    match connection.dst_if with
    | some dst_if => pure { nc with dst_if := dst_if }
    | none => throw ("missing mandatory dst_if parameter for connection of node " ++ nn.label)
  else if dm.overlay_mode = "mac_ml" then
    match connection.in_pt, connection.dst_if with
    | some in_pt, _ => pure { nc with in_pt := in_pt }
    | none, some dst_if => pure { nc with dst_if := dst_if }
    | none, none => pure nc
  else
    match connection.dst_ip with
    | some dst_ip => pure { nc with dst_ip := dst_ip }
    | none => throw ("missing mandatory dst_ip parameter for connection of node " ++ nn.label)

/-- Hard-coded addresses. -/
def hardcoded (connection : ConnectionSetting) (nc : NetworkConnection) : NetworkConnection :=
  { nc with
    src_mac := connection.src_mac.getD nc.src_mac
    dst_mac := connection.dst_mac.getD nc.dst_mac }

/-- The type of a link, from its ends. -/
def linkType (nc : NetworkConnection) : String :=
  if (nc.src_if ≠ "" ∧ nc.dst_if ≠ "") ∨ (nc.src_mac ≠ "" ∧ nc.dst_mac ≠ "") then "pp"
  else if nc.out_pt ≠ "" ∧ nc.in_pt ≠ "" then "oo"
  else "cl"

/-- `Parser::addConnection`. In `mac_ml` the type is set before hard-coded addresses are read. -/
def addConnection (dm : Domain) (connection : ConnectionSetting) (nn : NetworkNode) :
    Except String (Domain × NetworkNode) := do
  let dst_label ← destination dm connection nn
  let nc := { NetworkConnection.new with src_label := nn.label, dst_label := dst_label }
  let nc ← sourceEnd dm connection nn nc
  let nc ← destinationEnd dm connection nn nc
  let nc :=
    if dm.overlay_mode = "mac" ∨ dm.overlay_mode = "mac_qos" then hardcoded connection nc
    else if dm.overlay_mode = "mac_ml" then
      hardcoded connection { nc with lnk_type := linkType nc }
    else nc
  let number_of_p_connections :=
    if nc.lnk_type = "pp" then dm.number_of_p_connections + 1 else dm.number_of_p_connections
  let nc := { nc with
    priority := connection.priority.getD 0
    rate_lim := connection.rate_lim.getD 1250000000 }
  pure ({ dm with
      number_of_p_connections := number_of_p_connections
      number_of_connections := dm.number_of_connections + 1 },
    { nn with connections := nn.connections ++ [nc] })

/-- `Parser::addNS3Connection`. -/
def addNS3Connection (dm : Domain) (connection : ConnectionSetting) (nn : NetworkNode) :
    Except String (Domain × NetworkNode) := do
  let dst_label ← destination dm connection nn
  match connection.Mtu, connection.DataRate, connection.Delay with
  | none, _, _ => throw ("missing mandatory NS3-related Mtu value " ++ nn.label)
  | some _, none, _ => throw ("missing mandatory NS3-related DataRate value " ++ nn.label)
  | some _, some _, none => throw ("missing mandatory NS3-related Delay value " ++ nn.label)
  | some mtu, some rate, some delay =>
    let nc := { NetworkConnection.new with
      src_label := nn.label, dst_label := dst_label, mtu := mtu, rate := rate, delay := delay }
    pure ({ dm with number_of_connections := dm.number_of_connections + 1 },
      { nn with connections := nn.connections ++ [nc] })

/-! ## Nodes -/

/-- A node without a label keeps the empty one, and no type. -/
def nodeLabel (dm : Domain) (node : NodeSetting) (nn : NetworkNode) : Except String NetworkNode :=
  match node.label with
  | none => pure nn
  | some node_label =>
    if node_label.length ≠ dm.ba_id_len then
      throw ("Node in the configuration file has BAD label size " ++ toString node_label.length)
    else pure { nn with label := node_label, type := node.type.getD nn.type }

/-- The address, the running mode and the operating system. -/
def nodeSystem (dm : Domain) (node : NodeSetting) (nn : NetworkNode) : Except String NetworkNode :=
  let node_label := node.label.getD ""
  match node.testbed_ip, node.running_mode with
  | none, _ =>
    throw ("testbed_ip conf parameter is mandatory for all nodes...missing from node " ++ node_label)
  | some _, none =>
    throw ("running_mode conf parameter is mandatory for all nodes...missing from node " ++ node_label)
  | some testbed_ip, some running_mode =>
    if running_mode = "kernel" ∧ dm.overlay_mode ≠ "mac" then
      throw "Cannot run over IP in kernel mode"
    else
      match node.operating_system with
      | none => pure { nn with
          testbed_ip := testbed_ip, running_mode := running_mode, operating_system := "Linux" }
      | some operating_system =>
        if operating_system ≠ "Linux" ∧ operating_system ≠ "FreeBSD" ∧
            operating_system ≠ "Darwin" then
          throw ("Unrecognized operating system for node " ++ node_label)
        else if (operating_system = "FreeBSD" ∨ operating_system = "Darwin") ∧
            dm.overlay_mode ≠ "mac" then
          throw "Cannot run over IP in FreeBSD or Darwin"
        else if operating_system = "Darwin" ∧ running_mode ≠ "user" then
          throw "Cannot run in kernel mode in Darwin"
        else pure { nn with
          testbed_ip := testbed_ip, running_mode := running_mode
          operating_system := operating_system }

/-- One role of a node. -/
def addRole (p : Domain × NetworkNode) (role : String) : Except String (Domain × NetworkNode) :=
  let (dm, nn) := p
  if role = "RV" then
    if dm.RV_node = none then
      pure ({ dm with RV_node := some nn.label }, { nn with isRV := true })
    else throw "multiple RV nodes are assigned - this is currently wrong"
  else if role = "TM" then
    if dm.TM_node = none then
      pure ({ dm with TM_node := some nn.label }, { nn with isTM := true })
    else throw "multiple TM nodes are assigned - this is currently wrong"
  else pure (dm, nn)

/-- `role = ["TM", "RV"]` for both roles. -/
def addRoles (dm : Domain) (node : NodeSetting) (nn : NetworkNode) :
    Except String (Domain × NetworkNode) :=
  let roles := node.role.getD []
  if roles.length ≤ 2 then roles.foldlM addRole (dm, { nn with isRV := false, isTM := false })
  else throw "More than two roles is wrong!"

/-- The loop over the connections of a node, which is then listed. -/
def addConnections (add : Domain → ConnectionSetting → NetworkNode → Except String (Domain × NetworkNode))
    (dm : Domain) (node : NodeSetting) (nn : NetworkNode) : Except String Domain := do
  let (dm, nn) ← (node.connections.getD []).foldlM (fun p connection => add p.1 connection p.2) (dm, nn)
  pure { dm with network_nodes := dm.network_nodes ++ [nn] }

/-- `Parser::addNode`. -/
def addNode (dm : Domain) (node : NodeSetting) : Except String Domain := do
  let nn ← nodeLabel dm node .new
  let nn ← nodeSystem dm node nn
  let (dm, nn) ← addRoles dm node nn
  addConnections addConnection dm node nn

/-- `Parser::addNS3Node`. It reads no type, address or mode. -/
def addNS3Node (dm : Domain) (node : NodeSetting) : Except String Domain := do
  let nn ← nodeLabel dm { node with type := none } .new
  let (dm, nn) ← addRoles dm node nn
  addConnections addNS3Connection dm node nn

/-! ## Domains -/

/-- `Parser::getGlobalDomainParameters`. `lookupValue` leaves a mode that is missing as it was. -/
def getGlobalDomainParameters (dm : Domain) (cfg : Config) : Except String Domain :=
  match cfg.BLACKADDER_ID_LENGTH, cfg.LIPSIN_ID_LENGTH with
  | none, _ => throw "mandatory option BLACKADDER_ID_LENGTH is missing"
  | some _, none => throw "mandatory option LIPSIN_ID_LENGTH is missing"
  | some ba_id_len, some fid_len => pure { dm with
      ba_id_len := ba_id_len, fid_len := fid_len
      overlay_mode := cfg.OVERLAY_MODE.getD dm.overlay_mode }

/-- `Parser::getNS3GlobalDomainParameters`. No mode is read. -/
def getNS3GlobalDomainParameters (dm : Domain) (cfg : Config) : Except String Domain :=
  getGlobalDomainParameters dm { cfg with OVERLAY_MODE := none }

/-- `Parser::buildNetworkDomain`. A list that is missing is an error, but not in `mac_ml`. -/
def buildNetworkDomain (dm : Domain) (cfg : Config) : Except String Domain := do
  let dm ← getGlobalDomainParameters dm cfg
  if dm.overlay_mode ≠ "mac_ml" then
    match cfg.nodes with
    | none => throw ""
    | some nodes => nodes.foldlM addNode { dm with number_of_nodes := nodes.length }
  else
    match cfg.ol_nodes, cfg.pl_nodes with
    | some ol_nodes, some pl_nodes =>
      let dm := { dm with
        number_of_pl_nodes := pl_nodes.length
        number_of_nodes := ol_nodes.length + pl_nodes.length }
      let dm ← ol_nodes.foldlM addNode dm
      pl_nodes.foldlM addNode dm
    | _, _ => pure dm

/-- `Parser::buildNS3NetworkDomain`. -/
def buildNS3NetworkDomain (dm : Domain) (cfg : Config) : Except String Domain := do
  let dm ← getNS3GlobalDomainParameters dm cfg
  match cfg.nodes with
  | none => throw ""
  | some nodes => nodes.foldlM addNS3Node { dm with number_of_nodes := nodes.length }

/-! ## What the parser counts -/

/-- Between two states of the parser `nns` was listed, and the connections of `nns` counted. -/
structure Extends (dm dm' : Domain) (nns : List NetworkNode) : Prop where
  nodes : dm'.network_nodes = dm.network_nodes ++ nns
  connections : dm'.number_of_connections =
    dm.number_of_connections + (nns.flatMap (·.connections)).length
  p_connections : dm'.number_of_p_connections =
    dm.number_of_p_connections + (nns.flatMap (·.connections)).countP (·.lnk_type = "pp")
  number_of_nodes : dm'.number_of_nodes = dm.number_of_nodes
  number_of_pl_nodes : dm'.number_of_pl_nodes = dm.number_of_pl_nodes
  fid_len : dm'.fid_len = dm.fid_len
  overlay_mode : dm'.overlay_mode = dm.overlay_mode

/-- What one more connection does to the node that lists it and to the counters. -/
def Appends (overlay_mode : String)
    (add : Domain → ConnectionSetting → NetworkNode → Except String (Domain × NetworkNode))
    (good : ConnectionSetting → String → NetworkConnection → Prop) : Prop :=
  ∀ dm connection nn p, dm.overlay_mode = overlay_mode → add dm connection nn = .ok p →
    ∃ nc, good connection nn.label nc ∧
      p.2 = { nn with connections := nn.connections ++ [nc] } ∧
      p.1 = { dm with
        number_of_p_connections := dm.number_of_p_connections + if nc.lnk_type = "pp" then 1 else 0
        number_of_connections := dm.number_of_connections + 1 }

variable {dm dm' dm'' : Domain} {nn : NetworkNode} {nns nns' : List NetworkNode} {cfg : Config}
  {good : ConnectionSetting → String → NetworkConnection → Prop} {overlay_mode : String}
  {add : Domain → ConnectionSetting → NetworkNode → Except String (Domain × NetworkNode)}

theorem Extends.refl (dm : Domain) : Extends dm dm [] := by
  constructor <;> simp

theorem Extends.trans (h : Extends dm dm' nns) (h' : Extends dm' dm'' nns') :
    Extends dm dm'' (nns ++ nns') where
  nodes := by rw [h'.nodes, h.nodes, List.append_assoc]
  connections := by
    rw [h'.connections, h.connections, List.flatMap_append, List.length_append, Nat.add_assoc]
  p_connections := by
    rw [h'.p_connections, h.p_connections, List.flatMap_append, List.countP_append, Nat.add_assoc]
  number_of_nodes := h'.number_of_nodes.trans h.number_of_nodes
  number_of_pl_nodes := h'.number_of_pl_nodes.trans h.number_of_pl_nodes
  fid_len := h'.fid_len.trans h.fid_len
  overlay_mode := h'.overlay_mode.trans h.overlay_mode

/-- The ends of a packet link: both interfaces are named, and no port. -/
def ConnectionSetting.PacketLink (connection : ConnectionSetting) : Prop :=
  connection.out_pt = none ∧ connection.in_pt = none ∧
    connection.src_if.getD "" ≠ "" ∧ connection.dst_if.getD "" ≠ ""

instance (connection : ConnectionSetting) : Decidable connection.PacketLink :=
  inferInstanceAs (Decidable (_ ∧ _ ∧ _ ∧ _))

theorem linkType_eq_pp {nc : NetworkConnection} (hmac : nc.src_mac = "") :
    linkType nc = "pp" ↔ nc.src_if ≠ "" ∧ nc.dst_if ≠ "" := by
  unfold linkType
  rw [hmac]
  by_cases hif : nc.src_if ≠ "" ∧ nc.dst_if ≠ ""
  · simp [hif]
  · rw [if_neg (by simpa using hif)]
    simp only [hif, iff_false]
    split <;> decide

theorem sourceEnd_ml {connection : ConnectionSetting} {nc₀ nc : NetworkConnection}
    (hmode : dm.overlay_mode = "mac_ml") (h : sourceEnd dm connection nn nc₀ = .ok nc)
    (h0 : nc₀.src_if = "") : nc.dst_if = nc₀.dst_if ∧ nc.src_mac = nc₀.src_mac ∧
      (nc.src_if ≠ "" ↔ connection.out_pt = none ∧ connection.src_if.getD "" ≠ "") := by
  unfold sourceEnd at h
  rw [hmode, if_neg (by decide), if_pos rfl] at h
  split at h
  · next hport =>
    obtain rfl := Loops.pure_eq_ok.mp h
    exact ⟨rfl, rfl, by simp [hport, h0]⟩
  · next hport hif =>
    obtain rfl := Loops.pure_eq_ok.mp h
    exact ⟨rfl, rfl, by simp [hport, hif]⟩
  · cases h

theorem destinationEnd_ml {connection : ConnectionSetting} {nc₀ nc : NetworkConnection}
    (hmode : dm.overlay_mode = "mac_ml") (h : destinationEnd dm connection nn nc₀ = .ok nc)
    (h0 : nc₀.dst_if = "") : nc.src_if = nc₀.src_if ∧ nc.src_mac = nc₀.src_mac ∧
      (nc.dst_if ≠ "" ↔ connection.in_pt = none ∧ connection.dst_if.getD "" ≠ "") := by
  unfold destinationEnd at h
  rw [hmode, if_neg (by decide), if_pos rfl] at h
  split at h
  · next hport =>
    obtain rfl := Loops.pure_eq_ok.mp h
    exact ⟨rfl, rfl, by simp [hport, h0]⟩
  · next hport hif =>
    obtain rfl := Loops.pure_eq_ok.mp h
    exact ⟨rfl, rfl, by simp [hport, hif]⟩
  · next hport hif =>
    obtain rfl := Loops.pure_eq_ok.mp h
    exact ⟨rfl, rfl, by simp [hif, h0]⟩

theorem addConnection_appends (overlay_mode : String) :
    Appends overlay_mode addConnection fun connection _ nc =>
      overlay_mode = "mac_ml" → (nc.lnk_type = "pp" ↔ connection.PacketLink) := by
  rintro dm connection nn p rfl h
  unfold addConnection at h
  simp only [Loops.bind_eq_ok, Loops.pure_eq_ok] at h
  obtain ⟨dst_label, -, nc, hs, nc', hd, rfl⟩ := h
  refine ⟨_, ?_, rfl, by simp only [add_ite, Nat.add_zero]⟩
  intro hml
  obtain ⟨hdst, hmac, hsrc_iff⟩ := sourceEnd_ml hml hs rfl
  obtain ⟨hsrc, hmac', hdst_iff⟩ := destinationEnd_ml hml hd hdst
  have hnone : nc'.src_mac = "" := hmac'.trans hmac
  rw [if_neg (by rw [hml]; decide), if_pos hml]
  change linkType nc' = "pp" ↔ _
  rw [linkType_eq_pp hnone, hsrc, hsrc_iff, hdst_iff, ConnectionSetting.PacketLink]
  tauto

/-- A connection of a simulated network when it is parsed: no end has an interface yet. -/
structure NetworkConnection.Fresh (label : String) (nc : NetworkConnection) : Prop where
  src_label : nc.src_label = label
  src_if : nc.src_if = ""
  dst_if : nc.dst_if = ""
  src_mac : nc.src_mac = ""
  dst_mac : nc.dst_mac = ""

theorem addNS3Connection_appends (overlay_mode : String) :
    Appends overlay_mode addNS3Connection fun _ => NetworkConnection.Fresh := by
  rintro dm connection nn p rfl h
  unfold addNS3Connection at h
  simp only [Loops.bind_eq_ok] at h
  obtain ⟨dst_label, -, h⟩ := h
  split at h
  · cases h
  · cases h
  · cases h
  · obtain rfl := Loops.pure_eq_ok.mp h
    exact ⟨_, ⟨rfl, rfl, rfl, rfl, rfl⟩, rfl, rfl⟩

theorem Appends.addConnections (hadd : Appends overlay_mode add good) {node : NodeSetting}
    (hmode : dm.overlay_mode = overlay_mode)
    (h : Deployment.addConnections add dm node nn = .ok dm') (hnil : nn.connections = []) :
    ∃ ncs, Extends dm dm' [{ nn with connections := ncs }] ∧
      List.Forall₂ (fun connection nc => good connection nn.label nc) (node.connections.getD [])
        ncs := by
  unfold Deployment.addConnections at h
  obtain ⟨p, hp, hdm⟩ := Loops.bind_eq_ok.mp h
  obtain rfl := Loops.pure_eq_ok.mp hdm
  have hrun := Loops.foldlM_done (I := fun done (p : Domain × NetworkNode) => ∃ ncs,
    p.2 = { nn with connections := ncs } ∧
    List.Forall₂ (fun connection nc => good connection nn.label nc) done ncs ∧
    p.1 = { dm with
      number_of_p_connections := dm.number_of_p_connections + ncs.countP (·.lnk_type = "pp")
      number_of_connections := dm.number_of_connections + ncs.length })
    hp ⟨[], by simp [← hnil], .nil, by simp⟩ ?_
  · obtain ⟨ncs, h2, hgood, h1⟩ := hrun
    refine ⟨ncs, ?_, hgood⟩
    rw [h1, h2]
    constructor <;> simp
  · rintro done connection p p' - ⟨ncs, h2, hgood, h1⟩ hstep
    obtain ⟨nc, hnc, h2', h1'⟩ := hadd _ _ _ _ (by rw [h1]; exact hmode) hstep
    rw [h2] at hnc
    refine ⟨ncs ++ [nc], by rw [h2', h2], ?_, ?_⟩
    · exact List.rel_append hgood (.cons hnc .nil)
    · rw [h1', h1, List.countP_append, List.length_append, List.countP_singleton]
      simp [Nat.add_assoc]

theorem addRoles_eq {node : NodeSetting} {p : Domain × NetworkNode}
    (h : addRoles dm node nn = .ok p) : ∃ rv tm isRV isTM,
      p = ({ dm with RV_node := rv, TM_node := tm }, { nn with isRV := isRV, isTM := isTM }) := by
  unfold addRoles at h
  dsimp only at h
  split at h
  · refine Loops.foldlM_invariant (I := fun p => ∃ rv tm isRV isTM,
      p = ({ dm with RV_node := rv, TM_node := tm }, { nn with isRV := isRV, isTM := isTM }))
      h ⟨_, _, _, _, rfl⟩ ?_
    rintro role p p' - ⟨rv, tm, isRV, isTM, rfl⟩ hstep
    unfold addRole at hstep
    dsimp only at hstep
    split at hstep
    · split at hstep
      · obtain rfl := Loops.pure_eq_ok.mp hstep
        exact ⟨_, _, _, _, rfl⟩
      · cases hstep
    · split at hstep
      · split at hstep
        · obtain rfl := Loops.pure_eq_ok.mp hstep
          exact ⟨_, _, _, _, rfl⟩
        · cases hstep
      · obtain rfl := Loops.pure_eq_ok.mp hstep
        exact ⟨_, _, _, _, rfl⟩
  · cases h

/-- The type of a node is read only if its label is there. -/
def NodeSetting.typeRead (node : NodeSetting) : String :=
  if node.label.isSome then node.type.getD "" else ""

/-- A node before its roles are read. -/
structure NetworkNode.Bare (node : NodeSetting) (nn : NetworkNode) : Prop where
  connections : nn.connections = []
  deviceOffset : nn.deviceOffset = 0
  type : nn.type = node.typeRead

theorem nodeLabel_bare {node : NodeSetting} (h : nodeLabel dm node .new = .ok nn) :
    nn.Bare node := by
  unfold nodeLabel at h
  split at h
  · next hlabel =>
    obtain rfl := Loops.pure_eq_ok.mp h
    exact ⟨rfl, rfl, by simp [NodeSetting.typeRead, hlabel, NetworkNode.new]⟩
  · next label hlabel =>
    split at h
    · cases h
    · obtain rfl := Loops.pure_eq_ok.mp h
      exact ⟨rfl, rfl, by simp [NodeSetting.typeRead, hlabel, NetworkNode.new]⟩

theorem nodeSystem_bare {node : NodeSetting} {nn' : NetworkNode}
    (h : nodeSystem dm node nn = .ok nn') (hb : nn.Bare node) : nn'.Bare node := by
  unfold nodeSystem at h
  split at h
  · cases h
  · cases h
  · split at h
    · cases h
    · split at h
      · obtain rfl := Loops.pure_eq_ok.mp h
        exact ⟨hb.connections, hb.deviceOffset, hb.type⟩
      · split at h
        · cases h
        · split at h
          · cases h
          · split at h
            · cases h
            · obtain rfl := Loops.pure_eq_ok.mp h
              exact ⟨hb.connections, hb.deviceOffset, hb.type⟩

theorem Appends.addNode (hadd : Appends overlay_mode add good) {node₀ node : NodeSetting}
    {p : Domain × NetworkNode} (hmode : dm.overlay_mode = overlay_mode)
    (hr : addRoles dm node nn = .ok p) (hc : Deployment.addConnections add p.1 node p.2 = .ok dm')
    (hb : nn.Bare node₀) : ∃ nn', Extends dm dm' [nn'] ∧ nn'.deviceOffset = 0 ∧
      nn'.type = node₀.typeRead ∧
      List.Forall₂ (fun connection nc => good connection nn'.label nc) (node.connections.getD [])
        nn'.connections := by
  obtain ⟨rv, tm, isRV, isTM, rfl⟩ := addRoles_eq hr
  obtain ⟨ncs, hext, hgood⟩ := hadd.addConnections (by exact hmode) hc (by exact hb.connections)
  exact ⟨_, ⟨hext.nodes, hext.connections, hext.p_connections, hext.number_of_nodes,
    hext.number_of_pl_nodes, hext.fid_len, hext.overlay_mode⟩, hb.deviceOffset, hb.type, hgood⟩

/-- What a node has of the setting it was read from. -/
structure NodeSetting.Read (overlay_mode : String) (node : NodeSetting) (nn : NetworkNode) :
    Prop where
  type : nn.type = node.typeRead
  connections : List.Forall₂ (fun connection nc =>
    overlay_mode = "mac_ml" → (nc.lnk_type = "pp" ↔ connection.PacketLink))
    (node.connections.getD []) nn.connections

theorem addNode_extends {node : NodeSetting} (hmode : dm.overlay_mode = overlay_mode)
    (h : addNode dm node = .ok dm') : ∃ nn, Extends dm dm' [nn] ∧ node.Read overlay_mode nn := by
  unfold addNode at h
  simp only [Loops.bind_eq_ok] at h
  obtain ⟨nn, hl, nn', hs, p, hr, hc⟩ := h
  obtain ⟨nn'', hext, -, htype, hgood⟩ :=
    (addConnection_appends overlay_mode).addNode hmode hr hc (nodeSystem_bare hs (nodeLabel_bare hl))
  exact ⟨nn'', hext, htype, hgood⟩

/-- A node of a simulated network when it is parsed. -/
structure NetworkNode.Fresh (nn : NetworkNode) : Prop where
  deviceOffset : nn.deviceOffset = 0
  connections : ∀ nc ∈ nn.connections, nc.Fresh nn.label

theorem addNS3Node_extends {node : NodeSetting} (h : addNS3Node dm node = .ok dm') :
    ∃ nn, Extends dm dm' [nn] ∧ nn.Fresh := by
  unfold addNS3Node at h
  simp only [Loops.bind_eq_ok] at h
  obtain ⟨nn, hl, p, hr, hc⟩ := h
  obtain ⟨nn', hext, hdev, -, hgood⟩ :=
    (addNS3Connection_appends dm.overlay_mode).addNode rfl hr hc (nodeLabel_bare hl)
  refine ⟨nn', hext, hdev, ?_⟩
  intro nc hnc
  obtain ⟨connection, -, hfresh⟩ := Loops.forall₂_left hgood hnc
  exact hfresh

theorem Extends.foldlM {nodes : List NodeSetting} {R : NodeSetting → NetworkNode → Prop}
    {add : Domain → NodeSetting → Except String Domain} (h : nodes.foldlM add dm = .ok dm')
    (hadd : ∀ dm₁ node dm₂, dm₁.overlay_mode = dm.overlay_mode → add dm₁ node = .ok dm₂ →
      ∃ nn, Extends dm₁ dm₂ [nn] ∧ R node nn) :
    ∃ nns, Extends dm dm' nns ∧ List.Forall₂ R nodes nns := by
  refine Loops.foldlM_done (I := fun done s => ∃ nns, Extends dm s nns ∧ List.Forall₂ R done nns)
    h ⟨[], .refl dm, .nil⟩ ?_
  rintro done node s s' - ⟨nns, hext, hR⟩ hstep
  obtain ⟨nn, hext', hnn⟩ := hadd _ _ _ hext.overlay_mode hstep
  exact ⟨nns ++ [nn], hext.trans hext', List.rel_append hR (.cons hnn .nil)⟩

/-- The counters of a domain that is built: `plNodes` is what the list of packet nodes has. -/
structure Counted (dm : Domain) (plNodes : Nat) : Prop where
  nodes : dm.number_of_nodes = dm.network_nodes.length
  pl_nodes : dm.number_of_pl_nodes = plNodes
  connections : dm.number_of_connections = dm.connections.length
  p_connections : dm.number_of_p_connections = dm.connections.countP (·.lnk_type = "pp")

/-- What the parser starts from when the lengths and the mode are read. -/
structure Domain.Unlisted (dm : Domain) : Prop where
  network_nodes : dm.network_nodes = []
  number_of_connections : dm.number_of_connections = 0
  number_of_p_connections : dm.number_of_p_connections = 0

theorem Extends.counted (h : Extends dm dm' nns) (h0 : dm.Unlisted)
    (hn : dm.number_of_nodes = nns.length) : Counted dm' dm.number_of_pl_nodes where
  nodes := by rw [h.number_of_nodes, h.nodes, h0.network_nodes, List.nil_append, hn]
  pl_nodes := h.number_of_pl_nodes
  connections := by
    rw [h.connections, Domain.connections, h.nodes, h0.network_nodes, h0.number_of_connections,
      Nat.zero_add, List.nil_append]
  p_connections := by
    rw [h.p_connections, Domain.connections, h.nodes, h0.network_nodes, h0.number_of_p_connections,
      Nat.zero_add, List.nil_append]

theorem getGlobalDomainParameters_unlisted {id : BitVec 64}
    (h : getGlobalDomainParameters (.new id) cfg = .ok dm) :
    dm.Unlisted ∧ dm.number_of_nodes = 0 ∧ dm.number_of_pl_nodes = 0 ∧
      dm.overlay_mode = cfg.OVERLAY_MODE.getD "" := by
  unfold getGlobalDomainParameters at h
  split at h
  · cases h
  · cases h
  · obtain rfl := Loops.pure_eq_ok.mp h
    exact ⟨⟨rfl, rfl, rfl⟩, rfl, rfl, rfl⟩

theorem buildNetworkDomain_counted {id : BitVec 64} (h : buildNetworkDomain (.new id) cfg = .ok dm)
    (hmode : dm.overlay_mode ≠ "mac_ml") : Counted dm 0 := by
  unfold buildNetworkDomain at h
  obtain ⟨dm₀, hparams, h⟩ := Loops.bind_eq_ok.mp h
  obtain ⟨h0, hn, hpl, -⟩ := getGlobalDomainParameters_unlisted hparams
  split at h
  · split at h
    · cases h
    · obtain ⟨nns, hext, hR⟩ := Extends.foldlM h fun _ _ _ hm => addNode_extends hm
      rw [← hpl]
      exact hext.counted ⟨h0.1, h0.2, h0.3⟩ hR.length_eq
  · next hml =>
    split at h
    · obtain ⟨dm₁, h1, h2⟩ := Loops.bind_eq_ok.mp h
      obtain ⟨nns, hext, -⟩ := Extends.foldlM h1 fun _ _ _ hm => addNode_extends hm
      obtain ⟨nns', hext', -⟩ := Extends.foldlM h2 fun _ _ _ hm => addNode_extends hm
      exact absurd ((hext.trans hext').overlay_mode.trans (not_not.mp hml)) hmode
    · obtain rfl := Loops.pure_eq_ok.mp h
      exact absurd (not_not.mp hml) hmode

/-- The nodes of a `mac_ml` file. Without one of the lists the other is not read. -/
def Config.listed (cfg : Config) : List NodeSetting :=
  match cfg.ol_nodes, cfg.pl_nodes with
  | some ol_nodes, some pl_nodes => ol_nodes ++ pl_nodes
  | _, _ => []

/-- How many nodes are listed as packet nodes. -/
def Config.plNodes (cfg : Config) : Nat :=
  match cfg.ol_nodes, cfg.pl_nodes with
  | some _, some pl_nodes => pl_nodes.length
  | _, _ => 0

theorem buildNetworkDomain_ml {id : BitVec 64} (h : buildNetworkDomain (.new id) cfg = .ok dm)
    (hmode : dm.overlay_mode = "mac_ml") : Counted dm cfg.plNodes ∧
      List.Forall₂ (NodeSetting.Read "mac_ml") cfg.listed dm.network_nodes := by
  unfold buildNetworkDomain at h
  obtain ⟨dm₀, hparams, h⟩ := Loops.bind_eq_ok.mp h
  obtain ⟨h0, hn, hpl, -⟩ := getGlobalDomainParameters_unlisted hparams
  split at h
  · next hml =>
    split at h
    · cases h
    · obtain ⟨nns, hext, -⟩ := Extends.foldlM h fun _ _ _ hm => addNode_extends hm
      exact absurd (hext.overlay_mode.symm.trans hmode) hml
  · next hml =>
    have hml := not_not.mp hml
    unfold Config.plNodes Config.listed
    split at h
    · obtain ⟨dm₁, h1, h2⟩ := Loops.bind_eq_ok.mp h
      obtain ⟨nns, hext, hR⟩ :=
        Extends.foldlM h1 fun _ _ _ hm => addNode_extends (hm.trans hml)
      obtain ⟨nns', hext', hR'⟩ :=
        Extends.foldlM h2 fun _ _ _ hm => addNode_extends (hm.trans (hext.overlay_mode.trans hml))
      have hall := hext.trans hext'
      refine ⟨hall.counted ⟨h0.1, h0.2, h0.3⟩ ?_, ?_⟩
      · rw [List.length_append, hR.length_eq, hR'.length_eq]
      · rw [hall.nodes, h0.network_nodes, List.nil_append]
        exact List.rel_append hR hR'
    · obtain rfl := Loops.pure_eq_ok.mp h
      refine ⟨?_, ?_⟩
      · rw [← hpl]
        exact (Extends.refl dm₀).counted h0 hn
      · rw [h0.network_nodes]
        exact .nil

theorem buildNS3NetworkDomain_counted {id : BitVec 64} (h : buildNS3NetworkDomain (.new id) cfg = .ok dm) :
    Counted dm 0 ∧ ∀ nn ∈ dm.network_nodes, nn.Fresh := by
  unfold buildNS3NetworkDomain at h
  obtain ⟨dm₀, hparams, h⟩ := Loops.bind_eq_ok.mp h
  obtain ⟨h0, hn, hpl, -⟩ := getGlobalDomainParameters_unlisted hparams
  split at h
  · cases h
  · obtain ⟨nns, hext, hR⟩ := Extends.foldlM (R := fun _ nn => nn.Fresh) h
      fun _ _ _ _ => addNS3Node_extends
    refine ⟨?_, ?_⟩
    · rw [← hpl]
      exact hext.counted ⟨h0.1, h0.2, h0.3⟩ hR.length_eq
    · rw [hext.nodes, h0.network_nodes, List.nil_append]
      intro nn hnn
      obtain ⟨node, -, hfresh⟩ := Loops.forall₂_left hR hnn
      exact hfresh

end Blackadder.Deployment
