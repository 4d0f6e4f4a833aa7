import Blackadder.Deployment.ClickTopology

/-!
# From a configuration file to the network

`deploy` parses the file, gives out the identifiers, builds the graph and writes the files of Click.
-/

namespace Blackadder.Deployment

variable {dm dm' : Domain} {nn : NetworkNode} {nc nc' : NetworkConnection} {cfg : Config}
  {overlay_mode : String} {connection : ConnectionSetting} {node : NodeSetting} {id : BitVec 64}
  {draws : List Nat}

/-! ## What the parser lists -/

/-- Connections start at the node that lists them, and the special nodes are listed. -/
structure Domain.Linked (dm : Domain) : Prop where
  own : ∀ nn ∈ dm.network_nodes, ∀ nc ∈ nn.connections, nc.src_label = nn.label
  RV : ∀ x ∈ dm.RV_node, x ∈ dm.network_nodes.map (·.label)
  TM : ∀ x ∈ dm.TM_node, x ∈ dm.network_nodes.map (·.label)

/-- Only identifiers were given out, one bit each. -/
structure Assigned (dm dm' : Domain) : Prop where
  nodes : SameNetwork dm.network_nodes dm'.network_nodes
  rest : dm' = { dm with network_nodes := dm'.network_nodes }
  nodup : dm'.allLIDs.Nodup
  single : ∀ l ∈ dm'.allLIDs, ∃ i < dm.fid_len * 8, l = .single (dm.fid_len * 8) i

namespace Assigned

theorem labels (h : Assigned dm dm') :
    dm'.network_nodes.map (·.label) = dm.network_nodes.map (·.label) := by
  rw [eq_comm, ← List.forall₂_eq_eq_eq, List.forall₂_map_left_iff, List.forall₂_map_right_iff]
  exact h.nodes.imp fun nn nn' hnn => by rw [hnn.1]

/-- A node as the parser listed it. -/
theorem exists_node {nn' : NetworkNode} (h : Assigned dm dm') (hnn' : nn' ∈ dm'.network_nodes) :
    ∃ nn ∈ dm.network_nodes, nn'.label = nn.label ∧ nn'.running_mode = nn.running_mode ∧
      ∀ nc' ∈ nn'.connections, ∃ nc ∈ nn.connections, nc'.src_label = nc.src_label ∧
        nc'.dst_label = nc.dst_label ∧ nc'.src_ip = nc.src_ip := by
  obtain ⟨nn, hnn, hsame, hncs⟩ := Loops.forall₂_left h.nodes hnn'
  refine ⟨nn, hnn, by rw [hsame], by rw [hsame], fun nc' hnc' => ?_⟩
  obtain ⟨nc, hnc, heq⟩ := Loops.forall₂_left hncs hnc'
  exact ⟨nc, hnc, by rw [heq], by rw [heq], by rw [heq]⟩

theorem RV_node (h : Assigned dm dm') : dm'.RV_node = dm.RV_node := by rw [h.rest]

theorem TM_node (h : Assigned dm dm') : dm'.TM_node = dm.TM_node := by rw [h.rest]

end Assigned

/-! ## The files that are written -/

variable {macs : NetworkConnection → String × String} {owner : String → dm.graph.Vertex}
  {rv tm v : dm.graph.Vertex} {getShortestPath : dm.graph.Vertex → dm.graph.Vertex → List dm.graph.Vertex}
  {getEid : dm.graph.Vertex → dm.graph.Vertex → Nat}

/-- A label that the parser listed is found again in the graph. -/
theorem Assigned.exists_vertex {x : String} (h : Assigned dm dm') (hn : dm'.Numbered)
    (hx : x ∈ dm.network_nodes.map (·.label)) : ∃ v : dm'.graph.Vertex, x = dm'.graph.labelOf v := by
  rw [← h.labels] at hx
  obtain ⟨nn, hnn, rfl⟩ := List.mem_map.mp hx
  obtain ⟨v, hv⟩ := hn.exists_vertex hnn
  exact ⟨v, hv.symm⟩

instance (gr : GraphRepresentation) : DecidableRel gr.Adj := fun u v =>
  inferInstanceAs (Decidable (∃ e ∈ gr.edges, e.source = u ∧ e.target = v))

namespace GraphRepresentation

end GraphRepresentation

end Blackadder.Deployment
