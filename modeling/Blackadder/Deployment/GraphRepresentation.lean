import Blackadder.Deployment.ClickFiles
import Blackadder.Lipsin.TMIgraph

/-!
# The graph of a domain

`GraphRepresentation` numbers the labels of a domain and keeps the identifiers as attributes of
igraph. Of the functions of igraph that search, the results are arguments.
-/

namespace Blackadder.Deployment

/-- An edge of `igraph`, with its attribute `LID`. -/
structure IEdge where
  source : Nat
  target : Nat
  LID : List Char
deriving DecidableEq

/-- `igraph` with the attributes that are read again. `reverse_node_index` finds a vertex by its
`NODEID`. -/
structure GraphRepresentation where
  NODEID : List String
  edges : List IEdge
  iLID : Nat → List Char
  NTYPE : Nat → String

namespace GraphRepresentation

/-! ## `buildIGraphTopology` -/

/-- The vertex of a label, which is added when it is new. -/
def addVertex (NODEID : List String) (label : String) : Nat × List String :=
  match findOffset NODEID label with
  | none => (NODEID.length, NODEID ++ [label])
  | some vertex => (vertex, NODEID)

/-- The turn of the loop for one connection. -/
def addConnection (unconnected : Bool) (g : List String × List IEdge) (nc : NetworkConnection) :
    List String × List IEdge :=
  let (source, NODEID) := addVertex g.1 nc.src_label
  let (target, NODEID) := addVertex NODEID nc.dst_label
  (NODEID, if unconnected then g.2 else g.2 ++ [⟨source, target, nc.LID.to_string⟩])

/-- A node without connections has a temporary one to itself, and no edge for it. -/
def addNode (g : List String × List IEdge) (nn : NetworkNode) : List String × List IEdge :=
  if nn.connections = [] then
    addConnection true g { NetworkConnection.new with src_label := nn.label, dst_label := nn.label }
  else nn.connections.foldl (addConnection false) g

/-- The turn of the second loop for one attribute. -/
def setVertex {α : Type} (NODEID : List String) (value : NetworkNode → α) (values : Nat → α)
    (nn : NetworkNode) : Nat → α :=
  match findOffset NODEID nn.label with
  | none => values
  | some vertex_index => Function.update values vertex_index (value nn)

def setAttribute {α : Type} (NODEID : List String) (value : NetworkNode → α) (nns : List NetworkNode)
    (values : Nat → α) : Nat → α :=
  nns.foldl (setVertex NODEID value) values

def buildIGraphTopology (dm : Domain) : GraphRepresentation :=
  let (NODEID, edges) := dm.network_nodes.foldl addNode ([], [])
  { NODEID
    edges
    iLID := setAttribute NODEID (·.iLid.to_string) dm.network_nodes fun _ => []
    NTYPE := if dm.overlay_mode = "mac_ml" then
        setAttribute NODEID (·.type) dm.network_nodes fun _ => ""
      else fun _ => "" }

/-! ## `calculateFID` -/

abbrev Vertex (gr : GraphRepresentation) : Type := Fin gr.NODEID.length

/-- The graph with what igraph finds in it. -/
def igraph (gr : GraphRepresentation) (getShortestPath : gr.Vertex → gr.Vertex → List gr.Vertex)
    (getEid : gr.Vertex → gr.Vertex → Nat) : TMIgraph gr.Vertex Nat where
  LID eid := (gr.edges[eid]?.map (·.LID)).getD []
  iLID v := gr.iLID v
  getShortestPath := getShortestPath
  getEid := getEid

/-- The loop over one string. -/
def orString (bits : Nat) (result : Bitvector) (s : List Char) : Bitvector :=
  (List.range bits).foldl
    (fun result k => if s[k]? = some '1' then result.setBit (bits - k - 1) else result) result

variable {gr : GraphRepresentation}

/-- `GraphRepresentation::calculateFID`. A label that is not found gives no bit. -/
def calculateFID (dm : Domain) (g : TMIgraph gr.Vertex Nat) (source destination : String) : Bitvector :=
  let bits := dm.fid_len * 8
  let result := Bitvector.ofSize bits
  match gr.NODEID.finIdxOf? source with
  | none => result
  | some start =>
    if dm.overlay_mode = "mac_ml" ∧ (gr.NTYPE start).toList.head? ≠ some 'P' then result
    else
      match gr.NODEID.finIdxOf? destination with
      | none => result
      | some vertex_id =>
        let result := (g.pathEdges (g.getShortestPath start vertex_id)).foldl
          (fun result eid => orString bits result (g.LID eid)) result
        orString bits result (g.iLID vertex_id)

end GraphRepresentation

variable {dm : Domain} {gr : GraphRepresentation} {NODEID NODEID' : List String} {label : String}
  {nc : NetworkConnection} {nn : NetworkNode} {edges : List IEdge}

namespace GraphRepresentation

/-! ## Vertices and edges -/

/-- The edge joins the vertices of the labels. -/
structure Joins (NODEID : List String) (nc : NetworkConnection) (e : IEdge) : Prop where
  source : NODEID[e.source]? = some nc.src_label
  target : NODEID[e.target]? = some nc.dst_label
  LID : e.LID = nc.LID.to_string

theorem getElem?_of_isPrefix {α : Type*} {l l' : List α} {i : Nat} {x : α} (h : l <+: l')
    (hx : l[i]? = some x) : l'[i]? = some x := by
  obtain ⟨rest, rfl⟩ := h
  exact List.getElem?_append_left (List.getElem?_eq_some_iff.mp hx).1 ▸ hx

theorem Joins.mono {e : IEdge} (h : Joins NODEID nc e) (hpre : NODEID <+: NODEID') : Joins NODEID' nc e :=
  ⟨getElem?_of_isPrefix hpre h.source, getElem?_of_isPrefix hpre h.target, h.LID⟩

theorem findOffset_eq_some {i : Nat} (h : findOffset NODEID label = some i) : NODEID[i]? = some label := by
  obtain ⟨hi, hlabel, -⟩ := List.findIdx?_eq_some_iff_getElem.mp h
  rw [List.getElem?_eq_getElem hi]
  simpa using hlabel

theorem findOffset_eq_none (h : findOffset NODEID label = none) : label ∉ NODEID := by
  intro hmem
  have hne := List.findIdx?_eq_none_iff.mp h label hmem
  simp at hne

/-- The labels are listed once each, in the order in which they came. -/
structure Numbers (labels : List String) (NODEID : List String) : Prop where
  nodup : NODEID.Nodup
  mem : ∀ x, x ∈ NODEID ↔ x ∈ labels

theorem addVertex_spec {labels : List String} (h : Numbers labels NODEID) (label : String) :
    NODEID <+: (addVertex NODEID label).2 ∧ Numbers (labels ++ [label]) (addVertex NODEID label).2 ∧
      (addVertex NODEID label).2[(addVertex NODEID label).1]? = some label := by
  unfold addVertex
  split
  · next hnone =>
    have hnew := findOffset_eq_none hnone
    refine ⟨List.prefix_append _ _, ⟨?_, fun x => ?_⟩, by simp⟩
    · exact List.nodup_append.mpr ⟨h.nodup, by simp, by
        rintro a ha b hb rfl
        exact hnew (List.mem_singleton.mp hb ▸ ha)⟩
    · rw [List.mem_append, List.mem_append, h.mem]
  · next vertex hsome =>
    have hlabel := findOffset_eq_some hsome
    refine ⟨List.prefix_refl _, ⟨h.nodup, fun x => ?_⟩, hlabel⟩
    rw [List.mem_append, h.mem, List.mem_singleton, iff_self_or]
    rintro rfl
    exact (h.mem _).mp (List.mem_of_getElem? hlabel)

/-- What the first loop has made of connections, and of the labels that it met. -/
structure Built (labels : List String) (ncs : List NetworkConnection) (g : List String × List IEdge) :
    Prop where
  numbers : Numbers labels g.1
  edges : List.Forall₂ (Joins g.1) ncs g.2

variable {labels : List String} {ncs : List NetworkConnection} {g : List String × List IEdge}

theorem Built.addConnection (h : Built labels ncs g) (unconnected : Bool) (nc : NetworkConnection) :
    Built (labels ++ [nc.src_label] ++ [nc.dst_label]) (ncs ++ if unconnected then [] else [nc])
      (addConnection unconnected g nc) := by
  obtain ⟨hpre, hnum, hsource⟩ := addVertex_spec h.numbers nc.src_label
  obtain ⟨hpre', hnum', htarget⟩ := addVertex_spec hnum nc.dst_label
  have hedges := h.edges.imp fun _ _ hj => hj.mono (hpre.trans hpre')
  refine ⟨hnum', ?_⟩
  unfold GraphRepresentation.addConnection
  cases unconnected with
  | true => simpa using hedges
  | false =>
    refine List.rel_append hedges (.cons ⟨?_, htarget, rfl⟩ .nil)
    exact getElem?_of_isPrefix hpre' hsource

theorem Built.congr {labels' : List String} (h : Built labels ncs g)
    (hmem : ∀ x, x ∈ labels ↔ x ∈ labels') : Built labels' ncs g :=
  ⟨⟨h.numbers.nodup, fun x => (h.numbers.mem x).trans (hmem x)⟩, h.edges⟩

/-- The labels that the first loop meets at a node. -/
def nodeLabels (nn : NetworkNode) : List String :=
  if nn.connections = [] then [nn.label] else nn.connections.flatMap fun nc => [nc.src_label, nc.dst_label]

theorem Built.foldl_addConnection (h : Built labels ncs g) (ncs' : List NetworkConnection) :
    Built (labels ++ ncs'.flatMap fun nc => [nc.src_label, nc.dst_label]) (ncs ++ ncs')
      (ncs'.foldl (GraphRepresentation.addConnection false) g) := by
  induction ncs' generalizing labels ncs g with
  | nil => simpa using h
  | cons nc ncs' ih => simpa using ih (h.addConnection false nc)

theorem Built.addNode (h : Built labels ncs g) (nn : NetworkNode) :
    Built (labels ++ nodeLabels nn) (ncs ++ nn.connections) (addNode g nn) := by
  unfold GraphRepresentation.addNode nodeLabels
  split
  · next hnil =>
    rw [hnil]
    have hb := h.addConnection true
      { NetworkConnection.new with src_label := nn.label, dst_label := nn.label }
    exact hb.congr fun x => by simp
  · exact h.foldl_addConnection nn.connections

theorem buildIGraphTopology_built (dm : Domain) :
    Built (dm.network_nodes.flatMap nodeLabels) dm.connections
      ((buildIGraphTopology dm).NODEID, (buildIGraphTopology dm).edges) := by
  have hloop : ∀ (nns : List NetworkNode) labels ncs g, Built labels ncs g →
      Built (labels ++ nns.flatMap nodeLabels) (ncs ++ nns.flatMap (·.connections)) (nns.foldl addNode g) := by
    intro nns
    induction nns with
    | nil => intro labels ncs g h; simpa using h
    | cons nn nns ih => intro labels ncs g h; simpa using ih _ _ _ (h.addNode nn)
  exact hloop dm.network_nodes [] [] ([], []) ⟨⟨.nil, by simp⟩, .nil⟩

theorem findOffset_of_nodup (h : NODEID.Nodup) {i : Nat} (hi : NODEID[i]? = some label) :
    findOffset NODEID label = some i := by
  cases hfind : findOffset NODEID label with
  | none => exact absurd (List.mem_of_getElem? hi) (findOffset_eq_none hfind)
  | some j =>
    obtain ⟨hj, -⟩ := List.getElem?_eq_some_iff.mp (findOffset_eq_some hfind)
    rw [(List.getElem?_inj hj h).mp ((findOffset_eq_some hfind).trans hi.symm)]

/-! ## Attributes -/

theorem setAttribute_of_ne {α : Type} {value : NetworkNode → α} {nns : List NetworkNode}
    {values : Nat → α} {i : Nat} (hi : NODEID[i]? = some label) (hne : ∀ nn ∈ nns, nn.label ≠ label) :
    setAttribute NODEID value nns values i = values i := by
  induction nns generalizing values with
  | nil => rfl
  | cons nn nns ih =>
    obtain ⟨hnn, hrest⟩ := List.forall_mem_cons.mp hne
    have hsame : setVertex NODEID value values nn i = values i := by
      cases hj : findOffset NODEID nn.label with
      | none => rw [setVertex, hj]
      | some j =>
        rw [setVertex, hj]
        refine Function.update_of_ne ?_ _ _
        rintro rfl
        exact hnn (Option.some.inj ((findOffset_eq_some hj).symm.trans hi))
    rw [setAttribute, List.foldl_cons]
    exact (ih hrest).trans hsame

/-- Every node sets the attribute of its own vertex. -/
theorem setAttribute_eq {α : Type} {value : NetworkNode → α} {nns : List NetworkNode}
    {values : Nat → α} (hnodup : NODEID.Nodup) (hlabels : (nns.map (·.label)).Nodup) (hnn : nn ∈ nns)
    {i : Nat} (hi : NODEID[i]? = some nn.label) : setAttribute NODEID value nns values i = value nn := by
  induction nns generalizing values with
  | nil => cases hnn
  | cons nn' nns ih =>
    rw [List.map_cons, List.nodup_cons] at hlabels
    rw [setAttribute, List.foldl_cons]
    obtain rfl | hmem := List.mem_cons.mp hnn
    · refine (setAttribute_of_ne hi ?_).trans ?_
      · intro nn' hnn' heq
        exact hlabels.1 (List.mem_map.mpr ⟨nn', hnn', heq⟩)
      · rw [setVertex, findOffset_of_nodup hnodup hi]
        exact Function.update_self _ _ _
    · exact ih hlabels.2 hmem

/-! ## The forwarding identifiers -/

theorem orString_eq (x : BitVec fidBits) (s : List Char) :
    orString fidBits ⟨fidBits, x⟩ s = ⟨fidBits, Blackadder.Bitvector.orString x s⟩ := by
  unfold orString Blackadder.Bitvector.orString
  generalize List.range fidBits = ks
  induction ks generalizing x with
  | nil => rfl
  | cons k ks ih =>
    rw [List.foldl_cons, List.foldl_cons]
    split
    · exact ih _
    · exact ih x

/-- The deployment tool and the topology manager get the same identifier from the same graph. -/
theorem calculateFID_eq {g : TMIgraph gr.Vertex Nat} {source destination : String} {s d : gr.Vertex}
    (hlen : dm.fid_len = 32) (hmode : dm.overlay_mode ≠ "mac_ml")
    (hs : gr.NODEID.finIdxOf? source = some s) (hd : gr.NODEID.finIdxOf? destination = some d) :
    calculateFID dm g source destination = ⟨fidBits, g.calculateFID s d⟩ := by
  have hloop : ∀ (eids : List Nat) (x : BitVec fidBits),
      eids.foldl (fun result eid => orString fidBits result (g.LID eid)) ⟨fidBits, x⟩ =
        ⟨fidBits, eids.foldl (fun result eid => Blackadder.Bitvector.orString result (g.LID eid)) x⟩ := by
    intro eids
    induction eids with
    | nil => exact fun x => rfl
    | cons eid eids ih =>
      intro x
      rw [List.foldl_cons, List.foldl_cons, orString_eq]
      exact ih _
  have hbits : dm.fid_len * 8 = fidBits := by rw [hlen]
  unfold calculateFID
  simp only [hs, hd, hbits, hmode, false_and, if_false]
  rw [TMIgraph.calculateFID, ← orString_eq]
  exact congrArg (orString fidBits · _) (hloop _ 0)

end GraphRepresentation

end Blackadder.Deployment
