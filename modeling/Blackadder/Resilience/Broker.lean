import Blackadder.Lib.Registers
import Blackadder.Lib.StdSet
import Blackadder.Lipsin.Matching
import Blackadder.Qos.LinkWeights
import Blackadder.Resilience.Paths
import Mathlib.Data.Char
import Mathlib.Data.List.Lex

/-!
# The topology manager and its broker

With `RESI` the manager tells the broker, `TM_RV_BRK`, which paths an item uses. After a link failure
the broker asks for new paths in place of those over the link.
-/

namespace Blackadder

open TMIgraph (calculateFIDs)

/-- The nodes of the topology file, and the shortest paths of igraph between them. -/
structure NodeIndex (V : Type) where
  /-- The keys of `reverse_node_index`. -/
  nodes : List V
  vertex : V → Nat
  iLID : V → List Char
  shortest : List (LinkEdge V (List Char)) → V → V → List V
  mem_nodes : ∀ v, v ∈ nodes
  vertex_injective : Function.Injective vertex
  vertex_lt : ∀ v, vertex v < nodes.length

/-- A request of type `MATCH_PUB_SUBS`. -/
structure MatchPubSubs (V I : Type) where
  publishers : List V
  subscribers : List V
  info_id : I

/-- A publication of type `UPDATE_DELIVERY`. -/
structure UpdateDelivery (V I : Type) where
  info_id : I
  path_vectors : List (List Char)
  alt_publishers : List V

/-- The tables of the two processes, and what a publisher was told last about an item. -/
structure Recovery (V I : Type) where
  graph : LinkGraph V (List Char)
  path_info : I → Option (List (List Char))
  ex_pubs : I → Option (List V)
  /-- The publishers in the last request of the rendezvous element. -/
  publishers : I → List V
  /-- `START_PUBLISH` with an identifier, or `STOP_PUBLISH`. -/
  notified : I → V → Option (Option Bitvector)

/-- The two sets that the loops of the broker carry from item to item, and its requests so far. -/
structure LsnWalk (V I : Type) where
  publishers : List V
  subscribers : List V
  responses : List (MatchPubSubs V I)

/-- Counts and lengths are bytes. -/
def UpdateDelivery.Fits {V I : Type} (d : UpdateDelivery V I) : Prop :=
  d.path_vectors.length < 256 ∧ (∀ path ∈ d.path_vectors, path.length < 256) ∧
    d.alt_publishers.length < 256

instance {V I : Type} (d : UpdateDelivery V I) : Decidable d.Fits := by
  unfold UpdateDelivery.Fits
  infer_instance

namespace NodeIndex

variable {V I : Type} [LinearOrder V] (x : NodeIndex V)

/-- The search in `reverse_node_index` for a vertex id. -/
def nodeOf (vertex : Nat) : Option V := x.nodes.find? fun v => x.vertex v = vertex

/-- The manager's graph at this time. -/
def igraph (g : LinkGraph V (List Char)) : TMIgraph V Nat where
  LID eid := (g.edge_LID[eid]?).getD []
  iLID := x.iLID
  getShortestPath := x.shortest g.edges
  getEid u v := (g.getEid (u, v)).getD 0

/-- A `set<string>` of nodes. -/
def nodeSet (nodes : List V) : List V := StdSet.ofList (· ≤ ·) nodes

/-- `handleRequest` with `RESI`: what the publishers and the broker are told. `none` for a message
that does not fit. -/
def handleRequest (g : LinkGraph V (List Char)) (r : MatchPubSubs V I) :
    Option (List (V × Option Bitvector) × UpdateDelivery V I) := do
  let m ← calculateFIDs (x.igraph g).route (nodeSet r.publishers) (nodeSet r.subscribers)
  let d : UpdateDelivery V I := {
    info_id := r.info_id
    path_vectors := (m.result.filter fun e => e.2 ≠ none).flatMap fun e =>
      ((m.path_vectors.lookup e.1).getD []).map fun path => pathString (path.map x.vertex)
    alt_publishers := (m.result.filter fun e => e.2 = none).map Prod.fst }
  if d.Fits then return (m.result, d) else none

end NodeIndex

namespace Recovery

variable {V I : Type} [LinearOrder V] [DecidableEq I] (x : NodeIndex V) (σ : Recovery V I)

/-- The notifications for the entries of a result. -/
def notifyPublishers (info_id : I) (result : List (V × Option Bitvector)) : Recovery V I :=
  { σ with
    notified := Function.update σ.notified info_id
      (Registers.replay (σ.notified info_id) (result.map fun e => (e.1, some e.2))) }

/-- `update_info_delivery`. -/
def updateInfoDelivery (d : UpdateDelivery V I) : Recovery V I :=
  { σ with
    path_info := Function.update σ.path_info d.info_id
      (if d.path_vectors = [] then none else some (StdSet.ofList (· ≤ ·) d.path_vectors))
    ex_pubs := Function.update σ.ex_pubs d.info_id (some (NodeIndex.nodeSet d.alt_publishers)) }

/-- The manager serves a request, and the broker learns of it. -/
def serve (r : MatchPubSubs V I) : Option (Recovery V I) := do
  let (result, d) ← x.handleRequest σ.graph r
  return (σ.notifyPublishers r.info_id result).updateInfoDelivery d

/-- The ends of a path when it is cut. On an empty path the loop reads outside. -/
def checkPath (lsn_publisher_vtx lsn_neighbour_vtx : Nat) (path : List Char) :
    Option (Option (Nat × Nat)) :=
  match splitIntString path '/' with
  | [] => none
  | v :: vs =>
    if isCut lsn_publisher_vtx lsn_neighbour_vtx (v :: vs) then
      some (some (v, (v :: vs).getLast (List.cons_ne_nil v vs)))
    else some none

/-- The search for a vertex, whose node goes into the set. -/
def insertNode (nodes : List V) (vertex : Nat) : List V :=
  match x.nodeOf vertex with
  | some v => StdSet.insert (· ≤ ·) nodes v
  | none => nodes

/-- One turn of the loop over the paths of an item. -/
def examine (lsn_publisher_vtx lsn_neighbour_vtx : Nat) (walk : LsnWalk V I) (path : List Char) :
    Option (LsnWalk V I) := do
  match ← checkPath lsn_publisher_vtx lsn_neighbour_vtx path with
  | some (affected_pub, affected_sub) =>
    return { walk with
      publishers := insertNode x walk.publishers affected_pub
      subscribers := insertNode x walk.subscribers affected_sub }
  | none => return walk

/-- One turn of the loop over `path_info`. The sets are cleared only when there is a publisher. The
buffer has no room for more nodes than a byte counts. -/
def rematch (lsn_publisher_vtx lsn_neighbour_vtx : Nat) (walk : LsnWalk V I) (info_id : I) :
    Option (LsnWalk V I) := do
  let paths ← σ.path_info info_id
  let walk ← paths.foldlM (examine x lsn_publisher_vtx lsn_neighbour_vtx) walk
  if walk.publishers = [] then return walk
  else
    let alternatives ← σ.ex_pubs info_id
    let publishers := alternatives.foldl (StdSet.insert (· ≤ ·)) walk.publishers
    if publishers.length < 256 ∧ walk.subscribers.length < 256 then
      return ⟨[], [], walk.responses ++ [⟨publishers, walk.subscribers, info_id⟩]⟩
    else none

/-- `handle_lsn_request` of the broker, which walks `path_info` in this order. -/
def handleLsnRequest (order : List I) (lsn_publisher_vtx lsn_neighbour_vtx : Nat) :
    Option (List (MatchPubSubs V I)) := do
  let walk ← order.foldlM (σ.rematch x lsn_publisher_vtx lsn_neighbour_vtx) ⟨[], [], []⟩
  return walk.responses

end Recovery

/-- What arrives at the manager. -/
inductive Occurrence (V I : Type)
  | matchPubSubs (r : MatchPubSubs V I)
  /-- `order` is that of `path_info`. -/
  | linkFailure (lsn_publisher lsn_neighbour : V) (net_type : Net) (order : List I)
  | linkEstablishment (lsn_publisher lsn_neighbour : V) (net_type : Net)

namespace Recovery

variable {V I : Type} [LinearOrder V] [DecidableEq I] (x : NodeIndex V)

def new (edges : List (LinkEdge V (List Char))) : Recovery V I :=
  ⟨.new edges, fun _ => none, fun _ => none, fun _ => [], fun _ _ => none⟩

/-- An occurrence and everything that the two processes do about it. Vertex ids go to the broker as
bytes. -/
def next (σ : Recovery V I) : Occurrence V I → Option (Recovery V I)
  | .matchPubSubs r =>
    serve x { σ with publishers := Function.update σ.publishers r.info_id r.publishers } r
  | .linkFailure lsn_publisher lsn_neighbour net_type order => do
    let graph ← σ.graph.updateGraph lsn_neighbour lsn_publisher net_type false
    let requests ← σ.handleLsnRequest x order (x.vertex lsn_publisher % 256)
      (x.vertex lsn_neighbour % 256)
    requests.foldlM (serve x) { σ with graph := graph }
  | .linkEstablishment lsn_publisher lsn_neighbour net_type => do
    let graph ← σ.graph.updateGraph lsn_neighbour lsn_publisher net_type true
    return { σ with graph := graph }

/-- `order` has the keys of `path_info`. -/
def Allowed (σ : Recovery V I) : Occurrence V I → Prop
  | .linkFailure _ _ _ order => order.Nodup ∧ ∀ i, i ∈ order ↔ σ.path_info i ≠ none
  | _ => True

def Step (σ : Recovery V I) (o : Occurrence V I) (σ' : Recovery V I) : Prop :=
  σ.Allowed o ∧ σ.next x o = some σ'

end Recovery

end Blackadder
