import Blackadder.Lib.Walk
import Blackadder.Lipsin.BitVector

/-!
# The graph of the topology manager

The functions of igraph that `TMIgraph` calls are fields. Vertices stand for the node
identifiers that `reverse_node_index` looks up.
-/

namespace Blackadder

/-- `graph`, with edges of type `E`. -/
structure TMIgraph (V E : Type*) where
  /-- `igraph_cattribute_EAS(&graph, "LID", eid)`. -/
  LID : E → List Char
  /-- `igraph_cattribute_VAS(&graph, "iLID", vertex_id)`. -/
  iLID : V → List Char
  /-- `igraph_get_shortest_paths` for one destination. -/
  getShortestPath : V → V → List V
  getEid : V → V → E

namespace TMIgraph

open Bitvector

variable {V E : Type*}

/-- The edges between the vertices of a path. -/
def pathEdges (g : TMIgraph V E) : List V → List E
  | u :: v :: path => g.getEid u v :: g.pathEdges (v :: path)
  | _ => []

/-- `calculateFID(source, destination)`. -/
def calculateFID (g : TMIgraph V E) (source destination : V) : Bitvector :=
  let result := (g.pathEdges (g.getShortestPath source destination)).foldl
    (fun result eid => orString result (g.LID eid)) 0
  orString result (g.iLID destination)

/-! ## What igraph promises -/

def ReturnsShortestPaths (g : TMIgraph V E) (adj : V → V → Prop) : Prop :=
  ∀ u v, Relation.ReflTransGen adj u v → Walks.IsShortest adj u v (g.getShortestPath u v)

def ReturnsEdges (g : TMIgraph V E) (source target : E → V) (edges : List E) : Prop :=
  ∀ e ∈ edges, g.getEid (source e) (target e) ∈ edges ∧
    source (g.getEid (source e) (target e)) = source e ∧
    target (g.getEid (source e) (target e)) = target e

variable {g : TMIgraph V E} {s d : V}

theorem foldl_or_includes (LID : E → Bitvector) (es : List E) (FID : Bitvector) :
    (es.foldl (fun FID e => FID ||| LID e) FID).Includes FID ∧
      ∀ e ∈ es, (es.foldl (fun FID e => FID ||| LID e) FID).Includes (LID e) := by
  induction es generalizing FID with
  | nil => exact ⟨.refl _, by simp⟩
  | cons e es ih =>
    obtain ⟨hFID, hrest⟩ := ih (FID ||| LID e)
    refine ⟨hFID.trans (includes_or_left _ _), List.forall_mem_cons.mpr ⟨?_, hrest⟩⟩
    exact hFID.trans (includes_or_right _ _)

theorem foldl_includes {es : List E} (hes : ∀ e ∈ es, (g.LID e).length = fidBits)
    (result : Bitvector) :
    (es.foldl (fun result eid => orString result (g.LID eid)) result).Includes result ∧
    ∀ e ∈ es, (es.foldl (fun result eid => orString result (g.LID eid)) result).Includes
      (parse (g.LID e)) := by
  have hor : es.foldl (fun result eid => orString result (g.LID eid)) result =
      es.foldl (fun result eid => result ||| parse (g.LID eid)) result :=
    List.foldl_ext _ _ _ fun result e he => orString_eq (hes e he)
  rw [hor]
  exact foldl_or_includes (fun e => parse (g.LID e)) es result

theorem calculateFID_includes (hiLID : (g.iLID d).length = fidBits)
    (hLID : ∀ e ∈ g.pathEdges (g.getShortestPath s d), (g.LID e).length = fidBits) :
    (g.calculateFID s d).Includes (parse (g.iLID d)) ∧
    ∀ e ∈ g.pathEdges (g.getShortestPath s d), (g.calculateFID s d).Includes (parse (g.LID e)) := by
  rw [calculateFID, orString_eq hiLID]
  refine ⟨includes_or_right _ _, fun e he => ?_⟩
  exact (includes_or_left _ _).trans ((foldl_includes hLID 0).2 e he)

end TMIgraph

end Blackadder
