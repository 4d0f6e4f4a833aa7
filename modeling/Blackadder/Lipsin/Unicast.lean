import Blackadder.Lipsin.Assignment
import Blackadder.Lipsin.Delivery
import Blackadder.Lipsin.Multicast

/-!
# Delivery along one path

The identifier of a shortest path names its links and the node at its end.
-/

namespace Blackadder

namespace Topology

open Bitvector

variable {V Addr : Type*} [DecidableEq V] [DecidableEq Addr] {t : Topology V Addr}
  {getShortestPath : V → V → List V} {getEid : V → V → Link V Addr} {s d : V} {p : Packet}
  {σ : NetState V Addr} {n : Nat}

/-- The links of the path that igraph finds. -/
def route (t : Topology V Addr) (getShortestPath : V → V → List V) (getEid : V → V → Link V Addr)
    (s d : V) : List (Link V Addr) :=
  (t.igraph getShortestPath getEid).pathEdges (getShortestPath s d)

/-- igraph keeps what it promises of this topology. -/
structure Routes (t : Topology V Addr) (getShortestPath : V → V → List V)
    (getEid : V → V → Link V Addr) : Prop where
  edges : (t.igraph getShortestPath getEid).ReturnsEdges Link.source Link.target t.links
  paths : (t.igraph getShortestPath getEid).FindsPaths t.Adj

omit [DecidableEq V] [DecidableEq Addr] in
theorem Routes.shortest (h : t.Routes getShortestPath getEid) (hreach : Relation.ReflTransGen t.Adj s d) :
    Walks.IsShortest t.Adj s d (getShortestPath s d) := (h.paths s d).1 hreach

omit [DecidableEq V] [DecidableEq Addr] in
theorem Routes.no_path (h : t.Routes getShortestPath getEid) (hreach : ¬ Relation.ReflTransGen t.Adj s d) :
    getShortestPath s d = [] := (h.paths s d).2 hreach

omit [DecidableEq V] [DecidableEq Addr] in
theorem Routes.mem_links (h : t.Routes getShortestPath getEid) :
    ∀ e ∈ t.route getShortestPath getEid s d, e ∈ t.links := by
  refine mem_links_of_mem_pathEdges h.edges ?_
  by_cases hreach : Relation.ReflTransGen t.Adj s d
  · exact (h.shortest hreach).chain
  · rw [h.no_path hreach]
    exact .nil

/-- The identifier of a path is that of its links and of its end. -/
theorem Routes.calculateFID_eq (h : t.Routes getShortestPath getEid) (s d : V) :
    (t.igraph getShortestPath getEid).calculateFID s d =
      t.treeFID (t.route getShortestPath getEid s d).toFinset {d} := by
  have hFID : (t.igraph getShortestPath getEid).calculateFID s d =
      orString ((t.route getShortestPath getEid s d).foldl (fun result e => orString result e.LID) 0)
        (t.iLID d) := rfl
  have hor : (t.route getShortestPath getEid s d).foldl (fun result e => orString result e.LID) 0 =
      (t.route getShortestPath getEid s d).foldl (fun result e => result ||| parse e.LID) 0 :=
    List.foldl_ext _ _ _ fun result e he => orString_eq (t.LID_length e (h.mem_links e he))
  rw [hFID, orString_eq (t.iLID_length d), hor]
  apply BitVec.eq_of_getLsbD_eq
  intro i _
  have hbits := TMIgraph.getLsbD_foldl_or (i := i) (fun e : Link V Addr => parse e.LID)
    (t.route getShortestPath getEid s d) 0
  rw [Bool.eq_iff_iff, treeFID, BitVec.getLsbD_or, BitVec.getLsbD_or, Bool.or_eq_true, Bool.or_eq_true,
    getLsbD_orAll, getLsbD_orAll, hbits]
  simp

omit [DecidableEq V] [DecidableEq Addr] in
theorem Routes.ends (h : t.Routes getShortestPath getEid) (hreach : Relation.ReflTransGen t.Adj s d) :
    s :: (t.route getShortestPath getEid s d).map Link.target = getShortestPath s d ∧
      (t.route getShortestPath getEid s d).map Link.source = (getShortestPath s d).dropLast := by
  have hpath := h.shortest hreach
  obtain ⟨rest, hrest⟩ := List.head?_eq_some_iff.mp hpath.head
  unfold route
  rw [hrest] at hpath ⊢
  exact pathEdges_ends h.edges hpath.chain

omit [DecidableEq V] [DecidableEq Addr] in
theorem Routes.nodup (h : t.Routes getShortestPath getEid) (s d : V) :
    (t.route getShortestPath getEid s d).Nodup := by
  by_cases hreach : Relation.ReflTransGen t.Adj s d
  · have hpath := (h.shortest hreach).nodup
    rw [← (h.ends hreach).1, List.nodup_cons] at hpath
    exact hpath.2.of_map
  · rw [route, h.no_path hreach]
    exact .nil

end Topology

end Blackadder
