import Blackadder.Lib.Walk
import Blackadder.Resilience.Broker

/-!
# Routes in a changing graph

A route of the manager is a walk of the graph, and its identifier carries it. Links that come and go
leave the walks over other links as they are.
-/

namespace Blackadder

open TMIgraph (Found)
open Bitvector (parse)

variable {V : Type}

/-! ## Edges with an identifier -/

def Adj (edges : List (LinkEdge V (List Char))) (u v : V) : Prop :=
  ∃ e ∈ edges, e.source = u ∧ e.target = v

/-- The identifier has the bits of a link from `u` to `v`. -/
def Carries (edges : List (LinkEdge V (List Char))) (FID : Bitvector) (u v : V) : Prop :=
  ∃ e ∈ edges, (e.source = u ∧ e.target = v) ∧ FID.Includes (parse e.LID)

instance [DecidableEq V] (edges : List (LinkEdge V (List Char))) : DecidableRel (Adj edges) := by
  intro u v
  unfold Adj
  infer_instance

/-- igraph finds a shortest path, or none when there is none. -/
def NodeIndex.ShortestPaths (x : NodeIndex V) : Prop :=
  ∀ edges u v, (Relation.ReflTransGen (Adj edges) u v →
      Walks.IsShortest (Adj edges) u v (x.shortest edges u v)) ∧
    (¬ Relation.ReflTransGen (Adj edges) u v → x.shortest edges u v = [])

variable {edges edges' : List (LinkEdge V (List Char))} {FID FID' : Bitvector} {u v p s : V}
  {w : List V}

theorem Carries.adj (h : Carries edges FID u v) : Adj edges u v := by
  obtain ⟨e, he, hends, -⟩ := h
  exact ⟨e, he, hends⟩

theorem Carries.mono (h : Carries edges FID u v)
    (hkept : ∀ e ∈ edges, e.source = u → e.target = v → e ∈ edges') (hinc : FID'.Includes FID) :
    Carries edges' FID' u v := by
  obtain ⟨e, he, ⟨hsource, htarget⟩, hLID⟩ := h
  exact ⟨e, hkept e he hsource htarget, ⟨hsource, htarget⟩, hinc.trans hLID⟩

/-! ## Changes of the graph -/

namespace LinkGraph

variable {L : Type} [DecidableEq V] {g g' : LinkGraph V L} {source destination : V} {net : Net}
  {pairs : List (V × V)} {e : LinkEdge V L}

theorem mem_removeEdges (h : g.removeEdges pairs = some g') (he : e ∈ g.edges)
    (hother : (e.source, e.target) ∉ pairs) : e ∈ g'.edges := by
  unfold removeEdges at h
  obtain ⟨eids, heids, h⟩ := Option.bind_eq_some_iff.mp h
  obtain ⟨removed, -, h⟩ := Option.bind_eq_some_iff.mp h
  obtain rfl := Option.some.inj h
  obtain ⟨i, hi⟩ := List.mem_iff_getElem?.mp he
  refine List.mem_map.mpr ⟨(e, i), List.mem_filter.mpr ⟨?_, ?_⟩, rfl⟩
  · exact List.mem_zipIdx_iff_getElem?.mpr hi
  · simp only [decide_eq_true_eq]
    intro hin
    obtain ⟨pair, hpair, hfind⟩ := (Wire.mem_mapM heids).mp hin
    obtain ⟨hlt, hends, -⟩ := List.findIdx?_eq_some_iff_getElem.mp hfind
    obtain ⟨_, hget⟩ := List.getElem?_eq_some_iff.mp hi
    rw [hget, decide_eq_true_eq] at hends
    rw [hends.1, hends.2] at hother
    exact hother hpair

theorem mem_restoreEdge {pair : V × V} {lid : L} (he : e ∈ g.edges) :
    e ∈ (g.restoreEdge pair lid).edges := List.mem_append_left _ he

variable [DecidableEq L]

theorem mem_edges_removed (h : g.updateGraph source destination net false = some g') (he : e ∈ g.edges)
    (hthere : ¬ (e.source = source ∧ e.target = destination))
    (hback : ¬ (e.source = destination ∧ e.target = source)) : e ∈ g'.edges := by
  obtain ⟨g₁, hchange, rfl⟩ := Option.map_eq_some_iff.mp h
  change e ∈ g₁.edges
  simp only [changeEdges, Bool.false_eq_true, if_false] at hchange
  split at hchange
  · split at hchange
    · obtain rfl := Option.some.inj hchange
      exact he
    · exact mem_removeEdges hchange he (by simp [hthere, hback])
  · split at hchange
    · obtain rfl := Option.some.inj hchange
      exact he
    · exact mem_removeEdges hchange he (by simp [hthere])
  · obtain rfl := Option.some.inj hchange
    exact he

theorem mem_edges_added (h : g.updateGraph source destination net true = some g') (he : e ∈ g.edges) :
    e ∈ g'.edges := by
  obtain ⟨g₁, hchange, rfl⟩ := Option.map_eq_some_iff.mp h
  change e ∈ g₁.edges
  simp only [changeEdges, if_true] at hchange
  split at hchange
  · obtain rfl := Option.some.inj hchange
    exact he
  · split at hchange <;> obtain rfl := Option.some.inj hchange
    · exact mem_restoreEdge (mem_restoreEdge he)
    · exact mem_restoreEdge he

theorem indexed_updateGraph {update_op : Bool} (h : g.updateGraph source destination net update_op = some g') :
    g'.Indexed := by
  obtain ⟨g₁, -, rfl⟩ := Option.map_eq_some_iff.mp h
  exact indexed_reindex g₁

end LinkGraph

/-! ## Routes -/

namespace NodeIndex

variable {x : NodeIndex V} {g : LinkGraph V (List Char)}

/-- A walk from `p` to `s`, and an identifier that carries it and opens the internal link of `s`. -/
structure Leads (x : NodeIndex V) (edges : List (LinkEdge V (List Char))) (FID : Bitvector) (p s : V)
    (w : List V) : Prop where
  walk : Walks.IsWalk (Adj edges) p s w
  links : w.IsChain (Carries edges FID)
  iLID : FID.Includes (parse (x.iLID s))

theorem Leads.mono (h : Leads x edges FID p s w) (hlinks : w.IsChain (Carries edges' FID'))
    (hinc : FID'.Includes FID) : Leads x edges' FID' p s w where
  walk := ⟨h.walk.head, h.walk.last, hlinks.imp fun _ _ => Carries.adj⟩
  links := hlinks
  iLID := hinc.trans h.iLID

variable [LinearOrder V]

theorem getEid_spec (hg : g.Indexed) (h : Adj g.edges u v) :
    ∃ e ∈ g.edges, (e.source = u ∧ e.target = v) ∧ (x.igraph g).LID ((x.igraph g).getEid u v) = e.LID := by
  obtain ⟨e, he, hsource, htarget⟩ := h
  cases hfind : g.getEid (u, v) with
  | none =>
    have hno := List.findIdx?_eq_none_iff.mp hfind e he
    simp [hsource, htarget] at hno
  | some eid =>
    obtain ⟨hlt, hends, -⟩ := List.findIdx?_eq_some_iff_getElem.mp hfind
    refine ⟨g.edges[eid], List.getElem_mem hlt, by simpa using hends, ?_⟩
    simp [igraph, hfind, hg.edge_LID, hlt]

/-- An identifier with the links of a walk carries it. -/
theorem isChain_carries (hg : g.Indexed) (hw : w.IsChain (Adj g.edges))
    (hinc : ∀ eid ∈ (x.igraph g).pathEdges w, FID.Includes (parse ((x.igraph g).LID eid))) :
    w.IsChain (Carries g.edges FID) := by
  induction w with
  | nil => exact .nil
  | cons u w ih =>
    cases w with
    | nil => exact .singleton u
    | cons v w =>
      rw [List.isChain_cons_cons] at hw ⊢
      rw [TMIgraph.pathEdges, List.forall_mem_cons] at hinc
      obtain ⟨e, he, hends, hLID⟩ := getEid_spec (x := x) hg hw.1
      exact ⟨⟨e, he, hends, hLID ▸ hinc.1⟩, ih hw.2 hinc.2⟩

/-- What the manager finds is a walk, and its identifier leads along it. -/
theorem leads_route (hx : x.ShortestPaths) (hg : g.Indexed) (h : Found (x.igraph g).route p s) :
    Leads x g.edges ((x.igraph g).route p s).FID p s ((x.igraph g).route p s).path := by
  have hreach : Relation.ReflTransGen (Adj g.edges) p s := by
    by_contra hno
    have hnil : (x.igraph g).getShortestPath p s = [] := (hx g.edges p s).2 hno
    simp [Found, TMIgraph.route, hnil] at h
  have hpath := (hx g.edges p s).1 hreach
  have hall := TMIgraph.foldl_or_includes (fun eid => parse ((x.igraph g).LID eid))
    ((x.igraph g).pathEdges ((x.igraph g).getShortestPath p s)) 0
  refine ⟨hpath.toIsWalk, isChain_carries (x := x) hg hpath.chain fun eid heid => ?_, ?_⟩
  · exact (Bitvector.includes_or_left _ _).trans (hall.2 eid heid)
  · exact Bitvector.includes_or_right _ _

/-- A reachable node is found: no shortest path is longer than the number of nodes. -/
theorem found_of_reach (hx : x.ShortestPaths) (hsmall : x.nodes.length ≤ 10 ^ 6)
    (h : Relation.ReflTransGen (Adj g.edges) p s) : Found (x.igraph g).route p s := by
  have hpath := (hx g.edges p s).1 h
  have hlen : (x.shortest g.edges p s).length ≤ x.nodes.length :=
    (List.subperm_of_subset hpath.nodup fun v _ => x.mem_nodes v).length_le
  have hpos : 0 < (x.shortest g.edges p s).length := by
    obtain ⟨rest, hrest⟩ := List.head?_eq_some_iff.mp hpath.head
    simp [hrest]
  have hmod : (x.shortest g.edges p s).length % 2 ^ 32 = (x.shortest g.edges p s).length :=
    Nat.mod_eq_of_lt (by omega)
  have hne : (x.shortest g.edges p s).length ≠ 0 := by omega
  have hhops : ((x.igraph g).route p s).numberOfHops = (x.shortest g.edges p s).length := by
    simp only [TMIgraph.route, igraph, hmod, if_neg hne]
  rw [Found, hhops, uintMax]
  omega

end NodeIndex

end Blackadder
