import Mathlib.Tactic.Common
import Blackadder.Lipsin.Topology
import Blackadder.Lipsin.TMIgraph

/-!
# Delivery along a shortest path

Topology manager and forwarders read the same strings. Bits beyond those of the path only
add copies.
-/

namespace Blackadder

namespace Topology

open Bitvector

variable {V Addr : Type*}

def Adj (t : Topology V Addr) (u v : V) : Prop := ∃ e ∈ t.links, e.source = u ∧ e.target = v

/-- The graph of the topology manager of this topology. -/
def igraph (t : Topology V Addr) (getShortestPath : V → V → List V)
    (getEid : V → V → Link V Addr) : TMIgraph V (Link V Addr) :=
  ⟨fun e => e.LID, t.iLID, getShortestPath, getEid⟩

variable [DecidableEq V] [DecidableEq Addr]

/-- The forwarder at the end of `e` sends the packet on over `e'`. -/
def Hop (t : Topology V Addr) (p : Packet) (e e' : Link V Addr) : Prop :=
  e'.source = e.target ∧
    .network e'.port (e'.frame p) ∈ (t.forwarder e.target).pushNetwork (e.frame p)

/-- The forwarders send the packet from `s` to `d` over the links `es`. -/
structure Follows (t : Topology V Addr) (s d : V) (p : Packet) (es : List (Link V Addr)) :
    Prop where
  first : ∀ e ∈ es.head?, e.source = s ∧
    .network e.port (e.frame p) ∈ (t.forwarder s).pushLocal p
  hops : es.IsChain (t.Hop p)
  last : ∀ e ∈ es.getLast?, e.target = d ∧
    .localProxy p.payload ∈ (t.forwarder d).pushNetwork (e.frame p)

variable {t : Topology V Addr} {getShortestPath : V → V → List V}
  {getEid : V → V → Link V Addr} {e e' : Link V Addr} {s d u v : V} {p : Packet}
  {path : List V} {es : List (Link V Addr)}

/-! ## The forwarders on the path -/

omit [DecidableEq Addr] in
theorem network_mem_pushLocal (he : e ∈ t.links) (hinc : p.FID.Includes (parse e.LID)) :
    .network e.port (e.frame p) ∈ (t.forwarder e.source).pushLocal p :=
  Forwarder.network_mem_pushLocal (entry_mem he) hinc

/-- A link that does not lead back takes the packet on, whatever else is in its identifier. -/
theorem hop (he : e ∈ t.links) (he' : e' ∈ t.links) (hnext : e'.source = e.target)
    (hback : e'.target ≠ e.source) (hinc : p.FID.Includes (parse e'.LID))
    (hones : p.FID ≠ BitVec.allOnes fidBits) : t.Hop p e e' := by
  have hentry : e'.toLinkConf.entry ∈ (t.forwarder e.target).fwTable := by
    rw [← hnext]
    exact entry_mem he'
  refine ⟨hnext, Forwarder.network_mem_pushNetwork hentry hinc hones ?_⟩
  rintro ⟨hsrc, -⟩
  have hsrc : e.src = e'.dst := hsrc
  apply hback
  rw [← t.dst_owner e' he', ← hsrc, t.src_owner e he]

theorem localProxy_mem_pushNetwork (hinc : p.FID.Includes (parse (t.iLID v))) :
    .localProxy p.payload ∈ (t.forwarder v).pushNetwork (e.frame p) := by
  have hinc' : (e.frame p).FID.Includes (t.forwarder v).gc.iLID := by
    rw [forwarder_iLID]
    exact hinc
  exact Forwarder.localProxy_mem_pushNetwork hinc'

/-! ## The edges of the path -/

section Edges

variable (hE : (t.igraph getShortestPath getEid).ReturnsEdges Link.source Link.target t.links)

include hE

omit [DecidableEq V] [DecidableEq Addr] in
theorem getEid_spec (hadj : t.Adj u v) :
    getEid u v ∈ t.links ∧ (getEid u v).source = u ∧ (getEid u v).target = v := by
  obtain ⟨e, he, rfl, rfl⟩ := hadj
  exact hE e he

omit [DecidableEq V] [DecidableEq Addr] in
theorem mem_links_of_mem_pathEdges (hpath : path.IsChain t.Adj) :
    ∀ e ∈ (t.igraph getShortestPath getEid).pathEdges path, e ∈ t.links := by
  induction path with
  | nil => simp [TMIgraph.pathEdges]
  | cons u path ih =>
    cases path with
    | nil => simp [TMIgraph.pathEdges]
    | cons v path =>
      rw [List.isChain_cons_cons] at hpath
      rw [TMIgraph.pathEdges, List.forall_mem_cons]
      exact ⟨(getEid_spec hE hpath.1).1, ih hpath.2⟩

omit [DecidableEq V] [DecidableEq Addr] in
theorem pathEdges_ends (hpath : (u :: path).IsChain t.Adj) :
    u :: ((t.igraph getShortestPath getEid).pathEdges (u :: path)).map Link.target = u :: path ∧
    ((t.igraph getShortestPath getEid).pathEdges (u :: path)).map Link.source =
      (u :: path).dropLast := by
  induction path generalizing u with
  | nil => simp [TMIgraph.pathEdges]
  | cons v path ih =>
    rw [List.isChain_cons_cons] at hpath
    obtain ⟨-, hsource, htarget⟩ := getEid_spec hE hpath.1
    obtain ⟨htargets, hsources⟩ := ih hpath.2
    rw [TMIgraph.pathEdges, List.map_cons, List.map_cons, List.dropLast_cons_cons, hsources]
    constructor
    · rw [show ((t.igraph getShortestPath getEid).getEid u v).target = v from htarget, htargets]
    · rw [show ((t.igraph getShortestPath getEid).getEid u v).source = u from hsource]

theorem pathEdges_hops (hpath : path.IsChain t.Adj) (hret : Walks.NoReturn path)
    (hinc : ∀ e ∈ (t.igraph getShortestPath getEid).pathEdges path, p.FID.Includes (parse e.LID))
    (hones : p.FID ≠ BitVec.allOnes fidBits) :
    ((t.igraph getShortestPath getEid).pathEdges path).IsChain (t.Hop p) := by
  induction path with
  | nil => exact .nil
  | cons u path ih =>
    match path with
    | [] => exact .nil
    | [_] => exact .singleton _
    | v :: w :: path =>
      have hinc' := (List.forall_mem_cons.mp hinc).2
      have hrest := ih hpath.tail hret.tail hinc'
      rw [List.isChain_cons_cons, List.isChain_cons_cons] at hpath
      obtain ⟨huv, hvw, -⟩ := hpath
      obtain ⟨he, hsource, htarget⟩ := getEid_spec hE huv
      obtain ⟨he', hsource', htarget'⟩ := getEid_spec hE hvw
      refine List.isChain_cons_cons.mpr ⟨?_, hrest⟩
      apply hop he he' (hsource'.trans htarget.symm) ?_ (hinc' _ List.mem_cons_self) hones
      rw [htarget', hsource]
      exact hret.ne.symm

end Edges

/-- The forwarders take the packet over all edges of a shortest path. -/
theorem follows (hE : (t.igraph getShortestPath getEid).ReturnsEdges Link.source Link.target t.links)
    (hpath : Walks.IsShortest t.Adj s d path)
    (hlinks : ∀ e ∈ (t.igraph getShortestPath getEid).pathEdges path, p.FID.Includes (parse e.LID))
    (hnode : p.FID.Includes (parse (t.iLID d)))
    (hones : p.FID = BitVec.allOnes fidBits → path.length = 2) :
    t.Follows s d p ((t.igraph getShortestPath getEid).pathEdges path) where
  first e he := by
    obtain ⟨path, rfl⟩ := List.head?_eq_some_iff.mp hpath.head
    cases path with
    | nil => cases he
    | cons v path =>
      obtain rfl : getEid s v = e := Option.some.inj he
      obtain ⟨hmem, hsource, -⟩ := getEid_spec hE (List.isChain_cons_cons.mp hpath.chain).1
      have hsend := network_mem_pushLocal hmem (hlinks _ List.mem_cons_self)
      rw [hsource] at hsend
      exact ⟨hsource, hsend⟩
  hops := by
    by_cases h : p.FID = BitVec.allOnes fidBits
    · obtain ⟨u, v, rfl⟩ := List.length_eq_two.mp (hones h)
      exact .singleton _
    · exact pathEdges_hops hE hpath.chain hpath.noReturn hlinks h
  last e he := by
    refine ⟨?_, localProxy_mem_pushNetwork hnode⟩
    obtain ⟨path, rfl⟩ := List.head?_eq_some_iff.mp hpath.head
    have hlast := hpath.last
    rw [← (pathEdges_ends hE hpath.chain).1, List.getLast?_cons, List.getLast?_map, he] at hlast
    exact Option.some.inj hlast

/-! ## The network -/

variable {σ σ' : NetState V Addr} {frame : Frame Addr} {x : Transmission V Addr}

theorem Step.sent_mono (h : t.Step σ frame σ') (hx : x ∈ σ.sent) : x ∈ σ'.sent := by
  obtain ⟨-, rfl⟩ := h
  exact Multiset.mem_add.mpr (Or.inl hx)

omit [DecidableEq V] [DecidableEq Addr] in
theorem emit_network {outs : List (Output Addr)}
    (h : .network e.port (e.frame p) ∈ outs) (hv : e.source = v) :
    e.frame p ∈ (emit v outs σ).inFlight ∧ e.transmission ∈ (emit v outs σ).sent := by
  subst hv
  constructor
  · exact Multiset.mem_add.mpr (Or.inr (List.mem_filterMap.mpr ⟨_, h, rfl⟩))
  · exact Multiset.mem_add.mpr (Or.inr (List.mem_filterMap.mpr ⟨_, h, rfl⟩))

omit [DecidableEq V] [DecidableEq Addr] in
theorem emit_localProxy {outs : List (Output Addr)} (h : .localProxy p.payload ∈ outs) :
    (v, p.payload) ∈ (emit v outs σ).delivered :=
  Multiset.mem_add.mpr (Or.inr (List.mem_filterMap.mpr ⟨_, h, rfl⟩))

section Fair

variable {r : Nat → NetState V Addr} {act : Nat → Option (Frame Addr)} {k k' : Nat}

theorem sent_stable (hr : Runs.FairRun t.Step r act) (hk : k ≤ k') (hx : x ∈ (r k).sent) :
    x ∈ (r k').sent :=
  hr.stable (fun _ _ _ => Step.sent_mono) hk hx

/-- A frame in flight is processed at some time. -/
theorem eventually_arrives (hr : Runs.FairRun t.Step r act) (he : e ∈ t.links)
    (hfly : e.frame p ∈ (r k).inFlight) :
    ∃ k', k ≤ k' ∧
      (∀ e', t.Hop p e e' → e'.frame p ∈ (r k').inFlight ∧ e'.transmission ∈ (r k').sent) ∧
      (.localProxy p.payload ∈ (t.forwarder e.target).pushNetwork (e.frame p) →
        (e.target, p.payload) ∈ (r k').delivered) := by
  obtain ⟨k', hk, -, hnext⟩ := hr.eventually ⟨_, hfly, rfl⟩
  have howner : t.owner (e.frame p).dst = e.target := t.dst_owner e he
  rw [howner] at hnext
  refine ⟨k' + 1, by omega, fun e' hhop => ?_, fun hlocal => ?_⟩
  · rw [hnext]
    exact emit_network hhop.2 hhop.1
  · rw [hnext]
    exact emit_localProxy hlocal

/-- From a link on the way the packet goes on to the end of the way. -/
theorem eventually_delivered (hr : Runs.FairRun t.Step r act) (hes : ∀ e' ∈ e :: es, e' ∈ t.links)
    (hhops : (e :: es).IsChain (t.Hop p))
    (hlast : ∀ e' ∈ (e :: es).getLast?, e'.target = d ∧
      .localProxy p.payload ∈ (t.forwarder d).pushNetwork (e'.frame p))
    (hfly : e.frame p ∈ (r k).inFlight) (hsent : e.transmission ∈ (r k).sent) :
    ∃ k', k ≤ k' ∧ (d, p.payload) ∈ (r k').delivered ∧
      ∀ e' ∈ e :: es, e'.transmission ∈ (r k').sent := by
  induction es generalizing e k with
  | nil =>
    obtain ⟨k', hk, -, hlocal⟩ := eventually_arrives hr (hes e List.mem_cons_self) hfly
    obtain ⟨rfl, hmem⟩ := hlast e rfl
    refine ⟨k', hk, hlocal hmem, ?_⟩
    rw [List.forall_mem_singleton]
    exact sent_stable hr hk hsent
  | cons e' es ih =>
    obtain ⟨he, hes⟩ := List.forall_mem_cons.mp hes
    obtain ⟨hhop, hhops⟩ := List.isChain_cons_cons.mp hhops
    obtain ⟨k₁, hk₁, hgo, -⟩ := eventually_arrives hr he hfly
    obtain ⟨hfly', hsent'⟩ := hgo e' hhop
    obtain ⟨k', hk', hdel, hall⟩ := ih hes hhops hlast hfly' hsent'
    have hk : k ≤ k' := hk₁.trans hk'
    exact ⟨k', hk, hdel, List.forall_mem_cons.mpr ⟨sent_stable hr hk hsent, hall⟩⟩

end Fair

/-- Whatever the order in which the network works, the packet arrives. -/
theorem Follows.arrives {r : Nat → NetState V Addr} {act : Nat → Option (Frame Addr)}
    (h : t.Follows s d p es) (hes : ∀ e ∈ es, e ∈ t.links) (hne : es ≠ [])
    (hr : Runs.FairRun t.Step r act) (h0 : r 0 = t.inject s p) :
    ∃ k, (d, p.payload) ∈ (r k).delivered ∧ ∀ e ∈ es, e.transmission ∈ (r k).sent := by
  obtain ⟨e, es, rfl⟩ := List.exists_cons_of_ne_nil hne
  obtain ⟨hsource, hsend⟩ := h.first e rfl
  obtain ⟨hfly, hsent⟩ := emit_network (σ := ⟨0, 0, 0⟩) hsend hsource
  rw [← inject, ← h0] at hfly hsent
  obtain ⟨k, -, hk⟩ := eventually_delivered hr hes h.hops h.last hfly hsent
  exact ⟨k, hk⟩

/-- A packet whose identifier includes the one of the topology manager reaches `d` along the
shortest path that was chosen. All bits 1 do for a path of one link only. -/
theorem delivered_along_path
    (hE : (t.igraph getShortestPath getEid).ReturnsEdges Link.source Link.target t.links)
    (hP : (t.igraph getShortestPath getEid).ReturnsShortestPaths t.Adj)
    (hreach : Relation.ReflTransGen t.Adj s d) (hne : s ≠ d)
    (hFID : p.FID.Includes ((t.igraph getShortestPath getEid).calculateFID s d))
    (hones : p.FID = BitVec.allOnes fidBits → (getShortestPath s d).length = 2) :
    ∃ es : List (Link V Addr), (∀ e ∈ es, e ∈ t.links) ∧
      s :: es.map Link.target = getShortestPath s d ∧ t.Follows s d p es ∧
      ∀ r act, Runs.FairRun t.Step r act → r 0 = t.inject s p →
        ∃ k, (d, p.payload) ∈ (r k).delivered ∧ ∀ e ∈ es, e.transmission ∈ (r k).sent := by
  have hpath : Walks.IsShortest t.Adj s d (getShortestPath s d) := hP s d hreach
  have hmem := mem_links_of_mem_pathEdges hE hpath.chain
  obtain ⟨hnode, hlinks⟩ := TMIgraph.calculateFID_includes (s := s) (d := d) (t.iLID_length d)
    fun e he => t.LID_length e (hmem e he)
  have hfollows := follows hE hpath (fun e he => hFID.trans (hlinks e he)) (hFID.trans hnode) hones
  have htargets : s :: ((t.igraph getShortestPath getEid).pathEdges
      (getShortestPath s d)).map Link.target = getShortestPath s d := by
    obtain ⟨path, hcons⟩ := List.head?_eq_some_iff.mp hpath.head
    have hchain := hpath.chain
    rw [hcons] at hchain ⊢
    exact (pathEdges_ends hE hchain).1
  refine ⟨_, hmem, htargets, hfollows, fun r act hr h0 => hfollows.arrives hmem ?_ hr h0⟩
  intro hnil
  have hlast := hpath.last
  rw [← htargets, hnil] at hlast
  exact hne (Option.some.inj hlast)

/-- The network has fair runs: it may serve the frames in the order in which they were sent. -/
theorem exists_fairRun (t : Topology V Addr) (σ : NetState V Addr) :
    ∃ r act, Runs.FairRun t.Step r act ∧ r 0 = σ := by
  have hmem : ∀ σ frame σ', t.Step σ frame σ' → frame ∈ σ.inFlight := fun _ _ _ h => h.1
  exact Runs.exists_fairRun hmem (fun _ _ h => ⟨_, _, ⟨h, rfl⟩, rfl⟩) σ

/-! ## All bits 1 -/

/-- A packet with all bits 1 goes to the neighbours of its source and no further. -/
theorem one_hop (hones : p.FID = BitVec.allOnes fidBits)
    (h : Runs.Reachable t.Step (t.inject s p) σ) :
    (∀ x ∈ σ.inFlight, ∃ e ∈ t.links, e.source = s ∧ x = e.frame p) ∧
    ∀ x ∈ σ.delivered, ∃ e ∈ t.links, e.source = s ∧ e.target = x.1 := by
  apply h.invariant (I := fun σ => (∀ x ∈ σ.inFlight, ∃ e ∈ t.links, e.source = s ∧
    x = e.frame p) ∧ ∀ x ∈ σ.delivered, ∃ e ∈ t.links, e.source = s ∧ e.target = x.1)
  · simp only [inject, emit_inFlight, emit_delivered, Multiset.mem_add, Multiset.notMem_zero,
      false_or, Multiset.mem_coe, Forwarder.pushLocal, List.filterMap_map, List.mem_filterMap, List.mem_filter]
    constructor
    · rintro x ⟨fe, ⟨hfe, -⟩, hx⟩
      obtain ⟨e, he, hsource, rfl⟩ := (mem_fwTable fe).mp hfe
      exact ⟨e, he, hsource, (Option.some.inj hx).symm⟩
    · rintro x ⟨fe, -, hx⟩
      cases hx
  · rintro σ frame _ - ⟨hfly, hdel⟩ ⟨hmem, rfl⟩
    obtain ⟨e, he, hsource, rfl⟩ := hfly frame hmem
    rw [Forwarder.pushNetwork_allOnes (show (e.frame p).FID = _ from hones)]
    constructor
    · intro x hx
      rw [emit_inFlight] at hx
      exact hfly x (Multiset.mem_of_mem_erase (by simpa [Output.frame?] using hx))
    · intro x hx
      rw [emit_delivered] at hx
      rcases Multiset.mem_add.mp hx with hx | hx
      · exact hdel x hx
      · obtain rfl : x = (t.owner e.dst, p.payload) := by
          simpa [Output.delivery?, Link.frame] using hx
        exact ⟨e, he, hsource, (t.dst_owner e he).symm⟩

/-! ## A line of three nodes -/

section Line

variable (LID : Fin 3 → Fin 3 → List Char) (hLID : ∀ u v, (LID u v).length = fidBits)

def line : Topology (Fin 3) (Fin 3) :=
  ofEdges ((List.finRange 2).map fun i => (i.castSucc, i.succ)) (by decide) LID (fun v => oneHot v)
    hLID (fun v => length_oneHot (Nat.lt_trans v.isLt (by decide)))

def linePath (u v : Fin 3) : List (Fin 3) := (List.finRange 3).filter (fun w => u ≤ w ∧ w ≤ v)

theorem line_adj {u v : Fin 3} : (line LID hLID).Adj u v ↔ (v : Nat) = u + 1 := by
  constructor
  · rintro ⟨e, he, rfl, rfl⟩
    simp only [line, ofEdges, List.mem_map] at he
    obtain ⟨x, ⟨i, -, rfl⟩, rfl⟩ := he
    rfl
  · intro h
    refine ⟨wire LID u v, List.mem_map.mpr ⟨(u, v), ?_, rfl⟩, rfl, rfl⟩
    revert u v
    decide

theorem line_walk {u v : Fin 3} {l : List (Fin 3)} (h : Walks.IsWalk (line LID hLID).Adj u v l) :
    (v : Nat) + 1 = u + l.length := by
  obtain ⟨hhead, hlast, hchain⟩ := h
  induction l generalizing u with
  | nil => cases hhead
  | cons w l ih =>
    obtain rfl := Option.some.inj hhead
    cases l with
    | nil =>
      obtain rfl := Option.some.inj hlast
      rfl
    | cons w' l =>
      obtain ⟨hadj, hchain⟩ := List.isChain_cons_cons.mp hchain
      have hrest := ih rfl hlast hchain
      rw [line_adj] at hadj
      have hlen : (w :: w' :: l).length = (w' :: l).length + 1 := rfl
      omega

theorem line_shortestPaths : ((line LID hLID).igraph linePath (wire LID)).ReturnsShortestPaths
    (line LID hLID).Adj := by
  intro u v hreach
  have hle : u ≤ v := by
    induction hreach with
    | refl => exact le_refl u
    | tail _ hadj ih =>
      rw [line_adj] at hadj
      omega
  have hpath : ∀ u v : Fin 3, u ≤ v → (linePath u v).head? = some u ∧
      (linePath u v).getLast? = some v ∧
      (linePath u v).IsChain (fun u v : Fin 3 => (v : Nat) = u + 1) := by
    decide
  obtain ⟨hhead, hlast, hchain⟩ := hpath u v hle
  have hwalk : Walks.IsWalk (line LID hLID).Adj u v (linePath u v) :=
    ⟨hhead, hlast, hchain.imp fun _ _ => (line_adj LID hLID).mpr⟩
  refine ⟨hwalk, fun l hl => ?_⟩
  have h₁ := line_walk LID hLID hwalk
  have h₂ := line_walk LID hLID hl
  change (linePath u v).length ≤ l.length
  omega

theorem line_edges : ((line LID hLID).igraph linePath (wire LID)).ReturnsEdges Link.source
    Link.target (line LID hLID).links := by
  intro e he
  obtain ⟨x, -, rfl⟩ := List.mem_map.mp he
  exact ⟨he, rfl, rfl⟩

theorem line_reach : Relation.ReflTransGen (line LID hLID).Adj 0 2 :=
  .tail (.single ((line_adj LID hLID).mpr rfl)) ((line_adj LID hLID (u := 1)).mpr rfl)

/-- The identifier for a packet over both links. -/
def lineFID : Bitvector :=
  ((line LID hLID).igraph linePath (wire LID)).calculateFID (Fin.last 2).rev (Fin.last 2)

theorem lineFID_includes : (lineFID LID hLID).Includes
    (((line LID hLID).igraph linePath (wire LID)).calculateFID 0 2) := by
  unfold lineFID
  exact Includes.refl _

theorem lineFID_eq : lineFID LID hLID =
    0 ||| parse (LID 0 1) ||| parse (LID 1 2) ||| parse (oneHot (2 : Fin 3)) := by
  have hpath : linePath 0 2 = [0, 1, 2] := by decide
  change ((line LID hLID).igraph linePath (wire LID)).calculateFID 0 2 = _
  simp only [TMIgraph.calculateFID, igraph, hpath, TMIgraph.pathEdges, List.foldl_cons,
    List.foldl_nil, wire, line, ofEdges]
  rw [orString_eq (hLID 0 1), orString_eq (hLID 1 2), orString_eq (length_oneHot (by decide))]

end Line

def bitLID (u _ : Fin 3) : List Char := oneHot (3 + u)

theorem length_bitLID (u v : Fin 3) : (bitLID u v).length = fidBits := by
  apply length_oneHot
  unfold fidBits
  omega

/-- Over links with one bit each the packet passes both links of the line. -/
theorem delivered_along_path_line : ∃ r act, Runs.FairRun (line bitLID length_bitLID).Step r act ∧
    r 0 = (line bitLID length_bitLID).inject 0 ⟨lineFID bitLID length_bitLID, [1]⟩ ∧
    ∃ es : List (Link (Fin 3) (Fin 3)), es.map Link.target = [1, 2] ∧
      ∃ k, (2, [1]) ∈ (r k).delivered ∧ ∀ e ∈ es, e.transmission ∈ (r k).sent := by
  have hones : lineFID bitLID length_bitLID ≠ BitVec.allOnes fidBits := by
    rw [lineFID_eq, bitLID, bitLID, parse_oneHot (by decide), parse_oneHot (by decide),
      parse_oneHot (by decide)]
    decide
  have hinc := lineFID_includes bitLID length_bitLID
  generalize lineFID bitLID length_bitLID = FID at hones hinc ⊢
  obtain ⟨es, -, htargets, -, harrives⟩ := delivered_along_path (line_edges bitLID length_bitLID)
    (line_shortestPaths bitLID length_bitLID) (line_reach bitLID length_bitLID) (by decide)
    (p := ⟨FID, [1]⟩) hinc (fun h => absurd h hones)
  obtain ⟨r, act, hr, h0⟩ := exists_fairRun (line bitLID length_bitLID) _
  exact ⟨r, act, hr, h0, es, List.tail_eq_of_cons_eq htargets, harrives r act hr h0⟩

def onesLID (_ _ : Fin 3) : List Char := List.replicate fidBits '1'

theorem length_onesLID (u v : Fin 3) : (onesLID u v).length = fidBits := List.length_replicate

/-- With an identifier of which all bits are 1 the packet stops after the first link. -/
theorem allOnes_not_delivered :
    ((line onesLID length_onesLID).igraph linePath (wire onesLID)).ReturnsEdges Link.source
      Link.target (line onesLID length_onesLID).links ∧
    ((line onesLID length_onesLID).igraph linePath (wire onesLID)).ReturnsShortestPaths
      (line onesLID length_onesLID).Adj ∧
    Relation.ReflTransGen (line onesLID length_onesLID).Adj 0 2 ∧
    ∀ σ, Runs.Reachable (line onesLID length_onesLID).Step
      ((line onesLID length_onesLID).inject 0 ⟨lineFID onesLID length_onesLID, [1]⟩) σ →
      (2, [1]) ∉ σ.delivered := by
  refine ⟨line_edges _ _, line_shortestPaths _ _, line_reach _ _, fun σ hσ hmem => ?_⟩
  have hones : lineFID onesLID length_onesLID = BitVec.allOnes fidBits := by
    rw [lineFID_eq]
    apply BitVec.eq_of_getLsbD_eq
    intro i hi
    have hbit : (parse (onesLID 0 1)).getLsbD i = true := by
      rw [getLsbD_parse (length_onesLID 0 1) hi, onesLID, List.getElem?_replicate,
        if_pos (by omega)]
      rfl
    simp only [BitVec.getLsbD_or, hbit, Bool.or_true, Bool.true_or, BitVec.getLsbD_allOnes,
      decide_eq_true hi]
  generalize lineFID onesLID length_onesLID = FID at hones hσ
  obtain ⟨e, he, hsource, htarget⟩ := (one_hop (p := ⟨FID, [1]⟩) hones hσ).2 _ hmem
  have hadj := (line_adj onesLID length_onesLID).mp ⟨e, he, hsource, htarget⟩
  exact absurd hadj (by decide)

end Topology

end Blackadder
