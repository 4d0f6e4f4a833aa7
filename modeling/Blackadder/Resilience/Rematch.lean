import Blackadder.Lipsin.Assignment
import Blackadder.Resilience.Messages
import Blackadder.Resilience.Recovery

/-!
# Matches that the broker asks for again

The manager tells the broker of a link failure by the vertex ids of the nodes, each in one byte. The
broker asks for a match of each item with a path over the link.
-/

namespace Blackadder

open NodeIndex (nodeSet)
open TMIgraph (First)
open Bitvector (oneHot)

namespace Recovery

/-! ## The messages -/

/-- The message that `handle_lsn_request` of the manager sends for a failure. -/
def lsnMessage (net_type : UInt8) (lsn_publisher_vtx lsn_neighbour_vtx : Nat) : List UInt8 :=
  [Code.lsn, net_type, UInt8.ofNat lsn_publisher_vtx, UInt8.ofNat lsn_neighbour_vtx]

section Broker

variable {V I : Type} [LinearOrder V] [DecidableEq I] (x : NodeIndex V) (σ : Recovery V I)

/-- `handle_lsn_request` of the broker for a message. -/
def receiveLsn (order : List I) (request : List UInt8) : Option (List (MatchPubSubs V I)) := do
  let request_type ← request[0]?
  if request_type = Code.lsn then
    let lsn_publisher_vtx ← request[1 + 1]?
    let lsn_neighbour_vtx ← request[1 + 1 + 1]?
    σ.handleLsnRequest x order lsn_publisher_vtx.toNat lsn_neighbour_vtx.toNat
  else return []

end Broker

variable {V I : Type} {x : NodeIndex V} {σ σ' : Recovery V I} {i : I} {a b p s : V} {w w' : List V}
  {path path' : List Char} {paths : List (List Char)} {n m : Nat} {r : MatchPubSubs V I}

/-- The path goes over the link, in one of its directions. -/
def Over (a b : V) (w : List V) : Prop := [a, b] <:+: w ∨ [b, a] <:+: w

theorem infix_cons_cons {u v : V} {rest : List V} :
    [a, b] <:+: u :: v :: rest ↔ (u = a ∧ v = b) ∨ [a, b] <:+: v :: rest := by
  rw [List.infix_cons_iff]
  refine or_congr ?_ Iff.rfl
  simp [List.cons_prefix_cons, eq_comm]

theorem isCut_iff {l : List Nat} : isCut n m l = true ↔ Over n m l := by
  unfold Over
  induction l with
  | nil => simp [isCut]
  | cons u l ih =>
    cases l with
    | nil => simp [isCut, List.infix_cons_iff]
    | cons v l =>
      rw [isCut, Bool.or_eq_true, ih, decide_eq_true_eq, infix_cons_cons, infix_cons_cons]
      tauto

theorem over_map : Over (x.vertex a) (x.vertex b) (w.map x.vertex) ↔ Over a b w := by
  have hmap : ∀ u v : V, [x.vertex u, x.vertex v] <:+: w.map x.vertex ↔ [u, v] <:+: w := by
    intro u v
    constructor
    · rintro ⟨before, after, hw⟩
      obtain ⟨l₁, l₂, rfl, hl₁, -⟩ := List.map_eq_append_iff.mp hw.symm
      obtain ⟨l₃, l₄, rfl, -, hl₄⟩ := List.map_eq_append_iff.mp hl₁
      have hends : l₄ = [u, v] := List.map_injective_iff.mpr x.vertex_injective hl₄
      rw [hends]
      exact ⟨l₃, l₂, rfl⟩
    · exact fun h => h.map x.vertex
  exact or_congr (hmap a b) (hmap b a)

/-! ## Stored paths -/

/-- The string of the path is stored for the item. -/
def Stores (x : NodeIndex V) (σ : Recovery V I) (i : I) (w : List V) : Prop :=
  ∃ paths, σ.path_info i = some paths ∧ pathString (w.map x.vertex) ∈ paths

/-- What a match leaves about the item. Counts are bytes. -/
structure Stored (x : NodeIndex V) (σ : Recovery V I) (i : I) : Prop where
  drawn : ∀ paths path, σ.path_info i = some paths → path ∈ paths →
    ∃ w : List V, path = pathString (w.map x.vertex)
  ends : ∃ P S : List V, P.length < 256 ∧ S.length < 256 ∧
    (∀ w, Stores x σ i w → (∃ p ∈ P, w.head? = some p) ∧ ∃ s ∈ S, w.getLast? = some s) ∧
    ((∃ paths, σ.path_info i = some paths) → ∃ ex, σ.ex_pubs i = some ex ∧ ∀ p ∈ ex, p ∈ P)
  /-- Each subscriber has one path. -/
  distinct : ∀ w w', Stores x σ i w → Stores x σ i w' → w.getLast? = w'.getLast? → w = w'

theorem pathString_inj (hsmall : x.nodes.length ≤ 10 ^ 6)
    (h : pathString (w.map x.vertex) = pathString (w'.map x.vertex)) : w = w' := by
  have hsplit := congrArg (splitIntString · '/') h
  simp only [splitIntString_map hsmall] at hsplit
  exact List.map_injective_iff.mpr x.vertex_injective hsplit

theorem Stores.congr (h : Stores x σ' i w) (hsame : Same i σ σ') : Stores x σ i w := by
  obtain ⟨paths, hpaths, hw⟩ := h
  exact ⟨paths, hsame.path_info.symm.trans hpaths, hw⟩

theorem Stored.congr (h : Stored x σ i) (hsame : Same i σ σ') : Stored x σ' i where
  drawn paths path hpaths hpath := h.drawn paths path (hsame.path_info.symm.trans hpaths) hpath
  ends := by
    obtain ⟨P, S, hP, hS, hpath, hex⟩ := h.ends
    refine ⟨P, S, hP, hS, fun w hw => hpath w (hw.congr hsame), ?_⟩
    rw [hsame.path_info, hsame.ex_pubs]
    exact hex
  distinct w w' hw hw' := h.distinct w w' (hw.congr hsame) (hw'.congr hsame)

section Runs

variable [LinearOrder V]

theorem length_nodeSet (l : List V) : (nodeSet l).length ≤ l.length := by
  have hnodup : (nodeSet l).Nodup := StdSet.nodup_ofList
  exact (List.subperm_of_subset hnodup fun v hv => StdSet.mem_ofList.mp hv).length_le

/-- A path that a match gives leads to its subscriber. -/
theorem route_walk (hx : x.ShortestPaths) {g : LinkGraph V (List Char)}
    (h : TMIgraph.Found (x.igraph g).route p s) :
    ((x.igraph g).route p s).path.head? = some p ∧ ((x.igraph g).route p s).path.getLast? = some s := by
  have hreach : Relation.ReflTransGen (Adj g.edges) p s := by
    by_contra hno
    have hnil : (x.igraph g).getShortestPath p s = [] := (hx g.edges p s).2 hno
    simp [TMIgraph.Found, TMIgraph.route, hnil] at h
  have hpath := (hx g.edges p s).1 hreach
  exact ⟨hpath.head, hpath.last⟩

/-- The counts of a request are bytes. -/
def MatchPubSubs.Counted (r : MatchPubSubs V I) : Prop :=
  r.publishers.length < 256 ∧ r.subscribers.length < 256

theorem Served.stored {m : TMIgraph.Matching V} (hx : x.ShortestPaths)
    (hsmall : x.nodes.length ≤ 10 ^ 6) (hr : MatchPubSubs.Counted r) (h : Served x σ σ' r m) :
    Stored x σ' r.info_id := by
  have hkeys := TMIgraph.keys_calculateFIDs h.run
  have hchosen := TMIgraph.chosen_calculateFIDs h.run
  have hroute : ∀ w, Stores x σ' r.info_id w → ∃ p s,
      First (x.igraph σ.graph).route (nodeSet r.publishers) s p ∧ s ∈ nodeSet r.subscribers ∧
        w = ((x.igraph σ.graph).route p s).path := by
    rintro w ⟨paths, hpaths, hw⟩
    obtain ⟨p, FID, ws, w', -, hws, hw', hsame⟩ := (h.mem_paths _).mp ⟨paths, hpaths, hw⟩
    obtain ⟨s, hs, hfirst, rfl⟩ := hchosen.only p ws w' hws hw'
    exact ⟨p, s, hfirst, hs, (pathString_inj hsmall hsame).symm⟩
  constructor
  · intro paths path hpaths hpath
    obtain ⟨p, FID, ws, w, -, -, -, rfl⟩ := (h.mem_paths path).mp ⟨paths, hpaths, hpath⟩
    exact ⟨w, rfl⟩
  · refine ⟨nodeSet r.publishers, nodeSet r.subscribers,
      Nat.lt_of_le_of_lt (length_nodeSet _) hr.1, Nat.lt_of_le_of_lt (length_nodeSet _) hr.2, ?_, ?_⟩
    · intro w hw
      obtain ⟨p, s, hfirst, hs, rfl⟩ := hroute w hw
      obtain ⟨hhead, hlast⟩ := route_walk hx hfirst.found
      exact ⟨⟨p, hfirst.mem, hhead⟩, s, hs, hlast⟩
    · rintro -
      obtain ⟨ex, hex, hnone⟩ := h.ex_pubs
      refine ⟨ex, hex, fun p hp => ?_⟩
      rw [← hkeys.result]
      exact List.mem_map_of_mem ((hnone p).mp hp)
  · intro w w' hw hw' hlast
    obtain ⟨p, s, hfirst, -, rfl⟩ := hroute w hw
    obtain ⟨p', s', hfirst', -, rfl⟩ := hroute w' hw'
    rw [(route_walk hx hfirst.found).2, (route_walk hx hfirst'.found).2] at hlast
    obtain rfl := Option.some.inj hlast
    rw [hfirst.unique hfirst']

variable [DecidableEq I]

theorem stored_serve (hx : x.ShortestPaths) (hsmall : x.nodes.length ≤ 10 ^ 6)
    (hr : MatchPubSubs.Counted r) (hstored : ∀ i, Stored x σ i) (h : serve x σ r = some σ') :
    ∀ i, Stored x σ' i := by
  obtain ⟨m, hserved⟩ := exists_served h
  intro i
  by_cases hi : i = r.info_id
  · rw [hi]
    exact hserved.stored hx hsmall hr
  · exact (hstored i).congr (hserved.frame.same hi)

omit [DecidableEq I] in
/-- The requests of the broker have counts that fit. -/
theorem counted_itemRematch (h : itemRematch x σ n m i = some (some r)) : MatchPubSubs.Counted r := by
  obtain ⟨paths, -, h⟩ := Option.bind_eq_some_iff.mp h
  obtain ⟨ends, -, h⟩ := Option.bind_eq_some_iff.mp h
  simp only at h
  split at h
  · cases h
  · obtain ⟨ex, -, h⟩ := Option.bind_eq_some_iff.mp h
    split at h
    · next hcounts =>
      obtain rfl := Option.some.inj (Option.some.inj h)
      exact hcounts
    · cases h

omit [LinearOrder V] [DecidableEq I] in
theorem Stored.starts (h : Stored x σ i) (hsmall : x.nodes.length ≤ 10 ^ 6) : Starts x σ i := by
  intro paths path hpaths hpath
  obtain ⟨w, rfl⟩ := h.drawn paths path hpaths hpath
  obtain ⟨P, S, -, -, hends, -⟩ := h.ends
  obtain ⟨⟨p, -, hhead⟩, -⟩ := hends w ⟨paths, hpaths, hpath⟩
  exact ⟨p, by rw [splitIntString_map hsmall, List.head?_map, hhead]; rfl⟩

/-- Occurrences as messages have them. -/
def Message (_ : Recovery V I) : Occurrence V I → Prop
  | .matchPubSubs r => MatchPubSubs.Counted r
  | _ => True

theorem stored_run (hx : x.ShortestPaths) (hsmall : x.nodes.length ≤ 10 ^ 6)
    {edges : List (LinkEdge V (List Char))}
    (h : Runs.Reachable (Runs.Guarded (Step x) Message) (new edges) σ) : ∀ i, Stored x σ i := by
  refine h.invariant (I := fun σ => ∀ i, Stored x σ i) ?_ ?_
  · intro i
    have hnone : ∀ w, ¬ Stores x (new edges) i w := by
      rintro w ⟨paths, hpaths, -⟩
      cases hpaths
    refine ⟨nofun, ⟨[], [], Nat.zero_lt_succ _, Nat.zero_lt_succ _, fun w hw => absurd hw (hnone w), ?_⟩,
      fun w w' hw => absurd hw (hnone w)⟩
    rintro ⟨paths, hpaths⟩
    cases hpaths
  · rintro σ o σ' - hstored ⟨⟨-, hnext⟩, hmessage⟩
    cases o with
    | matchPubSubs r =>
      refine stored_serve hx hsmall hmessage (fun i => ?_) hnext
      exact ⟨(hstored i).drawn, (hstored i).ends, (hstored i).distinct⟩
    | linkFailure a b net order =>
      obtain ⟨graph, -, hnext⟩ := Option.bind_eq_some_iff.mp hnext
      obtain ⟨requests, hrequests, hrun⟩ := Option.bind_eq_some_iff.mp hnext
      rw [handleLsnRequest_items (fun i => (hstored i).starts hsmall), Option.map_eq_some_iff] at hrequests
      obtain ⟨answers, hanswers, rfl⟩ := hrequests
      refine Wire.foldlM_done hrun (I := fun _ σ => ∀ i, Stored x σ i) ?_ ?_
      · exact fun i => ⟨(hstored i).drawn, (hstored i).ends, (hstored i).distinct⟩
      · rintro done r rest τ τ' hsplit hτ hserve
        have hr : r ∈ answers.reduceOption := by simp [hsplit]
        obtain ⟨i, -, hanswer⟩ := (Wire.mem_mapM hanswers).mp (List.reduceOption_mem_iff.mp hr)
        exact stored_serve hx hsmall (counted_itemRematch hanswer) hτ hserve
    | linkEstablishment a b net =>
      obtain ⟨graph, -, hnext⟩ := Option.bind_eq_some_iff.mp hnext
      obtain rfl := Option.some.inj hnext
      exact fun i => ⟨(hstored i).drawn, (hstored i).ends, (hstored i).distinct⟩

/-! ## The requests -/

/-- One request for each item with such a path, for the ends of these paths. -/
structure Rematched (x : NodeIndex V) (σ : Recovery V I) (Q : List V → Prop)
    (requests : List (MatchPubSubs V I)) : Prop where
  nodup : (requests.map MatchPubSubs.info_id).Nodup
  items : ∀ i, i ∈ requests.map MatchPubSubs.info_id ↔ ∃ w, Stores x σ i w ∧ Q w
  publishers : ∀ r ∈ requests, ∀ p, p ∈ r.publishers ↔
    (∃ w, Stores x σ r.info_id w ∧ Q w ∧ w.head? = some p) ∨
      ∃ ex, σ.ex_pubs r.info_id = some ex ∧ p ∈ ex
  subscribers : ∀ r ∈ requests, ∀ s, s ∈ r.subscribers ↔
    ∃ w, Stores x σ r.info_id w ∧ Q w ∧ w.getLast? = some s

omit [LinearOrder V] [DecidableEq I] in
theorem Rematched.congr {Q Q' : List V → Prop} {requests : List (MatchPubSubs V I)}
    (h : Rematched x σ Q requests) (hsame : ∀ i w, Stores x σ i w → (Q w ↔ Q' w)) :
    Rematched x σ Q' requests := by
  have hends : ∀ i (E : List V → Prop), (∃ w, Stores x σ i w ∧ Q w ∧ E w) ↔
      ∃ w, Stores x σ i w ∧ Q' w ∧ E w := fun i E =>
    exists_congr fun w => and_congr_right fun hw => and_congr_left fun _ => hsame i w hw
  refine ⟨h.nodup, fun i => ?_, fun r hr p => ?_, fun r hr s => ?_⟩
  · rw [h.items i]
    exact exists_congr fun w => and_congr_right fun hw => hsame i w hw
  · rw [h.publishers r hr p, hends]
  · rw [h.subscribers r hr s, hends]

omit [LinearOrder V] [DecidableEq I] in
/-- The requests tell for which paths they were made: each subscriber has one. -/
theorem Rematched.unique {Q Q' : List V → Prop} {requests : List (MatchPubSubs V I)}
    (h : Rematched x σ Q requests) (h' : Rematched x σ Q' requests) (hstored : Stored x σ i)
    (hw : Stores x σ i w) (hQ : Q w) : Q' w := by
  obtain ⟨P, S, -, -, hends, -⟩ := hstored.ends
  obtain ⟨-, s, -, hlast⟩ := hends w hw
  obtain ⟨r, hr, rfl⟩ := List.mem_map.mp ((h.items i).mpr ⟨w, hw, hQ⟩)
  have hs := (h.subscribers r hr s).mpr ⟨w, hw, hQ, hlast⟩
  obtain ⟨w', hw', hQ', hlast'⟩ := (h'.subscribers r hr s).mp hs
  rwa [hstored.distinct w w' hw hw' (hlast.trans hlast'.symm)]

/-- The broker sees the link on the path. -/
def Seen (x : NodeIndex V) (a b : V) (w : List V) : Prop :=
  isCut (x.vertex a % 256) (x.vertex b % 256) (w.map x.vertex) = true

omit [DecidableEq I] in
/-- No access of a turn is outside, and its counts fit. -/
theorem Stored.itemRematch_some (h : Stored x σ i) (hsmall : x.nodes.length ≤ 10 ^ 6)
    (hi : σ.path_info i ≠ none) : ∃ answer, itemRematch x σ n m i = some answer := by
  obtain ⟨paths, hpaths⟩ := Option.ne_none_iff_exists'.mp hi
  obtain ⟨P, S, hP, hS, hends, hex⟩ := h.ends
  obtain ⟨ex, hex, hexP⟩ := hex ⟨paths, hpaths⟩
  have hread : ∀ path ∈ paths, ∃ w : List V, splitIntString path '/' = w.map x.vertex ∧
      (∃ p ∈ P, w.head? = some p) ∧ ∃ s ∈ S, w.getLast? = some s := by
    intro path hpath
    obtain ⟨w, rfl⟩ := h.drawn paths path hpaths hpath
    exact ⟨w, splitIntString_map hsmall w, hends w ⟨paths, hpaths, hpath⟩⟩
  obtain ⟨ends, hmapM, -⟩ := Wire.mapM_all (l := paths) (f := checkPath n m) (R := fun _ _ => True) (by
    intro path hpath
    obtain ⟨w, hsplit, ⟨p, -, hhead⟩, -⟩ := hread path hpath
    obtain ⟨rest, rfl⟩ := List.head?_eq_some_iff.mp hhead
    rw [checkPath, hsplit, List.map_cons]
    dsimp only
    split
    · exact ⟨_, rfl, trivial⟩
    · exact ⟨_, rfl, trivial⟩)
  have hpubs : ∀ p ∈ ends.reduceOption.filterMap fun e => x.nodeOf e.1, p ∈ P := by
    intro p hp
    obtain ⟨path, hpath, -, hhead⟩ := (mem_starts hmapM).mp hp
    obtain ⟨w, hsplit, ⟨p', hp', hw⟩, -⟩ := hread path hpath
    rw [hsplit, List.head?_map, hw] at hhead
    obtain rfl := x.vertex_injective (Option.some.inj hhead)
    exact hp'
  have hsubs : ∀ s ∈ nodeSet (ends.reduceOption.filterMap fun e => x.nodeOf e.2), s ∈ S := by
    intro s hs
    obtain ⟨path, hpath, -, hlast⟩ := (mem_stops hmapM).mp (StdSet.mem_ofList.mp hs)
    obtain ⟨w, hsplit, -, s', hs', hw⟩ := hread path hpath
    rw [hsplit, List.getLast?_map, hw] at hlast
    obtain rfl := x.vertex_injective (Option.some.inj hlast)
    exact hs'
  have hcount : ∀ (l : List V) (Q : List V), (∀ v ∈ nodeSet l, v ∈ Q) → Q.length < 256 →
      (nodeSet l).length < 256 := by
    intro l Q hsub hQ
    have hnodup : (nodeSet l).Nodup := StdSet.nodup_ofList
    exact Nat.lt_of_le_of_lt (List.subperm_of_subset hnodup hsub).length_le hQ
  have hall : ∀ v ∈ nodeSet ((ends.reduceOption.filterMap fun e => x.nodeOf e.1) ++ ex), v ∈ P := by
    intro v hv
    rcases List.mem_append.mp (StdSet.mem_ofList.mp hv) with hv | hv
    · exact hpubs v hv
    · exact hexP v hv
  unfold itemRematch
  simp only [hpaths, hmapM, hex, Option.bind_eq_bind, Option.bind_some]
  split
  · exact ⟨_, rfl⟩
  · rw [if_pos ⟨hcount _ P hall hP, hcount _ S hsubs hS⟩]
    exact ⟨_, rfl⟩

omit [LinearOrder V] [DecidableEq I] in
theorem toNat_vertex (v : V) : (UInt8.ofNat (x.vertex v)).toNat = x.vertex v % 256 := UInt8.toNat_ofNat'

/-- What the broker asks for. -/
theorem receiveLsn_eq (hsmall : x.nodes.length ≤ 10 ^ 6) (hstored : ∀ i, Stored x σ i) {order : List I}
    (horder : order.Nodup ∧ ∀ i, i ∈ order ↔ σ.path_info i ≠ none) (net_type : UInt8) (a b : V) :
    ∃ requests, σ.receiveLsn x order (lsnMessage net_type (x.vertex a) (x.vertex b)) = some requests ∧
      Rematched x σ (Seen x a b) requests := by
  have hreceive : σ.receiveLsn x order (lsnMessage net_type (x.vertex a) (x.vertex b)) =
      σ.handleLsnRequest x order (x.vertex a % 256) (x.vertex b % 256) := by
    rw [← toNat_vertex, ← toNat_vertex]
    rfl
  obtain ⟨answers, hanswers, -⟩ := Wire.mapM_all (l := order) (R := fun _ _ => True)
    (f := itemRematch x σ (x.vertex a % 256) (x.vertex b % 256)) (by
      intro i hi
      obtain ⟨answer, hanswer⟩ := (hstored i).itemRematch_some hsmall ((horder.2 i).mp hi)
      exact ⟨answer, hanswer, trivial⟩)
  have hrun : σ.handleLsnRequest x order (x.vertex a % 256) (x.vertex b % 256) =
      some answers.reduceOption := by
    rw [handleLsnRequest_items (fun i => (hstored i).starts hsmall), hanswers]
    rfl
  obtain ⟨hnodup, hasks, hintact⟩ := handleLsnRequest_eq (fun i => (hstored i).starts hsmall) horder.1 hrun
  rw [hreceive]
  refine ⟨_, hrun, ?_⟩
  generalize answers.reduceOption = requests at hnodup hasks hintact
  -- the paths of an item, as strings and as nodes
  have hview : ∀ i (E : List Nat → Prop), (∃ paths path, σ.path_info i = some paths ∧ path ∈ paths ∧
      isCut (x.vertex a % 256) (x.vertex b % 256) (splitIntString path '/') = true ∧
        E (splitIntString path '/')) ↔
      ∃ w, Stores x σ i w ∧ Seen x a b w ∧ E (w.map x.vertex) := by
    intro i E
    constructor
    · rintro ⟨paths, path, hpaths, hpath, hcut, hE⟩
      obtain ⟨w, rfl⟩ := (hstored i).drawn paths path hpaths hpath
      rw [splitIntString_map hsmall] at hcut hE
      exact ⟨w, ⟨paths, hpaths, hpath⟩, hcut, hE⟩
    · rintro ⟨w, ⟨paths, hpaths, hpath⟩, hseen, hE⟩
      refine ⟨paths, _, hpaths, hpath, ?_⟩
      rw [splitIntString_map hsmall]
      exact ⟨hseen, hE⟩
  have hnode : ∀ (o : Option V) (v : V), o.map x.vertex = some (x.vertex v) ↔ o = some v := by
    intro o v
    rw [← Option.map_some]
    exact (Option.map_injective x.vertex_injective).eq_iff
  refine ⟨hnodup, fun i => ⟨fun hi => ?_, ?_⟩, fun r hr p => ?_, fun r hr s => ?_⟩
  · obtain ⟨r, hr, rfl⟩ := List.mem_map.mp hi
    obtain ⟨paths, path, hpaths, hpath, hcut⟩ := (hasks r hr).cut
    obtain ⟨w, hw, hseen, -⟩ := (hview r.info_id fun _ => True).mp ⟨paths, path, hpaths, hpath, hcut, trivial⟩
    exact ⟨w, hw, hseen⟩
  · rintro ⟨w, hw, hseen⟩
    by_contra hno
    obtain ⟨paths, path, hpaths, hpath, hcut, -⟩ := (hview i fun _ => True).mpr ⟨w, hw, hseen, trivial⟩
    rw [hintact i ((horder.2 i).mpr (by simp [hpaths])) hno paths path hpaths hpath] at hcut
    cases hcut
  · rw [(hasks r hr).publishers p, Candidate, hview r.info_id fun l => l.head? = some (x.vertex p)]
    simp only [List.head?_map, hnode]
  · rw [(hasks r hr).subscribers s, CutEnd, hview r.info_id fun l => l.getLast? = some (x.vertex s)]
    simp only [List.getLast?_map, hnode]

/-- The broker asks for just the matches that a failure needs, exactly when it sees the link on the
stored paths that go over it and on no others. -/
theorem rematched_iff (hx : x.ShortestPaths) (hsmall : x.nodes.length ≤ 10 ^ 6)
    {edges : List (LinkEdge V (List Char))} {order : List I} {net_type : UInt8}
    (h : Runs.Reachable (Runs.Guarded (Step x) Message) (new edges) σ)
    (horder : order.Nodup ∧ ∀ i, i ∈ order ↔ σ.path_info i ≠ none) :
    (∃ requests, σ.receiveLsn x order (lsnMessage net_type (x.vertex a) (x.vertex b)) = some requests ∧
      Rematched x σ (Over a b) requests) ↔ ∀ i w, Stores x σ i w → (Over a b w ↔ Seen x a b w) := by
  have hstored := stored_run hx hsmall h
  obtain ⟨requests, hrun, hseen⟩ := receiveLsn_eq hsmall hstored horder net_type a b
  constructor
  · rintro ⟨_, heq, hover⟩ i w hw
    obtain rfl := Option.some.inj (hrun.symm.trans heq)
    exact ⟨hover.unique hseen (hstored i) hw, hseen.unique hover (hstored i) hw⟩
  · intro hall
    exact ⟨requests, hrun, hseen.congr fun i w hw => (hall i w hw).symm⟩

omit [LinearOrder V] [DecidableEq I] in
/-- Small vertex ids are not changed on the way. -/
theorem seen_of_small (ha : x.vertex a < 256) (hb : x.vertex b < 256) : Over a b w ↔ Seen x a b w := by
  rw [Seen, Nat.mod_eq_of_lt ha, Nat.mod_eq_of_lt hb, isCut_iff, over_map]

end Runs

/-! ## A failure that the broker sees and one that it does not -/

theorem reachable_match [LinearOrder V] [DecidableEq I] (x : NodeIndex V)
    {edges : List (LinkEdge V (List Char))} (hr : MatchPubSubs.Counted r)
    (h : (new edges).next x (.matchPubSubs r) = some σ) :
    Runs.Reachable (Runs.Guarded (Step x) Message) (new edges) σ := by
  have hallowed : (new edges).Allowed (.matchPubSubs r) := trivial
  exact Runs.Reachable.start.next ⟨⟨hallowed, h⟩, hr⟩

theorem rematched_iff_square : ∃ σ : Recovery (Fin 4) Unit, σ.path_info () = some [pathString [0, 2]] ∧
    ∃ requests, σ.receiveLsn squareIndex [()] (lsnMessage 101 0 2) = some requests ∧
      Rematched squareIndex σ (Over 0 2) requests := by
  have hrun : ((new squareEdges).next squareIndex (squareMatch [2])).map (fun σ => σ.path_info ()) =
      some (some [pathString [0, 2]]) := by decide +kernel
  obtain ⟨σ, hmatch, hpaths⟩ := Option.map_eq_some_iff.mp hrun
  have hreach := reachable_match squareIndex (r := ⟨[0], [2], ()⟩) ⟨by decide, by decide⟩ hmatch
  refine ⟨σ, hpaths, (rematched_iff (a := 0) (b := 2) squareIndex_shortestPaths (by decide) hreach
    ⟨List.nodup_singleton (), ?_⟩).mpr ?_⟩
  · intro i
    simp [hpaths]
  · exact fun i w _ => seen_of_small (by decide) (by decide)

/-- Nodes whose labels are their vertex ids. -/
def numberedIndex (n : Nat) : NodeIndex (Fin n) where
  nodes := List.finRange n
  vertex := Fin.val
  iLID _ := oneHot 0
  shortest edges := Walks.search (Adj edges) (List.finRange n)
  mem_nodes := List.mem_finRange
  vertex_injective := Fin.val_injective
  vertex_lt v := by
    rw [List.length_finRange]
    exact v.isLt

theorem numberedIndex_shortestPaths (n : Nat) : (numberedIndex n).ShortestPaths := fun _ _ _ =>
  ⟨Walks.isShortest_search List.mem_finRange, Walks.search_eq_nil List.mem_finRange⟩

/-- A link between 256 and 1. -/
def wideEdges : List (LinkEdge (Fin 257) (List Char)) :=
  [⟨256, 1, oneHot 1, QoSList.empty⟩, ⟨1, 256, oneHot 2, QoSList.empty⟩]

/-- The broker looks for a link between the nodes 0 and 1. -/
theorem not_rematched : ∃ σ : Recovery (Fin 257) Unit,
    Runs.Reachable (Runs.Guarded (Step (numberedIndex 257)) Message) (new wideEdges) σ ∧
      (numberedIndex 257).ShortestPaths ∧ Stores (numberedIndex 257) σ () [256, 1] ∧
      ¬ ∃ requests, σ.receiveLsn (numberedIndex 257) [()] (lsnMessage 101 256 1) = some requests ∧
        Rematched (numberedIndex 257) σ (Over 256 1) requests := by
  have hrun : ((new wideEdges).next (numberedIndex 257) (.matchPubSubs ⟨[256], [1], ()⟩)).map (fun σ =>
      (σ.path_info (), (σ.receiveLsn (numberedIndex 257) [()] (lsnMessage 101 256 1)).map List.length)) =
      some (some [pathString [256, 1]], some 0) := by decide +kernel
  obtain ⟨σ, hmatch, hresult⟩ := Option.map_eq_some_iff.mp hrun
  obtain ⟨hpaths, hnone⟩ := Prod.mk.inj hresult
  have hstores : Stores (numberedIndex 257) σ () [256, 1] := ⟨_, hpaths, List.mem_singleton.mpr rfl⟩
  have hreach := reachable_match (numberedIndex 257) (r := ⟨[256], [1], ()⟩) ⟨by decide, by decide⟩ hmatch
  refine ⟨σ, hreach, numberedIndex_shortestPaths 257, hstores, ?_⟩
  · rintro ⟨requests, heq, hre⟩
    rw [heq, Option.map_some, Option.some.injEq] at hnone
    have hmem := (hre.items ()).mpr ⟨_, hstores, .inl (List.infix_refl _)⟩
    rw [List.length_eq_zero_iff.mp hnone] at hmem
    cases hmem

end Recovery

end Blackadder
