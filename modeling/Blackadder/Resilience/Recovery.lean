import Blackadder.Resilience.Routes
import Mathlib.Data.List.ReduceOption

/-!
# Recovery from link failures

The broker puts the paths of the last match in place of all paths of the item, and a publisher gets
a new identifier for the subscribers of that match. So the recovery holds when a failure cuts all
paths of an item or none.
-/

namespace Blackadder

open TMIgraph (calculateFIDs Found Assigned)
open Bitvector (parse oneHot)
open NodeIndex (nodeSet Leads)

namespace Recovery

variable {V I : Type} (x : NodeIndex V) (σ : Recovery V I) (i : I)

/-- A path of the item that is recorded and in use. -/
structure InUse (path : List Char) (p s : V) (w : List V) : Prop where
  publisher : p ∈ σ.publishers i
  string : path = pathString (w.map x.vertex)
  leads : ∃ FID, σ.notified i p = some (some FID) ∧ Leads x σ.graph.edges FID p s w

/-- The node is the end of a path in use. -/
def Supplied (s : V) : Prop :=
  ∃ paths path p w, σ.path_info i = some paths ∧ path ∈ paths ∧ InUse x σ i path p s w

/-- What is recorded about the item is in use. -/
structure Sound : Prop where
  used : ∀ paths path, σ.path_info i = some paths → path ∈ paths → ∃ p s w, InUse x σ i path p s w
  alternatives : ∀ paths, σ.path_info i = some paths →
    ∃ ex, σ.ex_pubs i = some ex ∧ ∀ p ∈ ex, p ∈ σ.publishers i

/-- `path_info` has a path of the item to this node. -/
def Recorded (s : V) : Prop := ∃ paths path, σ.path_info i = some paths ∧ path ∈ paths ∧
  (splitIntString path '/').getLast? = some (x.vertex s)

/-- Some publisher of the item reaches the node. -/
def Reached (s : V) : Prop :=
  ∃ p ∈ σ.publishers i, Relation.ReflTransGen (Adj σ.graph.edges) p s

/-- A publisher of the item was told an identifier with the links of a path to the node, and with its
internal link. -/
def Covered (s : V) : Prop := ∃ p ∈ σ.publishers i, ∃ FID, σ.notified i p = some (some FID) ∧
  Relation.ReflTransGen (Carries σ.graph.edges FID) p s ∧ FID.Includes (parse (x.iLID s))

/-- `path_info` has a path of the graph from a publisher of the item to the node. -/
def Listed (s : V) : Prop := ∃ paths path, σ.path_info i = some paths ∧ path ∈ paths ∧
  ∃ p ∈ σ.publishers i, ∃ w, Walks.IsWalk (Adj σ.graph.edges) p s w ∧
    splitIntString path '/' = w.map x.vertex

/-- After a failure the recorded subscribers that can be reached are covered and listed. -/
def Recovered (σ' : Recovery V I) : Prop := ∀ i s, Recorded x σ i s → Reached σ' i s →
  Covered x σ' i s ∧ Listed x σ' i s

variable {x σ i} {σ' : Recovery V I} {p s : V} {w : List V} {path : List Char}
  {paths : List (List Char)} {r : MatchPubSubs V I} {j : I}

/-! ## Paths in use -/

theorem splitIntString_map (hsmall : x.nodes.length ≤ 10 ^ 6) (w : List V) :
    splitIntString (pathString (w.map x.vertex)) '/' = w.map x.vertex := by
  apply splitIntString_pathString
  intro v hv
  obtain ⟨u, -, rfl⟩ := List.mem_map.mp hv
  have hlt := x.vertex_lt u
  omega

theorem InUse.split (h : InUse x σ i path p s w) (hsmall : x.nodes.length ≤ 10 ^ 6) :
    splitIntString path '/' = w.map x.vertex := by
  rw [h.string, splitIntString_map hsmall]

theorem InUse.getLast? (h : InUse x σ i path p s w) (hsmall : x.nodes.length ≤ 10 ^ 6) :
    (splitIntString path '/').getLast? = some (x.vertex s) := by
  obtain ⟨FID, -, hleads⟩ := h.leads
  rw [h.split hsmall, List.getLast?_map, hleads.walk.last]
  rfl

theorem InUse.head? (h : InUse x σ i path p s w) (hsmall : x.nodes.length ≤ 10 ^ 6) :
    (splitIntString path '/').head? = some (x.vertex p) := by
  obtain ⟨FID, -, hleads⟩ := h.leads
  rw [h.split hsmall, List.head?_map, hleads.walk.head]
  rfl

theorem Supplied.covered (h : Supplied x σ i s) : Covered x σ i s := by
  obtain ⟨paths, path, p, w, -, -, huse⟩ := h
  obtain ⟨FID, htold, hleads⟩ := huse.leads
  have hlinks : Walks.IsWalk (Carries σ.graph.edges FID) p s w :=
    ⟨hleads.walk.head, hleads.walk.last, hleads.links⟩
  exact ⟨p, huse.publisher, FID, htold, hlinks.reach, hleads.iLID⟩

theorem Supplied.listed (h : Supplied x σ i s) (hsmall : x.nodes.length ≤ 10 ^ 6) : Listed x σ i s := by
  obtain ⟨paths, path, p, w, hpaths, hpath, huse⟩ := h
  obtain ⟨FID, -, hleads⟩ := huse.leads
  exact ⟨paths, path, hpaths, hpath, p, huse.publisher, w, hleads.walk, huse.split hsmall⟩

/-- The recorded subscriber is the end of the path in use. -/
theorem Sound.recorded (h : Sound x σ i) (hsmall : x.nodes.length ≤ 10 ^ 6) (hs : Recorded x σ i s) :
    Supplied x σ i s := by
  obtain ⟨paths, path, hpaths, hpath, hlast⟩ := hs
  obtain ⟨p, s', w, huse⟩ := h.used paths path hpaths hpath
  rw [huse.getLast? hsmall] at hlast
  obtain rfl := x.vertex_injective (Option.some.inj hlast)
  exact ⟨paths, path, p, w, hpaths, hpath, huse⟩

/-! ## What stays -/

/-- What a request does not touch: the graph, the publishers and the other items. -/
structure Frame (i : I) (σ σ' : Recovery V I) : Prop where
  graph : σ'.graph = σ.graph
  publishers : σ'.publishers = σ.publishers
  path_info : ∀ j, j ≠ i → σ'.path_info j = σ.path_info j
  ex_pubs : ∀ j, j ≠ i → σ'.ex_pubs j = σ.ex_pubs j
  notified : ∀ j, j ≠ i → σ'.notified j = σ.notified j

/-- The tables for one item. -/
structure Same (i : I) (σ σ' : Recovery V I) : Prop where
  publishers : σ'.publishers i = σ.publishers i
  path_info : σ'.path_info i = σ.path_info i
  ex_pubs : σ'.ex_pubs i = σ.ex_pubs i
  notified : σ'.notified i = σ.notified i

theorem Frame.same (h : Frame i σ σ') (hj : j ≠ i) : Same j σ σ' :=
  ⟨congrFun h.publishers j, h.path_info j hj, h.ex_pubs j hj, h.notified j hj⟩

theorem InUse.congr (h : InUse x σ i path p s w) (hgraph : σ'.graph = σ.graph) (hsame : Same i σ σ') :
    InUse x σ' i path p s w where
  publisher := hsame.publishers ▸ h.publisher
  string := h.string
  leads := by
    rw [hsame.notified, hgraph]
    exact h.leads

theorem Supplied.congr (h : Supplied x σ i s) (hgraph : σ'.graph = σ.graph) (hsame : Same i σ σ') :
    Supplied x σ' i s := by
  obtain ⟨paths, path, p, w, hpaths, hpath, huse⟩ := h
  exact ⟨paths, path, p, w, hsame.path_info.trans hpaths, hpath, huse.congr hgraph hsame⟩

theorem Sound.congr (h : Sound x σ i) (hgraph : σ'.graph = σ.graph) (hsame : Same i σ σ') :
    Sound x σ' i where
  used paths path hpaths hpath := by
    rw [hsame.path_info] at hpaths
    obtain ⟨p, s, w, huse⟩ := h.used paths path hpaths hpath
    exact ⟨p, s, w, huse.congr hgraph hsame⟩
  alternatives paths hpaths := by
    rw [hsame.path_info] at hpaths
    rw [hsame.ex_pubs, hsame.publishers]
    exact h.alternatives paths hpaths

/-! ## One request -/

section Serve

variable [LinearOrder V] [DecidableEq I]

/-- What a publisher is told is its entry in the result. -/
theorem notifyPublishers_told {result : List (V × Option Bitvector)} (h : (result.map Prod.fst).Nodup)
    {e : V × Option Bitvector} (he : e ∈ result) :
    (σ.notifyPublishers i result).notified i e.1 = some e.2 := by
  simp only [notifyPublishers, Function.update_self]
  refine Registers.replay_of_const (fun w hw hkey => ?_) (Or.inr ⟨_, List.mem_map_of_mem he, rfl⟩)
  obtain ⟨e', he', rfl⟩ := List.mem_map.mp hw
  have hsame : e' = e := List.inj_on_of_nodup_map h he' he hkey
  rw [hsame]

omit [LinearOrder V] in
theorem mem_ite_nil {A : Type} {l l' : List A} (h : ∀ a, a ∈ l' ↔ a ∈ l) {a : A} :
    (∃ paths, (if l = [] then none else some l') = some paths ∧ a ∈ paths) ↔ a ∈ l := by
  split
  · next hl => simp [hl]
  · simp [h]

theorem mem_updateInfoDelivery {d : UpdateDelivery V I} :
    (∃ paths, (σ.updateInfoDelivery d).path_info d.info_id = some paths ∧ path ∈ paths) ↔
      path ∈ d.path_vectors := by
  simp only [updateInfoDelivery, Function.update_self]
  exact mem_ite_nil fun _ => StdSet.mem_ofList

/-- The messages of a request. -/
structure Served (x : NodeIndex V) (σ σ' : Recovery V I) (r : MatchPubSubs V I)
    (m : TMIgraph.Matching V) : Prop where
  run : calculateFIDs (x.igraph σ.graph).route (nodeSet r.publishers) (nodeSet r.subscribers) = some m
  frame : Frame r.info_id σ σ'
  notified : ∀ e ∈ m.result, σ'.notified r.info_id e.1 = some e.2
  ex_pubs : ∃ ex, σ'.ex_pubs r.info_id = some ex ∧ ∀ p, p ∈ ex ↔ (p, none) ∈ m.result
  /-- The paths of the publishers that have an identifier. -/
  mem_paths : ∀ path, (∃ paths, σ'.path_info r.info_id = some paths ∧ path ∈ paths) ↔
    ∃ p FID ws w, (p, some FID) ∈ m.result ∧ (p, ws) ∈ m.path_vectors ∧ w ∈ ws ∧
      pathString (w.map x.vertex) = path

theorem mem_pathVectors {m : TMIgraph.Matching V} (h : (m.path_vectors.map Prod.fst).Nodup)
    (hkeys : ∀ e ∈ m.result, e.1 ∈ m.path_vectors.map Prod.fst) :
    path ∈ ((m.result.filter fun e => e.2 ≠ none).flatMap fun e =>
      ((m.path_vectors.lookup e.1).getD []).map fun path => pathString (path.map x.vertex)) ↔
    ∃ p FID ws w, (p, some FID) ∈ m.result ∧ (p, ws) ∈ m.path_vectors ∧ w ∈ ws ∧
      pathString (w.map x.vertex) = path := by
  simp only [List.mem_flatMap, List.mem_filter, List.mem_map, decide_eq_true_eq]
  constructor
  · rintro ⟨⟨p, FID⟩, ⟨he, hsome⟩, w, hw, hpath⟩
    obtain ⟨FID, rfl⟩ := Option.ne_none_iff_exists'.mp hsome
    obtain ⟨⟨p', ws⟩, hws, hp⟩ := List.mem_map.mp (hkeys _ he)
    obtain rfl : p' = p := hp
    rw [(TMIgraph.lookup_eq_some h).mpr hws] at hw
    exact ⟨p', FID, ws, w, he, hws, hw, hpath⟩
  · rintro ⟨p, FID, ws, w, he, hws, hw, hpath⟩
    refine ⟨(p, some FID), ⟨he, by simp⟩, w, ?_, hpath⟩
    rw [(TMIgraph.lookup_eq_some h).mpr hws]
    exact hw

theorem exists_served (h : serve x σ r = some σ') : ∃ m, Served x σ σ' r m := by
  obtain ⟨⟨result, d⟩, hrequest, h⟩ := Option.bind_eq_some_iff.mp h
  obtain rfl := Option.some.inj h
  obtain ⟨m, hm, hrequest⟩ := Option.bind_eq_some_iff.mp hrequest
  simp only at hrequest
  split at hrequest
  · obtain ⟨rfl, rfl⟩ := Prod.mk.inj (Option.some.inj hrequest)
    have hkeys := TMIgraph.keys_calculateFIDs hm
    have hnodup : (nodeSet r.publishers).Nodup := StdSet.nodup_ofList
    refine ⟨m, hm, ⟨rfl, rfl, ?_, ?_, ?_⟩, ?_, ?_, fun path => ?_⟩
    · exact fun j hj => Function.update_of_ne hj _ _
    · exact fun j hj => Function.update_of_ne hj _ _
    · exact fun j hj => Function.update_of_ne hj _ _
    · exact fun e he => notifyPublishers_told (hkeys.result ▸ hnodup) he
    · refine ⟨_, Function.update_self _ _ _, fun p => ?_⟩
      rw [nodeSet, StdSet.mem_ofList]
      simp
    · refine mem_updateInfoDelivery.trans ?_
      refine mem_pathVectors (hkeys.path_vectors ▸ hnodup) fun e he => ?_
      rw [hkeys.path_vectors, ← hkeys.result]
      exact List.mem_map_of_mem he
  · cases hrequest

/-- When some publisher reaches each subscriber of the request, what is recorded is in use, and each
subscriber is the end of a path. -/
theorem serve_sound (hx : x.ShortestPaths) (hsmall : x.nodes.length ≤ 10 ^ 6) (hg : σ.graph.Indexed)
    (hpubs : ∀ p ∈ r.publishers, p ∈ σ.publishers r.info_id)
    (hreach : ∀ s ∈ r.subscribers, ∃ p ∈ r.publishers, Relation.ReflTransGen (Adj σ.graph.edges) p s)
    (h : serve x σ r = some σ') :
    Sound x σ' r.info_id ∧ ∀ s ∈ r.subscribers, Supplied x σ' r.info_id s := by
  obtain ⟨m, hserved⟩ := exists_served h
  obtain ⟨m', hm', hall⟩ := TMIgraph.served_calculateFIDs (x.igraph σ.graph).route
    (nodeSet r.publishers) (nodeSet r.subscribers) (by
      intro s hs
      obtain ⟨p, hp, hreach⟩ := hreach s (StdSet.mem_ofList.mp hs)
      exact ⟨p, StdSet.mem_ofList.mpr hp, NodeIndex.found_of_reach hx hsmall hreach⟩)
  obtain rfl := Option.some.inj (hserved.run.symm.trans hm')
  have hmem : ∀ p, p ∈ m.result.map Prod.fst → p ∈ σ'.publishers r.info_id := by
    intro p hp
    rw [hall.result] at hp
    rw [hserved.frame.publishers]
    exact hpubs p (StdSet.mem_ofList.mp hp)
  have huse : ∀ p s, Assigned (x.igraph σ.graph).route m p s → InUse x σ' r.info_id
      (pathString (((x.igraph σ.graph).route p s).path.map x.vertex)) p s
      ((x.igraph σ.graph).route p s).path := by
    intro p s hassigned
    obtain ⟨FID, hFID, hinc⟩ := hassigned.FID
    have hleads := NodeIndex.leads_route hx hg hassigned.found
    refine ⟨hmem p (List.mem_map_of_mem hFID), rfl, FID, hserved.notified _ hFID, ?_⟩
    rw [hserved.frame.graph]
    exact hleads.mono (hleads.links.imp fun _ _ h => h.mono (fun _ he _ _ => he) hinc) hinc
  refine ⟨⟨fun paths path hpaths hpath => ?_, fun paths _ => ?_⟩, fun s hs => ?_⟩
  · obtain ⟨p, FID, ws, w, -, hws, hw, rfl⟩ := (hserved.mem_paths path).mp ⟨paths, hpaths, hpath⟩
    obtain ⟨s, -, rfl, hassigned⟩ := hall.only p ws w hws hw
    exact ⟨p, s, _, huse p s hassigned⟩
  · obtain ⟨ex, hex, hnone⟩ := hserved.ex_pubs
    exact ⟨ex, hex, fun p hp => hmem p (List.mem_map_of_mem ((hnone p).mp hp))⟩
  · obtain ⟨p, -, hassigned⟩ := hall.all s (StdSet.mem_ofList.mpr hs)
    obtain ⟨FID, hFID, -⟩ := hassigned.FID
    obtain ⟨ws, hws, hw⟩ := hassigned.path
    obtain ⟨paths, hpaths, hpath⟩ := (hserved.mem_paths _).mpr ⟨p, FID, ws, _, hFID, hws, hw, rfl⟩
    exact ⟨paths, _, p, _, hpaths, hpath, huse p s hassigned⟩

/-! ## All requests -/

variable {requests : List (MatchPubSubs V I)}

/-- Requests for different items do not disturb each other. -/
theorem serve_each {Q : MatchPubSubs V I → Recovery V I → Prop}
    (hkeys : (requests.map MatchPubSubs.info_id).Nodup) (h : requests.foldlM (serve x) σ = some σ')
    (hserve : ∀ τ τ' r, r ∈ requests → τ.graph = σ.graph → τ.publishers = σ.publishers →
      serve x τ r = some τ' → Q r τ')
    (hframe : ∀ τ τ' r i, Q r τ → Frame i τ τ' → r.info_id ≠ i → Q r τ') :
    σ'.graph = σ.graph ∧ (∀ i, i ∉ requests.map MatchPubSubs.info_id → Same i σ σ') ∧
      σ'.publishers = σ.publishers ∧ ∀ r ∈ requests, Q r σ' := by
  refine Wire.foldlM_done h (I := fun done τ => τ.graph = σ.graph ∧
    (∀ i, i ∉ done.map MatchPubSubs.info_id → Same i σ τ) ∧ τ.publishers = σ.publishers ∧
      ∀ r ∈ done, Q r τ) ?_ ?_
  · exact ⟨rfl, fun _ _ => ⟨rfl, rfl, rfl, rfl⟩, rfl, nofun⟩
  · rintro done r rest τ τ' hsplit ⟨hgraph, hsame, hpubs, hall⟩ hrun
    obtain ⟨m, hserved⟩ := exists_served hrun
    have hfr := hserved.frame
    have hmem : r ∈ requests := by simp [hsplit]
    refine ⟨hfr.graph.trans hgraph, fun i hi => ?_, hfr.publishers.trans hpubs, ?_⟩
    · rw [List.map_append, List.mem_append, not_or] at hi
      have hne : i ≠ r.info_id := by simpa using hi.2
      have hold := hsame i hi.1
      have hnew := hfr.same hne
      exact ⟨hnew.publishers.trans hold.publishers, hnew.path_info.trans hold.path_info,
        hnew.ex_pubs.trans hold.ex_pubs, hnew.notified.trans hold.notified⟩
    · rw [List.forall_mem_append, List.forall_mem_singleton]
      refine ⟨fun r' hr' => ?_, hserve τ τ' r hmem hgraph hpubs hrun⟩
      refine hframe τ τ' r' r.info_id (hall r' hr') hfr fun heq => ?_
      rw [hsplit, List.map_append, List.map_cons, List.nodup_append] at hkeys
      exact hkeys.2.2 _ (List.mem_map_of_mem hr') _ List.mem_cons_self heq

end Serve

/-! ## What the broker asks for -/

/-- Each recorded path starts at a node. -/
def Starts (x : NodeIndex V) (σ : Recovery V I) (i : I) : Prop := ∀ paths path,
  σ.path_info i = some paths → path ∈ paths → ∃ p, (splitIntString path '/').head? = some (x.vertex p)

theorem Sound.starts (h : Sound x σ i) (hsmall : x.nodes.length ≤ 10 ^ 6) : Starts x σ i := by
  intro paths path hpaths hpath
  obtain ⟨p, s, w, huse⟩ := h.used paths path hpaths hpath
  exact ⟨p, huse.head? hsmall⟩

theorem nodeOf_eq_some {n : Nat} {v : V} : x.nodeOf n = some v ↔ x.vertex v = n := by
  unfold NodeIndex.nodeOf
  constructor
  · intro h
    simpa using List.find?_some h
  · rintro rfl
    cases hfind : x.nodes.find? fun u => x.vertex u = x.vertex v with
    | none =>
      have hno := List.find?_eq_none.mp hfind v (x.mem_nodes v)
      simp at hno
    | some u =>
      have hu : x.vertex u = x.vertex v := by simpa using List.find?_some hfind
      rw [x.vertex_injective hu]

theorem checkPath_eq_some {a b : Nat} {e : Nat × Nat} :
    checkPath a b path = some (some e) ↔ isCut a b (splitIntString path '/') = true ∧
      (splitIntString path '/').head? = some e.1 ∧ (splitIntString path '/').getLast? = some e.2 := by
  unfold checkPath
  split
  · next hnil => simp [hnil]
  · next v vs hcons =>
    rw [hcons]
    split
    · next hcut => simp [hcut, Prod.ext_iff, List.getLast?_eq_some_getLast]
    · next hcut => simp [hcut]

theorem sublist_info_id {f : I → Option (Option (MatchPubSubs V I))} {order : List I}
    {answers : List (Option (MatchPubSubs V I))} (h : order.mapM f = some answers)
    (hkey : ∀ i r, f i = some (some r) → r.info_id = i) :
    (answers.reduceOption.map MatchPubSubs.info_id).Sublist order := by
  induction order generalizing answers with
  | nil =>
    obtain rfl := Option.some.inj h
    exact .slnil
  | cons i order ih =>
    rw [List.mapM_cons] at h
    obtain ⟨answer, hanswer, h⟩ := Option.bind_eq_some_iff.mp h
    obtain ⟨others, hothers, h⟩ := Option.bind_eq_some_iff.mp h
    obtain rfl := Option.some.inj h
    cases answer with
    | none => exact (ih hothers).cons i
    | some r =>
      rw [List.reduceOption_cons_of_some, List.map_cons, hkey i r hanswer]
      exact (ih hothers).cons_cons i

variable [LinearOrder V]

/-- What the broker asks for about an item when only the item's own paths are in its sets. -/
def itemRematch (x : NodeIndex V) (σ : Recovery V I) (a b : Nat) (i : I) :
    Option (Option (MatchPubSubs V I)) := do
  let paths ← σ.path_info i
  let ends ← paths.mapM (checkPath a b)
  let starts := ends.reduceOption.filterMap fun e => x.nodeOf e.1
  let stops := ends.reduceOption.filterMap fun e => x.nodeOf e.2
  if starts = [] then return none
  else
    let alternatives ← σ.ex_pubs i
    if (nodeSet (starts ++ alternatives)).length < 256 ∧ (nodeSet stops).length < 256 then
      return some ⟨nodeSet (starts ++ alternatives), nodeSet stops, i⟩
    else none

theorem foldl_nodeSet (nodes others : List V) :
    others.foldl (StdSet.insert (· ≤ ·)) (nodeSet nodes) = nodeSet (nodes ++ others) :=
  StdSet.ofList_append.symm

theorem foldl_insertNode (nodes : List V) (vertices : List Nat) :
    vertices.foldl (insertNode x) nodes =
      (vertices.filterMap x.nodeOf).foldl (StdSet.insert (· ≤ ·)) nodes := by
  rw [List.foldl_filterMap]
  rfl

theorem foldlM_examine {a b : Nat} (paths : List (List Char)) (walk : LsnWalk V I) :
    paths.foldlM (examine x a b) walk = (paths.mapM (checkPath a b)).map fun ends => { walk with
      publishers := (ends.reduceOption.map Prod.fst).foldl (insertNode x) walk.publishers
      subscribers := (ends.reduceOption.map Prod.snd).foldl (insertNode x) walk.subscribers } := by
  induction paths generalizing walk with
  | nil => rfl
  | cons path paths ih =>
    rw [List.foldlM_cons, List.mapM_cons, examine]
    cases checkPath a b path with
    | none => rfl
    | some cut =>
      cases cut with
      | none =>
        simp only [Option.bind_eq_bind, Option.bind_some, Option.pure_def, ih]
        cases paths.mapM (checkPath a b) <;> rfl
      | some e =>
        simp only [Option.bind_eq_bind, Option.bind_some, Option.pure_def, ih]
        cases paths.mapM (checkPath a b) <;> rfl

/-- The loop over the paths of an item, from empty sets. -/
theorem foldlM_examine_nil {a b : Nat} (paths : List (List Char)) (requests : List (MatchPubSubs V I)) :
    paths.foldlM (examine x a b) ⟨[], [], requests⟩ = (paths.mapM (checkPath a b)).map fun ends =>
      ⟨nodeSet (ends.reduceOption.filterMap fun e => x.nodeOf e.1),
        nodeSet (ends.reduceOption.filterMap fun e => x.nodeOf e.2), requests⟩ := by
  simp only [foldlM_examine, foldl_insertNode, List.filterMap_map]
  rfl

section Ends

variable {a b : Nat} {paths : List (List Char)} {ends : List (Option (Nat × Nat))}

omit [LinearOrder V] in
theorem mem_starts (hends : paths.mapM (checkPath a b) = some ends) :
    (p ∈ ends.reduceOption.filterMap fun e => x.nodeOf e.1) ↔ ∃ path ∈ paths,
      isCut a b (splitIntString path '/') = true ∧ (splitIntString path '/').head? = some (x.vertex p) := by
  simp only [List.mem_filterMap, nodeOf_eq_some, List.reduceOption_mem_iff, Wire.mem_mapM hends,
    checkPath_eq_some]
  constructor
  · rintro ⟨e, ⟨path, hpath, hcut, hhead, -⟩, hp⟩
    exact ⟨path, hpath, hcut, hp ▸ hhead⟩
  · rintro ⟨path, hpath, hcut, hhead⟩
    obtain ⟨vs, hvs⟩ := List.head?_eq_some_iff.mp hhead
    refine ⟨(x.vertex p, (x.vertex p :: vs).getLast (List.cons_ne_nil _ _)), ?_, rfl⟩
    exact ⟨path, hpath, hcut, hhead, by rw [hvs, List.getLast?_eq_some_getLast]⟩

omit [LinearOrder V] in
theorem mem_stops (hends : paths.mapM (checkPath a b) = some ends) :
    (s ∈ ends.reduceOption.filterMap fun e => x.nodeOf e.2) ↔ ∃ path ∈ paths,
      isCut a b (splitIntString path '/') = true ∧ (splitIntString path '/').getLast? = some (x.vertex s) := by
  simp only [List.mem_filterMap, nodeOf_eq_some, List.reduceOption_mem_iff, Wire.mem_mapM hends,
    checkPath_eq_some]
  constructor
  · rintro ⟨e, ⟨path, hpath, hcut, -, hlast⟩, hs⟩
    exact ⟨path, hpath, hcut, hs ▸ hlast⟩
  · rintro ⟨path, hpath, hcut, hlast⟩
    obtain ⟨vs, hvs⟩ := List.getLast?_eq_some_iff.mp hlast
    refine ⟨((vs ++ [x.vertex s]).head (by simp), x.vertex s), ?_, rfl⟩
    exact ⟨path, hpath, hcut, by rw [hvs, List.head?_eq_some_head], hlast⟩

omit [LinearOrder V] in
/-- The broker finds the publisher of each path that is cut. -/
theorem starts_ne_nil (hstarts : Starts x σ i) (hpaths : σ.path_info i = some paths)
    (hends : paths.mapM (checkPath a b) = some ends) (hcut : ends.reduceOption ≠ []) :
    (ends.reduceOption.filterMap fun e => x.nodeOf e.1) ≠ [] := by
  obtain ⟨e, he⟩ := List.exists_mem_of_ne_nil _ hcut
  obtain ⟨path, hpath, hcheck⟩ := (Wire.mem_mapM hends).mp (List.reduceOption_mem_iff.mp he)
  obtain ⟨p, hp⟩ := hstarts paths path hpaths hpath
  exact List.ne_nil_of_mem ((mem_starts hends).mpr ⟨path, hpath, (checkPath_eq_some.mp hcheck).1, hp⟩)

end Ends

/-- The sets are empty again after each item. -/
theorem rematch_item {a b : Nat} (hstarts : Starts x σ i) (requests : List (MatchPubSubs V I)) :
    σ.rematch x a b ⟨[], [], requests⟩ i =
      (itemRematch x σ a b i).map fun answer => ⟨[], [], requests ++ answer.toList⟩ := by
  unfold rematch itemRematch
  cases hpaths : σ.path_info i with
  | none => rfl
  | some paths =>
    simp only [Option.bind_eq_bind, Option.bind_some, foldlM_examine_nil]
    cases hends : paths.mapM (checkPath a b) with
    | none => rfl
    | some ends =>
      simp only [Option.map_some, Option.bind_some]
      by_cases hcut : ends.reduceOption = []
      · rw [hcut]
        simp [nodeSet, StdSet.ofList]
      · have hne := starts_ne_nil hstarts hpaths hends hcut
        have hset : nodeSet (ends.reduceOption.filterMap fun e => x.nodeOf e.1) ≠ [] :=
          mt StdSet.ofList_eq_nil.mp hne
        rw [if_neg hset, if_neg hne]
        cases σ.ex_pubs i with
        | none => rfl
        | some ex =>
          simp only [Option.bind_some, foldl_nodeSet]
          split <;> rfl

/-- Item by item, as every recorded path starts at a node. -/
theorem handleLsnRequest_items {a b : Nat} (hstarts : ∀ i, Starts x σ i) (order : List I) :
    σ.handleLsnRequest x order a b = (order.mapM (itemRematch x σ a b)).map List.reduceOption := by
  suffices hwalk : ∀ requests, order.foldlM (σ.rematch x a b) ⟨[], [], requests⟩ =
      (order.mapM (itemRematch x σ a b)).map fun answers => ⟨[], [], requests ++ answers.reduceOption⟩ by
    rw [handleLsnRequest, hwalk []]
    cases order.mapM (itemRematch x σ a b) <;> rfl
  induction order with
  | nil => simp [List.reduceOption]
  | cons i order ih =>
    intro requests
    rw [List.foldlM_cons, rematch_item (hstarts i), List.mapM_cons]
    cases itemRematch x σ a b i with
    | none => rfl
    | some answer =>
      simp only [Option.map_some, Option.bind_eq_bind, Option.bind_some, ih]
      cases order.mapM (itemRematch x σ a b) with
      | none => rfl
      | some answers => cases answer <;> simp [List.reduceOption]

/-- The node is the end of a path that the broker finds cut. -/
def CutEnd (x : NodeIndex V) (σ : Recovery V I) (a b : Nat) (i : I) (s : V) : Prop :=
  ∃ paths path, σ.path_info i = some paths ∧ path ∈ paths ∧
    isCut a b (splitIntString path '/') = true ∧ (splitIntString path '/').getLast? = some (x.vertex s)

/-- The node is the start of such a path, or an alternative publisher. -/
def Candidate (x : NodeIndex V) (σ : Recovery V I) (a b : Nat) (i : I) (p : V) : Prop :=
  (∃ paths path, σ.path_info i = some paths ∧ path ∈ paths ∧
    isCut a b (splitIntString path '/') = true ∧ (splitIntString path '/').head? = some (x.vertex p)) ∨
  ∃ ex, σ.ex_pubs i = some ex ∧ p ∈ ex

/-- A request of the broker about the item. -/
structure Asks (x : NodeIndex V) (σ : Recovery V I) (a b : Nat) (i : I) (r : MatchPubSubs V I) : Prop where
  info_id : r.info_id = i
  cut : ∃ paths path, σ.path_info i = some paths ∧ path ∈ paths ∧ isCut a b (splitIntString path '/') = true
  publishers : ∀ p, p ∈ r.publishers ↔ Candidate x σ a b i p
  subscribers : ∀ s, s ∈ r.subscribers ↔ CutEnd x σ a b i s

omit [LinearOrder V] in
/-- The broker names publishers of the item. -/
theorem Asks.publisher {r : MatchPubSubs V I} {n m : Nat} (hsound : Sound x σ i)
    (hsmall : x.nodes.length ≤ 10 ^ 6) (hasks : Asks x σ n m i r) :
    ∀ p ∈ r.publishers, p ∈ σ.publishers i := by
  intro p hp
  rcases (hasks.publishers p).mp hp with ⟨paths, path, hpaths, hpath, -, hhead⟩ | ⟨ex, hex, hpex⟩
  · obtain ⟨p', s, w, huse⟩ := hsound.used paths path hpaths hpath
    rw [huse.head? hsmall] at hhead
    obtain rfl := x.vertex_injective (Option.some.inj hhead)
    exact huse.publisher
  · obtain ⟨paths, -, hpaths, -⟩ := hasks.cut
    obtain ⟨ex', hex', hmem⟩ := hsound.alternatives paths hpaths
    obtain rfl := Option.some.inj (hex.symm.trans hex')
    exact hmem p hpex

theorem itemRematch_eq {a b : Nat} (hstarts : Starts x σ i) {answer : Option (MatchPubSubs V I)}
    (h : itemRematch x σ a b i = some answer) :
    (answer = none ∧ ∀ paths path, σ.path_info i = some paths → path ∈ paths →
      isCut a b (splitIntString path '/') = false) ∨
    ∃ r, answer = some r ∧ Asks x σ a b i r := by
  obtain ⟨paths, hpaths, h⟩ := Option.bind_eq_some_iff.mp h
  obtain ⟨ends, hends, h⟩ := Option.bind_eq_some_iff.mp h
  simp only at h
  split at h
  · next hnil =>
    obtain rfl := Option.some.inj h
    refine Or.inl ⟨rfl, fun paths' path hpaths' hpath => ?_⟩
    obtain rfl := Option.some.inj (hpaths.symm.trans hpaths')
    obtain ⟨p, hhead⟩ := hstarts paths path hpaths hpath
    rw [Bool.eq_false_iff]
    intro hcut
    have hp := (mem_starts hends).mpr ⟨path, hpath, hcut, hhead⟩
    rw [hnil] at hp
    cases hp
  · next hne =>
    obtain ⟨ex, hex, h⟩ := Option.bind_eq_some_iff.mp h
    split at h
    · obtain rfl := Option.some.inj h
      refine Or.inr ⟨_, rfl, rfl, ?_, fun p => ?_, fun s => ?_⟩
      · obtain ⟨p, hp⟩ := List.exists_mem_of_ne_nil _ hne
        obtain ⟨path, hpath, hcut, -⟩ := (mem_starts hends).mp hp
        exact ⟨paths, path, hpaths, hpath, hcut⟩
      · rw [nodeSet, StdSet.mem_ofList, List.mem_append, mem_starts hends]
        simp [Candidate, hpaths, hex]
      · simp only [nodeSet, StdSet.mem_ofList, mem_stops hends]
        simp [CutEnd, hpaths]
    · cases h

/-- The requests are about different items, those of the walk. -/
theorem handleLsnRequest_eq [DecidableEq I] {order : List I} {a b : Nat} {requests : List (MatchPubSubs V I)}
    (hstarts : ∀ i, Starts x σ i) (horder : order.Nodup) (h : σ.handleLsnRequest x order a b = some requests) :
    (requests.map MatchPubSubs.info_id).Nodup ∧ (∀ r ∈ requests, Asks x σ a b r.info_id r) ∧
      ∀ i ∈ order, i ∉ requests.map MatchPubSubs.info_id → ∀ paths path, σ.path_info i = some paths →
        path ∈ paths → isCut a b (splitIntString path '/') = false := by
  rw [handleLsnRequest_items hstarts, Option.map_eq_some_iff] at h
  obtain ⟨answers, hanswers, rfl⟩ := h
  have hmem : ∀ r, r ∈ answers.reduceOption → ∃ i ∈ order, Asks x σ a b i r := by
    intro r hr
    obtain ⟨i, hi, hanswer⟩ := (Wire.mem_mapM hanswers).mp (List.reduceOption_mem_iff.mp hr)
    rcases itemRematch_eq (hstarts i) hanswer with ⟨hno, -⟩ | ⟨r', hr', hasks⟩
    · cases hno
    · obtain rfl := Option.some.inj hr'
      exact ⟨i, hi, hasks⟩
  refine ⟨?_, fun r hr => ?_, fun i hi hno => ?_⟩
  · refine horder.sublist (sublist_info_id hanswers fun i r hanswer => ?_)
    rcases itemRematch_eq (hstarts i) hanswer with ⟨hno, -⟩ | ⟨r', hr', hasks⟩
    · cases hno
    · obtain rfl := Option.some.inj hr'
      exact hasks.info_id
  · obtain ⟨i, -, hasks⟩ := hmem r hr
    rw [hasks.info_id]
    exact hasks
  · obtain ⟨answer, hanswer⟩ := Wire.exists_of_mapM hanswers i hi
    rcases itemRematch_eq (hstarts i) hanswer with ⟨-, hintact⟩ | ⟨r, rfl, hasks⟩
    · exact hintact
    · refine absurd ?_ hno
      have hr : r ∈ answers.reduceOption :=
        List.reduceOption_mem_iff.mpr ((Wire.mem_mapM hanswers).mpr ⟨i, hi, hanswer⟩)
      exact hasks.info_id ▸ List.mem_map_of_mem hr

/-! ## A failure -/

theorem InUse.intact {a b : V} {net : Net} {graph : LinkGraph V (List Char)}
    (h : InUse x σ i path p s w) (hsmall : x.nodes.length ≤ 10 ^ 6)
    (hgraph : σ.graph.updateGraph b a net false = some graph)
    (hcut : isCut (x.vertex a) (x.vertex b) (splitIntString path '/') = false) :
    InUse x { σ with graph := graph } i path p s w where
  publisher := h.publisher
  string := h.string
  leads := by
    obtain ⟨FID, htold, hleads⟩ := h.leads
    refine ⟨FID, htold, hleads.mono ?_ (Bitvector.Includes.refl FID)⟩
    rw [h.split hsmall] at hcut
    have hlinks := hleads.links
    clear hleads h
    induction w with
    | nil => exact .nil
    | cons u w ih =>
      cases w with
      | nil => exact .singleton u
      | cons v w =>
        rw [List.isChain_cons_cons] at hlinks ⊢
        simp only [List.map_cons, isCut, Bool.or_eq_false_iff, decide_eq_false_iff_not, not_or] at hcut
        refine ⟨hlinks.1.mono (fun e he hsource htarget => ?_) (Bitvector.Includes.refl FID), ?_⟩
        · apply LinkGraph.mem_edges_removed hgraph he
          · rintro ⟨hb, ha⟩
            exact hcut.1.2 ⟨by rw [← ha, htarget], by rw [← hb, hsource]⟩
          · rintro ⟨ha, hb⟩
            exact hcut.1.1 ⟨by rw [← ha, hsource], by rw [← hb, htarget]⟩
        · exact ih (by simpa using hcut.2) hlinks.2

theorem sound_intact {a b : V} {net : Net} {graph : LinkGraph V (List Char)}
    (hgraph : σ.graph.updateGraph b a net false = some graph) (hsmall : x.nodes.length ≤ 10 ^ 6)
    (h : Sound x σ i) (hcut : ∀ paths path, σ.path_info i = some paths → path ∈ paths →
      isCut (x.vertex a) (x.vertex b) (splitIntString path '/') = false) :
    Sound x { σ with graph := graph } i where
  used paths path hpaths hpath := by
    obtain ⟨p, s, w, huse⟩ := h.used paths path hpaths hpath
    exact ⟨p, s, w, huse.intact hsmall hgraph (hcut paths path hpaths hpath)⟩
  alternatives := h.alternatives

section Runs

variable [DecidableEq I] (x)

/-- Each subscriber of a request is reached by one of its publishers. A failure cuts no path of an item, or
all of them, and then the remaining links lead to each end from a publisher that the broker names. -/
def Careful (σ : Recovery V I) : Occurrence V I → Prop
  | .matchPubSubs r => ∀ s ∈ r.subscribers, ∃ p ∈ r.publishers,
    Relation.ReflTransGen (Adj σ.graph.edges) p s
  | .linkFailure a b net _ => ∀ i paths, σ.path_info i = some paths →
    (∀ path ∈ paths, isCut (x.vertex a) (x.vertex b) (splitIntString path '/') = false ∧
      isCut (x.vertex a % 256) (x.vertex b % 256) (splitIntString path '/') = false) ∨
    (∀ path ∈ paths, isCut (x.vertex a % 256) (x.vertex b % 256) (splitIntString path '/') = true) ∧
      ∀ graph, σ.graph.updateGraph b a net false = some graph → ∀ s, Recorded x σ i s →
        ∃ p, Candidate x σ (x.vertex a % 256) (x.vertex b % 256) i p ∧
          Relation.ReflTransGen (Adj graph.edges) p s
  | .linkEstablishment _ _ _ => True

variable {x} {a b : V} {net : Net} {order : List I}

/-- What a failure does: one request for each item with a path that the broker finds cut. -/
structure Failure (x : NodeIndex V) (σ : Recovery V I) (a b : V) (net : Net) (graph : LinkGraph V (List Char))
    (requests : List (MatchPubSubs V I)) (σ' : Recovery V I) : Prop where
  removed : σ.graph.updateGraph b a net false = some graph
  nodup : (requests.map MatchPubSubs.info_id).Nodup
  asks : ∀ r ∈ requests, Asks x σ (x.vertex a % 256) (x.vertex b % 256) r.info_id r
  intact : ∀ i, i ∉ requests.map MatchPubSubs.info_id → ∀ paths path, σ.path_info i = some paths →
    path ∈ paths → isCut (x.vertex a % 256) (x.vertex b % 256) (splitIntString path '/') = false
  run : requests.foldlM (serve x) { σ with graph := graph } = some σ'

theorem exists_failure (hsound : ∀ i, Sound x σ i) (hsmall : x.nodes.length ≤ 10 ^ 6)
    (h : Step x σ (.linkFailure a b net order) σ') :
    ∃ graph requests, Failure x σ a b net graph requests σ' := by
  obtain ⟨⟨hnodup, hwalk⟩, hnext⟩ := h
  obtain ⟨graph, hgraph, hnext⟩ := Option.bind_eq_some_iff.mp hnext
  obtain ⟨requests, hrequests, hrun⟩ := Option.bind_eq_some_iff.mp hnext
  obtain ⟨hkeys, hasks, hintact⟩ := handleLsnRequest_eq (fun i => (hsound i).starts hsmall) hnodup hrequests
  refine ⟨graph, requests, hgraph, hkeys, hasks, fun i hi paths path hpaths => ?_, hrun⟩
  have hin : i ∈ order := (hwalk i).mpr (by simp [hpaths])
  exact hintact i hin hi paths path hpaths

omit [DecidableEq I] in
theorem Asks.reached {graph : LinkGraph V (List Char)} {r : MatchPubSubs V I}
    (hcare : Careful x σ (.linkFailure a b net order))
    (hgraph : σ.graph.updateGraph b a net false = some graph)
    (hasks : Asks x σ (x.vertex a % 256) (x.vertex b % 256) i r) :
    (∀ s, Recorded x σ i s → s ∈ r.subscribers) ∧
      ∀ s ∈ r.subscribers, ∃ p ∈ r.publishers, Relation.ReflTransGen (Adj graph.edges) p s := by
  obtain ⟨paths, path, hpaths, hpath, hcut⟩ := hasks.cut
  rcases hcare i paths hpaths with hintact | ⟨hall, hreach⟩
  · rw [(hintact path hpath).2] at hcut
    cases hcut
  · refine ⟨fun s hs => ?_, fun s hs => ?_⟩
    · obtain ⟨paths', path', hpaths', hpath', hlast⟩ := hs
      obtain rfl := Option.some.inj (hpaths.symm.trans hpaths')
      exact (hasks.subscribers s).mpr ⟨paths, path', hpaths, hpath', hall path' hpath', hlast⟩
    · obtain ⟨paths', path', hpaths', hpath', -, hlast⟩ := (hasks.subscribers s).mp hs
      obtain ⟨p, hp, hreach⟩ := hreach graph hgraph s ⟨paths', path', hpaths', hpath', hlast⟩
      exact ⟨p, (hasks.publishers p).mpr hp, hreach⟩

theorem recovered_step (hx : x.ShortestPaths) (hsmall : x.nodes.length ≤ 10 ^ 6)
    (hsound : ∀ i, Sound x σ i) (hcare : Careful x σ (.linkFailure a b net order))
    (h : Step x σ (.linkFailure a b net order) σ') :
    σ'.graph.Indexed ∧ (∀ i, Sound x σ' i) ∧ Recovered x σ σ' := by
  obtain ⟨graph, requests, hfail⟩ := exists_failure hsound hsmall h
  have hindexed : graph.Indexed := LinkGraph.indexed_updateGraph hfail.removed
  obtain ⟨hgraph, hsame, -, hall⟩ := serve_each (Q := fun r τ => Sound x τ r.info_id ∧
      ∀ s ∈ r.subscribers, Supplied x τ r.info_id s) hfail.nodup hfail.run (by
    intro τ τ' r hr hgraph hpubs hserve
    have hasks := hfail.asks r hr
    have hnamed := hasks.publisher (hsound _) hsmall
    refine serve_sound hx hsmall (hgraph ▸ hindexed) (by rwa [hpubs]) ?_ hserve
    rw [hgraph]
    exact (hasks.reached hcare hfail.removed).2) (by
    rintro τ τ' r i ⟨hr, hsupplied⟩ hframe hne
    have hkept := hframe.same hne
    exact ⟨hr.congr hframe.graph hkept, fun s hs => (hsupplied s hs).congr hframe.graph hkept⟩)
  have hintact : ∀ i, i ∉ requests.map MatchPubSubs.info_id → Sound x σ' i ∧
      ∀ s, Recorded x σ i s → Supplied x σ' i s := by
    intro i hi
    have huncut : ∀ paths path, σ.path_info i = some paths → path ∈ paths →
        isCut (x.vertex a) (x.vertex b) (splitIntString path '/') = false := by
      intro paths path hpaths hpath
      rcases hcare i paths hpaths with hnone | ⟨hcut, -⟩
      · exact (hnone path hpath).1
      · exact absurd (hfail.intact i hi paths path hpaths hpath) (by simp [hcut path hpath])
    refine ⟨(sound_intact hfail.removed hsmall (hsound i) huncut).congr hgraph (hsame i hi), fun s hs => ?_⟩
    obtain ⟨paths, path, p, w, hpaths, hpath, huse⟩ := (hsound i).recorded hsmall hs
    have hkept := huse.intact hsmall hfail.removed (huncut paths path hpaths hpath)
    have hsupplied : Supplied x { σ with graph := graph } i s := ⟨paths, path, p, w, hpaths, hpath, hkept⟩
    exact hsupplied.congr hgraph (hsame i hi)
  refine ⟨hgraph ▸ hindexed, fun i => ?_, fun i s hs _ => ?_⟩
  · by_cases hi : i ∈ requests.map MatchPubSubs.info_id
    · obtain ⟨r, hr, rfl⟩ := List.mem_map.mp hi
      exact (hall r hr).1
    · exact (hintact i hi).1
  · suffices hsupplied : Supplied x σ' i s from ⟨hsupplied.covered, hsupplied.listed hsmall⟩
    by_cases hi : i ∈ requests.map MatchPubSubs.info_id
    · obtain ⟨r, hr, rfl⟩ := List.mem_map.mp hi
      exact (hall r hr).2 s (((hfail.asks r hr).reached hcare hfail.removed).1 s hs)
    · exact (hintact i hi).2 s hs

theorem sound_matched (hx : x.ShortestPaths) (hsmall : x.nodes.length ≤ 10 ^ 6)
    (hg : σ.graph.Indexed) (hsound : ∀ i, Sound x σ i) (hcare : Careful x σ (.matchPubSubs r))
    (h : Step x σ (.matchPubSubs r) σ') : σ'.graph.Indexed ∧ ∀ i, Sound x σ' i := by
  have hrun : serve x { σ with publishers := Function.update σ.publishers r.info_id r.publishers } r =
      some σ' := h.2
  obtain ⟨m, hserved⟩ := exists_served hrun
  have hframe := hserved.frame
  have hgraph : σ'.graph = σ.graph := hframe.graph
  refine ⟨hgraph ▸ hg, fun i => ?_⟩
  by_cases hi : i = r.info_id
  · subst hi
    generalize hstart : { σ with publishers := Function.update σ.publishers r.info_id r.publishers } = τ at hrun
    have hnamed : ∀ p ∈ r.publishers, p ∈ τ.publishers r.info_id := by
      rw [← hstart]
      simp
    have hedges : τ.graph = σ.graph := by rw [← hstart]
    exact (serve_sound hx hsmall (hedges ▸ hg) hnamed (hedges ▸ hcare) hrun).1
  · have hkept := hframe.same hi
    refine (hsound i).congr hgraph ⟨?_, hkept.path_info, hkept.ex_pubs, hkept.notified⟩
    rw [hkept.publishers]
    exact Function.update_of_ne hi _ _

theorem sound_established (hsound : ∀ i, Sound x σ i) (h : Step x σ (.linkEstablishment a b net) σ') :
    σ'.graph.Indexed ∧ ∀ i, Sound x σ' i := by
  obtain ⟨graph, hgraph, hnext⟩ := Option.bind_eq_some_iff.mp h.2
  obtain rfl := Option.some.inj hnext
  refine ⟨LinkGraph.indexed_updateGraph hgraph, fun i => ⟨fun paths path hpaths hpath => ?_, (hsound i).alternatives⟩⟩
  obtain ⟨p, s, w, huse⟩ := (hsound i).used paths path hpaths hpath
  obtain ⟨FID, htold, hleads⟩ := huse.leads
  refine ⟨p, s, w, huse.publisher, huse.string, FID, htold, hleads.mono ?_ (Bitvector.Includes.refl FID)⟩
  refine hleads.links.imp fun u v huv => ?_
  exact huv.mono (fun e he _ _ => LinkGraph.mem_edges_added hgraph he) (Bitvector.Includes.refl FID)

/-- In a careful run everything that is recorded is in use. -/
theorem sound_run (hx : x.ShortestPaths) (hsmall : x.nodes.length ≤ 10 ^ 6)
    {edges : List (LinkEdge V (List Char))}
    (h : Runs.Reachable (Runs.Guarded (Step x) (Careful x)) (new edges) σ) :
    σ.graph.Indexed ∧ ∀ i, Sound x σ i := by
  refine h.invariant (I := fun σ => σ.graph.Indexed ∧ ∀ i, Sound x σ i) ?_ ?_
  · exact ⟨LinkGraph.indexed_reindex _, fun i => ⟨nofun, nofun⟩⟩
  · rintro σ o σ' - ⟨hg, hsound⟩ ⟨hstep, hcare⟩
    cases o with
    | matchPubSubs r => exact sound_matched hx hsmall hg hsound hcare hstep
    | linkFailure a b net order =>
      obtain ⟨hg', hsound', -⟩ := recovered_step hx hsmall hsound hcare hstep
      exact ⟨hg', hsound'⟩
    | linkEstablishment a b net => exact sound_established hsound hstep

/-! ## What is lost -/

omit [DecidableEq I] in
/-- After a request the paths lead to its subscribers only. -/
theorem Served.listed {m : TMIgraph.Matching V} (hx : x.ShortestPaths) (hsmall : x.nodes.length ≤ 10 ^ 6)
    (hg : σ.graph.Indexed) (h : Served x σ σ' r m) (hs : Listed x σ' r.info_id s) :
    s ∈ r.subscribers ∧ ∃ p ∈ r.publishers, Relation.ReflTransGen (Adj σ.graph.edges) p s := by
  obtain ⟨paths, path, hpaths, hpath, p, -, w, hwalk, hsplit⟩ := hs
  obtain ⟨p', FID, ws, w', -, hws, hw', rfl⟩ := (h.mem_paths path).mp ⟨paths, hpaths, hpath⟩
  obtain ⟨s', hs', hfound, rfl⟩ := (TMIgraph.traced_calculateFIDs h.run).only p' ws w' hws hw'
  have hleads := NodeIndex.leads_route hx hg hfound
  rw [splitIntString_map hsmall] at hsplit
  have hsame := List.map_injective_iff.mpr x.vertex_injective hsplit
  have hend := hleads.walk.last
  rw [hsame, hwalk.last] at hend
  obtain rfl := Option.some.inj hend
  have hp' : p' ∈ nodeSet r.publishers := by
    rw [← (TMIgraph.keys_calculateFIDs h.run).path_vectors]
    exact List.mem_map_of_mem hws
  exact ⟨StdSet.mem_ofList.mp hs', p', StdSet.mem_ofList.mp hp', hleads.walk.reach⟩

omit [LinearOrder V] [DecidableEq I] in
theorem Listed.congr (h : Listed x σ i s) (hgraph : σ'.graph = σ.graph) (hsame : Same i σ σ') :
    Listed x σ' i s := by
  obtain ⟨paths, path, hpaths, hpath, p, hp, w, hwalk, hsplit⟩ := h
  exact ⟨paths, path, hsame.path_info.trans hpaths, hpath, p, hsame.publishers ▸ hp, w,
    hgraph ▸ hwalk, hsplit⟩

/-- When a path of an item is found cut, only the ends of its cut paths stay listed, and only those
that a candidate reaches. -/
theorem listed_step (hx : x.ShortestPaths) (hsmall : x.nodes.length ≤ 10 ^ 6)
    (hsound : ∀ i, Sound x σ i) (h : Step x σ (.linkFailure a b net order) σ')
    (hcut : ∃ paths path, σ.path_info i = some paths ∧ path ∈ paths ∧
      isCut (x.vertex a % 256) (x.vertex b % 256) (splitIntString path '/') = true)
    (hs : Listed x σ' i s) :
    CutEnd x σ (x.vertex a % 256) (x.vertex b % 256) i s ∧
    ∃ p, Candidate x σ (x.vertex a % 256) (x.vertex b % 256) i p ∧
      Relation.ReflTransGen (Adj σ'.graph.edges) p s := by
  obtain ⟨graph, requests, hfail⟩ := exists_failure hsound hsmall h
  have hindexed : graph.Indexed := LinkGraph.indexed_updateGraph hfail.removed
  obtain ⟨hgraph, -, -, hall⟩ := serve_each (Q := fun r τ => τ.graph = graph ∧ ∀ s, Listed x τ r.info_id s →
      s ∈ r.subscribers ∧ ∃ p ∈ r.publishers, Relation.ReflTransGen (Adj graph.edges) p s)
    hfail.nodup hfail.run (by
    intro τ τ' r hr hgraph _ hserve
    obtain ⟨m, hserved⟩ := exists_served hserve
    refine ⟨hserved.frame.graph.trans hgraph, fun s hs => ?_⟩
    have hlist := hserved.listed hx hsmall (hgraph ▸ hindexed) hs
    rwa [hgraph] at hlist) (by
    rintro τ τ' r i ⟨hgraph, hr⟩ hframe hne
    refine ⟨hframe.graph.trans hgraph, fun s hs => hr s ?_⟩
    have hkept := hframe.same hne
    exact hs.congr hframe.graph.symm ⟨hkept.publishers.symm, hkept.path_info.symm, hkept.ex_pubs.symm,
      hkept.notified.symm⟩)
  have hi : i ∈ requests.map MatchPubSubs.info_id := by
    by_contra hi
    obtain ⟨paths, path, hpaths, hpath, hcut⟩ := hcut
    rw [hfail.intact i hi paths path hpaths hpath] at hcut
    cases hcut
  obtain ⟨r, hr, rfl⟩ := List.mem_map.mp hi
  obtain ⟨hsub, p, hp, hreach⟩ := (hall r hr).2 s hs
  have hasks := hfail.asks r hr
  rw [hgraph]
  exact ⟨(hasks.subscribers s).mp hsub, p, (hasks.publishers p).mp hp, hreach⟩

/-- In a careful run a careful failure is recovered from. Conversely, when a failure is recovered from, then
each recorded subscriber of an item with a cut path that can be reached is itself the end of a cut path, and
a candidate reaches it. -/
theorem recovers (hx : x.ShortestPaths) (hsmall : x.nodes.length ≤ 10 ^ 6)
    {edges : List (LinkEdge V (List Char))}
    (h : Runs.Reachable (Runs.Guarded (Step x) (Careful x)) (new edges) σ)
    (hstep : Step x σ (.linkFailure a b net order) σ') :
    (Careful x σ (.linkFailure a b net order) → Recovered x σ σ') ∧
    (Recovered x σ σ' → ∀ i, (∃ s, CutEnd x σ (x.vertex a % 256) (x.vertex b % 256) i s) →
      ∀ s, Recorded x σ i s → Reached σ' i s → CutEnd x σ (x.vertex a % 256) (x.vertex b % 256) i s ∧
        ∃ p, Candidate x σ (x.vertex a % 256) (x.vertex b % 256) i p ∧
          Relation.ReflTransGen (Adj σ'.graph.edges) p s) := by
  obtain ⟨-, hsound⟩ := sound_run hx hsmall h
  refine ⟨fun hcare => (recovered_step hx hsmall hsound hcare hstep).2.2, fun hrec i hcut s hs hreach => ?_⟩
  obtain ⟨_, paths, path, hpaths, hpath, hcut, -⟩ := hcut
  exact listed_step hx hsmall hsound hstep ⟨paths, path, hpaths, hpath, hcut⟩ (hrec i s hs hreach).2

end Runs

/-! ## A square with a tail -/

/-- Both directions of 0 - 1, 1 - 2, 0 - 2 and 0 - 3. -/
def squareEdges : List (LinkEdge (Fin 4) (List Char)) :=
  [⟨0, 1, oneHot 10, QoSList.empty⟩, ⟨1, 0, oneHot 11, QoSList.empty⟩, ⟨1, 2, oneHot 12, QoSList.empty⟩,
    ⟨2, 1, oneHot 13, QoSList.empty⟩, ⟨0, 2, oneHot 14, QoSList.empty⟩, ⟨2, 0, oneHot 15, QoSList.empty⟩,
    ⟨0, 3, oneHot 16, QoSList.empty⟩, ⟨3, 0, oneHot 17, QoSList.empty⟩]

def squareIndex : NodeIndex (Fin 4) where
  nodes := List.finRange 4
  vertex := Fin.val
  iLID v := oneHot v
  shortest edges := Walks.search (Adj edges) (List.finRange 4)
  mem_nodes := List.mem_finRange
  vertex_injective := Fin.val_injective
  vertex_lt v := by
    rw [List.length_finRange]
    exact v.isLt

theorem squareIndex_shortestPaths : squareIndex.ShortestPaths := fun _ _ _ =>
  ⟨Walks.isShortest_search List.mem_finRange, Walks.search_eq_nil List.mem_finRange⟩

omit [LinearOrder V] in
theorem adj_iff {edges : List (LinkEdge V (List Char))} {u v : V} :
    Adj edges u v ↔ (u, v) ∈ edges.map fun e => (e.source, e.target) := by
  simp [Adj]

/-- The link 0 - 2 fails. -/
def squareFailure : Occurrence (Fin 4) Unit := .linkFailure 0 2 .e [()]

/-- Node 0 publishes to these nodes. -/
def squareMatch (subscribers : List (Fin 4)) : Occurrence (Fin 4) Unit :=
  .matchPubSubs ⟨[0], subscribers, ()⟩

/-- What the two processes have after a match and the failure. -/
def squareRun (subscribers : List (Fin 4)) : Option (Recovery (Fin 4) Unit × Recovery (Fin 4) Unit) := do
  let σ ← (new squareEdges).next squareIndex (squareMatch subscribers)
  let σ' ← σ.next squareIndex squareFailure
  return (σ, σ')

theorem square_edges : ((LinkGraph.new squareEdges).updateGraph 2 0 .e false).map
    (fun g => g.edges.map fun e => (e.source, e.target)) =
    some [(0, 1), (1, 0), (1, 2), (2, 1), (0, 3), (3, 0)] := by decide +kernel

theorem squareRun_steps {subscribers : List (Fin 4)} {σ σ' : Recovery (Fin 4) Unit}
    (hreach : ∀ s ∈ subscribers, Adj squareEdges 0 s) (h : squareRun subscribers = some (σ, σ'))
    (hpaths : σ.path_info () ≠ none) :
    Runs.Reachable (Runs.Guarded (Step squareIndex) (Careful squareIndex)) (new squareEdges) σ ∧
      Step squareIndex σ squareFailure σ' ∧ σ.graph = LinkGraph.new squareEdges := by
  obtain ⟨σ₁, hmatch, h⟩ := Option.bind_eq_some_iff.mp h
  obtain ⟨σ₂, hfail, h⟩ := Option.bind_eq_some_iff.mp h
  obtain ⟨rfl, rfl⟩ := Prod.mk.inj (Option.some.inj h)
  have hcare : Careful squareIndex (new squareEdges) (squareMatch subscribers) := fun s hs =>
    ⟨0, List.mem_singleton.mpr rfl, .single (hreach s hs)⟩
  have hallowed : (new squareEdges).Allowed (squareMatch subscribers) := trivial
  refine ⟨Runs.Reachable.start.next ⟨⟨hallowed, hmatch⟩, hcare⟩, ⟨⟨by simp, fun _ => ?_⟩, hfail⟩, ?_⟩
  · simpa using hpaths
  · obtain ⟨m, hserved⟩ := exists_served hmatch
    exact hserved.frame.graph

/-- The only path is cut, and the way over node 1 takes its place. -/
theorem recovers_square : ∃ σ σ' : Recovery (Fin 4) Unit,
    σ.path_info () = some [pathString [0, 2]] ∧ σ'.path_info () = some [pathString [0, 1, 2]] ∧
      Recovered squareIndex σ σ' := by
  have hrun : (squareRun [2]).map (fun σσ => (σσ.1.path_info (), σσ.2.path_info ())) =
      some (some [pathString [0, 2]], some [pathString [0, 1, 2]]) := by decide +kernel
  obtain ⟨⟨σ, σ'⟩, hrun, hpaths⟩ := Option.map_eq_some_iff.mp hrun
  obtain ⟨hbefore, hafter⟩ : σ.path_info () = _ ∧ σ'.path_info () = _ := Prod.mk.inj hpaths
  have hreach : ∀ s ∈ [(2 : Fin 4)], Adj squareEdges 0 s := by decide
  obtain ⟨hreachable, hstep, hgraph⟩ := squareRun_steps hreach hrun (by simp [hbefore])
  refine ⟨σ, σ', hbefore, hafter, (recovers squareIndex_shortestPaths (by decide) hreachable hstep).1 ?_⟩
  intro i paths hpaths
  obtain rfl : paths = [pathString [0, 2]] := by
    rw [hbefore] at hpaths
    exact (Option.some.inj hpaths).symm
  refine Or.inr
    ⟨by decide, fun graph hremoved s hs => ⟨0, Or.inl ⟨_, _, hbefore, List.mem_singleton.mpr rfl, ?_, ?_⟩, ?_⟩⟩
  · decide
  · decide
  · rw [hgraph] at hremoved
    have hedges := square_edges
    rw [hremoved, Option.map_some, Option.some.injEq] at hedges
    obtain ⟨paths, path, hpaths, hpath, hlast⟩ := hs
    obtain rfl := Option.some.inj (hbefore.symm.trans hpaths)
    obtain rfl := List.mem_singleton.mp hpath
    have hend : (splitIntString (pathString [0, 2]) '/').getLast? = some (squareIndex.vertex 2) := by decide
    obtain rfl := squareIndex.vertex_injective (Option.some.inj (hend.symm.trans hlast))
    have hfirst : Adj graph.edges 0 1 := adj_iff.mpr (by rw [hedges]; decide)
    have hsecond : Adj graph.edges 1 2 := adj_iff.mpr (by rw [hedges]; decide)
    exact .tail (.single hfirst) hsecond

/-- The path to node 3 is intact, and both the identifier and the record are lost. -/
theorem not_recovered : ∃ σ σ' : Recovery (Fin 4) Unit,
    Runs.Reachable (Step squareIndex) (new squareEdges) σ ∧ Step squareIndex σ squareFailure σ' ∧
      squareIndex.ShortestPaths ∧ ¬ Recovered squareIndex σ σ' := by
  have hrun : (squareRun [2, 3]).map (fun σσ => (σσ.1.path_info (), σσ.2.path_info ())) =
      some (some [pathString [0, 2], pathString [0, 3]], some [pathString [0, 1, 2]]) := by
    decide +kernel
  have hmore : (squareRun [2, 3]).map (fun σσ => (σσ.2.publishers (),
      σσ.2.graph.edges.map fun e => (e.source, e.target))) =
      some ([0], [(0, 1), (1, 0), (1, 2), (2, 1), (0, 3), (3, 0)]) := by decide +kernel
  obtain ⟨⟨σ, σ'⟩, hrun, hpaths⟩ := Option.map_eq_some_iff.mp hrun
  obtain ⟨hbefore, hafter⟩ : σ.path_info () = _ ∧ σ'.path_info () = _ := Prod.mk.inj hpaths
  rw [hrun, Option.map_some, Option.some.injEq] at hmore
  obtain ⟨hpubs, hedges⟩ : σ'.publishers () = _ ∧
      σ'.graph.edges.map (fun e => (e.source, e.target)) = _ := Prod.mk.inj hmore
  have hreach : ∀ s ∈ [(2 : Fin 4), 3], Adj squareEdges 0 s := by decide
  obtain ⟨hreachable, hstep, -⟩ := squareRun_steps hreach hrun (by simp [hbefore])
  refine ⟨σ, σ', hreachable.of_guarded, hstep, squareIndex_shortestPaths, fun hrec => ?_⟩
  have hreached : Reached σ' () 3 := by
    refine ⟨0, by simp [hpubs], .single (adj_iff.mpr ?_)⟩
    rw [hedges]
    decide
  have hrecorded : Recorded squareIndex σ () 3 :=
    ⟨_, pathString [0, 3], hbefore, by simp, by decide⟩
  obtain ⟨-, paths, path, hpaths, hpath, p, -, w, hwalk, hsplit⟩ := hrec () 3 hrecorded hreached
  obtain rfl := Option.some.inj (hafter.symm.trans hpaths)
  obtain rfl := List.mem_singleton.mp hpath
  have hlast := congrArg List.getLast? hsplit
  rw [List.getLast?_map, hwalk.last] at hlast
  exact absurd hlast (by decide)

end Recovery

end Blackadder
