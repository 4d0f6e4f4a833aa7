import Blackadder.Lipsin.Assignment

/-!
# Publishers by the weights of links

A copy of the rendezvous that takes the distances from weighted paths. It counts links where the other
counts nodes, and no link where source and destination are one node is counted as one.
-/

namespace Blackadder

namespace TMIgraph

open Walks

variable {V E : Type*}

section

variable [DecidableEq V]

/-- `calculateFID_weighted(source, destination, resultFID, numberOfHops, path, weights)`. The nodes
and the edges of a path are what `igraph_get_shortest_paths_dijkstra` finds. -/
def routeWeighted (g : TMIgraph V E) (dijkstra : (E → Nat) → V → V → List V × List E)
    (weights : E → Nat) (source destination : V) : Route V :=
  let path := dijkstra weights source destination
  let resultFID := path.2.foldl (fun FID eid => FID ||| Bitvector.parse (g.LID eid)) 0
  let numberOfHops := path.2.length % 2 ^ 32
  let numberOfHops := if numberOfHops = 0 then uintMax else numberOfHops
  { FID := resultFID ||| Bitvector.parse (g.iLID destination)
    numberOfHops := if source = destination then 1 else numberOfHops
    path := path.1 }

/-- `calculateFID_weighted(publishers, subscribers, result, path_vectors, weights)`. -/
def calculateFIDsWeighted (g : TMIgraph V E) (dijkstra : (E → Nat) → V → V → List V × List E)
    (weights : E → Nat) (publishers subscribers : List V) : Option (Matching V) :=
  calculateFIDs (g.routeWeighted dijkstra weights) publishers subscribers

end

/-- The publisher that the inner loop picks for a subscriber. -/
def picked (route : V → V → Route V) (publishers : List V) (sub : V) : Option V :=
  (publishers.foldl (better route sub) (uintMax, none, 0, [])).2.1

/-- An identifier has all links of some path of this many links, and the internal link of its end. -/
def ContainsPath (g : TMIgraph V E) (joins : E → V → V → Prop) (publ s : V) (n : Nat)
    (bits : Nat → Prop) : Prop :=
  ∃ edges, EdgeWalk joins publ s edges ∧ edges.length = n ∧
    (∀ e ∈ edges, ∀ i, (Bitvector.parse (g.LID e)).getLsbD i = true → bits i) ∧
    ∀ i, (Bitvector.parse (g.iLID s)).getLsbD i = true → bits i

/-- What igraph promises of weighted paths. -/
structure FindsLightest (joins : E → V → V → Prop) (weights : E → Nat)
    (path : V → V → List V × List E) : Prop where
  some : ∀ u v, (∃ edges, EdgeWalk joins u v edges) →
    EdgeWalk joins u v (path u v).2 ∧ ∀ edges, EdgeWalk joins u v edges →
      ((path u v).2.map weights).sum ≤ (edges.map weights).sum
  none : ∀ u v, ¬ (∃ edges, EdgeWalk joins u v edges) → path u v = ([], [])

abbrev Linked (joins : E → V → V → Prop) (u v : V) : Prop := ∃ e, joins e u v

/-- An edge between two nodes is found when there is one. -/
def FindsEdges (g : TMIgraph V E) (joins : E → V → V → Prop) : Prop :=
  ∀ u v, Linked joins u v → joins (g.getEid u v) u v

variable {f : V → V → Route V} {g : TMIgraph V E} {joins : E → V → V → Prop}
  {dijkstra : (E → Nat) → V → V → List V × List E} {publishers l : List V} {publ s : V}

theorem picked_iff : picked f publishers s = some publ ↔ First f publishers s publ := by
  rcases foldl_better f s publishers (uintMax, none, 0, []) with
    ⟨hsame, hall⟩ | ⟨before, best, after, hsplit, hbefore, hafter, hlt, heq⟩
  · rw [picked, hsame]
    exact ⟨nofun, fun hfirst => absurd (hall publ hfirst.mem) (Nat.not_le.mpr hfirst.found)⟩
  · have hbest : First f publishers s best := ⟨hlt, before, after, hsplit, hbefore, hafter⟩
    rw [picked, heq]
    constructor
    · intro hsame
      obtain rfl := Option.some.inj hsame
      exact hbest
    · intro hfirst
      exact congrArg some (hbest.unique hfirst)

/-- A bit of a subscriber that the publisher's identifier keeps. -/
def KeptBit (f : V → V → Route V) (publishers subscribers : List V) (publ : V) (i : Nat) : Prop :=
  ∃ t, Keeps f publishers subscribers publ t ∧ (f publ t).FID.getLsbD i = true

/-- Two ways to find routes that pick the same publishers keep the same subscribers. -/
theorem keeps_congr {f' : V → V → Route V} {subscribers : List V}
    (hfirst : ∀ s ∈ subscribers, ∀ publ, First f' publishers s publ ↔ First f publishers s publ)
    (hfound : ∀ publ s, Found f' publ s ↔ Found f publ s) :
    Keeps f' publishers subscribers publ s ↔ Keeps f publishers subscribers publ s := by
  have hdropped : Dropped f' publishers subscribers publ s ↔ Dropped f publishers subscribers publ s := by
    refine exists_congr fun before => exists_congr fun t => exists_congr fun u =>
      exists_congr fun after => and_congr_right fun hsplit => and_congr_right fun _ => and_congr ?_ ?_
    · exact hfirst t (by simp [hsplit]) publ
    · exact forall₂_congr fun p _ => not_congr (hfound p u)
  constructor
  · rintro ⟨hs, hpubl, hkept⟩
    exact ⟨hs, (hfirst s hs publ).mp hpubl, fun h => hkept (hdropped.mpr h)⟩
  · rintro ⟨hs, hpubl, hkept⟩
    exact ⟨hs, (hfirst s hs publ).mpr hpubl, fun h => hkept (hdropped.mp h)⟩

section

variable {m : Matching V} {subscribers : List V}

/-- A publisher has no identifier exactly when no subscriber is its own. -/
theorem Combined.null_iff (h : Combined f publishers subscribers m) (hpubl : publ ∈ publishers) :
    (publ, none) ∈ m.result ↔ ∀ s ∈ subscribers, ¬ First f publishers s publ := by
  refine ⟨h.null publ, fun hno => ?_⟩
  rw [← h.result] at hpubl
  obtain ⟨⟨key, _ | FID⟩, hmem, rfl⟩ := List.mem_map.mp hpubl
  · exact hmem
  · obtain ⟨s, hs⟩ := h.used key FID hmem
    exact absurd hs.first (hno s hs.mem)

theorem Combined.exists_FID (h : Combined f publishers subscribers m) (hs : s ∈ subscribers)
    (hfirst : First f publishers s publ) :
    ∃ FID, (publ, some FID) ∈ m.result ∧ ∀ i, FID.getLsbD i = true ↔ KeptBit f publishers subscribers publ i := by
  have hpubl := hfirst.mem
  rw [← h.result] at hpubl
  obtain ⟨⟨key, _ | FID⟩, hmem, rfl⟩ := List.mem_map.mp hpubl
  · exact absurd hfirst (h.null key hmem s hs)
  · exact ⟨FID, hmem, h.bits key FID hmem⟩

end

/-- A bit of a link of a path, or of the internal link of its end. -/
def MarksEdges (g : TMIgraph V E) (edges : List E) (s : V) (i : Nat) : Prop :=
  (∃ e ∈ edges, (Bitvector.parse (g.LID e)).getLsbD i = true) ∨
    (Bitvector.parse (g.iLID s)).getLsbD i = true

theorem containsPath_iff {n : Nat} {bits : Nat → Prop} : g.ContainsPath joins publ s n bits ↔
    ∃ edges, EdgeWalk joins publ s edges ∧ edges.length = n ∧ ∀ i, g.MarksEdges edges s i → bits i := by
  refine exists_congr fun edges => and_congr_right fun _ => and_congr_right fun _ => ?_
  constructor
  · rintro ⟨hlinks, hnode⟩ i (⟨e, he, hi⟩ | hi)
    · exact hlinks e he i hi
    · exact hnode i hi
  · intro hall
    exact ⟨fun e he i hi => hall i (Or.inl ⟨e, he, hi⟩), fun i hi => hall i (Or.inr hi)⟩

theorem getLsbD_routeWeighted [DecidableEq V] {weights : E → Nat} {i : Nat} :
    (g.routeWeighted dijkstra weights publ s).FID.getLsbD i = true ↔
      g.MarksEdges (dijkstra weights publ s).2 s i := by
  simp only [routeWeighted, MarksEdges, BitVec.getLsbD_or, Bool.or_eq_true]
  rw [getLsbD_foldl_or (fun eid => Bitvector.parse (g.LID eid))]
  simp

theorem ContainsPath.mono {n : Nat} {bits bits' : Nat → Prop} (h : g.ContainsPath joins publ s n bits)
    (hbits : ∀ i, bits i → bits' i) : g.ContainsPath joins publ s n bits' := by
  obtain ⟨edges, hedges, hlen, hlinks, hnode⟩ := h
  exact ⟨edges, hedges, hlen, fun e he i hi => hbits i (hlinks e he i hi),
    fun i hi => hbits i (hnode i hi)⟩

theorem edgeWalk_pathEdges (hget : g.FindsEdges joins)
    (h : IsWalk (Linked joins) publ s l) :
    EdgeWalk joins publ s (g.pathEdges l) ∧ (g.pathEdges l).length + 1 = l.length := by
  obtain ⟨rest, rfl⟩ := List.head?_eq_some_iff.mp h.head
  induction rest generalizing publ with
  | nil => exact ⟨Option.some.inj h.last, rfl⟩
  | cons v rest ih =>
    obtain ⟨hadj, hchain⟩ := List.isChain_cons_cons.mp h.chain
    have hlast := h.last
    rw [List.getLast?_cons_cons] at hlast
    obtain ⟨hedges, hlen⟩ := ih ⟨rfl, hlast, hchain⟩
    exact ⟨⟨v, hget _ _ hadj, hedges⟩, congrArg Nat.succ hlen⟩

theorem exists_edgeWalk (hget : g.FindsEdges joins) : (∃ edges, EdgeWalk joins publ s edges) ↔
    Relation.ReflTransGen (Linked joins) publ s := by
  constructor
  · rintro ⟨edges, hedges⟩
    obtain ⟨l, hwalk, -⟩ := hedges.walk
    exact hwalk.reach
  · intro h
    obtain ⟨l, hwalk⟩ := exists_walk h
    exact ⟨_, (edgeWalk_pathEdges hget hwalk).1⟩

/-- With weights of one, the path has as many links as one with the least nodes. -/
theorem length_dijkstra (hget : g.FindsEdges joins) (hd : FindsLightest joins (fun _ => 1) (dijkstra fun _ => 1))
    (hl : IsShortest (Linked joins) publ s l) :
    EdgeWalk joins publ s (dijkstra (fun _ => 1) publ s).2 ∧
      (dijkstra (fun _ => 1) publ s).2.length + 1 = l.length := by
  obtain ⟨hedges, hlen⟩ := edgeWalk_pathEdges hget hl.toIsWalk
  obtain ⟨hwalk, hleast⟩ := hd.some publ s ⟨_, hedges⟩
  obtain ⟨l', hl', hlen'⟩ := hwalk.walk
  have hle := hl.least l' hl'
  have hle' := hleast _ hedges
  simp only [List.map_const', List.sum_replicate_nat, Nat.mul_one] at hle'
  exact ⟨hwalk, by omega⟩

section

variable [Fintype V] [DecidableEq V] (hg : g.FindsPaths (Linked joins))
  (hget : g.FindsEdges joins) (hd : FindsLightest joins (fun _ => 1) (dijkstra fun _ => 1))
  (hids : Fintype.card V < 2 ^ 31)

/-- The number of links of a path, and what the two copies make of it. -/
structure Distance (g : TMIgraph V E) (joins : E → V → V → Prop)
    (dijkstra : (E → Nat) → V → V → List V × List E) (publ s : V) (n : Nat) : Prop where
  hops : (g.route publ s).numberOfHops = n + 1
  weighted : (g.routeWeighted dijkstra (fun _ => 1) publ s).numberOfHops = max n 1
  bound : n + 1 < uintMax
  same : n = 0 ↔ publ = s
  link : n ≤ 1 ↔ publ = s ∨ Linked joins publ s

include hg hget hd hids

theorem exists_distance (h : Relation.ReflTransGen (Linked joins) publ s) :
    ∃ n, Distance g joins dijkstra publ s n := by
  have hpath := (hg publ s).1 h
  obtain ⟨hhops, hfound⟩ := hops_reach hg hids h
  obtain ⟨hwalk, hlen⟩ := length_dijkstra hget hd hpath
  generalize hedges : (dijkstra (fun _ => 1) publ s).2 = edges at hwalk hlen
  have hbound : edges.length + 1 < uintMax := by
    rw [hlen, ← hhops]
    exact hfound
  have hmod : edges.length % 2 ^ 32 = edges.length := Nat.mod_eq_of_lt (by
    rw [uintMax] at hbound
    omega)
  have hsame : edges.length = 0 ↔ publ = s := by
    constructor
    · intro hzero
      rw [List.length_eq_zero_iff.mp hzero] at hwalk
      exact hwalk
    · rintro rfl
      have hle : _ ≤ [publ].length := hpath.least [publ] ⟨rfl, rfl, .singleton _⟩
      rw [List.length_singleton] at hle
      omega
  refine ⟨edges.length, hhops.trans hlen.symm, ?_, hbound, hsame, fun hle => ?_, ?_⟩
  · simp only [routeWeighted, hedges, hmod]
    split
    · next heq => rw [hsame.mpr heq, Nat.zero_max]
    · next hne =>
      have hpos : edges.length ≠ 0 := fun h => hne (hsame.mp h)
      rw [if_neg hpos]
      omega
  · rcases Nat.le_one_iff_eq_zero_or_eq_one.mp hle with hzero | hone
    · exact Or.inl (hsame.mp hzero)
    · obtain ⟨e, rfl⟩ := List.length_eq_one_iff.mp hone
      obtain ⟨v, hjoins, rfl⟩ := hwalk
      exact Or.inr ⟨e, hjoins⟩
  · rintro (heq | hlink)
    · exact (hsame.mpr heq).le.trans (Nat.zero_le 1)
    · have hle : _ ≤ [publ, s].length := hpath.least [publ, s]
        ⟨rfl, rfl, List.isChain_cons_cons.mpr ⟨hlink, .singleton _⟩⟩
      rw [List.length_cons, List.length_singleton] at hle
      omega

omit [Fintype V] hg hids in
theorem hopsWeighted_none (h : ¬ Relation.ReflTransGen (Linked joins) publ s) :
    (g.routeWeighted dijkstra (fun _ => 1) publ s).numberOfHops = uintMax := by
  have hne : publ ≠ s := by
    rintro rfl
    exact h .refl
  rw [← exists_edgeWalk hget] at h
  simp [routeWeighted, hd.none publ s h, hne]

theorem found_weighted : Found (g.routeWeighted dijkstra fun _ => 1) publ s ↔ Found g.route publ s := by
  rw [found_iff hg hids]
  refine ⟨fun hfound => ?_, fun h => ?_⟩
  · by_contra hno
    rw [Found, hopsWeighted_none hget hd hno] at hfound
    exact Nat.lt_irrefl _ hfound
  · obtain ⟨n, hn⟩ := exists_distance hg hget hd hids h
    have hbound := hn.bound
    rw [Found, hn.weighted]
    omega

end

section

variable [Fintype V] [LinearOrder V] {pubs subs : Finset V}
  (hg : g.FindsPaths (Linked joins))
  (hget : g.FindsEdges joins) (hd : FindsLightest joins (fun _ => 1) (dijkstra fun _ => 1))
  (hids : Fintype.card V < 2 ^ 31)

/-- A publisher that subscribes, and one before it with a link to it. -/
def Tied (joins : E → V → V → Prop) (pubs : Finset V) (s : V) : Prop :=
  s ∈ pubs ∧ ∃ p ∈ pubs, p < s ∧ Linked joins p s

include hg hget hd hids

theorem first_weighted (hfree : ¬ Tied joins pubs s) (h : First g.route pubs.sort s publ) :
    First (g.routeWeighted dijkstra fun _ => 1) pubs.sort s publ := by
  obtain ⟨before, after, hsplit, hbefore, hafter⟩ := h.split
  have hmem : ∀ p ∈ before ++ publ :: after, p ∈ pubs := by
    intro p hp
    rwa [← hsplit, Finset.mem_sort] at hp
  obtain ⟨hless, -⟩ := split_sort _ hsplit
  obtain ⟨n, hn⟩ := exists_distance hg hget hd hids ((found_iff hg hids).mp h.found)
  have hbound := hn.bound
  refine ⟨(found_weighted hg hget hd hids).mpr h.found, before, after, hsplit, fun other hother => ?_,
    fun other hother => ?_⟩
  · have hlt := hbefore other hother
    by_cases hreach : Relation.ReflTransGen (Linked joins) other s
    · obtain ⟨k, hk⟩ := exists_distance hg hget hd hids hreach
      rw [hn.hops, hk.hops] at hlt
      rw [hn.weighted, hk.weighted]
      have hfar : n = 0 → ¬ k ≤ 1 := by
        intro hzero hle
        obtain rfl := hn.same.mp hzero
        rcases hk.link.mp hle with rfl | hlink
        · exact lt_irrefl _ (hless other hother)
        · exact hfree ⟨hmem publ (by simp), other, hmem other (by simp [hother]),
            hless other hother, hlink⟩
      omega
    · rw [hn.weighted, hopsWeighted_none hget hd hreach]
      omega
  · have hle := hafter other hother
    by_cases hreach : Relation.ReflTransGen (Linked joins) other s
    · obtain ⟨k, hk⟩ := exists_distance hg hget hd hids hreach
      rw [hn.hops, hk.hops] at hle
      rw [hn.weighted, hk.weighted]
      omega
    · rw [hn.weighted, hopsWeighted_none hget hd hreach]
      omega

theorem first_self (hs : s ∈ pubs) : First g.route pubs.sort s s := by
  obtain ⟨k, hk⟩ := exists_distance hg hget hd hids (Relation.ReflTransGen.refl (a := s))
  have hzero := hk.same.mpr rfl
  obtain ⟨publ, hnear⟩ := exists_nearest hg hids ⟨s, hs, .refl⟩
  have hfirst := (first_iff hg hids).mpr hnear
  obtain ⟨n, hn⟩ := exists_distance hg hget hd hids hnear.reach
  obtain ⟨before, after, hsplit, hbefore, hafter⟩ := hfirst.split
  have hin := (Finset.mem_sort (· ≤ ·)).mpr hs
  rw [hsplit, List.mem_append, List.mem_cons] at hin
  rcases hin with hin | rfl | hin
  · have hlt := hbefore s hin
    rw [hn.hops, hk.hops] at hlt
    omega
  · exact hfirst
  · have hle := hafter s hin
    rw [hn.hops, hk.hops] at hle
    obtain rfl := hn.same.mp (by omega)
    exact hfirst

theorem not_first_weighted (htied : Tied joins pubs s) :
    ¬ First (g.routeWeighted dijkstra fun _ => 1) pubs.sort s s := by
  obtain ⟨hs, p, hp, hps, hlink⟩ := htied
  obtain ⟨n, hn⟩ := exists_distance hg hget hd hids (Relation.ReflTransGen.refl (a := s))
  have hzero := hn.same.mpr rfl
  intro h
  obtain ⟨before, after, hsplit, hbefore, -⟩ := h.split
  have hin : p ∈ before := by
    have hin := (Finset.mem_sort (· ≤ ·)).mpr hp
    rw [hsplit, List.mem_append, List.mem_cons] at hin
    rcases hin with hin | rfl | hin
    · exact hin
    · exact absurd hps (lt_irrefl p)
    · exact absurd ((split_sort _ hsplit).2 p hin) hps.asymm
  obtain ⟨k, hk⟩ := exists_distance hg hget hd hids
    (Relation.ReflTransGen.single (r := fun u v => ∃ e, joins e u v) hlink)
  have hlt := hbefore p hin
  have hle := hk.link.mpr (Or.inr hlink)
  rw [hn.weighted, hk.weighted] at hlt
  omega

theorem first_weighted_iff (hfree : ¬ Tied joins pubs s) :
    First (g.routeWeighted dijkstra fun _ => 1) pubs.sort s publ ↔ First g.route pubs.sort s publ := by
  refine ⟨fun h => ?_, first_weighted hg hget hd hids hfree⟩
  have hreach := (found_iff hg hids).mp ((found_weighted hg hget hd hids).mp h.found)
  obtain ⟨publ', hnear⟩ := exists_nearest hg hids
    ⟨publ, (Finset.mem_sort (· ≤ ·)).mp h.mem, hreach⟩
  have hfirst := (first_iff hg hids).mpr hnear
  obtain rfl := h.unique (first_weighted hg hget hd hids hfree hfirst)
  exact hfirst

theorem keeps_weighted (hfree : ∀ s ∈ subs, ¬ Tied joins pubs s) :
    Keeps (g.routeWeighted dijkstra fun _ => 1) pubs.sort subs.sort publ s ↔
      Keeps g.route pubs.sort subs.sort publ s :=
  keeps_congr (fun s hs _ => first_weighted_iff hg hget hd hids
    (hfree s ((Finset.mem_sort (· ≤ ·)).mp hs))) fun _ _ => found_weighted hg hget hd hids

omit [Fintype V] [LinearOrder V] hids in
/-- Both routes have all links of a path, as many as the other. -/
theorem containsPath_route [DecidableEq V]
    (h : Relation.ReflTransGen (Linked joins) publ s) : ∃ n,
    g.ContainsPath joins publ s n (fun i => (g.route publ s).FID.getLsbD i = true) ∧
    g.ContainsPath joins publ s n
      fun i => (g.routeWeighted dijkstra (fun _ => 1) publ s).FID.getLsbD i = true := by
  have hpath := (hg publ s).1 h
  obtain ⟨hwalk, hlen⟩ := edgeWalk_pathEdges hget hpath.toIsWalk
  obtain ⟨hwalk', hlen'⟩ := length_dijkstra hget hd hpath
  refine ⟨_, containsPath_iff.mpr ⟨_, hwalk, rfl, fun i hi => getLsbD_route.mpr hi⟩,
    containsPath_iff.mpr ⟨_, hwalk', by omega, fun i hi => getLsbD_routeWeighted.mpr hi⟩⟩

end

/-! ## The two copies -/

section

variable [LinearOrder V] {pubs subs : Finset V}

/-- The two copies give the subscribers to the same publishers, and each identifier has the links of
a path of the same length to each subscriber of its publisher. -/
structure Agree (g : TMIgraph V E) (joins : E → V → V → Prop)
    (dijkstra : (E → Nat) → V → V → List V × List E) (pubs subs : Finset V)
    (m m' : Matching V) : Prop where
  same : ∀ s ∈ subs, (∃ publ ∈ pubs, Relation.ReflTransGen (Linked joins) publ s) →
    ∃ publ ∈ pubs, picked g.route pubs.sort s = some publ ∧
      picked (g.routeWeighted dijkstra fun _ => 1) pubs.sort s = some publ
  null : ∀ publ ∈ pubs, (publ, none) ∈ m.result ↔ (publ, none) ∈ m'.result
  path : ∀ publ FID FID', (publ, some FID) ∈ m.result → (publ, some FID') ∈ m'.result →
    ∀ s ∈ subs, picked g.route pubs.sort s = some publ →
      ∃ n, g.ContainsPath joins publ s n (fun i => FID.getLsbD i = true) ∧
        g.ContainsPath joins publ s n fun i => FID'.getLsbD i = true

/-- A bit of the links on the way to a subscriber of `publ` that is not overtaken. -/
def KeepsBit (g : TMIgraph V E) (adj : V → V → Prop) (pubs subs : Finset V) (publ : V) (i : Nat) :
    Prop :=
  ∃ t ∈ subs, Nearest adj pubs t publ ∧ ¬ Overtaken adj pubs subs t publ ∧
    g.Marks (g.getShortestPath publ t) t i

/-- The first subscriber can be reached, no subscriber is a publisher with a link from one before it, and
the links on the paths to the subscribers that are not overtaken have the bits of two paths of one length to
each that is. -/
structure Aligned (g : TMIgraph V E) (joins : E → V → V → Prop)
    (dijkstra : (E → Nat) → V → V → List V × List E) (pubs subs : Finset V) : Prop where
  first : ∀ u ∈ subs, (∀ v ∈ subs, u ≤ v) →
    ∃ publ ∈ pubs, Relation.ReflTransGen (Linked joins) publ u
  free : ∀ s ∈ subs, ¬ Tied joins pubs s
  covered : ∀ s ∈ subs, ∀ publ, Nearest (Linked joins) pubs s publ →
    Overtaken (Linked joins) pubs subs s publ → ∃ edges edges',
      EdgeWalk joins publ s edges ∧ EdgeWalk joins publ s edges' ∧ edges.length = edges'.length ∧
      (∀ i, g.MarksEdges edges s i → g.KeepsBit (Linked joins) pubs subs publ i) ∧
      ∀ i, g.MarksEdges edges' s i → ∃ t ∈ subs, Nearest (Linked joins) pubs t publ ∧
        ¬ Overtaken (Linked joins) pubs subs t publ ∧ g.MarksEdges (dijkstra (fun _ => 1) publ t).2 t i

variable [Fintype V]

theorem keptBit_route {adj : V → V → Prop} {publ : V} {i : Nat} (hg : g.FindsPaths adj)
    (hids : Fintype.card V < 2 ^ 31) :
    KeptBit g.route pubs.sort subs.sort publ i ↔ g.KeepsBit adj pubs subs publ i := by
  simp only [KeptBit, KeepsBit, keeps_iff hg hids, and_assoc, getLsbD_route]

theorem keptBit_weighted {publ : V} {i : Nat} (hg : g.FindsPaths (Linked joins)) (hget : g.FindsEdges joins)
    (hd : FindsLightest joins (fun _ => 1) (dijkstra fun _ => 1)) (hids : Fintype.card V < 2 ^ 31)
    (hfree : ∀ s ∈ subs, ¬ Tied joins pubs s) :
    KeptBit (g.routeWeighted dijkstra fun _ => 1) pubs.sort subs.sort publ i ↔
      ∃ t ∈ subs, Nearest (Linked joins) pubs t publ ∧ ¬ Overtaken (Linked joins) pubs subs t publ ∧
        g.MarksEdges (dijkstra (fun _ => 1) publ t).2 t i := by
  simp only [KeptBit, keeps_weighted hg hget hd hids hfree, keeps_iff hg hids, and_assoc,
    getLsbD_routeWeighted]

/-- With weights of one the weighted copy agrees exactly then. -/
theorem weighted_agrees_iff (hg : g.FindsPaths (Linked joins))
    (hget : g.FindsEdges joins) (hd : FindsLightest joins (fun _ => 1) (dijkstra fun _ => 1))
    (hids : Fintype.card V < 2 ^ 31) :
    (∃ m m', calculateFIDs g.route pubs.sort subs.sort = some m ∧
      g.calculateFIDsWeighted dijkstra (fun _ => 1) pubs.sort subs.sort = some m' ∧
      Agree g joins dijkstra pubs subs m m') ↔ Aligned g joins dijkstra pubs subs := by
  have hnodup := Finset.sort_nodup subs (· ≤ ·)
  have hmem : ∀ {v}, v ∈ subs.sort ↔ v ∈ subs := Finset.mem_sort (· ≤ ·)
  set gw := g.routeWeighted dijkstra fun _ => 1 with hgw
  constructor
  · rintro ⟨m, m', hrun, hrun', hsame, hnull, hpath⟩
    have hfree : ∀ s ∈ subs, ¬ Tied joins pubs s := by
      intro s hs htied
      obtain ⟨publ, -, hpicked, hpicked'⟩ := hsame s hs ⟨s, htied.1, .refl⟩
      have hself := first_self hg hget hd hids htied.1
      obtain rfl := hself.unique (picked_iff.mp hpicked)
      exact not_first_weighted hg hget hd hids htied (picked_iff.mp hpicked')
    refine ⟨(calculateFIDs_runs hg hids).mp ⟨m, hrun⟩, hfree, fun s hs publ hnear _ => ?_⟩
    · have hm := combined_calculateFIDs hnodup hrun
      have hm' := combined_calculateFIDs hnodup hrun'
      have hfirst := (first_iff hg hids).mpr hnear
      obtain ⟨FID, hFID, hbits⟩ := hm.exists_FID (hmem.mpr hs) hfirst
      obtain ⟨FID', hFID', hbits'⟩ := hm'.exists_FID (hmem.mpr hs)
        (first_weighted hg hget hd hids (hfree s hs) hfirst)
      obtain ⟨n, hn, hn'⟩ := hpath publ FID FID' hFID hFID' s hs (picked_iff.mpr hfirst)
      obtain ⟨edges, hedges, hlen, hmarks⟩ := containsPath_iff.mp hn
      obtain ⟨edges', hedges', hlen', hmarks'⟩ := containsPath_iff.mp hn'
      exact ⟨edges, edges', hedges, hedges', hlen.trans hlen'.symm,
        fun i hi => (keptBit_route hg hids).mp ((hbits i).mp (hmarks i hi)),
        fun i hi => (keptBit_weighted hg hget hd hids hfree).mp ((hbits' i).mp (hmarks' i hi))⟩
  · intro h
    obtain ⟨m, hrun⟩ := (calculateFIDs_runs hg hids).mpr h.first
    have hexists : ∃ m', calculateFIDs gw pubs.sort subs.sort = some m' := by
      have hhead := (calculateFIDs_some_iff hnodup).mp ⟨m, hrun⟩
      refine (calculateFIDs_some_iff hnodup).mpr fun u rest hsort hno => hhead u rest hsort ?_
      exact fun p hp hfound => hno p hp ((found_weighted hg hget hd hids).mpr hfound)
    obtain ⟨m', hrun'⟩ := hexists
    have hm := combined_calculateFIDs hnodup hrun
    have hm' := combined_calculateFIDs hnodup hrun'
    have hsame : ∀ {s publ}, s ∈ subs → (First gw pubs.sort s publ ↔ First g.route pubs.sort s publ) :=
      fun hs => first_weighted_iff hg hget hd hids (h.free _ hs)
    refine ⟨m, m', hrun, hrun', fun s hs hreach => ?_, fun publ hpubl => ?_,
      fun publ FID FID' hFID hFID' s hs hpicked => ?_⟩
    · obtain ⟨publ, hnear⟩ := exists_nearest hg hids hreach
      have hfirst := (first_iff hg hids).mpr hnear
      exact ⟨publ, hnear.mem, picked_iff.mpr hfirst, picked_iff.mpr ((hsame hs).mpr hfirst)⟩
    · have hpubl := (Finset.mem_sort (· ≤ ·)).mpr hpubl
      rw [hm.null_iff hpubl, hm'.null_iff hpubl]
      exact forall₂_congr fun s hs => not_congr (hsame (hmem.mp hs)).symm
    · have hfirst := picked_iff.mp hpicked
      have hnear := (first_iff hg hids).mp hfirst
      have hbits := hm.bits publ FID hFID
      have hbits' := hm'.bits publ FID' hFID'
      by_cases hover : Overtaken (Linked joins) pubs subs s publ
      · obtain ⟨edges, edges', hedges, hedges', hlen, hmarks, hmarks'⟩ := h.covered s hs publ hnear hover
        exact ⟨edges.length,
          containsPath_iff.mpr ⟨edges, hedges, rfl,
            fun i hi => (hbits i).mpr ((keptBit_route hg hids).mpr (hmarks i hi))⟩,
          containsPath_iff.mpr ⟨edges', hedges', hlen.symm,
            fun i hi => (hbits' i).mpr ((keptBit_weighted hg hget hd hids h.free).mpr (hmarks' i hi))⟩⟩
      · have hkeeps := (keeps_iff hg hids).mpr ⟨hs, hnear, hover⟩
        obtain ⟨n, hn, hn'⟩ := containsPath_route hg hget hd hnear.reach
        exact ⟨n, hn.mono fun i hi => (hbits i).mpr ⟨s, hkeeps, hi⟩,
          hn'.mono fun i hi => (hbits' i).mpr
            ⟨s, (keeps_weighted hg hget hd hids h.free).mpr hkeeps, hi⟩⟩

end

/-! ## The fork -/

def forkJoins (e : Fin 4 × Fin 4) (u v : Fin 4) : Prop := e = (u, v) ∧ forkAdj u v

/-- With weights of one any path with the least links will do. -/
def forkDijkstra (_ : Fin 4 × Fin 4 → Nat) (u v : Fin 4) : List (Fin 4) × List (Fin 4 × Fin 4) :=
  (fork.getShortestPath u v, fork.pathEdges (fork.getShortestPath u v))

theorem linked_fork : Linked forkJoins = forkAdj := by
  funext u v
  exact propext ⟨fun ⟨_, _, h⟩ => h, fun h => ⟨(u, v), rfl, h⟩⟩

theorem fork_findsEdges : fork.FindsEdges forkJoins := fun _ _ ⟨_, _, h⟩ => ⟨rfl, h⟩

theorem fork_findsLightest :
    FindsLightest forkJoins (fun _ => 1) (forkDijkstra fun _ => 1) where
  some u v h := by
    rw [exists_edgeWalk fork_findsEdges, linked_fork] at h
    have hpath := (fork_findsPaths u v).1 h
    rw [← linked_fork] at hpath
    obtain ⟨hwalk, hlen⟩ := edgeWalk_pathEdges fork_findsEdges hpath.toIsWalk
    refine ⟨hwalk, fun edges hedges => ?_⟩
    obtain ⟨l, hl, hlen'⟩ := hedges.walk
    have hle := hpath.least l hl
    simp only [List.map_const', List.sum_replicate_nat, Nat.mul_one, forkDijkstra]
    omega
  none u v h := by
    rw [exists_edgeWalk fork_findsEdges, linked_fork] at h
    rw [forkDijkstra, (fork_findsPaths u v).2 h]
    rfl

/-- Node 0 publishes to both. -/
theorem weighted_agrees_fork : ∃ m m',
    calculateFIDs fork.route ({0} : Finset (Fin 4)).sort ({1, 2} : Finset (Fin 4)).sort = some m ∧
    fork.calculateFIDsWeighted forkDijkstra (fun _ => 1) ({0} : Finset (Fin 4)).sort
      ({1, 2} : Finset (Fin 4)).sort = some m' ∧
    Agree fork forkJoins forkDijkstra {0} {1, 2} m m' := by
  refine (weighted_agrees_iff (linked_fork ▸ fork_findsPaths) fork_findsEdges fork_findsLightest
    (by decide)).mpr ⟨fun u hu _ => ?_, fun s hs => ?_, fun s hs publ hnear hover => ?_⟩
  · rw [linked_fork]
    refine ⟨0, Finset.mem_singleton_self 0, .single ⟨rfl, ?_⟩⟩
    simpa [Fin.ext_iff] using hu
  · rintro ⟨hpub, -⟩
    rw [Finset.mem_singleton.mp hpub] at hs
    exact absurd hs (by decide)
  · obtain ⟨t, ht, u, hu, hst, htu, -⟩ := hover
    have htwo : ∀ s ∈ ({1, 2} : Finset (Fin 4)), ∀ t ∈ ({1, 2} : Finset (Fin 4)),
        ∀ u ∈ ({1, 2} : Finset (Fin 4)), s < t → ¬ t < u := by decide
    exact absurd htu (htwo s hs t ht u hu hst)

/-- When node 1 publishes too, it is given to node 0 by the weighted copy. -/
theorem not_weighted_agrees : picked fork.route [0, 1] 1 = some 1 ∧
    picked (fork.routeWeighted forkDijkstra fun _ => 1) [0, 1] 1 = some 0 ∧
    ¬ ∃ m m', calculateFIDs fork.route ({0, 1} : Finset (Fin 4)).sort ({1} : Finset (Fin 4)).sort =
        some m ∧
      fork.calculateFIDsWeighted forkDijkstra (fun _ => 1) ({0, 1} : Finset (Fin 4)).sort
        ({1} : Finset (Fin 4)).sort = some m' ∧
      Agree fork forkJoins forkDijkstra {0, 1} {1} m m' := by
  have hone : picked fork.route [0, 1] 1 = some 1 := by decide +kernel
  have hzero : picked (fork.routeWeighted forkDijkstra fun _ => 1) [0, 1] 1 = some 0 := by
    decide +kernel
  have hpubs : ({0, 1} : Finset (Fin 4)).sort = [0, 1] :=
    (List.toFinset_sort (l := [(0 : Fin 4), 1]) (· ≤ ·) (by decide)).mpr (by decide)
  refine ⟨hone, hzero, ?_⟩
  rintro ⟨m, m', -, -, hagree⟩
  obtain ⟨publ, -, hpicked, hpicked'⟩ := hagree.same 1 (by decide) ⟨1, by decide, .refl⟩
  rw [hpubs] at hpicked hpicked'
  rw [hone] at hpicked
  rw [hzero] at hpicked'
  exact absurd (hpicked.trans hpicked'.symm) (by decide)

end TMIgraph

end Blackadder
