import Blackadder.Lipsin.Weighted

/-!
# The matching of the traffic engineering manager

As long as no paths are cached, `TEgraphMF` matches by shortest paths of its own. A missing path has no
hops there, and each match is counted in a matrix of the pairs of different nodes.
-/

namespace Blackadder

namespace TMIgraph

variable {V E : Type*}

/-- `uncachedCalculateFID(source, destination, resultFID, numberOfHops)`. -/
def uncachedRoute (g : TMIgraph V E) (source destination : V) : Route V :=
  let path := g.getShortestPath source destination
  let resultFID := (g.pathEdges path).foldl (fun FID eid => FID ||| Bitvector.parse (g.LID eid)) 0
  { FID := resultFID ||| Bitvector.parse (g.iLID destination)
    numberOfHops := path.length % 2 ^ 32
    path := [] }

/-- `demandMapMeasured`: how often each pair was asked for. -/
abbrev Demands (V : Type*) := V → V → Option Nat

/-- The locals of the matching, and the measured demands. -/
structure TEMatching (V : Type*) where
  result : List (V × Option Bitvector)
  demandMapMeasured : Demands V
  bestPublisher : Option V
  bestFID : Bitvector

section

variable [DecidableEq V]

/-- The matrix of `readTopology`. -/
def readDemands : Demands V := fun i j => if i = j then none else some 1

def countDemand (demands : Demands V) (source sink : V) : Option (Demands V) :=
  (demands source sink).map fun demand i j => if i = source ∧ j = sink then some (demand + 1) else demands i j

/-- What a publisher has after one more subscriber. -/
def orFID (bestFID : Bitvector) : Option Bitvector → Option Bitvector
  | none => some bestFID
  | some existingFID => some (existingFID ||| bestFID)

/-- One turn of the loop over the subscribers. `none` stands for a pair, a publisher or a node that is
not in its map. -/
def teMatchSubscriber (route : V → V → Route V) (publishers : List V) (m : TEMatching V) (sub : V) :
    Option (TEMatching V) := do
  let (_, bestPublisher, bestFID, _) :=
    publishers.foldl (better route sub) (uintMax, m.bestPublisher, m.bestFID, [])
  let best ← bestPublisher
  let demands ← countDemand m.demandMapMeasured best sub
  if best ∈ m.result.map Prod.fst then
    return {
      result := update m.result best (orFID bestFID)
      demandMapMeasured := demands
      bestPublisher := bestPublisher
      bestFID := bestFID }
  else none

/-- `TEgraphMF::calculateFID(publishers, subscribers, result, path_vectors)` without a cache. -/
def teCalculateFIDs (g : TMIgraph V E) (demands : Demands V) (publishers subscribers : List V) :
    Option (TEMatching V) :=
  subscribers.foldlM (teMatchSubscriber g.uncachedRoute publishers) {
    result := publishers.map fun publ => (publ, none)
    demandMapMeasured := demands
    bestPublisher := none
    bestFID := 0 }

/-- The demands are of the pairs of different nodes. -/
def Measured (demands : Demands V) : Prop := ∀ i j, (∃ demand, demands i j = some demand) ↔ i ≠ j

theorem measured_readDemands : Measured (readDemands : Demands V) := by
  intro i j
  unfold readDemands
  split <;> simp_all

end

variable {g : TMIgraph V E} {f : V → V → Route V} {publishers subscribers done : List V}
  {publ sub s : V}

section

variable [DecidableEq V] {demands demands' : Demands V} {m : Matching V} {t t' : TEMatching V}

theorem Measured.count (h : Measured demands) (hcount : countDemand demands publ sub = some demands') :
    publ ≠ sub ∧ Measured demands' := by
  obtain ⟨demand, hdemand, rfl⟩ := Option.map_eq_some_iff.mp hcount
  have hne := (h publ sub).mp ⟨demand, hdemand⟩
  refine ⟨hne, fun i j => ?_⟩
  by_cases hpair : i = publ ∧ j = sub
  · obtain ⟨rfl, rfl⟩ := hpair
    simp [hne]
  · simp only [hpair, if_false]
    exact h i j

/-- The locals of the two loops, without those that only one of them has. -/
structure Same (m : Matching V) (t : TEMatching V) : Prop where
  result : t.result = m.result
  bestPublisher : t.bestPublisher = m.bestPublisher
  bestFID : t.bestFID = m.bestFID
  measured : Measured t.demandMapMeasured

omit [DecidableEq V] in
/-- With paths that all count, the loop over the publishers finds the first of the least. -/
theorem foldl_first (hall : ∀ p s, Found f p s) (hpublishers : publishers ≠ []) (sub : V)
    (best : Option V) (FID : Bitvector) (path : List V) : ∃ publ, First f publishers sub publ ∧
      publishers.foldl (better f sub) (uintMax, best, FID, path) =
        ((f publ sub).numberOfHops, some publ, (f publ sub).FID, (f publ sub).path) := by
  rcases foldl_better f sub publishers (uintMax, best, FID, path) with
    ⟨-, hnone⟩ | ⟨before, publ, after, hsplit, hbefore, hafter, hlt, heq⟩
  · obtain ⟨p, hp⟩ := List.exists_mem_of_ne_nil _ hpublishers
    exact absurd (hnone p hp) (Nat.not_le.mpr (hall p sub))
  · exact ⟨publ, ⟨hlt, before, after, hsplit, hbefore, hafter⟩, heq⟩

omit [DecidableEq V] in
/-- Where every path counts, nothing is dropped. -/
theorem keeps_found (hall : ∀ p s, Found f p s) : Keeps f publishers subscribers publ s ↔
    s ∈ subscribers ∧ First f publishers s publ := by
  refine ⟨fun hs => ⟨hs.mem, hs.first⟩, fun ⟨hs, hfirst⟩ => ⟨hs, hfirst, ?_⟩⟩
  rintro ⟨-, -, u, -, -, -, -, hu⟩
  exact hu publ hfirst.mem (hall publ u)

theorem addFID_eq_orFID {n : Nat} {FID : Bitvector} (hn : n < uintMax) (existing : Option Bitvector) :
    addFID n FID existing = orFID FID existing := by
  cases existing with
  | none => rfl
  | some existingFID => exact addFID_some hn

theorem Same.enter (h : Same m t) (hfirst : First f publishers sub publ) (hdemands : Measured demands') :
    Same (m.enter (f publ sub).numberOfHops publ (f publ sub).FID (f publ sub).path)
      ⟨update t.result publ (orFID (f publ sub).FID), demands', some publ, (f publ sub).FID⟩ where
  result := by
    rw [Matching.enter, h.result, update, update]
    simp only [addFID_eq_orFID hfirst.found]
  bestPublisher := rfl
  bestFID := rfl
  measured := hdemands

/-- A turn succeeds exactly when another node than the subscriber's is picked. -/
theorem teMatchSubscriber_iff (hall : ∀ p s, Found f p s) (hkeys : Keyed publishers m) (h : Same m t) :
    (∃ t', teMatchSubscriber f publishers t sub = some t') ↔
      publishers ≠ [] ∧ ¬ First f publishers sub sub := by
  unfold teMatchSubscriber
  dsimp only
  constructor
  · rintro ⟨t', hturn⟩
    obtain ⟨best, hbest, hturn⟩ := Option.bind_eq_some_iff.mp hturn
    obtain ⟨demands, hcount, hturn⟩ := Option.bind_eq_some_iff.mp hturn
    have hne : publishers ≠ [] := by
      rintro rfl
      rw [h.result, hkeys.result, if_neg List.not_mem_nil] at hturn
      cases hturn
    obtain ⟨publ, hfirst, heq⟩ := foldl_first hall hne sub t.bestPublisher t.bestFID []
    rw [heq] at hbest
    obtain rfl := Option.some.inj hbest
    refine ⟨hne, fun hself => ?_⟩
    exact (h.measured.count hcount).1 (hfirst.unique hself)
  · rintro ⟨hne, hself⟩
    obtain ⟨publ, hfirst, heq⟩ := foldl_first hall hne sub t.bestPublisher t.bestFID []
    obtain ⟨demand, hdemand⟩ := (h.measured publ sub).mpr fun hsame => hself (hsame ▸ hfirst)
    rw [heq]
    simp only [Option.bind_eq_bind, Option.bind_some, countDemand, hdemand, Option.map_some, h.result,
      hkeys.result, if_pos hfirst.mem]
    exact ⟨_, rfl⟩

theorem teMatchSubscriber_same (hall : ∀ p s, Found f p s) (hkeys : Keyed publishers m) (h : Same m t)
    (hturn : teMatchSubscriber f publishers t sub = some t') :
    ∃ m', matchSubscriber f publishers m sub = some m' ∧ Same m' t' := by
  obtain ⟨hne, -⟩ := (teMatchSubscriber_iff hall hkeys h).mp ⟨t', hturn⟩
  obtain ⟨publ, hfirst, heq⟩ := foldl_first hall hne sub t.bestPublisher t.bestFID []
  obtain ⟨m', hm'⟩ := matchSubscriber_some hkeys hfirst.mem hfirst.found
  refine ⟨m', hm', ?_⟩
  rcases matchSubscriber_eq hm' with ⟨best, hbest, rfl⟩ | ⟨hnone, -⟩
  · obtain rfl := hfirst.unique hbest
    unfold teMatchSubscriber at hturn
    dsimp only at hturn
    rw [heq] at hturn
    obtain ⟨best, hbest, hturn⟩ := Option.bind_eq_some_iff.mp hturn
    obtain ⟨demands, hcount, hturn⟩ := Option.bind_eq_some_iff.mp hturn
    obtain rfl := Option.some.inj hbest
    rw [h.result, hkeys.result, if_pos hfirst.mem, ← h.result] at hturn
    obtain rfl := Option.some.inj hturn
    exact h.enter hfirst (h.measured.count hcount).2
  · exact absurd hfirst.found (hnone publ hfirst.mem)

omit [DecidableEq V] in
theorem same_start (hdemands : Measured demands) : Same (Matching.start publishers)
    ⟨publishers.map fun publ => (publ, none), demands, none, 0⟩ := ⟨rfl, rfl, rfl, hdemands⟩

/-- The other manager's loop has come as far, with these routes. -/
def Followed (f : V → V → Route V) (publishers done : List V) (t : TEMatching V) : Prop :=
  ∃ m, calculateFIDs f publishers done = some m ∧ Same m t

theorem Followed.turn (hall : ∀ p s, Found f p s) (h : Followed f publishers done t)
    (hturn : teMatchSubscriber f publishers t sub = some t') :
    Followed f publishers (done ++ [sub]) t' := by
  obtain ⟨m, hrun, hsame⟩ := h
  obtain ⟨m', hm', hsame'⟩ := teMatchSubscriber_same hall (keys_calculateFIDs hrun) hsame hturn
  refine ⟨m', ?_, hsame'⟩
  have hrun' : done.foldlM (matchSubscriber f publishers) _ = some m := hrun
  rw [calculateFIDs, List.foldlM_append, hrun']
  simpa using hm'

theorem Followed.turn_iff (hall : ∀ p s, Found f p s) (h : Followed f publishers done t) :
    (∃ t', teMatchSubscriber f publishers t sub = some t') ↔
      publishers ≠ [] ∧ ¬ First f publishers sub sub := by
  obtain ⟨m, hrun, hsame⟩ := h
  exact teMatchSubscriber_iff hall (keys_calculateFIDs hrun) hsame

variable (hall : ∀ p s, Found g.uncachedRoute p s) (hdemands : Measured demands)
include hall hdemands

theorem teCalculateFIDs_followed (h : g.teCalculateFIDs demands publishers subscribers = some t) :
    Followed g.uncachedRoute publishers subscribers t :=
  Wire.foldlM_done h (I := fun done t => Followed g.uncachedRoute publishers done t)
    ⟨_, rfl, same_start hdemands⟩ fun _ _ _ _ _ _ hm hturn => hm.turn hall hturn

/-- The loop comes to its end exactly when no subscriber is given to its own node. -/
theorem teCalculateFIDs_iff : (∃ t, g.teCalculateFIDs demands publishers subscribers = some t) ↔
    ∀ s ∈ subscribers, publishers ≠ [] ∧ ¬ First g.uncachedRoute publishers s s := by
  have hstart : Followed g.uncachedRoute publishers [] _ := ⟨_, rfl, same_start hdemands⟩
  constructor
  · rintro ⟨t, h⟩
    refine (Wire.foldlM_done h (I := fun done t => Followed g.uncachedRoute publishers done t ∧
      ∀ s ∈ done, publishers ≠ [] ∧ ¬ First g.uncachedRoute publishers s s) ⟨hstart, nofun⟩ ?_).2
    rintro done sub - t t' - ⟨hm, hok⟩ hturn
    refine ⟨hm.turn hall hturn, ?_⟩
    rw [List.forall_mem_append, List.forall_mem_singleton]
    exact ⟨hok, (hm.turn_iff hall).mp ⟨t', hturn⟩⟩
  · intro hok
    obtain ⟨t, hrun, -⟩ := Wire.foldlM_all (l := subscribers)
      (f := teMatchSubscriber g.uncachedRoute publishers)
      (I := fun done t => Followed g.uncachedRoute publishers done t) hstart
      fun done sub rest t hsplit hm => by
        obtain ⟨t', hturn⟩ := (hm.turn_iff hall).mpr (hok sub (by simp [hsplit]))
        exact ⟨t', hturn, hm.turn hall hturn⟩
    exact ⟨t, hrun⟩

end

/-! ## What the managers pick -/

theorem first_congr {f' : V → V → Route V}
    (h : ∀ p ∈ publishers, (f' p s).numberOfHops = (f p s).numberOfHops) :
    First f' publishers s publ ↔ First f publishers s publ := by
  have hone : ∀ {f f' : V → V → Route V}, (∀ p ∈ publishers,
      (f' p s).numberOfHops = (f p s).numberOfHops) → First f publishers s publ →
      First f' publishers s publ := by
    rintro f f' h ⟨hfound, before, after, rfl, hbefore, hafter⟩
    have hpubl := h publ (by simp)
    refine ⟨by rwa [Found, hpubl], before, after, rfl, fun p hp => ?_, fun p hp => ?_⟩
    · rw [hpubl, h p (by simp [hp])]
      exact hbefore p hp
    · rw [hpubl, h p (by simp [hp])]
      exact hafter p hp
  exact ⟨hone fun p hp => (h p hp).symm, hone h⟩

section

variable [DecidableEq V] {m : Matching V} {t : TEMatching V}

theorem bestPublisher_first (hnodup : (done ++ [sub]).Nodup)
    (h : calculateFIDs f publishers (done ++ [sub]) = some m) (hfirst : First f publishers sub publ) :
    m.bestPublisher = some publ := by
  rcases (combined_calculateFIDs hnodup h).last with
    ⟨hnil, -⟩ | ⟨before, t, after, best, hsplit, ht, hafter, hbest, -⟩
  · simp at hnil
  · rcases after.eq_nil_or_concat with rfl | ⟨after, x, rfl⟩
    · obtain ⟨-, hlast⟩ := List.append_inj' hsplit rfl
      obtain rfl := List.singleton_injective hlast
      rw [hbest, ht.unique hfirst]
    · have hend : done ++ [sub] = (before ++ t :: after) ++ [x] := by simpa using hsplit
      obtain ⟨-, hlast⟩ := List.append_inj' hend rfl
      obtain rfl := List.singleton_injective hlast
      exact absurd hfirst (hafter sub (by simp)).not_first

theorem bestPublisher_unreached (hnodup : (done ++ [sub]).Nodup)
    (h : calculateFIDs f publishers (done ++ [sub]) = some m) (hsub : Unreached f publishers sub) :
    ∃ before t after publ, done = before ++ t :: after ∧ First f publishers t publ ∧
      (∀ u ∈ after, Unreached f publishers u) ∧ m.bestPublisher = some publ := by
  rcases (combined_calculateFIDs hnodup h).last with
    ⟨hnil, -⟩ | ⟨before, t, after, best, hsplit, ht, hafter, hbest, -⟩
  · simp at hnil
  · rcases after.eq_nil_or_concat with rfl | ⟨after, x, rfl⟩
    · obtain ⟨-, hlast⟩ := List.append_inj' hsplit rfl
      obtain rfl := List.singleton_injective hlast
      exact absurd ht hsub.not_first
    · have hend : done ++ [sub] = (before ++ t :: after) ++ [x] := by simpa using hsplit
      obtain ⟨rfl, -⟩ := List.append_inj' hend rfl
      exact ⟨before, t, after, best, rfl, ht, fun u hu => hafter u (by simp [hu]), hbest⟩

end

section

variable [Fintype V] {adj : V → V → Prop} (hg : g.FindsPaths adj)
  (hids : Fintype.card V < 2 ^ 31)
include hg

omit [Fintype V] in
theorem uncached_none (h : ¬ Relation.ReflTransGen adj publ s) :
    (g.uncachedRoute publ s).numberOfHops = 0 := by
  simp [uncachedRoute, (hg publ s).2 h]

include hids

theorem uncached_reach (h : Relation.ReflTransGen adj publ s) :
    (g.uncachedRoute publ s).numberOfHops = (g.route publ s).numberOfHops ∧
      0 < (g.uncachedRoute publ s).numberOfHops := by
  have hpath := (hg publ s).1 h
  have hlen : (g.getShortestPath publ s).length ≤ Fintype.card V := hpath.nodup.length_le_card
  have hpos : 0 < (g.getShortestPath publ s).length := by
    obtain ⟨rest, hrest⟩ := List.head?_eq_some_iff.mp hpath.head
    simp [hrest]
  have hmod : (g.getShortestPath publ s).length % 2 ^ 32 = (g.getShortestPath publ s).length :=
    Nat.mod_eq_of_lt (by omega)
  have hhops : (g.uncachedRoute publ s).numberOfHops = (g.getShortestPath publ s).length := hmod
  exact ⟨hhops.trans (hops_reach hg hids h).1.symm, by rwa [hhops]⟩

theorem found_uncached (publ s : V) : Found g.uncachedRoute publ s := by
  by_cases h : Relation.ReflTransGen adj publ s
  · rw [Found, (uncached_reach hg hids h).1]
    exact (hops_reach hg hids h).2
  · rw [Found, uncached_none hg h, uintMax]
    decide

end

section

variable [Fintype V] [LinearOrder V] {adj : V → V → Prop} {pubs subs : Finset V}
  (hg : g.FindsPaths adj) (hids : Fintype.card V < 2 ^ 31)

omit [Fintype V] in
theorem nearest_self (hs : s ∈ pubs) : Nearest adj pubs s s where
  mem := hs
  reach := .refl
  least := by
    intro other _ w w' hw hw'
    have hle : w.length ≤ [s].length := hw.least [s] ⟨rfl, rfl, .singleton _⟩
    obtain ⟨rest, rfl⟩ := List.head?_eq_some_iff.mp hw'.head
    cases rest with
    | nil =>
      obtain rfl : other = s := Option.some.inj hw'.last
      have hpos : 0 < w.length := List.length_pos_of_mem (List.mem_of_mem_head? hw.head)
      refine Or.inr ⟨?_, le_rfl⟩
      rw [List.length_singleton] at hle ⊢
      omega
    | cons x rest =>
      refine Or.inl ?_
      simp only [List.length_cons] at hle ⊢
      exact Nat.lt_of_le_of_lt hle (by simp)

include hg hids

/-- Where all publishers reach a subscriber, the managers pick the same one. -/
theorem first_uncached_reach (hall : ∀ p ∈ pubs, Relation.ReflTransGen adj p s) :
    First g.uncachedRoute pubs.sort s publ ↔ First g.route pubs.sort s publ :=
  first_congr fun p hp => (uncached_reach hg hids (hall p ((Finset.mem_sort (· ≤ ·)).mp hp))).1

/-- Where one does not, this manager picks such a one. -/
theorem first_uncached_none {p : V} (hp : p ∈ pubs) (hno : ¬ Relation.ReflTransGen adj p s)
    (h : First g.uncachedRoute pubs.sort s publ) : ¬ Relation.ReflTransGen adj publ s := by
  obtain ⟨before, after, hsplit, hbefore, hafter⟩ := h.split
  have hzero := uncached_none hg hno
  have hin := (Finset.mem_sort (· ≤ ·)).mpr hp
  rw [hsplit, List.mem_append, List.mem_cons] at hin
  intro hreach
  have hpos := (uncached_reach hg hids hreach).2
  rcases hin with hin | rfl | hin
  · have hlt := hbefore p hin
    omega
  · exact hno hreach
  · have hle := hafter p hin
    omega

/-- Where none does, it picks the first publisher. -/
theorem first_uncached_least (hno : ∀ p ∈ pubs, ¬ Relation.ReflTransGen adj p s) :
    First g.uncachedRoute pubs.sort s publ ↔ publ ∈ pubs ∧ ∀ p ∈ pubs, publ ≤ p := by
  have hmem : ∀ {v}, v ∈ pubs.sort ↔ v ∈ pubs := Finset.mem_sort (· ≤ ·)
  have hzero : ∀ p ∈ pubs.sort, (g.uncachedRoute p s).numberOfHops = 0 := fun p hp =>
    uncached_none hg (hno p (hmem.mp hp))
  constructor
  · rintro ⟨-, before, after, hsplit, hbefore, -⟩
    cases before with
    | nil => exact head_sort hsplit
    | cons q before =>
      have hlt := hbefore q List.mem_cons_self
      rw [hzero q (by simp [hsplit])] at hlt
      exact absurd hlt (Nat.not_lt_zero _)
  · rintro ⟨hin, hleast⟩
    obtain ⟨before, after, hsplit⟩ := List.append_of_mem (hmem.mpr hin)
    refine ⟨found_uncached hg hids publ s, before, after, hsplit, fun q hq => ?_, fun q hq => ?_⟩
    · have hless := (split_sort _ hsplit).1 q hq
      exact absurd (hleast q (hmem.mp (by simp [hsplit, hq]))) (not_le.mpr hless)
    · rw [hzero publ (by simp [hsplit])]
      exact Nat.zero_le _

end

/-! ## The two managers -/

section

variable [LinearOrder V] {pubs subs : Finset V}

/-- Both managers come to their end, pick the same publisher for each subscriber, and leave the same
identifiers. -/
structure SameMatches (g : TMIgraph V E) (demands : Demands V) (pubs subs : Finset V) : Prop where
  picks : ∀ done, done <+: subs.sort → ∃ m t, calculateFIDs g.route pubs.sort done = some m ∧
    g.teCalculateFIDs demands pubs.sort done = some t ∧ t.bestPublisher = m.bestPublisher
  result : ∀ m t, calculateFIDs g.route pubs.sort subs.sort = some m →
    g.teCalculateFIDs demands pubs.sort subs.sort = some t →
    ∀ publ FID, (publ, FID) ∈ t.result ↔ (publ, FID) ∈ m.result

/-- No subscriber is a publisher, and each is reached by all publishers or by none. One that is reached
by none comes behind one of the first publisher, whose identifier has its bits, as the identifiers have
those of all subscribers that are reached. -/
structure Plain (g : TMIgraph V E) (adj : V → V → Prop) (pubs subs : Finset V) : Prop where
  first : ∀ u ∈ subs, (∀ v ∈ subs, u ≤ v) → ∃ publ ∈ pubs, Relation.ReflTransGen adj publ u
  apart : ∀ s ∈ subs, s ∉ pubs
  uniform : ∀ s ∈ subs, ∀ p ∈ pubs, ∀ q ∈ pubs, Relation.ReflTransGen adj p s →
    Relation.ReflTransGen adj q s
  last : ∀ u ∈ subs, (∀ p ∈ pubs, ¬ Relation.ReflTransGen adj p u) → ∀ t ∈ subs, t < u →
    (∀ v ∈ subs, t < v → v < u → ∀ p ∈ pubs, ¬ Relation.ReflTransGen adj p v) →
    ∀ publ, Nearest adj pubs t publ → ∀ p ∈ pubs, publ ≤ p
  reached : ∀ s ∈ subs, ∀ publ, Nearest adj pubs s publ →
    ∀ i, g.Marks (g.getShortestPath publ s) s i → g.KeepsBit adj pubs subs publ i
  unreached : ∀ u ∈ subs, (∀ p ∈ pubs, ¬ Relation.ReflTransGen adj p u) → ∀ publ ∈ pubs,
    (∀ p ∈ pubs, publ ≤ p) → ∀ i, (Bitvector.parse (g.iLID u)).getLsbD i = true →
      g.KeepsBit adj pubs subs publ i

variable [Fintype V] {adj : V → V → Prop} {demands : Demands V} {m : Matching V} {t : TEMatching V}
  (hg : g.FindsPaths adj) (hids : Fintype.card V < 2 ^ 31) (hdemands : Measured demands)

include hg hids hdemands

theorem te_pick (hnodup : (done ++ [sub]).Nodup)
    (h : g.teCalculateFIDs demands pubs.sort (done ++ [sub]) = some t) :
    ∃ publ, First g.uncachedRoute pubs.sort sub publ ∧ publ ≠ sub ∧ t.bestPublisher = some publ := by
  have hall := found_uncached hg hids
  obtain ⟨hne, hself⟩ := (teCalculateFIDs_iff hall hdemands).mp ⟨t, h⟩ sub (by simp)
  obtain ⟨publ, hfirst, -⟩ := foldl_first hall hne sub none 0 []
  obtain ⟨m, hrun, hsame⟩ := teCalculateFIDs_followed hall hdemands h
  refine ⟨publ, hfirst, fun heq => hself (heq ▸ hfirst), ?_⟩
  rw [hsame.bestPublisher, bestPublisher_first hnodup hrun hfirst]

theorem te_keys (h : g.teCalculateFIDs demands pubs.sort done = some t) :
    t.result.map Prod.fst = pubs.sort := by
  obtain ⟨m, hrun, hsame⟩ := teCalculateFIDs_followed (found_uncached hg hids) hdemands h
  rw [hsame.result, (keys_calculateFIDs hrun).result]

/-- The bits of an identifier are those of all subscribers that were given to its publisher. -/
theorem te_bits (h : g.teCalculateFIDs demands pubs.sort subs.sort = some t) (publ : V) :
    ((publ, none) ∈ t.result → ∀ s ∈ subs, ¬ First g.uncachedRoute pubs.sort s publ) ∧
    ∀ FID, (publ, some FID) ∈ t.result →
      (∃ s ∈ subs, First g.uncachedRoute pubs.sort s publ) ∧ ∀ i, FID.getLsbD i = true ↔
        ∃ s ∈ subs, First g.uncachedRoute pubs.sort s publ ∧
          (g.route publ s).FID.getLsbD i = true := by
  have hall := found_uncached hg hids
  have hmem : ∀ {v}, v ∈ subs.sort ↔ v ∈ subs := Finset.mem_sort (· ≤ ·)
  obtain ⟨m, hrun, hsame⟩ := teCalculateFIDs_followed hall hdemands h
  have hm := combined_calculateFIDs (Finset.sort_nodup subs (· ≤ ·)) hrun
  have hkeeps : ∀ s, Keeps g.uncachedRoute pubs.sort subs.sort publ s ↔
      s ∈ subs ∧ First g.uncachedRoute pubs.sort s publ := fun s => by rw [keeps_found hall, hmem]
  rw [hsame.result]
  refine ⟨fun hnone s hs => hm.null publ hnone s (hmem.mpr hs), fun FID hFID => ⟨?_, fun i => ?_⟩⟩
  · obtain ⟨s, hs⟩ := hm.used publ FID hFID
    exact ⟨s, (hkeeps s).mp hs⟩
  · rw [hm.bits publ FID hFID i]
    simp only [hkeeps, and_assoc]
    rfl

/-- The managers have picked the same publisher after each subscriber. -/
theorem SameMatches.pick (h : SameMatches g demands pubs subs) (hs : s ∈ subs) :
    ∃ done rest q m, subs.sort = done ++ s :: rest ∧ First g.uncachedRoute pubs.sort s q ∧ q ≠ s ∧
      calculateFIDs g.route pubs.sort (done ++ [s]) = some m ∧ m.bestPublisher = some q := by
  have hnodup := Finset.sort_nodup subs (· ≤ ·)
  obtain ⟨done, rest, hsplit⟩ := List.append_of_mem ((Finset.mem_sort (· ≤ ·)).mpr hs)
  have hprefix : done ++ [s] <+: subs.sort := ⟨rest, by simp [hsplit]⟩
  obtain ⟨m, t, hrun, hrun', hbest⟩ := h.picks _ hprefix
  obtain ⟨q, hfirst, hne, hpick⟩ := te_pick hg hids hdemands (hnodup.sublist hprefix.sublist) hrun'
  exact ⟨done, rest, q, m, hsplit, hfirst, hne, hrun, hbest ▸ hpick⟩

theorem SameMatches.plain (h : SameMatches g demands pubs subs) : Plain g adj pubs subs := by
  have hnodup := Finset.sort_nodup subs (· ≤ ·)
  have hmem : ∀ {v}, v ∈ subs.sort ↔ v ∈ subs := Finset.mem_sort (· ≤ ·)
  obtain ⟨m, t, hrun, hrun', -⟩ := h.picks _ (List.prefix_refl _)
  have hm := combined_calculateFIDs hnodup hrun
  have hpart : ∀ {done s rest}, subs.sort = done ++ s :: rest → (done ++ [s]).Nodup := by
    intro done s rest hsplit
    rw [hsplit] at hnodup
    exact hnodup.sublist (by simp)
  have hsame : ∀ {s p q}, s ∈ subs → Nearest adj pubs s p → First g.uncachedRoute pubs.sort s q →
      p = q ∧ p ≠ s := by
    intro s p q hs hnear hq
    obtain ⟨done, rest, q', m, hsplit, hfirst, hne, hrun, hbest⟩ := h.pick hg hids hdemands hs
    obtain rfl := hq.unique hfirst
    have hp := bestPublisher_first (hpart hsplit) hrun ((first_iff hg hids).mpr hnear)
    obtain rfl := Option.some.inj (hp.symm.trans hbest)
    exact ⟨rfl, hne⟩
  have huniform : ∀ s ∈ subs, ∀ p ∈ pubs, ∀ q ∈ pubs, Relation.ReflTransGen adj p s →
      Relation.ReflTransGen adj q s := by
    intro s hs p hp q hq hreach
    by_contra hno
    obtain ⟨publ, hnear⟩ := exists_nearest hg hids ⟨p, hp, hreach⟩
    obtain ⟨done, rest, q', m, -, hfirst, -⟩ := h.pick hg hids hdemands hs
    obtain ⟨rfl, -⟩ := hsame hs hnear hfirst
    exact first_uncached_none hg hids hq hno hfirst hnear.reach
  have hbits : ∀ {s publ}, s ∈ subs → First g.uncachedRoute pubs.sort s publ → ∀ i,
      (g.route publ s).FID.getLsbD i = true → g.KeepsBit adj pubs subs publ i := by
    intro s publ hs hfirst i hi
    have hpubl := hfirst.mem
    rw [← te_keys hg hids hdemands hrun'] at hpubl
    obtain ⟨hnone, hsome⟩ := te_bits hg hids hdemands hrun' publ
    obtain ⟨⟨key, _ | FID⟩, hin, rfl⟩ := List.mem_map.mp hpubl
    · exact absurd hfirst (hnone hin s hs)
    · have hbit := ((hsome FID hin).2 i).mpr ⟨s, hs, hfirst, hi⟩
      exact (keptBit_route hg hids).mp ((hm.bits key FID ((h.result m t hrun hrun' key _).mp hin) i).mp hbit)
  refine ⟨(calculateFIDs_runs hg hids).mp ⟨m, hrun⟩, fun s hs hpub => ?_, huniform,
    fun u hu hno t ht htu hbetween publ hnear => ?_,
    fun s hs publ hnear i hi => ?_, fun u hu hno publ hpubl hleast i hi => ?_⟩
  · obtain ⟨done, rest, q, m, -, hfirst, -⟩ := h.pick hg hids hdemands hs
    exact (hsame hs (nearest_self hpub) hfirst).2 rfl
  · obtain ⟨done, rest, q, m, hsplit, hfirst, -, hrun, hbest⟩ := h.pick hg hids hdemands hu
    obtain ⟨before, t', after, publ', rfl, ht', hafter, hbest'⟩ :=
      bestPublisher_unreached (hpart hsplit) hrun ((unreached_iff hg hids).mpr hno)
    have hsplit' : subs.sort = before ++ t' :: (after ++ u :: rest) := by simpa using hsplit
    obtain ⟨hless, -⟩ := split_sort _ hsplit
    have htt' : t = t' := by
      have hin := hmem.mpr ht
      rw [hsplit', List.mem_append, List.mem_cons, List.mem_append] at hin
      rcases hin with hin | rfl | hin | hin
      · have hno' := hbetween t' (hmem.mp (by simp [hsplit'])) ((split_sort _ hsplit').1 t hin)
          (hless t' (by simp))
        exact absurd ((first_iff hg hids).mp ht').reach (hno' publ' ((first_iff hg hids).mp ht').mem)
      · rfl
      · exact absurd hnear.reach ((unreached_iff hg hids).mp (hafter t hin) publ hnear.mem)
      · rcases List.mem_cons.mp hin with rfl | hin
        · exact absurd htu (lt_irrefl t)
        · exact absurd ((split_sort _ hsplit).2 t hin) htu.asymm
    subst htt'
    obtain rfl := hnear.unique hg ((first_iff hg hids).mp ht')
    obtain rfl := Option.some.inj (hbest'.symm.trans hbest)
    exact ((first_uncached_least hg hids hno).mp hfirst).2
  · have hreach : ∀ p ∈ pubs, Relation.ReflTransGen adj p s := fun p hp =>
      huniform s hs publ hnear.mem p hp hnear.reach
    exact hbits hs ((first_uncached_reach hg hids hreach).mpr ((first_iff hg hids).mpr hnear)) i
      (getLsbD_route.mpr hi)
  · exact hbits hu ((first_uncached_least hg hids hno).mpr ⟨hpubl, hleast⟩) i
      (getLsbD_route.mpr (Or.inr hi))

omit hdemands in
/-- The nearest publisher is picked, or the first one when there is none. -/
theorem Plain.first_uncached (h : Plain g adj pubs subs) (hs : s ∈ subs) :
    First g.uncachedRoute pubs.sort s publ ↔ Nearest adj pubs s publ ∨
      (∀ p ∈ pubs, ¬ Relation.ReflTransGen adj p s) ∧ publ ∈ pubs ∧ ∀ p ∈ pubs, publ ≤ p := by
  by_cases hno : ∀ p ∈ pubs, ¬ Relation.ReflTransGen adj p s
  · have hnear : ¬ Nearest adj pubs s publ := fun hnear => hno publ hnear.mem hnear.reach
    rw [first_uncached_least hg hids hno]
    simp only [hnear, false_or]
    exact ⟨fun hleast => ⟨hno, hleast⟩, fun hleast => hleast.2⟩
  · rw [first_uncached_reach hg hids, first_iff hg hids]
    · simp [hno]
    · push Not at hno
      obtain ⟨p, hp, hreach⟩ := hno
      exact fun q hq => h.uniform s hs p hp q hq hreach

theorem Plain.same (h : Plain g adj pubs subs) : SameMatches g demands pubs subs := by
  have hall := found_uncached hg hids
  have hnodup := Finset.sort_nodup subs (· ≤ ·)
  have hmem : ∀ {v}, v ∈ subs.sort ↔ v ∈ subs := Finset.mem_sort (· ≤ ·)
  have hfirst : ∀ {s publ}, s ∈ subs → (First g.uncachedRoute pubs.sort s publ ↔
      Nearest adj pubs s publ ∨ (∀ p ∈ pubs, ¬ Relation.ReflTransGen adj p s) ∧ publ ∈ pubs ∧
        ∀ p ∈ pubs, publ ≤ p) := fun hs => h.first_uncached hg hids hs
  have hrun := (calculateFIDs_runs hg hids).mpr h.first
  have hrun' : ∃ t, g.teCalculateFIDs demands pubs.sort subs.sort = some t := by
    refine (teCalculateFIDs_iff hall hdemands).mpr fun s hs => ⟨fun hnil => ?_, fun hself => ?_⟩
    · cases hsort : subs.sort with
      | nil =>
        rw [hsort] at hs
        cases hs
      | cons u rest =>
        obtain ⟨hu, hleast⟩ := head_sort hsort
        obtain ⟨p, hp, -⟩ := h.first u hu hleast
        rw [← Finset.mem_sort (· ≤ ·), hnil] at hp
        cases hp
    · exact h.apart s (hmem.mp hs) ((Finset.mem_sort (· ≤ ·)).mp hself.mem)
  have hbefore : ∀ {init u m}, init ++ [u] <+: subs.sort →
      (∀ p ∈ pubs, ¬ Relation.ReflTransGen adj p u) →
      calculateFIDs g.route pubs.sort (init ++ [u]) = some m → ∃ t ∈ subs, ∃ publ,
        Nearest adj pubs t publ ∧ (∀ p ∈ pubs, publ ≤ p) ∧ m.bestPublisher = some publ := by
    intro init u m hprefix hno hm
    obtain ⟨before, t, after, publ, rfl, ht, hafter, hbest⟩ :=
      bestPublisher_unreached (hnodup.sublist hprefix.sublist) hm ((unreached_iff hg hids).mpr hno)
    obtain ⟨rest, hsplit⟩ := hprefix
    have hsplit' : subs.sort = (before ++ t :: after) ++ u :: rest := by simp [← hsplit]
    have hsplitAt : subs.sort = before ++ t :: (after ++ u :: rest) := by simp [← hsplit]
    have hnear := (first_iff hg hids).mp ht
    have hin : t ∈ subs := hmem.mp (by simp [hsplit'])
    refine ⟨t, hin, publ, hnear, h.last u (hmem.mp (by simp [hsplit'])) hno t hin
      ((split_sort _ hsplit').1 t (by simp)) (fun v hv htv hvu => ?_) publ hnear, hbest⟩
    have hv' := hmem.mpr hv
    rw [hsplitAt, List.mem_append, List.mem_cons, List.mem_append] at hv'
    rcases hv' with hv' | rfl | hv' | hv'
    · exact absurd ((split_sort _ hsplitAt).1 v hv') htv.asymm
    · exact absurd htv (lt_irrefl v)
    · exact (unreached_iff hg hids).mp (hafter v hv')
    · rcases List.mem_cons.mp hv' with rfl | hv'
      · exact absurd hvu (lt_irrefl v)
      · exact absurd ((split_sort _ hsplit').2 v hv') hvu.asymm
  refine ⟨fun done hdone => ?_, fun m t hm ht publ FID => ?_⟩
  · obtain ⟨m, hm⟩ := Wire.foldlM_prefix hrun hdone
    obtain ⟨t, ht⟩ := Wire.foldlM_prefix hrun' hdone
    refine ⟨m, t, hm, ht, ?_⟩
    rcases done.eq_nil_or_concat with rfl | ⟨init, sub, rfl⟩
    · obtain rfl := Option.some.inj hm
      obtain rfl := Option.some.inj ht
      rfl
    · rw [List.concat_eq_append] at hdone hm ht
      obtain ⟨q, hq, -, hpick⟩ := te_pick hg hids hdemands (hnodup.sublist hdone.sublist) ht
      have hsub : sub ∈ subs := hmem.mp (hdone.subset (by simp))
      rcases (hfirst hsub).mp hq with hnear | ⟨hno, hq, hleast⟩
      · rw [hpick, bestPublisher_first (hnodup.sublist hdone.sublist) hm ((first_iff hg hids).mpr hnear)]
      · obtain ⟨t', -, publ, hnear, hleast', hbest⟩ := hbefore hdone hno hm
        rw [hpick, hbest, le_antisymm (hleast publ hnear.mem) (hleast' q hq)]
  · have hcomb := combined_calculateFIDs hnodup hm
    have hkeys := te_keys hg hids hdemands ht
    have hserved : ∀ s ∈ subs, First g.uncachedRoute pubs.sort s publ →
        ∃ s' ∈ subs, Nearest adj pubs s' publ := by
      intro s hs hq
      rcases (hfirst hs).mp hq with hnear | ⟨hno, hpubl, hleast⟩
      · exact ⟨s, hs, hnear⟩
      · obtain ⟨init, rest, hsplit⟩ := List.append_of_mem (hmem.mpr hs)
        have hprefix : init ++ [s] <+: subs.sort := ⟨rest, by simp [hsplit]⟩
        obtain ⟨m', hm'⟩ := Wire.foldlM_prefix hrun hprefix
        obtain ⟨s', hs', publ', hnear, hleast', -⟩ := hbefore hprefix hno hm'
        obtain rfl := le_antisymm (hleast publ' hnear.mem) (hleast' publ hpubl)
        exact ⟨s', hs', hnear⟩
    have hbits : ∀ i, (∃ s ∈ subs, First g.uncachedRoute pubs.sort s publ ∧
        (g.route publ s).FID.getLsbD i = true) ↔ KeptBit g.route pubs.sort subs.sort publ i := by
      intro i
      simp only [KeptBit, keeps_iff hg hids, and_assoc]
      constructor
      · rintro ⟨s, hs, hq, hbit⟩
        suffices g.KeepsBit adj pubs subs publ i by
          simpa only [KeepsBit, ← getLsbD_route] using this
        rcases (hfirst hs).mp hq with hnear | ⟨hno, hpubl, hleast⟩
        · exact h.reached s hs publ hnear i (getLsbD_route.mp hbit)
        · rcases getLsbD_route.mp hbit with ⟨eid, heid, -⟩ | hbit
          · rw [(hg publ s).2 (hno publ hpubl)] at heid
            cases heid
          · exact h.unreached s hs hno publ hpubl hleast i hbit
      · rintro ⟨s, hs, hnear, -, hbit⟩
        exact ⟨s, hs, (hfirst hs).mpr (Or.inl hnear), hbit⟩
    have hone : ∀ FID, (publ, FID) ∈ t.result → (publ, FID) ∈ m.result := by
      intro FID hFID
      have hpubl : publ ∈ m.result.map Prod.fst := by
        rw [hcomb.result, ← hkeys]
        exact List.mem_map_of_mem hFID
      obtain ⟨⟨key, FID'⟩, hFID', rfl⟩ := List.mem_map.mp hpubl
      obtain ⟨hnone, hsome⟩ := te_bits hg hids hdemands ht key
      cases FID with
      | none =>
        cases FID' with
        | none => exact hFID'
        | some F' =>
          obtain ⟨s, hs⟩ := hcomb.used key F' hFID'
          have hin := hmem.mp hs.mem
          exact absurd ((hfirst hin).mpr (Or.inl ((first_iff hg hids).mp hs.first))) (hnone hFID s hin)
      | some F =>
        obtain ⟨⟨s, hs, hq⟩, hF⟩ := hsome F hFID
        cases FID' with
        | none =>
          obtain ⟨s', hs', hnear⟩ := hserved s hs hq
          exact absurd ((first_iff hg hids).mpr hnear) (hcomb.null key hFID' s' (hmem.mpr hs'))
        | some F' =>
          have hsame : F = F' := BitVec.eq_of_getLsbD_eq fun i _ => by
            rw [Bool.eq_iff_iff, hF i, hbits i, hcomb.bits key F' hFID' i]
            rfl
          rwa [hsame]
    refine ⟨hone FID, fun hFID => ?_⟩
    have hpubl : publ ∈ t.result.map Prod.fst := by
      rw [hkeys, ← hcomb.result]
      exact List.mem_map_of_mem hFID
    obtain ⟨⟨key, FID'⟩, hFID', rfl⟩ := List.mem_map.mp hpubl
    have hkeysNodup : (m.result.map Prod.fst).Nodup := by
      rw [hcomb.result]
      exact Finset.sort_nodup pubs (· ≤ ·)
    rwa [eq_of_mem hkeysNodup hFID (hone FID' hFID')]

/-- As long as nothing is cached, the managers match alike exactly then. -/
theorem te_matches_iff : SameMatches g demands pubs subs ↔ Plain g adj pubs subs :=
  ⟨fun h => h.plain hg hids hdemands, fun h => h.same hg hids hdemands⟩

end

/-! ## The fork -/

/-- Node 0 publishes to both. -/
theorem te_matches_fork : SameMatches fork readDemands {0} {1, 2} := by
  have hone : ∀ p ∈ ({0} : Finset (Fin 4)), ∀ s ∈ ({1, 2} : Finset (Fin 4)), forkAdj p s := by decide
  have htwo : ∀ s ∈ ({1, 2} : Finset (Fin 4)), ∀ t ∈ ({1, 2} : Finset (Fin 4)),
      ∀ u ∈ ({1, 2} : Finset (Fin 4)), s < t → ¬ t < u := by decide
  refine (te_matches_iff fork_findsPaths (by decide) measured_readDemands).mpr
    ⟨fun u hu _ => ⟨0, by decide, .single (hone 0 (by decide) u hu)⟩, by decide,
    fun s hs p _ q hq _ => .single (hone q hq s hs),
    fun u hu hno => absurd (.single (hone 0 (by decide) u hu)) (hno 0 (by decide)),
    fun s hs publ hnear i hi => ⟨s, hs, hnear, fun hover => ?_, hi⟩,
    fun u hu hno => absurd (.single (hone 0 (by decide) u hu)) (hno 0 (by decide))⟩
  obtain ⟨t, ht, u, hu, hst, htu, -⟩ := hover
  exact htwo s hs t ht u hu hst htu

/-- A node that subscribes to itself has no demand to count. And a publisher without a path is the
nearest. -/
theorem not_te_matches : ¬ SameMatches fork readDemands {0} {0} ∧
    ¬ SameMatches fork readDemands {0, 3} {1} ∧
    (fork.teCalculateFIDs readDemands [0] [0]).isNone = true ∧
    (calculateFIDs fork.route [0, 3] [1]).map Matching.bestPublisher = some (some 0) ∧
    (fork.teCalculateFIDs readDemands [0, 3] [1]).map TEMatching.bestPublisher = some (some 3) := by
  have hself : (fork.teCalculateFIDs readDemands [0] [0]).isNone = true := by decide +kernel
  have hplain : (calculateFIDs fork.route [0, 3] [1]).map Matching.bestPublisher = some (some 0) := by
    decide +kernel
  have hte : (fork.teCalculateFIDs readDemands [0, 3] [1]).map TEMatching.bestPublisher =
      some (some 3) := by decide +kernel
  have hpubs : ({0, 3} : Finset (Fin 4)).sort = [0, 3] :=
    (List.toFinset_sort (l := [(0 : Fin 4), 3]) (· ≤ ·) (by decide)).mpr (by decide)
  refine ⟨fun h => ?_, fun h => ?_, hself, hplain, hte⟩
  · obtain ⟨m, t, -, ht, -⟩ := h.picks _ (List.prefix_refl _)
    rw [Finset.sort_singleton] at ht
    rw [ht] at hself
    cases hself
  · obtain ⟨m, t, hm, ht, hbest⟩ := h.picks _ (List.prefix_refl _)
    rw [hpubs, Finset.sort_singleton] at hm ht
    rw [hm] at hplain
    rw [ht] at hte
    have hzero := Option.some.inj hplain
    have hthree := Option.some.inj hte
    rw [hbest, hzero] at hthree
    exact absurd hthree (by decide)

end TMIgraph

end Blackadder
