import Blackadder.Lipsin.TEgraphMF

/-!
# The matching of the simulated topology manager

In ns-3 a missing path has no hops, and no identifier is ever replaced.
-/

namespace Blackadder

namespace TMIgraph

variable {V E : Type*}

/-- `calculateFID(source, destination, resultFID, numberOfHops)` of ns-3. -/
def nsRoute (g : TMIgraph V E) (source destination : V) : Route V := g.uncachedRoute source destination

/-- The locals of the matching. -/
structure NsMatching (V : Type*) where
  result : List (V × Option Bitvector)
  bestPublisher : Option V
  bestFID : Bitvector

section

variable [DecidableEq V]

/-- One turn of the loop over the subscribers. `none` stands for the use of a publisher that is not
in the map. -/
def nsMatchSubscriber (route : V → V → Route V) (publishers : List V) (t : NsMatching V) (sub : V) :
    Option (NsMatching V) := do
  let (_, bestPublisher, bestFID, _) :=
    publishers.foldl (better route sub) (uintMax, t.bestPublisher, t.bestFID, [])
  let best ← bestPublisher
  if best ∈ t.result.map Prod.fst then
    return {
      result := update t.result best (orFID bestFID)
      bestPublisher := bestPublisher
      bestFID := bestFID }
  else none

/-- `TMIgraph::calculateFID(publishers, subscribers, result)` of ns-3. -/
def nsCalculateFIDs (g : TMIgraph V E) (publishers subscribers : List V) : Option (NsMatching V) :=
  subscribers.foldlM (nsMatchSubscriber g.nsRoute publishers) {
    result := publishers.map fun publ => (publ, none)
    bestPublisher := none
    bestFID := 0 }

end

section

variable [DecidableEq V] {f f' : V → V → Route V} {publishers subscribers done : List V} {publ sub s : V}
  {m m' : Matching V} {t : NsMatching V}

/-- The locals of the two loops. -/
structure NsSame (m : Matching V) (t : NsMatching V) : Prop where
  result : t.result = m.result
  bestPublisher : t.bestPublisher = m.bestPublisher
  bestFID : t.bestFID = m.bestFID

/-- With paths that all count, a turn is one of the other loop with the same routes. -/
theorem nsMatchSubscriber_same (hall : ∀ p s, Found f p s) (hpublishers : publishers ≠ [])
    (hkeys : Keyed publishers m) (h : NsSame m t) (sub : V) : ∃ m' t',
      matchSubscriber f publishers m sub = some m' ∧ nsMatchSubscriber f publishers t sub = some t' ∧
      NsSame m' t' := by
  obtain ⟨publ, hfirst, heq⟩ := foldl_first hall hpublishers sub t.bestPublisher t.bestFID []
  obtain ⟨m', hm'⟩ := matchSubscriber_some hkeys hfirst.mem hfirst.found
  refine ⟨m', ⟨update t.result publ (orFID (f publ sub).FID), some publ, (f publ sub).FID⟩, hm', ?_, ?_⟩
  · unfold nsMatchSubscriber
    dsimp only
    rw [heq]
    simp only [Option.bind_eq_bind, Option.bind_some, h.result, hkeys.result, if_pos hfirst.mem]
    rfl
  · rcases matchSubscriber_eq hm' with ⟨best, hbest, rfl⟩ | ⟨hnone, -⟩
    · obtain rfl := hfirst.unique hbest
      refine ⟨?_, rfl, rfl⟩
      rw [Matching.enter, h.result, update, update]
      simp only [addFID_eq_orFID hfirst.found]
    · exact absurd hfirst.found (hnone publ hfirst.mem)

theorem nsCalculateFIDs_same {g : TMIgraph V E} (hall : ∀ p s, Found g.nsRoute p s)
    (hpublishers : publishers ≠ []) (subscribers : List V) : ∃ m t,
      calculateFIDs g.nsRoute publishers subscribers = some m ∧
      g.nsCalculateFIDs publishers subscribers = some t ∧ NsSame m t := by
  induction subscribers using List.reverseRecOn with
  | nil => exact ⟨_, _, rfl, rfl, rfl, rfl, rfl⟩
  | append_singleton done sub ih =>
    obtain ⟨m, t, hm, ht, hsame⟩ := ih
    obtain ⟨m', t', hm', ht', hsame'⟩ :=
      nsMatchSubscriber_same hall hpublishers (keys_calculateFIDs hm) hsame sub
    refine ⟨m', t', ?_, ?_, hsame'⟩
    · rw [calculateFIDs] at hm ⊢
      rw [List.foldlM_append, hm]
      simpa using hm'
    · rw [nsCalculateFIDs] at ht ⊢
      rw [List.foldlM_append, ht]
      simpa using ht'

omit [DecidableEq V] in
/-- The same identifiers come from the same publishers in use and the same bits kept. -/
theorem Combined.results_iff (h : Combined f publishers subscribers m)
    (h' : Combined f' publishers subscribers m') :
    (∀ publ FID, (publ, FID) ∈ m'.result ↔ (publ, FID) ∈ m.result) ↔ ∀ publ ∈ publishers,
      ((∃ s ∈ subscribers, First f publishers s publ) ↔
        ∃ s ∈ subscribers, First f' publishers s publ) ∧
      ∀ i, KeptBit f publishers subscribers publ i ↔ KeptBit f' publishers subscribers publ i := by
  have hunused : ∀ {f m}, Combined f publishers subscribers m → ∀ publ ∈ publishers,
      ((publ, none) ∈ m.result ↔ ¬ ∃ s ∈ subscribers, First f publishers s publ) := by
    intro f m h publ hpubl
    rw [h.null_iff hpubl]
    push Not
    rfl
  constructor
  · intro hsame publ hpubl
    have hused : (∃ s ∈ subscribers, First f publishers s publ) ↔
        ∃ s ∈ subscribers, First f' publishers s publ := by
      rw [← not_iff_not, ← hunused h publ hpubl, ← hunused h' publ hpubl, hsame]
    refine ⟨hused, fun i => ?_⟩
    by_cases hserves : ∃ s ∈ subscribers, First f publishers s publ
    · obtain ⟨s, hs, hfirst⟩ := hserves
      obtain ⟨FID, hFID, hbits⟩ := h.exists_FID hs hfirst
      rw [← hbits i]
      exact h'.bits publ FID ((hsame publ _).mpr hFID) i
    · have hno : ¬ ∃ s ∈ subscribers, First f' publishers s publ := mt hused.mpr hserves
      constructor
      · rintro ⟨s, hs, -⟩
        exact absurd ⟨s, hs.mem, hs.first⟩ hserves
      · rintro ⟨s, hs, -⟩
        exact absurd ⟨s, hs.mem, hs.first⟩ hno
  · have hone : ∀ {f f' m m'}, Combined f publishers subscribers m →
        Combined f' publishers subscribers m' →
        (∀ publ ∈ publishers, ((∃ s ∈ subscribers, First f publishers s publ) ↔
            ∃ s ∈ subscribers, First f' publishers s publ) ∧
          ∀ i, KeptBit f publishers subscribers publ i ↔ KeptBit f' publishers subscribers publ i) →
        ∀ publ FID, (publ, FID) ∈ m.result → (publ, FID) ∈ m'.result := by
      intro f f' m m' h h' hsame publ FID hFID
      have hpubl : publ ∈ publishers := by
        rw [← h.result]
        exact List.mem_map_of_mem hFID
      obtain ⟨hused, hbits⟩ := hsame publ hpubl
      cases FID with
      | none => exact (hunused h' publ hpubl).mpr (mt hused.mpr ((hunused h publ hpubl).mp hFID))
      | some FID =>
        obtain ⟨s, hs⟩ := h.used publ FID hFID
        obtain ⟨s', hs', hfirst⟩ := hused.mp ⟨s, hs.mem, hs.first⟩
        obtain ⟨FID', hFID', hkept⟩ := h'.exists_FID hs' hfirst
        have hsame : FID = FID' := BitVec.eq_of_getLsbD_eq fun i _ => by
          rw [Bool.eq_iff_iff, hkept i, ← hbits i]
          exact h.bits publ FID hFID i
        rwa [hsame]
    intro hsame publ FID
    refine ⟨hone h' h (fun publ hpubl => ?_) publ FID, hone h h' hsame publ FID⟩
    exact ⟨(hsame publ hpubl).1.symm, fun i => ((hsame publ hpubl).2 i).symm⟩

end

/-! ## What is picked -/

section

variable [LinearOrder V]

/-- Every publisher reaches the node. -/
def Everywhere (adj : V → V → Prop) (pubs : Finset V) (s : V) : Prop :=
  ∀ p ∈ pubs, Relation.ReflTransGen adj p s

/-- The first publisher that does not reach the node. -/
structure Stranded (adj : V → V → Prop) (pubs : Finset V) (s publ : V) : Prop where
  mem : publ ∈ pubs
  unreached : ¬ Relation.ReflTransGen adj publ s
  least : ∀ p ∈ pubs, ¬ Relation.ReflTransGen adj p s → publ ≤ p

/-- The simulated manager's pick: the first publisher that does not reach the subscriber, or the nearest
one. -/
def NsPick (adj : V → V → Prop) (pubs : Finset V) (s publ : V) : Prop :=
  Stranded adj pubs s publ ∨ Everywhere adj pubs s ∧ Nearest adj pubs s publ

/-- The least subscriber is reached. What is asked of the others is asked only of those that are overtaken
and of those that some publisher does not reach. -/
structure Coinciding {E : Type*} (g : TMIgraph V E) (adj : V → V → Prop) (pubs subs : Finset V) : Prop where
  first : ∀ u ∈ subs, (∀ v ∈ subs, u ≤ v) → ∃ publ ∈ pubs, Relation.ReflTransGen adj publ u
  overtaken : ∀ s ∈ subs, Everywhere adj pubs s → ∀ publ, Nearest adj pubs s publ →
    Overtaken adj pubs subs s publ → ∀ i, g.Marks (g.getShortestPath publ s) s i →
      g.KeepsBit adj pubs subs publ i
  stranded : ∀ u ∈ subs, ∀ publ, Stranded adj pubs u publ →
    (∃ t ∈ subs, Nearest adj pubs t publ) ∧
      ∀ i, (Bitvector.parse (g.iLID u)).getLsbD i = true → g.KeepsBit adj pubs subs publ i
  partly : ∀ s ∈ subs, ¬ Everywhere adj pubs s → ∀ publ, Nearest adj pubs s publ →
    (∃ t ∈ subs, NsPick adj pubs t publ) ∧ (¬ Overtaken adj pubs subs s publ →
      ∀ i, g.Marks (g.getShortestPath publ s) s i → ∃ t ∈ subs,
        Stranded adj pubs t publ ∧ (Bitvector.parse (g.iLID t)).getLsbD i = true ∨
        Everywhere adj pubs t ∧ Nearest adj pubs t publ ∧ g.Marks (g.getShortestPath publ t) t i)

variable [Fintype V] {g : TMIgraph V E} {adj : V → V → Prop} {pubs subs : Finset V} {publ s : V}
  (hg : g.FindsPaths adj) (hids : Fintype.card V < 2 ^ 31)

include hg hids

theorem NsPick.of_first (h : First g.nsRoute pubs.sort s publ) : NsPick adj pubs s publ := by
  by_cases hall : Everywhere adj pubs s
  · exact Or.inr ⟨hall, (first_iff hg hids).mp ((first_uncached_reach hg hids hall).mp h)⟩
  · unfold Everywhere at hall
    push Not at hall
    obtain ⟨p, hp, hno⟩ := hall
    have hmem : ∀ {v}, v ∈ pubs.sort ↔ v ∈ pubs := Finset.mem_sort (· ≤ ·)
    refine Or.inl ⟨hmem.mp h.mem, first_uncached_none hg hids hp hno h, fun q hq hnoq => ?_⟩
    obtain ⟨before, after, hsplit, hbefore, -⟩ := h.split
    have hzero : (g.nsRoute q s).numberOfHops = 0 := uncached_none hg hnoq
    have hin := hmem.mpr hq
    rw [hsplit, List.mem_append, List.mem_cons] at hin
    rcases hin with hin | rfl | hin
    · exact absurd (hbefore q hin) (by omega)
    · exact le_rfl
    · exact ((split_sort _ hsplit).2 q hin).le

theorem first_nsRoute_iff : First g.nsRoute pubs.sort s publ ↔ NsPick adj pubs s publ := by
  refine ⟨NsPick.of_first hg hids, fun h => ?_⟩
  have hne : pubs.sort ≠ [] := by
    have hpubl : publ ∈ pubs := by
      rcases h with hstranded | ⟨-, hnear⟩
      · exact hstranded.mem
      · exact hnear.mem
    exact List.ne_nil_of_mem ((Finset.mem_sort (· ≤ ·)).mpr hpubl)
  obtain ⟨publ', hfirst, -⟩ := foldl_first (found_uncached hg hids) hne s none 0 []
  have hsame : publ' = publ := by
    rcases h with ⟨hmem, hno, hleast⟩ | ⟨hall, hnear⟩ <;>
      rcases NsPick.of_first hg hids hfirst with ⟨hmem', hno', hleast'⟩ | ⟨hall', hnear'⟩
    · exact le_antisymm (hleast' publ hmem hno) (hleast publ' hmem' hno')
    · exact absurd (hall' publ hmem) hno
    · exact absurd (hall publ' hmem') hno'
    · exact hnear'.unique hg hnear
  rwa [← hsame]

omit [Fintype V] hids in
/-- The path to a subscriber that is not reached has no links. -/
theorem Stranded.marks_iff (h : Stranded adj pubs s publ) {i : Nat} :
    g.Marks (g.getShortestPath publ s) s i ↔ (Bitvector.parse (g.iLID s)).getLsbD i = true := by
  rw [Marks, (hg publ s).2 h.unreached]
  refine or_iff_right ?_
  rintro ⟨_, hmem, _⟩
  exact absurd hmem List.not_mem_nil

omit [Fintype V] hg hids in
theorem Stranded.not_everywhere (h : Stranded adj pubs s publ) : ¬ Everywhere adj pubs s :=
  fun hall => h.unreached (hall publ h.mem)

omit [Fintype V] hids in
/-- The two specifications are one exactly if the exceptions coincide. -/
theorem coinciding_iff (hfirst : ∀ u ∈ subs, (∀ v ∈ subs, u ≤ v) →
      ∃ publ ∈ pubs, Relation.ReflTransGen adj publ u) :
    (∀ publ ∈ pubs, ((∃ s ∈ subs, Nearest adj pubs s publ) ↔ ∃ s ∈ subs, NsPick adj pubs s publ) ∧
      ∀ i, g.KeepsBit adj pubs subs publ i ↔
        ∃ s ∈ subs, NsPick adj pubs s publ ∧ g.Marks (g.getShortestPath publ s) s i) ↔
      Coinciding g adj pubs subs := by
  constructor
  · intro h
    refine ⟨hfirst, fun s hs hall publ hnear _ i hi => ?_, fun u hu publ hstranded => ?_,
      fun s hs _ publ hnear => ?_⟩
    · exact ((h publ hnear.mem).2 i).mpr ⟨s, hs, Or.inr ⟨hall, hnear⟩, hi⟩
    · obtain ⟨hused, hbits⟩ := h publ hstranded.mem
      exact ⟨hused.mpr ⟨u, hu, Or.inl hstranded⟩, fun i hi =>
        (hbits i).mpr ⟨u, hu, Or.inl hstranded, (hstranded.marks_iff hg).mpr hi⟩⟩
    · obtain ⟨hused, hbits⟩ := h publ hnear.mem
      refine ⟨hused.mp ⟨s, hs, hnear⟩, fun hkept i hi => ?_⟩
      obtain ⟨t, ht, hpick, hmarks⟩ := (hbits i).mp ⟨s, hs, hnear, hkept, hi⟩
      refine ⟨t, ht, ?_⟩
      rcases hpick with hstranded | ⟨hall, hnear⟩
      · exact Or.inl ⟨hstranded, (hstranded.marks_iff hg).mp hmarks⟩
      · exact Or.inr ⟨hall, hnear, hmarks⟩
  · intro h publ hpubl
    refine ⟨⟨?_, ?_⟩, fun i => ⟨?_, ?_⟩⟩
    · rintro ⟨s, hs, hnear⟩
      by_cases hall : Everywhere adj pubs s
      · exact ⟨s, hs, Or.inr ⟨hall, hnear⟩⟩
      · exact (h.partly s hs hall publ hnear).1
    · rintro ⟨s, hs, hstranded | ⟨-, hnear⟩⟩
      · exact (h.stranded s hs publ hstranded).1
      · exact ⟨s, hs, hnear⟩
    · rintro ⟨s, hs, hnear, hkept, hi⟩
      by_cases hall : Everywhere adj pubs s
      · exact ⟨s, hs, Or.inr ⟨hall, hnear⟩, hi⟩
      · obtain ⟨t, ht, hpick⟩ := (h.partly s hs hall publ hnear).2 hkept i hi
        rcases hpick with ⟨hstranded, hbit⟩ | ⟨hall, hnear, hmarks⟩
        · exact ⟨t, ht, Or.inl hstranded, (hstranded.marks_iff hg).mpr hbit⟩
        · exact ⟨t, ht, Or.inr ⟨hall, hnear⟩, hmarks⟩
    · rintro ⟨s, hs, hstranded | ⟨hall, hnear⟩, hi⟩
      · exact (h.stranded s hs publ hstranded).2 i ((hstranded.marks_iff hg).mp hi)
      · by_cases hover : Overtaken adj pubs subs s publ
        · exact h.overtaken s hs hall publ hnear hover i hi
        · exact ⟨s, hs, hnear, hover, hi⟩

omit [Fintype V] hg hids in
/-- Where every publisher reaches every subscriber, there are no exceptions. -/
theorem coinciding_reach (hpubs : pubs.Nonempty) (hall : ∀ s ∈ subs, Everywhere adj pubs s) :
    Coinciding g adj pubs subs := by
  obtain ⟨p, hp⟩ := hpubs
  refine ⟨fun u hu _ => ⟨p, hp, hall u hu p hp⟩, fun s _ _ publ _ hover => ?_,
    fun u hu publ hstranded => absurd (hall u hu) hstranded.not_everywhere,
    fun s hs hno => absurd (hall s hs) hno⟩
  obtain ⟨t, -, u, hu, -, -, -, -, hno⟩ := hover
  exact absurd (hall u hu p hp) (hno p hp)

/-- The simulated manager leaves the same identifiers as the real one exactly when those that are overtaken
or not reached by all publishers make no difference. -/
theorem nsCalculateFIDs_iff (hpubs : pubs.Nonempty) :
    (∃ m t, calculateFIDs g.route pubs.sort subs.sort = some m ∧
      g.nsCalculateFIDs pubs.sort subs.sort = some t ∧
      ∀ publ FID, (publ, FID) ∈ t.result ↔ (publ, FID) ∈ m.result) ↔ Coinciding g adj pubs subs := by
  have hmem : ∀ {v}, v ∈ subs.sort ↔ v ∈ subs := Finset.mem_sort (· ≤ ·)
  have hnodup := Finset.sort_nodup subs (· ≤ ·)
  have hne : pubs.sort ≠ [] := by
    obtain ⟨p, hp⟩ := hpubs
    exact List.ne_nil_of_mem ((Finset.mem_sort (· ≤ ·)).mpr hp)
  have hfound : ∀ p s, Found g.nsRoute p s := found_uncached hg hids
  obtain ⟨m', t, hm', ht, hsame⟩ := nsCalculateFIDs_same hfound hne subs.sort
  have h' := combined_calculateFIDs hnodup hm'
  have hconditions : ∀ {m}, calculateFIDs g.route pubs.sort subs.sort = some m →
      ((∀ publ FID, (publ, FID) ∈ t.result ↔ (publ, FID) ∈ m.result) ↔ Coinciding g adj pubs subs) := by
    intro m hm
    have hkept' : ∀ publ i, KeptBit g.nsRoute pubs.sort subs.sort publ i ↔
        ∃ s ∈ subs, NsPick adj pubs s publ ∧ g.Marks (g.getShortestPath publ s) s i := by
      intro publ i
      simp only [KeptBit, keeps_found hfound, hmem, first_nsRoute_iff hg hids, and_assoc]
      exact exists_congr fun s => and_congr_right fun _ => and_congr_right fun _ => getLsbD_route
    rw [hsame.result, (combined_calculateFIDs hnodup hm).results_iff h']
    simp only [hmem, first_iff hg hids, first_nsRoute_iff hg hids, keptBit_route hg hids, hkept', Finset.mem_sort]
    exact coinciding_iff hg ((calculateFIDs_runs hg hids).mp ⟨m, hm⟩)
  constructor
  · rintro ⟨m, t', hm, ht', hresult⟩
    obtain rfl := Option.some.inj (ht.symm.trans ht')
    exact (hconditions hm).mp hresult
  · intro h
    obtain ⟨m, hm⟩ := (calculateFIDs_runs hg hids).mpr h.first
    exact ⟨m, t, hm, ht, (hconditions hm).mpr h⟩

end

/-! ## The fork -/

/-- Node 0 publishes to both. -/
theorem nsCalculateFIDs_fork : ∃ m t,
    calculateFIDs fork.route ({0} : Finset (Fin 4)).sort ({1, 2} : Finset (Fin 4)).sort = some m ∧
    fork.nsCalculateFIDs ({0} : Finset (Fin 4)).sort ({1, 2} : Finset (Fin 4)).sort = some t ∧
    ∀ publ FID, (publ, FID) ∈ t.result ↔ (publ, FID) ∈ m.result := by
  have hone : ∀ s ∈ ({1, 2} : Finset (Fin 4)), ∀ p ∈ ({0} : Finset (Fin 4)), forkAdj p s := by decide
  exact (nsCalculateFIDs_iff fork_findsPaths (by decide) (Finset.singleton_nonempty 0)).mpr
    (coinciding_reach (Finset.singleton_nonempty 0) fun s hs p hp => .single (hone s hs p hp))

/-- A publisher without a path is the nearest there. -/
theorem ns_picks_unreachable : ¬ ∃ m t,
    calculateFIDs fork.route ({0, 3} : Finset (Fin 4)).sort ({1} : Finset (Fin 4)).sort = some m ∧
    fork.nsCalculateFIDs ({0, 3} : Finset (Fin 4)).sort ({1} : Finset (Fin 4)).sort = some t ∧
    ∀ publ FID, (publ, FID) ∈ t.result ↔ (publ, FID) ∈ m.result := by
  have hpubs : ({0, 3} : Finset (Fin 4)).sort = [0, 3] :=
    (List.toFinset_sort (l := [(0 : Fin 4), 3]) (· ≤ ·) (by decide)).mpr (by decide)
  -- Node 0 has the subscriber in one result and none in the other.
  have hresults : (calculateFIDs fork.route [0, 3] [1]).map (fun m => decide ((0, none) ∈ m.result)) =
        some false ∧
      (fork.nsCalculateFIDs [0, 3] [1]).map (fun t => decide ((0, none) ∈ t.result)) = some true := by
    decide +kernel
  rw [hpubs, Finset.sort_singleton]
  rintro ⟨m, t, hm, ht, hsame⟩
  rw [hm, ht, Option.map_some, Option.map_some, Option.some.injEq, Option.some.injEq, decide_eq_true_iff,
    decide_eq_false_iff_not] at hresults
  exact hresults.1 ((hsame 0 none).mp hresults.2)

end TMIgraph

end Blackadder
