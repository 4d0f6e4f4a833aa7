import Mathlib.Data.List.Infix
import Blackadder.Lipsin.FlowPaths

/-!
# Loads

Which loads `gflow` has: after `sp_concurrent_flow` the last hops are missing, and `assign_gflow` loads every edge with
what goes the other way.
-/

namespace Blackadder

namespace GraphMf

open TMIgraph (MfDemand)
open WhileLoop (Returns)

variable {V K : Type} [DecidableEq V]

/-! ## Flows along shortest paths -/

section

variable [Field K] {g : NetGraph V K} {dijkstra : g.Dijkstra} {n : Nat} {x : K} {i : Fin n}
  {a : Fin g.numEdges} {hops rest : List (V × Fin g.numEdges)} {w : g.Weights}
  {demands : Fin n → MfDemand V K}

/-- The loads that the loop of a demand adds. -/
def loadAlong (g : NetGraph V K) (x : K) (hops : List (V × Fin g.numEdges)) (w : g.Weights) : g.Weights :=
  hops.foldl (fun w h => Function.update w h.2 (w h.2 + x)) w

omit [DecidableEq V] in
theorem foldl_spVisit (x : K) (hops : List (V × Fin g.numEdges)) (w : g.Weights) (path : List V) :
    hops.foldl (fun s h => spVisit g x s h.1 h.2) (w, path) =
      (loadAlong g x hops w, (hops.map Prod.fst).reverse ++ path) := by
  induction hops generalizing w path with
  | nil => rfl
  | cons h hops ih =>
    rw [List.foldl_cons, spVisit, ih, List.map_cons, List.reverse_cons, List.append_assoc]
    rfl

omit [DecidableEq V] in
theorem loadAlong_apply (x : K) (hops : List (V × Fin g.numEdges)) (w : g.Weights) (a : Fin g.numEdges) :
    loadAlong g x hops w a = w a + (hops.map Prod.snd).count a * x := by
  induction hops generalizing w with
  | nil => simp [loadAlong]
  | cons h hops ih =>
    have hcons : loadAlong g x (h :: hops) w =
        loadAlong g x hops (Function.update w h.2 (w h.2 + x)) := rfl
    rw [hcons, ih, List.map_cons]
    by_cases ha : h.2 = a
    · subst ha
      rw [Function.update_self, List.count_cons_self]
      push_cast
      ring
    · rw [Function.update_of_ne (Ne.symm ha), List.count_cons_of_ne ha]

/-- What the turn of a demand makes of the loads and the demands, when the hops are `hops`. -/
def loadDemand (i : Fin n) (hops : List (V × Fin g.numEdges)) (s : g.Weights × (Fin n → MfDemand V K)) :
    g.Weights × (Fin n → MfDemand V K) :=
  let demand := s.2 i
  (loadAlong g demand.demand hops.tail s.1, Function.update s.2 i
    { demand with
      flow := demand.demand
      pathFlowMap := [(NetGraph.pathOf demand.sink hops, demand.demand)] })

omit [DecidableEq V] in
theorem foldl_spVisit_cons (x : K) (f p : V) (ed : Fin g.numEdges) (rest : List (V × Fin g.numEdges))
    (w : g.Weights) : rest.foldl (fun s h => spVisit g x s h.1 h.2) (w, [p, f]) =
      (loadAlong g x rest w, NetGraph.pathOf f ((p, ed) :: rest)) := by
  rw [foldl_spVisit, NetGraph.pathOf, List.map_cons, List.reverse_cons, List.append_assoc]
  rfl

theorem returns_spWalk {penult : V → V} {source f p : V} {ed : Fin g.numEdges}
    (h : g.TreePath penult source f ((p, ed) :: rest)) (x : K) (w : g.Weights) :
    Returns (g.walkBack penult source (spVisit g x) p (penult p) (w, [p, f]))
      (loadAlong g x rest w, NetGraph.pathOf f ((p, ed) :: rest)) := by
  obtain ⟨-, rfl, -, hrest⟩ := NetGraph.TreePath.cons_iff.mp h
  rw [← foldl_spVisit_cons]
  exact NetGraph.walkBack_of_treePath hrest

theorem spDemand_of_treePath {gdual : g.Weights} {s : g.Weights × (Fin n → MfDemand V K)}
    (hne : (s.2 i).sink ≠ (s.2 i).source)
    (h : g.TreePath (dijkstra gdual (s.2 i).source).1 (s.2 i).source (s.2 i).sink hops) :
    Returns (spDemand g dijkstra gdual s i) (loadDemand i hops s) ∧
      ∀ k r, (spDemand g dijkstra gdual s i).run k = some r → r = loadDemand i hops s := by
  cases hops with
  | nil =>
    generalize (s.2 i).sink = f at h hne
    cases h
    exact absurd rfl hne
  | cons hop rest =>
    obtain ⟨p, ed⟩ := hop
    obtain ⟨-, rfl, -, hrest⟩ := NetGraph.TreePath.cons_iff.mp h
    constructor
    · exact (returns_spWalk h _ _).bind (WhileLoop.returns_pure _)
    · intro k r hr
      obtain ⟨t, hwalk, hr⟩ := WhileLoop.run_bind_eq_some.mp hr
      obtain ⟨rest', hrest', rfl⟩ := NetGraph.walkBack_eq_some hwalk
      obtain rfl := hrest.unique hrest'
      rw [foldl_spVisit_cons _ _ _ ed] at hr
      cases hr
      rfl

/-- A demand that has been sent along its hops. -/
def sentDemand (d : MfDemand V K) (hops : List (V × Fin g.numEdges)) : MfDemand V K :=
  { d with flow := d.demand, pathFlowMap := [(NetGraph.pathOf d.sink hops, d.demand)] }

/-- The turns of the demands in `l`, each with its hops. -/
def loadDemands (hops : Fin n → List (V × Fin g.numEdges)) (l : List (Fin n))
    (s : g.Weights × (Fin n → MfDemand V K)) : g.Weights × (Fin n → MfDemand V K) :=
  l.foldl (fun s i => loadDemand i (hops i) s) s

/-- Whatever has been sent, the demands are the given ones. -/
def Kept (demands : Fin n → MfDemand V K) (s : g.Weights × (Fin n → MfDemand V K)) : Prop :=
  ∀ i, (s.2 i).source = (demands i).source ∧ (s.2 i).sink = (demands i).sink ∧
    (s.2 i).demand = (demands i).demand

variable {hopsOf : Fin n → List (V × Fin g.numEdges)} {s : g.Weights × (Fin n → MfDemand V K)}

omit [DecidableEq V] in
theorem loadDemand_fst (hs : Kept demands s) (i : Fin n) :
    (loadDemand i hops s).1 = loadAlong g (demands i).demand hops.tail s.1 := by
  rw [← (hs i).2.2]
  rfl

omit [DecidableEq V] in
theorem loadDemand_snd (hs : Kept demands s) (i : Fin n) :
    (loadDemand i hops s).2 = Function.update s.2 i (sentDemand (demands i) hops) := by
  obtain ⟨hsource, hsink, hdemand⟩ := hs i
  simp only [loadDemand, sentDemand, hsource, hsink, hdemand]

omit [DecidableEq V] in
theorem Kept.loadDemand (hs : Kept demands s) (i : Fin n) (hops : List (V × Fin g.numEdges)) :
    Kept demands (loadDemand i hops s) := by
  intro j
  rw [loadDemand_snd hs]
  by_cases hj : j = i
  · subst hj
    rw [Function.update_self]
    exact ⟨rfl, rfl, rfl⟩
  · rw [Function.update_of_ne hj]
    exact hs j

theorem foldlM_spDemand {gdual : g.Weights} (hne : ∀ i, (demands i).source ≠ (demands i).sink)
    (hhops : ∀ i, g.TreePath (dijkstra gdual (demands i).source).1 (demands i).source (demands i).sink
      (hopsOf i)) (l : List (Fin n)) (hs : Kept demands s) :
    Returns (l.foldlM (spDemand g dijkstra gdual) s) (loadDemands hopsOf l s) ∧
      ∀ k r, (l.foldlM (spDemand g dijkstra gdual) s).run k = some r → r = loadDemands hopsOf l s := by
  induction l generalizing s with
  | nil =>
    refine ⟨WhileLoop.returns_pure _, ?_⟩
    intro k r hr
    cases hr
    rfl
  | cons j l ih =>
    obtain ⟨hsource, hsink, -⟩ := hs j
    have hturn : Returns (spDemand g dijkstra gdual s j) (loadDemand j (hopsOf j) s) ∧
        ∀ k r, (spDemand g dijkstra gdual s j).run k = some r → r = loadDemand j (hopsOf j) s := by
      refine spDemand_of_treePath ?_ ?_
      · rw [hsource, hsink]
        exact (hne j).symm
      · rw [hsource, hsink]
        exact hhops j
    obtain ⟨hreturns, hrun⟩ := ih (hs.loadDemand j (hopsOf j))
    rw [List.foldlM_cons]
    refine ⟨hturn.1.bind hreturns, ?_⟩
    intro k r hr
    obtain ⟨s', hs', hr⟩ := WhileLoop.run_bind_eq_some.mp hr
    obtain rfl := hturn.2 k s' hs'
    exact hrun k r hr

omit [DecidableEq V] in
/-- The loads add up, and each demand is sent along its hops. -/
theorem loadDemands_eq (hopsOf : Fin n → List (V × Fin g.numEdges)) (l : List (Fin n)) (hs : Kept demands s) :
    (∀ a, (loadDemands hopsOf l s).1 a = s.1 a +
      (l.map fun i => ((hopsOf i).tail.map Prod.snd).count a * (demands i).demand).sum) ∧
      (∀ i ∈ l, (loadDemands hopsOf l s).2 i = sentDemand (demands i) (hopsOf i)) ∧
      ∀ i ∉ l, (loadDemands hopsOf l s).2 i = s.2 i := by
  induction l generalizing s with
  | nil => exact ⟨fun a => by simp [loadDemands], by simp, fun _ _ => rfl⟩
  | cons j l ih =>
    obtain ⟨hloads, hin, hout⟩ := ih (hs.loadDemand j (hopsOf j))
    have hcons : loadDemands hopsOf (j :: l) s = loadDemands hopsOf l (loadDemand j (hopsOf j) s) := rfl
    rw [hcons]
    refine ⟨?_, ?_, ?_⟩
    · intro a
      rw [hloads, loadDemand_fst hs, loadAlong_apply, List.map_cons, List.sum_cons, add_assoc]
    · intro i hi
      by_cases hmem : i ∈ l
      · exact hin i hmem
      · obtain rfl := (List.mem_cons.mp hi).resolve_right hmem
        rw [hout i hmem, loadDemand_snd hs, Function.update_self]
    · intro i hi
      rw [List.mem_cons, not_or] at hi
      rw [hout i hi.2, loadDemand_snd hs, Function.update_of_ne hi.1]

theorem sentDemand_recorded {penult : V → V} {d : MfDemand V K}
    (hhops : g.TreePath penult d.source d.sink hops) : Recorded g d (sentDemand d hops) where
  source := rfl
  sink := rfl
  demand := rfl
  keys := List.nodup_singleton _
  walks := by
    intro path hmem
    obtain rfl : path = NetGraph.pathOf d.sink hops := by simpa [sentDemand] using hmem
    exact ⟨hhops.isWalk, hhops.nodup⟩
  total := by simp [sentDemand]

end

/-! ## Loads -/

section

variable [Field K] {g : NetGraph V K} {n : Nat} {flow : K} {u v : V} {path : List V} {w w' : g.Weights}
  {m : List (List V × K)} {demands : Fin n → MfDemand V K} {a : Fin g.numEdges}

/-- No two edges lead the same way. -/
def NoParallel (g : NetGraph V K) : Prop := ∀ a b, g.source a = g.source b → g.target a = g.target b → a = b

/-- The flows of the entries whose paths go from `u` to `v`. -/
def entriesOver (m : List (List V × K)) (u v : V) : K :=
  ((m.filter fun entry => [u, v] <:+: entry.1).map Prod.snd).sum

/-- The sum of the flows of the recorded paths that go from `u` to `v`. -/
def routed (demands : Fin n → MfDemand V K) (u v : V) : K :=
  ∑ i, entriesOver (demands i).pathFlowMap u v

/-- Every edge is loaded with what goes over it. -/
def LoadsExact (g : NetGraph V K) (gflow : g.Weights) (demands : Fin n → MfDemand V K) : Prop :=
  ∀ a, gflow a = routed demands (g.source a) (g.target a)

/-- The path can be gone back. -/
def GoesBack (g : NetGraph V K) (path : List V) : Prop := path.IsChain fun u v => g.Adj v u

omit [Field K] in
theorem NoParallel.found (h : NoParallel g) (a : Fin g.numEdges) : g.Found a := by
  obtain ⟨b, hb⟩ := NetGraph.exists_edge (g := g) ⟨a, rfl, rfl⟩
  obtain ⟨hsource, htarget⟩ := NetGraph.edge_eq_some hb
  obtain rfl := h b a hsource htarget
  exact hb

omit [DecidableEq V] in
theorem pair_infix_cons {x y lt lh : V} : [x, y] <:+: lt :: lh :: path ↔
    (x = lt ∧ y = lh) ∨ [x, y] <:+: lh :: path := by
  rw [List.infix_cons_iff, List.cons_prefix_cons, List.cons_prefix_cons]
  simp

/-- Over a simple path, each edge back gets the flow once. -/
theorem assignPath_eq (h : NoParallel g) (flow : K) (hnodup : path.Nodup) (hback : GoesBack g path)
    (w : g.Weights) :
    ∃ w', assignPath g flow path w = some w' ∧
      ∀ a, w' a = w a + if [g.target a, g.source a] <:+: path then flow else 0 := by
  induction path generalizing w with
  | nil => exact ⟨w, rfl, by simp⟩
  | cons lt path ih =>
    cases path with
    | nil =>
      refine ⟨w, rfl, ?_⟩
      intro a
      have hshort : ¬[g.target a, g.source a] <:+: [lt] := by
        intro hin
        have hle := hin.length_le
        simp at hle
      rw [if_neg hshort, add_zero]
    | cons lh path =>
      rw [GoesBack, List.isChain_cons_cons] at hback
      obtain ⟨ed, hed⟩ := NetGraph.exists_edge hback.1
      rw [List.nodup_cons] at hnodup
      obtain ⟨w', hrest, hloads⟩ := ih hnodup.2 hback.2 (Function.update w ed (w ed + flow))
      refine ⟨w', by rw [assignPath, hed]; exact hrest, ?_⟩
      intro a
      obtain ⟨hsource, htarget⟩ := NetGraph.edge_eq_some hed
      rw [hloads a]
      by_cases ha : a = ed
      · subst ha
        have hnot : ¬[g.target a, g.source a] <:+: lh :: path := by
          intro hin
          exact hnodup.1 (htarget ▸ hin.subset List.mem_cons_self)
        rw [Function.update_self, if_neg hnot, add_zero,
          if_pos (pair_infix_cons.mpr (.inl ⟨htarget, hsource⟩))]
      · have hother : ¬(g.target a = lt ∧ g.source a = lh) := by
          rintro ⟨ht, hs⟩
          exact ha (h a ed (hs.trans hsource.symm) (ht.trans htarget.symm))
        rw [Function.update_of_ne ha]
        simp only [pair_infix_cons, hother, false_or]

theorem goesBack_of_assignPath (h : assignPath g flow path w = some w') : GoesBack g path := by
  induction path generalizing w with
  | nil => exact List.isChain_nil
  | cons lt path ih =>
    cases path with
    | nil => exact List.isChain_singleton _
    | cons lh path =>
      obtain ⟨ed, hed, hrest⟩ := Option.bind_eq_some_iff.mp h
      rw [GoesBack, List.isChain_cons_cons]
      exact ⟨NetGraph.adj_of_edge hed, ih hrest⟩

theorem foldlM_assignPath (h : NoParallel g) (hnodup : ∀ path ∈ m.map Prod.fst, path.Nodup)
    (hback : ∀ path ∈ m.map Prod.fst, GoesBack g path) (w : g.Weights) :
    ∃ w', m.foldlM (fun w entry => assignPath g entry.2 entry.1 w) w = some w' ∧
      ∀ a, w' a = w a + entriesOver m (g.target a) (g.source a) := by
  induction m generalizing w with
  | nil => exact ⟨w, rfl, by simp [entriesOver]⟩
  | cons entry m ih =>
    rw [List.map_cons, List.forall_mem_cons] at hnodup hback
    obtain ⟨w₁, hpath, hloads₁⟩ := assignPath_eq h entry.2 hnodup.1 hback.1 w
    obtain ⟨w', hrest, hloads⟩ := ih hnodup.2 hback.2 w₁
    refine ⟨w', ?_, ?_⟩
    · rw [List.foldlM_cons, hpath]
      exact hrest
    · intro a
      rw [hloads, hloads₁, add_assoc, entriesOver, entriesOver]
      congr 1
      by_cases hin : [g.target a, g.source a] <:+: entry.1
      · rw [if_pos hin, List.filter_cons_of_pos (by simpa using hin), List.map_cons, List.sum_cons]
      · rw [if_neg hin, List.filter_cons_of_neg (by simpa using hin), zero_add]

theorem goesBack_of_foldlM (h : m.foldlM (fun w entry => assignPath g entry.2 entry.1 w) w = some w') :
    ∀ path ∈ m.map Prod.fst, GoesBack g path := by
  induction m generalizing w with
  | nil => simp
  | cons entry m ih =>
    rw [List.foldlM_cons] at h
    obtain ⟨w₁, hpath, hrest⟩ := Option.bind_eq_some_iff.mp h
    rw [List.map_cons, List.forall_mem_cons]
    exact ⟨goesBack_of_assignPath hpath, ih hrest⟩

theorem foldlM_demands (h : NoParallel g) (l : List (Fin n))
    (hnodup : ∀ i, ∀ path ∈ (demands i).pathFlowMap.map Prod.fst, path.Nodup)
    (hback : ∀ i, ∀ path ∈ (demands i).pathFlowMap.map Prod.fst, GoesBack g path) (w : g.Weights) :
    ∃ w', l.foldlM (fun w i =>
        (demands i).pathFlowMap.foldlM (fun w entry => assignPath g entry.2 entry.1 w) w) w = some w' ∧
      ∀ a, w' a = w a +
        (l.map fun i => entriesOver (demands i).pathFlowMap (g.target a) (g.source a)).sum := by
  induction l generalizing w with
  | nil => exact ⟨w, rfl, by simp⟩
  | cons i l ih =>
    obtain ⟨w₁, hdemand, hloads₁⟩ := foldlM_assignPath h (hnodup i) (hback i) w
    obtain ⟨w', hrest, hloads⟩ := ih w₁
    refine ⟨w', ?_, ?_⟩
    · rw [List.foldlM_cons, hdemand]
      exact hrest
    · intro a
      rw [hloads, hloads₁, List.map_cons, List.sum_cons, add_assoc]

theorem goesBack_of_demands {l : List (Fin n)}
    (h : l.foldlM (fun w i =>
      (demands i).pathFlowMap.foldlM (fun w entry => assignPath g entry.2 entry.1 w) w) w = some w') :
    ∀ i ∈ l, ∀ path ∈ (demands i).pathFlowMap.map Prod.fst, GoesBack g path := by
  induction l generalizing w with
  | nil => simp
  | cons i l ih =>
    rw [List.foldlM_cons] at h
    obtain ⟨w₁, hdemand, hrest⟩ := Option.bind_eq_some_iff.mp h
    rw [List.forall_mem_cons]
    exact ⟨goesBack_of_foldlM hdemand, ih hrest⟩

variable [LinearOrder K] {dblMax : K}

/-- Where `assign_gflow` finds all its edges, each is loaded with what goes the other way. -/
theorem assignGflow_eq (dblMax : K) (h : NoParallel g)
    (hnodup : ∀ i, ∀ path ∈ (demands i).pathFlowMap.map Prod.fst, path.Nodup)
    (hback : ∀ i, ∀ path ∈ (demands i).pathFlowMap.map Prod.fst, GoesBack g path) :
    ∃ r, assignGflow g dblMax demands = some r ∧ ∀ a, r.1 a = routed demands (g.target a) (g.source a) := by
  obtain ⟨gflow, hfold, hloads⟩ := foldlM_demands h (List.finRange n) hnodup hback fun _ => 0
  refine ⟨_, by rw [assignGflow, hfold]; rfl, ?_⟩
  intro a
  rw [routed, Fin.sum_univ_def]
  exact (hloads a).trans (zero_add _)

theorem assignGflow_exact_iff (h : NoParallel g)
    (hnodup : ∀ i, ∀ path ∈ (demands i).pathFlowMap.map Prod.fst, path.Nodup) :
    (∃ r, assignGflow g dblMax demands = some r ∧ LoadsExact g r.1 demands) ↔
      (∀ i, ∀ path ∈ (demands i).pathFlowMap.map Prod.fst, GoesBack g path) ∧
        ∀ a, routed demands (g.target a) (g.source a) = routed demands (g.source a) (g.target a) := by
  constructor
  · rintro ⟨r, hr, hexact⟩
    obtain ⟨gflow, hfold, -⟩ := Option.bind_eq_some_iff.mp hr
    have hback : ∀ i, ∀ path ∈ (demands i).pathFlowMap.map Prod.fst, GoesBack g path :=
      fun i => goesBack_of_demands hfold i (List.mem_finRange i)
    refine ⟨hback, ?_⟩
    intro a
    obtain ⟨r', hr', hloads⟩ := assignGflow_eq dblMax h hnodup hback
    rw [hr, Option.some.injEq] at hr'
    subst hr'
    rw [← hloads, hexact]
  · rintro ⟨hback, hbalanced⟩
    obtain ⟨r, hr, hloads⟩ := assignGflow_eq dblMax h hnodup hback
    exact ⟨r, hr, fun a => (hloads a).trans (hbalanced a)⟩

end

/-! ## The loads of shortest paths -/

section

variable [Field K] [LinearOrder K] [IsStrictOrderedRing K] {g : NetGraph V K} {dijkstra : g.Dijkstra} {n : Nat}
  {demands : Fin n → MfDemand V K} {a : Fin g.numEdges} {source f : V} {penult : V → V}
  {hops : List (V × Fin g.numEdges)} {x : K}

/-- Every demand is sent along its hops, and loads all of them but the last. -/
theorem spConcurrentFlow_eq (htrees : dijkstra.FindsTrees) (demands : Fin n → MfDemand V K)
    (hne : ∀ i, (demands i).source ≠ (demands i).sink)
    (hreach : ∀ i, Relation.ReflTransGen g.Adj (demands i).source (demands i).sink) (dblMax : K) :
    ∃ hops : Fin n → List (V × Fin g.numEdges), ∃ penult : V → V → V, ∃ r : SpResult g n,
      (∀ i, g.TreePath (penult (demands i).source) (demands i).source (demands i).sink (hops i)) ∧
      (∀ a, r.gflow a = ∑ i, ((hops i).tail.map Prod.snd).count a * (demands i).demand) ∧
      (∀ i, r.demands i = sentDemand (demands i) (hops i)) ∧ r.lambda = spLambda g dblMax r.gflow ∧
      Returns (spConcurrentFlow g dijkstra dblMax demands) r ∧
      ∀ k r', (spConcurrentFlow g dijkstra dblMax demands).run k = some r' → r' = r := by
  have hnonneg : ∀ a, 0 ≤ g.assignWeights (fun _ => (1 : K)) a := by
    intro a
    rcases NetGraph.assignWeights_or (fun _ => (1 : K)) a with hone | hzero
    · exact zero_le_one.trans hone.ge
    · exact hzero.ge
  have hpaths : ∀ i, ∃ hops, g.TreePath
      (dijkstra (g.assignWeights fun _ => 1) (demands i).source).1 (demands i).source (demands i).sink hops :=
    fun i => (htrees _ hnonneg _).exists_treePath (hreach i)
  choose hops hhops using hpaths
  have hstart : Kept demands (g.assignWeights fun _ => 0, reset demands) := fun _ => ⟨rfl, rfl, rfl⟩
  obtain ⟨hreturns, hrun⟩ := foldlM_spDemand hne hhops (List.finRange n) hstart
  obtain ⟨hloads, hsent, -⟩ := loadDemands_eq hops (List.finRange n) hstart
  have hzero : ∀ a, g.assignWeights (fun _ => (0 : K)) a = 0 := by
    intro a
    rcases NetGraph.assignWeights_or (fun _ => (0 : K)) a with h | h <;> exact h
  refine ⟨hops, fun source => (dijkstra (g.assignWeights fun _ => 1) source).1,
    ⟨_, _, spLambda g dblMax _, _⟩, hhops, ?_, fun i => hsent i (List.mem_finRange i), rfl,
    hreturns.bind (WhileLoop.returns_pure _), ?_⟩
  · intro a
    rw [Fin.sum_univ_def]
    exact (hloads a).trans ((congrArg (· + _) (hzero a)).trans (zero_add _))
  · intro k r' hr'
    obtain ⟨s, hs, hr'⟩ := WhileLoop.run_bind_eq_some.mp hr'
    obtain rfl := hrun k s hs
    cases hr'
    rfl

omit [LinearOrder K] [IsStrictOrderedRing K] in
theorem routed_sent {demands' : Fin n → MfDemand V K} {hops : Fin n → List (V × Fin g.numEdges)}
    (hsent : ∀ i, demands' i = sentDemand (demands i) (hops i)) (u v : V) :
    routed demands' u v =
      ∑ i, if [u, v] <:+: NetGraph.pathOf (demands i).sink (hops i) then (demands i).demand else 0 := by
  refine Finset.sum_congr rfl ?_
  intro i _
  rw [hsent i, sentDemand, entriesOver]
  by_cases hin : [u, v] <:+: NetGraph.pathOf (demands i).sink (hops i)
  · simp [hin]
  · simp [hin]

omit [IsStrictOrderedRing K] in
theorem count_tail_le (h : g.TreePath penult source f hops) (hx : 0 ≤ x) (a : Fin g.numEdges) :
    (hops.tail.map Prod.snd).count a * x ≤
      if [g.source a, g.target a] <:+: NetGraph.pathOf f hops then x else 0 := by
  have hpart : (hops.tail.map Prod.snd).Sublist (hops.map Prod.snd) := (List.tail_sublist hops).map _
  by_cases hmem : a ∈ hops.tail.map Prod.snd
  · rw [if_pos (h.infix_of_mem (hpart.mem hmem)),
      List.count_eq_one_of_mem (h.arcs_nodup.sublist hpart) hmem, Nat.cast_one, one_mul]
  · rw [List.count_eq_zero_of_not_mem hmem, Nat.cast_zero, zero_mul]
    split
    · exact hx
    · exact le_rfl

omit [IsStrictOrderedRing K] in
/-- The last hop of a demand lacks its flow. -/
theorem exists_short_load (h : g.TreePath penult source f hops) (hne : f ≠ source) (hx : 0 < x) :
    ∃ a, (hops.tail.map Prod.snd).count a * x <
      if [g.source a, g.target a] <:+: NetGraph.pathOf f hops then x else 0 := by
  cases h with
  | done => exact absurd rfl hne
  | @hop f a rest _ hed hrest =>
    have hhops := NetGraph.TreePath.hop hne hed hrest
    refine ⟨a, ?_⟩
    rw [if_pos (hhops.infix_of_mem (by simp)), List.tail_cons, List.count_eq_zero_of_not_mem, Nat.cast_zero,
      zero_mul]
    · exact hx
    · exact (List.nodup_cons.mp hhops.arcs_nodup).1

/-- The loads after `sp_concurrent_flow` are what goes over the edges only if nothing does. -/
theorem spConcurrentFlow_exact_iff (htrees : dijkstra.FindsTrees)
    (hne : ∀ i, (demands i).source ≠ (demands i).sink) (hpos : ∀ i, 0 < (demands i).demand)
    (hreach : ∀ i, Relation.ReflTransGen g.Adj (demands i).source (demands i).sink) (dblMax : K) :
    ∃ r, Returns (spConcurrentFlow g dijkstra dblMax demands) r ∧
      (∀ k r', (spConcurrentFlow g dijkstra dblMax demands).run k = some r' → r' = r) ∧
      AllRecorded g demands r.demands ∧ r.lambda = spLambda g dblMax r.gflow ∧
      (LoadsExact g r.gflow r.demands ↔ n = 0) := by
  obtain ⟨hops, penult, r, hhops, hloads, hsent, hlambda, hreturns, hrun⟩ :=
    spConcurrentFlow_eq htrees demands hne hreach dblMax
  refine ⟨r, hreturns, hrun, fun i => hsent i ▸ sentDemand_recorded (hhops i), hlambda, ?_, ?_⟩
  · intro hexact
    by_contra hn
    obtain ⟨a, ha⟩ := exists_short_load (hhops ⟨0, Nat.pos_of_ne_zero hn⟩) (hne _).symm (hpos _)
    have hless := Finset.sum_lt_sum (fun i _ => count_tail_le (hhops i) (hpos i).le a)
      ⟨_, Finset.mem_univ _, ha⟩
    rw [← hloads, ← routed_sent hsent, hexact a] at hless
    exact lt_irrefl _ hless
  · rintro rfl a
    rw [hloads, routed, Fin.sum_univ_zero, Fin.sum_univ_zero]

end

/-! ## The ratio -/

section

variable [Field K] [LinearOrder K] {g : NetGraph V K} {gflow : g.Weights} {lambda dblMax : K}

/-- `lambda` is the least ratio of capacity and load, of the edges that `gflow` has loaded. -/
structure LeastRatio (g : NetGraph V K) (dblMax : K) (gflow : g.Weights) (lambda : K) : Prop where
  le : ∀ a, gflow a ≠ 0 → lambda ≤ g.capacity a / gflow a
  attained : lambda = dblMax ∨ ∃ a, gflow a ≠ 0 ∧ lambda = g.capacity a / gflow a

omit [DecidableEq V] in
theorem ratioTurn_cases (gflow : g.Weights) (lambda : K) (a : Fin g.numEdges) :
    ratioTurn g gflow lambda a ≤ lambda ∧ (gflow a ≠ 0 → ratioTurn g gflow lambda a ≤ g.capacity a / gflow a) ∧
      (ratioTurn g gflow lambda a = lambda ∨
        gflow a ≠ 0 ∧ ratioTurn g gflow lambda a = g.capacity a / gflow a) := by
  unfold ratioTurn
  split
  · next h => exact ⟨h.2.le, fun _ => le_rfl, .inr ⟨h.1, rfl⟩⟩
  · next h => exact ⟨le_rfl, fun hload => not_lt.mp fun hlt => h ⟨hload, hlt⟩, .inl rfl⟩

omit [DecidableEq V] in
theorem foldl_ratioTurn (gflow : g.Weights) (dblMax : K) (l : List (Fin g.numEdges))
    (hstart : lambda = dblMax ∨ ∃ a, gflow a ≠ 0 ∧ lambda = g.capacity a / gflow a) :
    l.foldl (ratioTurn g gflow) lambda ≤ lambda ∧
      (∀ a ∈ l, gflow a ≠ 0 → l.foldl (ratioTurn g gflow) lambda ≤ g.capacity a / gflow a) ∧
      (l.foldl (ratioTurn g gflow) lambda = dblMax ∨
        ∃ a, gflow a ≠ 0 ∧ l.foldl (ratioTurn g gflow) lambda = g.capacity a / gflow a) := by
  induction l generalizing lambda with
  | nil => exact ⟨le_rfl, by simp, hstart⟩
  | cons b l ih =>
    obtain ⟨hle, hratio, hcases⟩ := ratioTurn_cases gflow lambda b
    have hnext : ratioTurn g gflow lambda b = dblMax ∨
        ∃ a, gflow a ≠ 0 ∧ ratioTurn g gflow lambda b = g.capacity a / gflow a := by
      rcases hcases with hsame | hnew
      · rwa [hsame]
      · exact .inr ⟨b, hnew⟩
    obtain ⟨hrest, hall, hend⟩ := ih hnext
    rw [List.foldl_cons]
    refine ⟨hrest.trans hle, ?_, hend⟩
    rw [List.forall_mem_cons]
    exact ⟨fun hload => hrest.trans (hratio hload), hall⟩

omit [DecidableEq V] in
theorem spLambda_least (dblMax : K) (gflow : g.Weights) :
    LeastRatio g dblMax gflow (spLambda g dblMax gflow) := by
  obtain ⟨-, hall, hend⟩ := foldl_ratioTurn gflow dblMax (List.finRange g.numEdges) (.inl rfl)
  exact ⟨fun a => hall a (List.mem_finRange a), hend⟩

end

/-! ## What is promised -/

section

variable {g : NetGraph V ℝ} {dijkstra : g.Dijkstra} {n k : Nat} {demands : Fin n → MfDemand V ℝ} {dblMax e : ℝ}
  {orders orders' : Nat → Equiv.Perm (Fin n)}

/-- After `sp_concurrent_flow`: the paths and flows, the loads, and `lambda` by what is routed. -/
structure SpRight (g : NetGraph V ℝ) (demands : Fin n → MfDemand V ℝ) (r : SpResult g n) : Prop where
  recorded : AllRecorded g demands r.demands
  loads : LoadsExact g r.gflow r.demands
  lambda : (∃ a, routed r.demands (g.source a) (g.target a) ≠ 0) →
    IsLeast {ratio | ∃ a, routed r.demands (g.source a) (g.target a) ≠ 0 ∧
      ratio = g.capacity a / routed r.demands (g.source a) (g.target a)} r.lambda

/-- After the routines that end with `assign_gflow`. -/
structure MaxRight (g : NetGraph V ℝ) (demands : Fin n → MfDemand V ℝ) (r : MaxResult g n) : Prop where
  recorded : AllRecorded g demands r.demands
  loads : ∃ loads, r.gflow = some loads ∧ LoadsExact g loads.1 r.demands

/-- All paths, flows and loads are right, after each of the routines that returns. -/
structure Accounting (g : NetGraph V ℝ) (dijkstra : g.Dijkstra) (demands : Fin n → MfDemand V ℝ) : Prop where
  sp : ∀ dblMax, ∃ r, Returns (spConcurrentFlow g dijkstra dblMax demands) r ∧ SpRight g demands r
  max : ∀ dblMax e orders k r, (maxConcurrentFlow g dijkstra dblMax e orders demands).run k = some r →
    MaxRight g demands r
  prescaled : ∀ dblMax e orders orders' k r,
    (maxConcurrentFlowPrescaled g dijkstra dblMax e orders orders' demands).run k = some r →
      MaxRight g demands r
  min : ∀ dblMax e orders orders' k r,
    (minCongestionFlow g dijkstra dblMax e orders orders' demands).run k = some r → MaxRight g demands r

omit [DecidableEq V] in
theorem Recorded.rescaled {d d₀ d₁ : MfDemand V ℝ} (h : Recorded g d₁ d) (hsource : d₁.source = d₀.source)
    (hsink : d₁.sink = d₀.sink) : Recorded g d₀ { d with demand := d₀.demand } where
  source := h.source.trans hsource
  sink := h.sink.trans hsink
  demand := rfl
  keys := h.keys
  walks := hsource ▸ hsink ▸ h.walks
  total := h.total

theorem prescaled_recorded {r : MaxResult g n} (htrees : dijkstra.FindsTrees)
    (hne : ∀ i, (demands i).source ≠ (demands i).sink) (hpos : ∀ i, 0 < (demands i).demand)
    (hreach : ∀ i, Relation.ReflTransGen g.Adj (demands i).source (demands i).sink)
    (h : (maxConcurrentFlowPrescaled g dijkstra dblMax e orders orders' demands).run k = some r) :
    AllRecorded g demands r.demands ∧ r.gflow = assignGflow g dblMax r.demands := by
  obtain ⟨sp, hsp, h⟩ := WhileLoop.run_bind_eq_some.mp h
  obtain ⟨rough, hrough, h⟩ := WhileLoop.run_bind_eq_some.mp h
  obtain ⟨fine, hfine, h⟩ := WhileLoop.run_bind_eq_some.mp h
  cases h
  obtain ⟨sp', -, hrun, hsent, -⟩ := spConcurrentFlow_exact_iff htrees hne hpos hreach dblMax
  obtain rfl := hrun k sp hsp
  have hends : ∀ i, (sp.demands i).source = (demands i).source ∧ (sp.demands i).sink = (demands i).sink :=
    fun i => ⟨(hsent i).source, (hsent i).sink⟩
  have hfirst := (maxConcurrentFlow_recorded (fun i => by
    show (sp.demands i).source ≠ (sp.demands i).sink
    rw [(hends i).1, (hends i).2]
    exact hne i) hrough).1
  have hends' : ∀ i, (rough.demands i).source = (demands i).source ∧ (rough.demands i).sink = (demands i).sink :=
    fun i => ⟨(hfirst i).source.trans (hends i).1, (hfirst i).sink.trans (hends i).2⟩
  have hsecond := (maxConcurrentFlow_recorded (fun i => by
    show (rough.demands i).source ≠ (rough.demands i).sink
    rw [(hends' i).1, (hends' i).2]
    exact hne i) hfine).1
  exact ⟨fun i => (hsecond i).rescaled (hends' i).1 (hends' i).2, rfl⟩

theorem minCongestion_recorded {r : MaxResult g n} (htrees : dijkstra.FindsTrees)
    (hne : ∀ i, (demands i).source ≠ (demands i).sink) (hpos : ∀ i, 0 < (demands i).demand)
    (hreach : ∀ i, Relation.ReflTransGen g.Adj (demands i).source (demands i).sink)
    (h : (minCongestionFlow g dijkstra dblMax e orders orders' demands).run k = some r) :
    AllRecorded g demands r.demands ∧ r.gflow = assignGflow g dblMax r.demands := by
  obtain ⟨prescaled, hprescaled, h⟩ := WhileLoop.run_bind_eq_some.mp h
  cases h
  exact ⟨rescale_recorded _ (prescaled_recorded htrees hne hpos hreach hprescaled).1, rfl⟩

/-- Where there is no demand, nothing is loaded. -/
theorem accounting_of_none {demands : Fin 0 → MfDemand V ℝ} (htrees : dijkstra.FindsTrees)
    (hpar : NoParallel g) : Accounting g dijkstra demands := by
  have hmax : ∀ (dblMax : ℝ) (r : MaxResult g 0), AllRecorded g demands r.demands ∧
      r.gflow = assignGflow g dblMax r.demands → MaxRight g demands r := by
    rintro dblMax r ⟨hrecorded, hgflow⟩
    refine ⟨hrecorded, ?_⟩
    rw [hgflow]
    refine (assignGflow_exact_iff hpar fun i => i.elim0).mpr ⟨fun i => i.elim0, ?_⟩
    intro a
    rw [routed, routed, Fin.sum_univ_zero, Fin.sum_univ_zero]
  refine ⟨?_, ?_, ?_, ?_⟩
  · intro dblMax
    have hne : ∀ i, (demands i).source ≠ (demands i).sink := fun i => i.elim0
    obtain ⟨r, hr, -, hrecorded, -, hloads⟩ :=
      spConcurrentFlow_exact_iff htrees hne (fun i => i.elim0) (fun i => i.elim0) dblMax
    refine ⟨r, hr, hrecorded, hloads.mpr rfl, ?_⟩
    rintro ⟨a, ha⟩
    rw [routed, Fin.sum_univ_zero] at ha
    exact absurd rfl ha
  · intro dblMax e orders k r hr
    exact hmax dblMax r (maxConcurrentFlow_recorded (fun i => i.elim0) hr)
  · intro dblMax e orders orders' k r hr
    exact hmax dblMax r (prescaled_recorded htrees (fun i => i.elim0) (fun i => i.elim0) (fun i => i.elim0) hr)
  · intro dblMax e orders orders' k r hr
    exact hmax dblMax r (minCongestion_recorded htrees (fun i => i.elim0) (fun i => i.elim0) (fun i => i.elim0) hr)

/-- A demand lacks on its last hop after `sp_concurrent_flow`. -/
theorem not_accounting (htrees : dijkstra.FindsTrees) (hne : ∀ i, (demands i).source ≠ (demands i).sink)
    (hpos : ∀ i, 0 < (demands i).demand)
    (hreach : ∀ i, Relation.ReflTransGen g.Adj (demands i).source (demands i).sink) (hn : n ≠ 0) :
    ¬Accounting g dijkstra demands := by
  intro h
  obtain ⟨r, hr, hright⟩ := h.sp 0
  obtain ⟨r', hr', -, -, -, hexact⟩ := spConcurrentFlow_exact_iff htrees hne hpos hreach 0
  obtain rfl := hr.unique hr'
  exact hn (hexact.mp hright.loads)

/-- Paths and flows are always right. The loads of `sp_concurrent_flow` lack the last hops, and those of
`assign_gflow` are
right if every path can be gone back and as much goes one way as the other. -/
theorem accounting_iff (g : NetGraph V ℝ) (dijkstra : g.Dijkstra) (htrees : dijkstra.FindsTrees)
    (hpar : NoParallel g) (hconnected : ∀ u v, Relation.ReflTransGen g.Adj u v)
    (demands : Fin n → MfDemand V ℝ) (hne : ∀ i, (demands i).source ≠ (demands i).sink)
    (hpos : ∀ i, 0 < (demands i).demand) :
    (∀ dblMax, ∃ r, Returns (spConcurrentFlow g dijkstra dblMax demands) r ∧
      AllRecorded g demands r.demands ∧ LeastRatio g dblMax r.gflow r.lambda) ∧
    (∀ dblMax e orders k r, (maxConcurrentFlow g dijkstra dblMax e orders demands).run k = some r →
      AllRecorded g demands r.demands ∧
      ((∃ loads, r.gflow = some loads ∧ LoadsExact g loads.1 r.demands) ↔
        (∀ i, ∀ path ∈ (r.demands i).pathFlowMap.map Prod.fst, GoesBack g path) ∧
          ∀ a, routed r.demands (g.target a) (g.source a) = routed r.demands (g.source a) (g.target a))) ∧
    (Accounting g dijkstra demands ↔ n = 0) := by
  have hreach : ∀ i, Relation.ReflTransGen g.Adj (demands i).source (demands i).sink :=
    fun i => hconnected _ _
  refine ⟨?_, ?_, ?_, ?_⟩
  · intro dblMax
    obtain ⟨r, hr, -, hrecorded, hlambda, -⟩ := spConcurrentFlow_exact_iff htrees hne hpos hreach dblMax
    exact ⟨r, hr, hrecorded, hlambda ▸ spLambda_least _ _⟩
  · intro dblMax e orders k r hr
    obtain ⟨hrecorded, hgflow⟩ := maxConcurrentFlow_recorded hne hr
    refine ⟨hrecorded, ?_⟩
    rw [hgflow]
    exact assignGflow_exact_iff hpar fun i path hpath => ((hrecorded i).walks path hpath).2
  · intro h
    by_contra hn
    exact not_accounting htrees hne hpos hreach hn h
  · rintro rfl
    exact accounting_of_none htrees hpar

end

/-! ## Between two routers -/

theorem twoRouters_noParallel : NoParallel twoRouters := by
  intro a b hsource _
  rw [(eq_twoRoutersArc a).1, (eq_twoRoutersArc b).1, hsource]

theorem twoRouters_connected (u v : Bool) : Relation.ReflTransGen twoRouters.Adj u v := by
  by_cases huv : v = u
  · rw [huv]
  · obtain ⟨hsource, htarget⟩ := twoRoutersArc_ends u
    exact .single ⟨twoRoutersArc u, hsource, htarget.trans (Bool.eq_not_of_ne huv).symm⟩

/-- A flow from one router to the other. -/
noncomputable def oneDemand : Fin 1 → MfDemand Bool ℝ := fun _ => ⟨0, false, true, 1, []⟩

theorem accounting_twoRouters :
    (∀ dblMax, ∃ r, Returns (spConcurrentFlow twoRouters twoRoutersDijkstra dblMax oneDemand) r ∧
      AllRecorded twoRouters oneDemand r.demands ∧ LeastRatio twoRouters dblMax r.gflow r.lambda) ∧
    (∀ dblMax e orders k r,
      (maxConcurrentFlow twoRouters twoRoutersDijkstra dblMax e orders oneDemand).run k = some r →
      AllRecorded twoRouters oneDemand r.demands ∧
      ((∃ loads, r.gflow = some loads ∧ LoadsExact twoRouters loads.1 r.demands) ↔
        (∀ i, ∀ path ∈ (r.demands i).pathFlowMap.map Prod.fst, GoesBack twoRouters path) ∧
          ∀ a, routed r.demands (twoRouters.target a) (twoRouters.source a) =
            routed r.demands (twoRouters.source a) (twoRouters.target a))) ∧
    (Accounting twoRouters twoRoutersDijkstra oneDemand ↔ 1 = 0) :=
  accounting_iff twoRouters twoRoutersDijkstra twoRouters_findsTrees twoRouters_noParallel
    twoRouters_connected oneDemand (fun _ => Bool.false_ne_true) fun _ => one_pos

/-- The only hop is the last one, so that nothing is loaded. -/
theorem last_hop_not_loaded : ¬Accounting twoRouters twoRoutersDijkstra oneDemand :=
  not_accounting twoRouters_findsTrees (fun _ => Bool.false_ne_true) (fun _ => one_pos)
    (fun _ => twoRouters_connected _ _) one_ne_zero

end GraphMf

end Blackadder
