import Blackadder.Lipsin.MaxFlow

/-!
# Recorded paths

What is recorded of a demand: simple paths from its source to its sink, and their flows, which add up to its own.
-/

namespace Blackadder

namespace GraphMf

open TMIgraph (MfDemand)

variable {V K : Type} [DecidableEq V]

/-! ## Simple paths -/

namespace NetGraph

variable {g : NetGraph V K} {u v f source : V} {a : Fin g.numEdges} {penult : V → V}
  {hops : List (V × Fin g.numEdges)}

theorem TreePath.of_mem (h : g.TreePath penult source f hops) (hv : v ∈ pathOf f hops) :
    ∃ hops', g.TreePath penult source v hops' ∧ hops'.length ≤ hops.length := by
  induction h with
  | done =>
    obtain rfl : v = source := by simpa [pathOf] using hv
    exact ⟨[], .done, le_rfl⟩
  | @hop f a hops hne hed hrest ih =>
    rw [pathOf_cons, List.mem_append, List.mem_singleton] at hv
    rcases hv with hmem | rfl
    · obtain ⟨hops', hpath, hle⟩ := ih hmem
      exact ⟨hops', hpath, hle.trans (Nat.le_succ _)⟩
    · exact ⟨_, .hop hne hed hrest, le_rfl⟩

/-- No vertex comes twice: the way back from it would be a longer one and the same. -/
theorem TreePath.nodup (h : g.TreePath penult source f hops) : (pathOf f hops).Nodup := by
  induction h with
  | done => exact List.nodup_singleton _
  | @hop f a hops hne hed hrest ih =>
    rw [pathOf_cons, ← List.concat_eq_append, List.nodup_concat]
    refine ⟨?_, ih⟩
    intro hmem
    obtain ⟨hops', hpath, hle⟩ := hrest.of_mem hmem
    rw [hpath.unique (.hop hne hed hrest)] at hle
    simp at hle

theorem TreePath.pathOf_eq (h : g.TreePath penult source f hops) :
    pathOf f hops = source :: ((hops.map Prod.snd).map g.target).reverse := by
  induction h with
  | done => rfl
  | @hop f a hops hne hed hrest ih =>
    rw [pathOf_cons, ih, List.map_cons, List.map_cons, List.reverse_cons, (edge_eq_some hed).2]
    rfl

theorem TreePath.arcs_nodup (h : g.TreePath penult source f hops) : (hops.map Prod.snd).Nodup := by
  have hnodup := h.nodup
  rw [h.pathOf_eq] at hnodup
  exact List.Nodup.of_map _ (List.nodup_reverse.mp (List.nodup_cons.mp hnodup).2)

/-- The edges of the hops are passed on the path. -/
theorem TreePath.infix_of_mem (h : g.TreePath penult source f hops) (ha : a ∈ hops.map Prod.snd) :
    [g.source a, g.target a] <:+: pathOf f hops := by
  induction h with
  | done => cases ha
  | @hop f b hops hne hed hrest ih =>
    rw [pathOf_cons]
    rw [List.map_cons, List.mem_cons] at ha
    rcases ha with rfl | hmem
    · obtain ⟨hsource, htarget⟩ := edge_eq_some hed
      rw [hsource, htarget, pathOf, List.append_assoc]
      exact (List.suffix_append _ _).isInfix
    · exact (ih hmem).trans (List.prefix_append _ _).isInfix

end NetGraph

/-! ## What is recorded -/

section

variable [Field K] {g : NetGraph V K} {n : Nat} {d d₀ : MfDemand V K} {m : List (List V × K)} {path : List V}
  {x : K}

/-- The demand is the given one, its paths are simple paths from its source to its sink, and its flow is the sum of
theirs. -/
structure Recorded (g : NetGraph V K) (d₀ d : MfDemand V K) : Prop where
  source : d.source = d₀.source
  sink : d.sink = d₀.sink
  demand : d.demand = d₀.demand
  keys : (d.pathFlowMap.map Prod.fst).Nodup
  walks : ∀ path ∈ d.pathFlowMap.map Prod.fst, Walks.IsWalk g.Adj d₀.source d₀.sink path ∧ path.Nodup
  total : d.flow = (d.pathFlowMap.map Prod.snd).sum

theorem addPath_keys (m : List (List V × K)) (path : List V) (x : K) :
    (addPath m path x).1.map Prod.fst =
      if path ∈ m.map Prod.fst then m.map Prod.fst else m.map Prod.fst ++ [path] := by
  unfold addPath
  split
  · rw [List.map_map]
    refine List.map_congr_left ?_
    intro entry _
    by_cases hentry : entry.1 = path
    · simp [hentry]
    · simp [hentry]
  · simp

theorem addPath_total (hkeys : (m.map Prod.fst).Nodup) :
    ((addPath m path x).1.map Prod.snd).sum = (m.map Prod.snd).sum + x := by
  unfold addPath
  split
  · next hmem =>
    induction m with
    | nil => cases hmem
    | cons entry m ih =>
      rw [List.map_cons, List.nodup_cons] at hkeys
      rw [List.map_cons, List.mem_cons] at hmem
      by_cases hentry : entry.1 = path
      · have hother : ∀ entry' ∈ m, (if entry'.1 = path then (path, entry'.2 + x) else entry') = entry' := by
          intro entry' hmem'
          rw [if_neg]
          intro hsame
          exact hkeys.1 (hentry ▸ hsame ▸ List.mem_map_of_mem hmem')
        rw [List.map_cons, List.map_congr_left hother, List.map_id']
        simp only [if_pos hentry, List.map_cons, List.sum_cons]
        ring
      · have hrest := ih hkeys.2 (hmem.resolve_left (Ne.symm hentry))
        simp only [List.map_cons, List.sum_cons, if_neg hentry] at hrest ⊢
        rw [hrest]
        ring
  · simp

theorem Recorded.add (h : Recorded g d₀ d) (hwalk : Walks.IsWalk g.Adj d₀.source d₀.sink path)
    (hnodup : path.Nodup) (x : K) :
    Recorded g d₀ { d with flow := d.flow + x, pathFlowMap := (addPath d.pathFlowMap path x).1 } where
  source := h.source
  sink := h.sink
  demand := h.demand
  keys := by
    dsimp only
    rw [addPath_keys]
    split
    · exact h.keys
    · next hnew =>
      rw [← List.concat_eq_append, List.nodup_concat]
      exact ⟨hnew, h.keys⟩
  walks := by
    dsimp only
    rw [addPath_keys]
    split
    · exact h.walks
    · intro path' hmem
      rcases List.mem_append.mp hmem with hold | hnew
      · exact h.walks path' hold
      · rw [List.mem_singleton.mp hnew]
        exact ⟨hwalk, hnodup⟩
  total := by
    dsimp only
    rw [addPath_total h.keys, h.total]

omit [DecidableEq V] in
theorem recorded_reset (g : NetGraph V K) (demands : Fin n → MfDemand V K) (i : Fin n) :
    Recorded g (demands i) (reset demands i) where
  source := rfl
  sink := rfl
  demand := rfl
  keys := List.nodup_nil
  walks := by simp [reset]
  total := rfl

end

/-! ## The approximation -/

section

variable [Field K] [LinearOrder K] {g : NetGraph V K} {dijkstra : g.Dijkstra} {n k : Nat} {e left mincap : K}
  {i : Fin n} {s s' : State g n} {hops : List (V × Fin g.numEdges)} {demands : Fin n → MfDemand V K}
  {penult : V → V}

/-- Every demand is recorded. -/
def AllRecorded (g : NetGraph V K) (demands demands' : Fin n → MfDemand V K) : Prop :=
  ∀ i, Recorded g (demands i) (demands' i)

omit [LinearOrder K] in
theorem sendAlong_recorded (hs : AllRecorded g demands s.demands)
    (hhops : g.TreePath penult (s.demands i).source (s.demands i).sink hops) (e left mincap : K) :
    AllRecorded g demands (sendAlong e i s left mincap hops).1.demands := by
  intro j
  by_cases hj : j = i
  · subst hj
    have hwalk : Walks.IsWalk g.Adj (demands j).source (demands j).sink
        (NetGraph.pathOf (s.demands j).sink hops) := by
      rw [← (hs j).source, ← (hs j).sink]
      exact hhops.isWalk
    have hadd := (hs j).add hwalk hhops.nodup mincap
    simpa [sendAlong] using hadd
  · simpa [sendAlong, hj] using hs j

theorem iteration_recorded {r : State g n × K} (hs : AllRecorded g demands s.demands)
    (hne : ∀ i, (demands i).source ≠ (demands i).sink)
    (h : (iteration g dijkstra e i (s, left)).run k = some r) : AllRecorded g demands r.1.demands := by
  have hends : (s.demands i).sink ≠ (s.demands i).source := by
    rw [(hs i).source, (hs i).sink]
    exact (hne i).symm
  obtain ⟨p, ed, rest, hhops, rfl⟩ := iteration_eq_some hends h
  exact sendAlong_recorded hs hhops _ _ _

theorem step_recorded (hs : AllRecorded g demands s.demands)
    (hne : ∀ i, (demands i).source ≠ (demands i).sink) (h : (step g dijkstra e s i).run k = some s') :
    AllRecorded g demands s'.demands := by
  obtain ⟨t, hrun, rfl⟩ := WhileLoop.run_map_eq_some.mp h
  refine (WhileLoop.run_invariant (I := fun t : State g n × K => AllRecorded g demands t.1.demands)
    hs ?_ hrun).1
  intro t t' ht _ hturn
  exact iteration_recorded ht hne hturn

theorem phases_recorded {t : State g n × Nat} {orders : Nat → Equiv.Perm (Fin n)}
    (hs : AllRecorded g demands s.demands) (hne : ∀ i, (demands i).source ≠ (demands i).sink)
    (h : (phases g dijkstra e orders s).run k = some t) : AllRecorded g demands t.1.demands := by
  refine (WhileLoop.run_invariant (I := fun t : State g n × Nat => AllRecorded g demands t.1.demands)
    hs ?_ h).1
  intro t t' ht _ hturn
  obtain ⟨s', hphase, rfl⟩ := WhileLoop.run_map_eq_some.mp hturn
  refine WhileLoop.foldlM_invariant (I := fun s : State g n => AllRecorded g demands s.demands) ht ?_ hphase
  intro s j s' _ hs hstep
  exact step_recorded hs hne hstep

omit [DecidableEq V] [LinearOrder K] in
theorem rescale_recorded (scale : K) {demands' : Fin n → MfDemand V K}
    (h : AllRecorded g demands demands') : AllRecorded g demands (rescaleDemandsFlows demands' scale) := by
  intro i
  have hkeys : ((rescaleDemandsFlows demands' scale i).pathFlowMap.map Prod.fst) =
      (demands' i).pathFlowMap.map Prod.fst := by simp [rescaleDemandsFlows, Function.comp_def]
  refine ⟨(h i).source, (h i).sink, (h i).demand, hkeys ▸ (h i).keys, hkeys ▸ (h i).walks, ?_⟩
  simp only [rescaleDemandsFlows, (h i).total, List.map_map, Function.comp_def]
  rw [List.sum_map_mul_right]

end

theorem maxConcurrentFlow_recorded {g : NetGraph V ℝ} {dijkstra : g.Dijkstra} {n k : Nat} {dblMax e : ℝ}
    {orders : Nat → Equiv.Perm (Fin n)} {demands : Fin n → MfDemand V ℝ} {r : MaxResult g n}
    (hne : ∀ i, (demands i).source ≠ (demands i).sink)
    (h : (maxConcurrentFlow g dijkstra dblMax e orders demands).run k = some r) :
    AllRecorded g demands r.demands ∧ r.gflow = assignGflow g dblMax r.demands := by
  obtain ⟨t, hphases, hr⟩ := WhileLoop.run_bind_eq_some.mp h
  cases hr
  have hstart : AllRecorded g demands (start g (delta g e) demands).demands := recorded_reset g demands
  exact ⟨rescale_recorded _ (phases_recorded hstart hne hphases), rfl⟩

end GraphMf

end Blackadder
