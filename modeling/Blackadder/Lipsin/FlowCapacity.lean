import Mathlib.Analysis.Convex.SpecificFunctions.Basic
import Blackadder.Lipsin.FlowAccounting
import Blackadder.Lipsin.FlowTermination

/-!
# Capacities

How far the concurrent flows can go over the capacities: the length of an edge is at least exponential in what goes
over it, and stays below a bound.
-/

namespace Blackadder

namespace GraphMf

open TMIgraph (MfDemand)
open WhileLoop (Returns)

variable {V : Type} [DecidableEq V]

/-! ## What is sent -/

section

variable {K : Type} [Field K] {g : NetGraph V K} {m : List (List V × K)} {path : List V} {x e mincap : K}
  {u v f source : V} {penult : V → V} {hops : List (V × Fin g.numEdges)} {n : Nat}
  {demands : Fin n → MfDemand V K}

theorem entriesOver_cons (entry : List V × K) (m : List (List V × K)) (u v : V) :
    entriesOver (entry :: m) u v = (if [u, v] <:+: entry.1 then entry.2 else 0) + entriesOver m u v := by
  unfold entriesOver
  by_cases hin : [u, v] <:+: entry.1
  · simp [hin]
  · simp [hin]

theorem entriesOver_addPath (hkeys : (m.map Prod.fst).Nodup) (path : List V) (x : K) (u v : V) :
    entriesOver (addPath m path x).1 u v = entriesOver m u v + if [u, v] <:+: path then x else 0 := by
  unfold addPath
  split
  · next hmem =>
    induction m with
    | nil => cases hmem
    | cons entry m ih =>
      rw [List.map_cons, List.nodup_cons] at hkeys
      rw [List.map_cons, List.mem_cons] at hmem
      rw [List.map_cons, entriesOver_cons, entriesOver_cons]
      by_cases hentry : entry.1 = path
      · -- the only entry of the path
        have hother : ∀ entry' ∈ m, (if entry'.1 = path then (path, entry'.2 + x) else entry') = entry' := by
          intro entry' hmem'
          rw [if_neg]
          intro hsame
          exact hkeys.1 (hentry ▸ hsame ▸ List.mem_map_of_mem hmem')
        rw [List.map_congr_left hother, List.map_id', if_pos hentry, hentry]
        split <;> ring
      · have hrest := ih hkeys.2 (hmem.resolve_left (Ne.symm hentry))
        dsimp only at hrest ⊢
        rw [hrest, if_neg hentry]
        ring
  · unfold entriesOver
    by_cases hin : [u, v] <:+: path
    · simp [List.filter_append, hin]
    · simp [List.filter_append, hin]

theorem routed_sendAlong {s : State g n} (hs : AllRecorded g demands s.demands) (e : K) (i : Fin n)
    (left mincap : K) (hops : List (V × Fin g.numEdges)) (u v : V) :
    routed (sendAlong e i s left mincap hops).1.demands u v = routed s.demands u v +
      if [u, v] <:+: NetGraph.pathOf (s.demands i).sink hops then mincap else 0 := by
  have hterm : ∀ j, entriesOver ((sendAlong e i s left mincap hops).1.demands j).pathFlowMap u v =
      entriesOver (s.demands j).pathFlowMap u v + if j = i then
        (if [u, v] <:+: NetGraph.pathOf (s.demands i).sink hops then mincap else 0) else 0 := by
    intro j
    by_cases hj : j = i
    · subst hj
      simp only [sendAlong, Function.update_self, if_true]
      exact entriesOver_addPath (hs j).keys _ _ _ _
    · simp [sendAlong, hj]
  rw [routed, Finset.sum_congr rfl fun j _ => hterm j, Finset.sum_add_distrib,
    Finset.sum_ite_eq' Finset.univ i, if_pos (Finset.mem_univ i), routed]

omit [DecidableEq V] in
theorem grow_apply (hnodup : (hops.map Prod.snd).Nodup) (e mincap : K) (w : g.Weights) (a : Fin g.numEdges) :
    grow g e mincap hops w a =
      if a ∈ hops.map Prod.snd then w a * (1 + e * mincap / g.capacity a) else w a := by
  induction hops generalizing w with
  | nil => simp [grow]
  | cons h hops ih =>
    rw [List.map_cons, List.nodup_cons] at hnodup
    have hcons : grow g e mincap (h :: hops) w =
        grow g e mincap hops (growVisit g e mincap (w, []) h.1 h.2).1 := rfl
    rw [hcons, ih hnodup.2, List.map_cons]
    by_cases ha : a = h.2
    · subst ha
      simp [hnodup.1, growVisit]
    · simp only [List.mem_cons, ha, false_or, growVisit, Function.update_of_ne ha]

omit [Field K] in
/-- What the path passes has an edge among the hops. -/
theorem NetGraph.TreePath.exists_of_infix (h : g.TreePath penult source f hops)
    (hin : [u, v] <:+: NetGraph.pathOf f hops) : ∃ a ∈ hops.map Prod.snd, g.source a = u ∧ g.target a = v := by
  induction h with
  | done =>
    have hle := hin.length_le
    simp [NetGraph.pathOf] at hle
  | @hop f b hops hne hed hrest ih =>
    rw [NetGraph.pathOf_cons, List.infix_concat_iff] at hin
    rcases hin with hlast | hbefore
    · rw [NetGraph.pathOf, List.append_assoc] at hlast
      have hpair : [u, v] <:+ [penult f] ++ [f] :=
        List.suffix_of_suffix_length_le hlast (List.suffix_append _ _) le_rfl
      have hsame := hpair.eq_of_length rfl
      obtain ⟨hsource, htarget⟩ := NetGraph.edge_eq_some hed
      simp only [List.cons_append, List.nil_append, List.cons.injEq, and_true] at hsame
      exact ⟨b, by simp, hsource.trans hsame.1.symm, htarget.trans hsame.2.symm⟩
    · obtain ⟨a, ha, hends⟩ := ih hbefore
      exact ⟨a, List.mem_cons_of_mem _ ha, hends⟩

omit [Field K] in
theorem NetGraph.TreePath.mem_iff (hpar : NoParallel g) (h : g.TreePath penult source f hops)
    (a : Fin g.numEdges) :
    a ∈ hops.map Prod.snd ↔ [g.source a, g.target a] <:+: NetGraph.pathOf f hops := by
  refine ⟨h.infix_of_mem, ?_⟩
  intro hin
  obtain ⟨b, hb, hsource, htarget⟩ := h.exists_of_infix hin
  rwa [hpar a b hsource.symm htarget.symm]

variable [LinearOrder K]

omit [DecidableEq V] [Field K] in
theorem bottleneck_le {p : V} {ed : Fin g.numEdges} {rest : List (V × Fin g.numEdges)} {a : Fin g.numEdges}
    (ha : a ∈ ((p, ed) :: rest).map Prod.snd) : bottleneck g ed rest ≤ g.capacity a := by
  have hturn : ∀ (x : K) (h : V × Fin g.numEdges), capVisit g x h.1 h.2 ≤ x ∧
      capVisit g x h.1 h.2 ≤ g.capacity h.2 := by
    intro x h
    unfold capVisit
    split
    · next hlt => exact ⟨hlt.le, le_rfl⟩
    · next hnot => exact ⟨le_rfl, not_lt.mp hnot⟩
  have hfold : ∀ (rest : List (V × Fin g.numEdges)) (x : K),
      rest.foldl (fun mincap h => capVisit g mincap h.1 h.2) x ≤ x ∧
      ∀ h ∈ rest, rest.foldl (fun mincap h => capVisit g mincap h.1 h.2) x ≤ g.capacity h.2 := by
    intro rest
    induction rest with
    | nil => exact fun x => ⟨le_rfl, by simp⟩
    | cons h rest ih =>
      intro x
      obtain ⟨hle, hall⟩ := ih (capVisit g x h.1 h.2)
      rw [List.foldl_cons, List.forall_mem_cons]
      exact ⟨hle.trans (hturn x h).1, hle.trans (hturn x h).2, hall⟩
  obtain ⟨hle, hall⟩ := hfold rest (g.capacity ed)
  rw [List.map_cons, List.mem_cons] at ha
  rcases ha with rfl | hmem
  · exact hle
  · obtain ⟨h, hh, rfl⟩ := List.mem_map.mp hmem
    exact hall h hh

omit [DecidableEq V] [Field K] in
theorem share_le {left : K} (ed : Fin g.numEdges) (rest : List (V × Fin g.numEdges)) :
    share g left ed rest ≤ left ∧ share g left ed rest ≤ bottleneck g ed rest := by
  unfold share
  split
  · next hlt => exact ⟨le_rfl, hlt.le⟩
  · next hnot => exact ⟨not_lt.mp hnot, le_rfl⟩

omit [DecidableEq V] in
theorem share_pos {left : K} (hcap : ∀ a, 0 < g.capacity a) (hleft : 0 < left) (ed : Fin g.numEdges)
    (rest : List (V × Fin g.numEdges)) : 0 < share g left ed rest := by
  obtain ⟨a, ha⟩ : ∃ a, g.capacity a = bottleneck g ed rest := by
    unfold bottleneck
    generalize ed = b
    induction rest generalizing b with
    | nil => exact ⟨b, rfl⟩
    | cons h rest ih =>
      rw [List.foldl_cons]
      unfold capVisit
      split
      · exact ih h.2
      · exact ih b
  unfold share
  split
  · exact hleft
  · exact ha ▸ hcap a

end

/-! ## Lengths and loads -/

section

variable {g : NetGraph V ℝ} {dijkstra : g.Dijkstra} {n k : Nat} {δ e left mincap x c w : ℝ} {i : Fin n}
  {s s' : State g n} {hops rest : List (V × Fin g.numEdges)} {demands : Fin n → MfDemand V ℝ} {penult : V → V}
  {p : V} {ed : Fin g.numEdges}

/-- The lengths are at least exponential in what goes over the edges, and bounded by the capacities. -/
structure Priced (δ e : ℝ) (demands : Fin n → MfDemand V ℝ) (s : State g n) : Prop where
  recorded : AllRecorded g demands s.demands
  amounts : ∀ i, ∀ entry ∈ (s.demands i).pathFlowMap, 0 ≤ entry.2
  D : s.D = g.calcD s.gdual
  low : ∀ a, δ / g.capacity a * (1 + e) ^ (routed s.demands (g.source a) (g.target a) / g.capacity a) ≤ s.gdual a
  high : ∀ a, s.gdual a * g.capacity a ≤ 1 + e

theorem addPath_amounts {m : List (List V × ℝ)} (hm : ∀ entry ∈ m, 0 ≤ entry.2) (hx : 0 ≤ x) (path : List V) :
    ∀ entry ∈ (addPath m path x).1, 0 ≤ entry.2 := by
  unfold addPath
  split
  · intro entry hentry
    obtain ⟨old, hold, rfl⟩ := List.mem_map.mp hentry
    split
    · exact add_nonneg (hm old hold) hx
    · exact hm old hold
  · intro entry hentry
    rcases List.mem_append.mp hentry with hold | hnew
    · exact hm entry hold
    · rw [List.mem_singleton.mp hnew]
      exact hx

theorem sendAlong_amounts (hs : ∀ i, ∀ entry ∈ (s.demands i).pathFlowMap, 0 ≤ entry.2) (hx : 0 ≤ x) (e : ℝ)
    (i : Fin n) (left : ℝ) (hops : List (V × Fin g.numEdges)) :
    ∀ j, ∀ entry ∈ ((sendAlong e i s left x hops).1.demands j).pathFlowMap, 0 ≤ entry.2 := by
  intro j
  by_cases hj : j = i
  · subst hj
    simpa [sendAlong] using addPath_amounts (hs j) hx _
  · simpa [sendAlong, hj] using hs j

/-- An edge that takes no more than its capacity grows enough. -/
theorem price_mul_le (he : 0 < e) (hc : 0 < c) (hmin : 0 ≤ mincap) (hle : mincap ≤ c) (hw : 0 ≤ w)
    (hlow : δ / c * (1 + e) ^ (x / c) ≤ w) :
    δ / c * (1 + e) ^ ((x + mincap) / c) ≤ w * (1 + e * mincap / c) := by
  have hgrowth : (1 + e) ^ (mincap / c) ≤ 1 + e * mincap / c := by
    have hbernoulli := rpow_one_add_le_one_add_mul_self (s := e) (p := mincap / c) (by linarith)
      (div_nonneg hmin hc.le) ((div_le_one hc).mpr hle)
    refine hbernoulli.trans (le_of_eq ?_)
    ring
  calc δ / c * (1 + e) ^ ((x + mincap) / c)
      = δ / c * (1 + e) ^ (x / c) * (1 + e) ^ (mincap / c) := by
        rw [add_div, Real.rpow_add (by linarith), mul_assoc]
    _ ≤ w * (1 + e * mincap / c) :=
        mul_le_mul hlow hgrowth (Real.rpow_nonneg (by linarith) _) hw

omit [DecidableEq V] in
theorem le_calcD {w : g.Weights} (hcap : ∀ a, 0 < g.capacity a) (hw : ∀ a, 0 ≤ w a) (a : Fin g.numEdges) :
    w a * g.capacity a ≤ g.calcD w :=
  Finset.single_le_sum (f := fun a => w a * g.capacity a) (fun b _ => mul_nonneg (hw b) (hcap b).le)
    (Finset.mem_univ a)

theorem Priced.nonneg (hs : Priced δ e demands s) (hcap : ∀ a, 0 < g.capacity a) (hδ : 0 ≤ δ) (he : 0 < e)
    (a : Fin g.numEdges) : 0 ≤ s.gdual a :=
  (mul_nonneg (div_nonneg hδ (hcap a).le) (Real.rpow_nonneg (by linarith) _)).trans (hs.low a)

/-- While `D` is below one, what an iteration sends keeps the bounds. -/
theorem Priced.sendAlong (hs : Priced δ e demands s) (hpar : NoParallel g) (hcap : ∀ a, 0 < g.capacity a)
    (hδ : 0 ≤ δ) (he : 0 < e) (hD : s.D < 1) (hleft : 0 < left)
    (hhops : g.TreePath penult (s.demands i).source (s.demands i).sink ((p, ed) :: rest)) :
    Priced δ e demands (sendAlong e i s left (share g left ed rest) ((p, ed) :: rest)).1 := by
  have hmin := (share_pos hcap hleft ed rest).le
  have hnonneg := hs.nonneg hcap hδ he
  have hgrow := grow_apply hhops.arcs_nodup e (share g left ed rest) s.gdual
  refine ⟨sendAlong_recorded hs.recorded hhops _ _ _, sendAlong_amounts hs.amounts hmin e i left _, rfl, ?_, ?_⟩
  · intro a
    rw [routed_sendAlong hs.recorded]
    show _ ≤ grow g e (share g left ed rest) ((p, ed) :: rest) s.gdual a
    rw [hgrow]
    by_cases ha : a ∈ ((p, ed) :: rest).map Prod.snd
    · rw [if_pos ha, if_pos ((hhops.mem_iff hpar a).mp ha)]
      exact price_mul_le he (hcap a) hmin ((share_le ed rest).2.trans (bottleneck_le ha)) (hnonneg a) (hs.low a)
    · rw [if_neg ha, if_neg fun hin => ha ((hhops.mem_iff hpar a).mpr hin), add_zero]
      exact hs.low a
  · intro a
    have hbelow : s.gdual a * g.capacity a < 1 := (le_calcD hcap hnonneg a).trans_lt (hs.D ▸ hD)
    show grow g e (share g left ed rest) ((p, ed) :: rest) s.gdual a * g.capacity a ≤ 1 + e
    rw [hgrow]
    by_cases ha : a ∈ ((p, ed) :: rest).map Prod.snd
    · have hrate : e * share g left ed rest / g.capacity a ≤ e := by
        rw [div_le_iff₀ (hcap a)]
        exact mul_le_mul_of_nonneg_left ((share_le ed rest).2.trans (bottleneck_le ha)) he.le
      have hrate' : 0 ≤ e * share g left ed rest / g.capacity a :=
        div_nonneg (mul_nonneg he.le hmin) (hcap a).le
      rw [if_pos ha, mul_right_comm]
      calc s.gdual a * g.capacity a * (1 + e * share g left ed rest / g.capacity a)
          ≤ 1 * (1 + e * share g left ed rest / g.capacity a) :=
            mul_le_mul_of_nonneg_right hbelow.le (by linarith)
        _ ≤ 1 + e := by linarith
    · rw [if_neg ha]
      linarith

theorem phases_priced {t : State g n × Nat} {orders : Nat → Equiv.Perm (Fin n)} (hpar : NoParallel g)
    (hcap : ∀ a, 0 < g.capacity a) (hδ : 0 ≤ δ) (he : 0 < e) (hne : ∀ i, (demands i).source ≠ (demands i).sink)
    (hs : Priced δ e demands s) (h : (phases g dijkstra e orders s).run k = some t) :
    Priced δ e demands t.1 := by
  have hstep : ∀ (s s' : State g n) (j : Fin n), Priced δ e demands s →
      (step g dijkstra e s j).run k = some s' → Priced δ e demands s' := by
    intro s s' j hs hstep
    obtain ⟨t, hrun, rfl⟩ := WhileLoop.run_map_eq_some.mp hstep
    refine (WhileLoop.run_invariant (I := fun t : State g n × ℝ => Priced δ e demands t.1) hs ?_ hrun).1
    rintro ⟨s, left⟩ t' hs ⟨hD, hleft⟩ hturn
    have hends : (s.demands j).sink ≠ (s.demands j).source := by
      rw [(hs.recorded j).source, (hs.recorded j).sink]
      exact (hne j).symm
    obtain ⟨p, ed, rest, hhops, rfl⟩ := iteration_eq_some hends hturn
    exact hs.sendAlong hpar hcap hδ he hD hleft hhops
  refine (WhileLoop.run_invariant (I := fun t : State g n × Nat => Priced δ e demands t.1) hs ?_ h).1
  intro t t' ht _ hturn
  obtain ⟨s', hphase, rfl⟩ := WhileLoop.run_map_eq_some.mp hturn
  exact WhileLoop.foldlM_invariant (I := fun s : State g n => Priced δ e demands s) ht
    (fun s j s' _ => hstep s s' j) hphase

theorem start_priced (hpar : NoParallel g) (hcap : ∀ a, 0 < g.capacity a) (he : 0 < e) (hδ : δ ≤ 1)
    (demands : Fin n → MfDemand V ℝ) : Priced δ e demands (start g δ demands) := by
  have hweight : ∀ a, (start g δ demands).gdual a = δ / g.capacity a := fun a =>
    NetGraph.assignWeights_found (fun a => δ / g.capacity a) (hpar.found a)
  refine ⟨recorded_reset g demands, fun _ _ hentry => absurd hentry List.not_mem_nil, rfl, ?_, ?_⟩
  · intro a
    have hnone : routed (start g δ demands).demands (g.source a) (g.target a) = 0 :=
      Finset.sum_eq_zero fun _ _ => rfl
    rw [hweight, hnone, zero_div, Real.rpow_zero, mul_one]
  · intro a
    rw [hweight, div_mul_cancel₀ _ (hcap a).ne']
    linarith

/-- What the bounds say of the flow over an edge. -/
theorem Priced.routed_le (hs : Priced δ e demands s) (hcap : ∀ a, 0 < g.capacity a) (hδ : 0 < δ) (he : 0 < e)
    (a : Fin g.numEdges) : routed s.demands (g.source a) (g.target a) * Real.log (1 + e) ≤
      g.capacity a * (Real.log (1 / δ) + Real.log (1 + e)) := by
  have hbase : 0 < 1 + e := by linarith
  set x := routed s.demands (g.source a) (g.target a) with hx
  have hpower : δ * (1 + e) ^ (x / g.capacity a) ≤ 1 + e := by
    have hlow := mul_le_mul_of_nonneg_right (hs.low a) (hcap a).le
    rw [mul_right_comm, div_mul_cancel₀ _ (hcap a).ne'] at hlow
    exact hlow.trans (hs.high a)
  have hlog := Real.log_le_log (mul_pos hδ (Real.rpow_pos_of_pos hbase _)) hpower
  rw [Real.log_mul hδ.ne' (Real.rpow_pos_of_pos hbase _).ne', Real.log_rpow hbase] at hlog
  rw [one_div, Real.log_inv]
  have hscaled := mul_le_mul_of_nonneg_left hlog (hcap a).le
  have hcancel : g.capacity a * (x / g.capacity a * Real.log (1 + e)) = x * Real.log (1 + e) := by
    rw [← mul_assoc, mul_div_cancel₀ _ (hcap a).ne']
  linarith

omit [DecidableEq V] in
/-- What `delta` is, of one edge or more. -/
theorem delta_bounds (a : Fin g.numEdges) (he : 0 < e) (he1 : e < 1) :
    0 < delta g e ∧ delta g e < 1 := by
  have hedges : (1 : ℝ) ≤ g.numEdges := Nat.one_le_cast.mpr (Nat.one_le_of_lt a.pos)
  have hbase : 1 < (g.numEdges : ℝ) / (1 - e) := by
    rw [one_lt_div (by linarith)]
    linarith
  refine ⟨Real.rpow_pos_of_pos (by linarith) _, ?_⟩
  exact Real.rpow_lt_one_of_one_lt_of_neg hbase (div_neg_of_neg_of_pos (by norm_num) he)

omit [DecidableEq V] in
theorem routed_rescale (demands : Fin n → MfDemand V ℝ) (scale : ℝ) (u v : V) [DecidableEq V] :
    routed (rescaleDemandsFlows demands scale) u v = routed demands u v * scale := by
  rw [routed, routed, Finset.sum_mul]
  refine Finset.sum_congr rfl ?_
  intro i _
  simp only [entriesOver, rescaleDemandsFlows, List.filter_map, List.map_map, Function.comp_def]
  rw [List.sum_map_mul_right]

theorem exists_setting (htrees : dijkstra.FindsTrees) (hcap : ∀ a, 0 < g.capacity a) (a : Fin g.numEdges)
    (he : 0 < e) (he1 : e < 1) (hne : ∀ i, (demands i).source ≠ (demands i).sink)
    (hdemand : ∀ i, 0 ≤ (demands i).demand)
    (hreach : ∀ i, Relation.ReflTransGen g.Adj (demands i).source (demands i).sink) :
    ∃ low cmin, Setting g dijkstra e low cmin demands ∧ Sound low demands (start g (delta g e) demands) := by
  obtain ⟨least, hleast⟩ := @Finite.exists_min _ _ _ ⟨a⟩ _ g.capacity
  obtain ⟨most, hmost⟩ := @Finite.exists_max _ _ _ ⟨a⟩ _ g.capacity
  have hδ := (delta_bounds a he he1).1
  exact ⟨delta g e / g.capacity most, g.capacity least, {
    trees := htrees
    e_pos := he
    low_pos := div_pos hδ (hcap most)
    cmin_pos := hcap least
    capacity := hleast
    different := hne
    demand := hdemand
    reachable := hreach }, start_sound hcap hmost hδ demands⟩

/-- What the flows are divided by in the end. -/
noncomputable def scaleOf (g : NetGraph V ℝ) (e : ℝ) : ℝ := 1 / (Real.log (1 / delta g e) / Real.log (1 + e))

/-- By how much the capacities may be missed. -/
noncomputable def excess (g : NetGraph V ℝ) (e : ℝ) : ℝ := 1 + Real.log (1 + e) / Real.log (1 / delta g e)

theorem Priced.rescaled_le (hs : Priced (delta g e) e demands s) (hcap : ∀ a, 0 < g.capacity a) (he : 0 < e)
    (he1 : e < 1) (a : Fin g.numEdges) :
    routed (rescaleDemandsFlows s.demands (scaleOf g e)) (g.source a) (g.target a) ≤ g.capacity a * excess g e := by
  obtain ⟨hδ, hδ1⟩ := delta_bounds a he he1
  have hrouted := hs.routed_le hcap hδ he a
  have hlog : 0 < Real.log (1 + e) := Real.log_pos (by linarith)
  have hrange : 0 < Real.log (1 / delta g e) := Real.log_pos (one_lt_one_div hδ hδ1)
  rw [routed_rescale, scaleOf, one_div_div, mul_div_assoc', div_le_iff₀ hrange, excess]
  refine hrouted.trans (le_of_eq ?_)
  field_simp

/-- Whatever the shortest paths and the shuffles were, what `max_concurrent_flow` has recorded goes over no capacity by
more than a share of `log(1 + e) / log(1 / delta)`. -/
theorem maxConcurrentFlow_routed_le (g : NetGraph V ℝ) (dijkstra : g.Dijkstra) (hpar : NoParallel g)
    (hcap : ∀ a, 0 < g.capacity a) (dblMax e : ℝ) (he : 0 < e) (he1 : e < 1)
    (orders : Nat → Equiv.Perm (Fin n)) (demands : Fin n → MfDemand V ℝ)
    (hne : ∀ i, (demands i).source ≠ (demands i).sink) (turns : Nat) (r : MaxResult g n)
    (h : (maxConcurrentFlow g dijkstra dblMax e orders demands).run turns = some r) (a : Fin g.numEdges) :
    routed r.demands (g.source a) (g.target a) ≤
      g.capacity a * (1 + Real.log (1 + e) / Real.log (1 / delta g e)) := by
  obtain ⟨hδ, hδ1⟩ := delta_bounds a he he1
  obtain ⟨t, hphases, hr⟩ := WhileLoop.run_bind_eq_some.mp h
  cases hr
  have hstart := start_priced hpar hcap he hδ1.le demands
  exact (phases_priced hpar hcap hδ.le he hne hstart hphases).rescaled_le hcap he he1 a

theorem routed_le_twoRouters : ∃ turns r,
    (maxConcurrentFlow twoRouters twoRoutersDijkstra 1000 (1 / 2) (fun _ => Equiv.refl (Fin 1)) oneDemand).run
      turns = some r ∧
    ∀ a, routed r.demands (twoRouters.source a) (twoRouters.target a) ≤
      twoRouters.capacity a * (1 + Real.log (1 + 1 / 2) / Real.log (1 / delta twoRouters (1 / 2))) := by
  have hne : ∀ i, (oneDemand i).source ≠ (oneDemand i).sink := fun _ => Bool.false_ne_true
  obtain ⟨low, cmin, hsetting, hstart⟩ := exists_setting (e := 1 / 2) twoRouters_findsTrees
    (fun _ => one_pos) (twoRoutersArc false) (by norm_num) (by norm_num) hne
    (fun _ => zero_le_one) fun _ => twoRouters_connected _ _
  obtain ⟨t, hphases, -⟩ := phases_end hsetting ⟨0, one_pos⟩ (fun _ => Equiv.refl (Fin 1)) hstart
  have hreturns : ∃ r, Returns (maxConcurrentFlow twoRouters twoRoutersDijkstra 1000 (1 / 2)
      (fun _ => Equiv.refl (Fin 1)) oneDemand) r := ⟨_, hphases.bind (WhileLoop.returns_pure _)⟩
  obtain ⟨r, hr⟩ := hreturns
  obtain ⟨turns, hrun⟩ := hr.exists_run
  exact ⟨turns, r, hrun, maxConcurrentFlow_routed_le twoRouters twoRoutersDijkstra twoRouters_noParallel
    (fun _ => one_pos) 1000 (1 / 2) (by norm_num) (by norm_num) (fun _ => Equiv.refl (Fin 1)) oneDemand
    hne turns r hrun⟩

end

end GraphMf

end Blackadder
