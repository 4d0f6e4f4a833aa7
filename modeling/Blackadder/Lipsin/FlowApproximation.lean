import Blackadder.Lib.ConcurrentFlow
import Blackadder.Lipsin.FlowCapacity

/-!
# The approximation is one

The flows, `lambda` and `beta` of `max_concurrent_flow` against the best that the capacities allow. A phase lets `D`
grow by at most `e` times what the demands are apart.
-/

namespace Blackadder

namespace GraphMf

open ConcurrentFlow (Problem Plan)
open TMIgraph (MfDemand)
open WhileLoop (Returns)

section

variable {V K : Type} [DecidableEq V] [Field K] [LinearOrder K] [IsStrictOrderedRing K] {g : NetGraph V K}
  {dijkstra : g.Dijkstra} {n k : Nat} {e left left' mincap low cmin : K} {i : Fin n} {s s' s'' : State g n}
  {hops : List (V × Fin g.numEdges)} {w w' : g.Weights} {demands : Fin n → MfDemand V K} {source v f : V}
  {penult : V → V} {dist : V → K}

/-! ## Distances -/

/-- The problem that a graph and demands pose. -/
def problemOf (g : NetGraph V K) (demands : Fin n → MfDemand V K) : Problem (Fin g.numEdges) (Fin n) K where
  capacity := g.capacity
  demand i := (demands i).demand
  IsRoute i arcs := g.Route (demands i).source (demands i).sink arcs

/-- How far the source of a demand is from its sink. -/
def distance (dijkstra : g.Dijkstra) (demands : Fin n → MfDemand V K) (w : g.Weights) (i : Fin n) : K :=
  (dijkstra w (demands i).source).2 (demands i).sink

omit [Field K] [LinearOrder K] [IsStrictOrderedRing K] in
theorem NetGraph.TreePath.route (h : g.TreePath penult source f hops) :
    g.Route source f (hops.map Prod.snd).reverse := by
  induction h with
  | done => exact .start
  | @hop f a hops hne hed hrest ih =>
    obtain ⟨hsource, htarget⟩ := NetGraph.edge_eq_some hed
    rw [List.map_cons, List.reverse_cons, ← htarget]
    exact .next (hsource ▸ ih)

omit [IsStrictOrderedRing K] in
/-- The distance is the length of the path back. -/
theorem NetGraph.ShortestPathTree.dist_eq (hpar : NoParallel g) (h : g.ShortestPathTree w source penult dist)
    (hpath : g.TreePath penult source f hops) (hf : Relation.ReflTransGen g.Adj source f) :
    dist f = (hops.map fun hop => w hop.2).sum := by
  induction hpath with
  | done => exact h.root
  | @hop f a hops hne hed hrest ih =>
    obtain ⟨b, hsource, htarget, hdist⟩ := h.hop f hf hne
    obtain ⟨hsource', htarget'⟩ := NetGraph.edge_eq_some hed
    obtain rfl := hpar a b (hsource'.trans hsource.symm) (htarget'.trans htarget.symm)
    rw [hdist, ih (h.reached f hf hne), List.map_cons, List.sum_cons, add_comm]

/-- Longer edges make no distance shorter. -/
theorem dist_mono (htrees : dijkstra.FindsTrees) (hpar : NoParallel g) (hw : ∀ a, 0 ≤ w a)
    (hle : ∀ a, w a ≤ w' a) (hv : Relation.ReflTransGen g.Adj source v) :
    (dijkstra w source).2 v ≤ (dijkstra w' source).2 v := by
  have htree := htrees w hw source
  have htree' := htrees w' (fun a => (hw a).trans (hle a)) source
  obtain ⟨hops, hhops⟩ := htree'.exists_treePath hv
  have hshort := htree.shortest v _ hhops.route
  rw [htree'.dist_eq hpar hhops hv]
  refine hshort.trans ?_
  rw [List.map_reverse, List.sum_reverse, List.map_map]
  exact List.sum_le_sum fun hop _ => hle hop.2

theorem distances (htrees : dijkstra.FindsTrees) (hpar : NoParallel g)
    (hreach : ∀ i, Relation.ReflTransGen g.Adj (demands i).source (demands i).sink) (hw : ∀ a, 0 ≤ w a) :
    (problemOf g demands).Distances w (distance dijkstra demands w) where
  nonneg := by
    intro i
    have htree := htrees w hw (demands i).source
    obtain ⟨hops, hhops⟩ := htree.exists_treePath (hreach i)
    rw [distance, htree.dist_eq hpar hhops (hreach i)]
    refine List.sum_nonneg ?_
    intro x hx
    obtain ⟨hop, -, rfl⟩ := List.mem_map.mp hx
    exact hw hop.2
  le i := (htrees w hw (demands i).source).shortest _

omit [DecidableEq V] [IsStrictOrderedRing K] in
/-- What is sent along hops, times their length, is what `D` grows by. -/
theorem calcD_grow (hcap : ∀ a, 0 < g.capacity a) (hnodup : (hops.map Prod.snd).Nodup) (e mincap : K)
    (w : g.Weights) :
    g.calcD (grow g e mincap hops w) = g.calcD w + e * mincap * (hops.map fun hop => w hop.2).sum := by
  induction hops generalizing w with
  | nil => simp [grow]
  | cons hop hops ih =>
    rw [List.map_cons, List.nodup_cons] at hnodup
    have hcons : grow g e mincap (hop :: hops) w =
        grow g e mincap hops (growVisit g e mincap (w, []) hop.1 hop.2).1 := rfl
    have hsame : hops.map (fun hop' => (growVisit g e mincap (w, []) hop.1 hop.2).1 hop'.2) =
        hops.map fun hop' => w hop'.2 := by
      refine List.map_congr_left ?_
      intro hop' hmem
      have hne : hop'.2 ≠ hop.2 := fun h => hnodup.1 (h ▸ List.mem_map_of_mem hmem)
      simp only [growVisit, Function.update_of_ne hne]
    rw [hcons, ih hnodup.2, hsame, growVisit, calcD_update, List.map_cons, List.sum_cons]
    have hne : g.capacity hop.2 ≠ 0 := (hcap _).ne'
    field_simp
    ring

/-! ## What the loops gain -/

/-- No length and no flow goes back. -/
structure Advance (s s' : State g n) : Prop where
  lengths : ∀ a, s.gdual a ≤ s'.gdual a
  flows : ∀ i, (s.demands i).flow ≤ (s'.demands i).flow

omit [DecidableEq V] [Field K] [IsStrictOrderedRing K] in
theorem Advance.refl (s : State g n) : Advance s s := ⟨fun _ => le_rfl, fun _ => le_rfl⟩

omit [DecidableEq V] [Field K] [IsStrictOrderedRing K] in
theorem Advance.trans (h : Advance s s') (h' : Advance s' s'') : Advance s s'' :=
  ⟨fun a => (h.lengths a).trans (h'.lengths a), fun i => (h.flows i).trans (h'.flows i)⟩

theorem iteration_advance (h : Setting g dijkstra e low cmin demands) (hpar : NoParallel g)
    (hs : Sound low demands s) (hleft : 0 < left)
    (hrun : (iteration g dijkstra e i (s, left)).run k = some (s', left')) :
    Sound low demands s' ∧ Advance s s' ∧ 0 ≤ left' ∧ left' ≤ left ∧
      s'.D = s.D + e * (left - left') * distance dijkstra demands s.gdual i ∧
      (s'.demands i).flow = (s.demands i).flow + (left - left') := by
  have hcap : ∀ a, 0 < g.capacity a := fun a => h.cmin_pos.trans_le (h.capacity a)
  obtain ⟨hsource, hsink, -⟩ := hs.demands i
  have hends : (s.demands i).sink ≠ (s.demands i).source := by
    rw [hsource, hsink]
    exact (h.different i).symm
  obtain ⟨p, ed, rest, hhops, hr⟩ := iteration_eq_some hends hrun
  have hmin := (share_pos hcap hleft ed rest).le
  have hle : share g left ed rest ≤ left := (share_le ed rest).1
  obtain ⟨-, -, hed, -⟩ := NetGraph.TreePath.cons_iff.mp hhops
  obtain ⟨hsound, -⟩ := sendAlong_sound h hs hmin (NetGraph.found_of_edge hed) i left p rest
  have hsent : left' = left - share g left ed rest := congrArg Prod.snd hr
  obtain rfl : s' = (sendAlong e i s left (share g left ed rest) ((p, ed) :: rest)).1 := congrArg Prod.fst hr
  have hshare : left - left' = share g left ed rest := by
    rw [hsent]
    ring
  refine ⟨hsound, ⟨?_, ?_⟩, ?_, ?_, ?_, ?_⟩
  · intro a
    refine le_trans ?_ (grow_apply hhops.arcs_nodup e (share g left ed rest) s.gdual a).ge
    split
    · have hrate : 0 ≤ e * share g left ed rest / g.capacity a :=
        div_nonneg (mul_nonneg h.e_pos.le hmin) (hcap a).le
      exact le_mul_of_one_le_right (hs.long.nonneg a) (by linarith)
    · exact le_rfl
  · intro j
    by_cases hj : j = i
    · subst hj
      simpa [sendAlong] using hmin
    · simp [sendAlong, hj]
  · rw [hsent]
    exact sub_nonneg.mpr hle
  · rw [hsent]
    exact sub_le_self _ hmin
  · have htree := h.trees s.gdual hs.long.nonneg (s.demands i).source
    have hreach : Relation.ReflTransGen g.Adj (s.demands i).source (s.demands i).sink := by
      rw [hsource, hsink]
      exact h.reachable i
    rw [hshare, hs.D, distance, ← hsource, ← hsink, htree.dist_eq hpar hhops hreach]
    exact calcD_grow hcap hhops.arcs_nodup e _ _
  · rw [hshare]
    simp [sendAlong]

/-- What a demand gains in a step, which sends all of it unless `D` gets to one. -/
structure Gain (dijkstra : g.Dijkstra) (e low : K) (demands : Fin n → MfDemand V K) (sent : List (Fin n))
    (s s' : State g n) : Prop where
  sound : Sound low demands s'
  advance : Advance s s'
  growth : s'.D ≤ s.D + e * (sent.map fun i => (demands i).demand * distance dijkstra demands s'.gdual i).sum
  flows : s'.D < 1 → ∀ i ∈ sent, (s.demands i).flow + (demands i).demand ≤ (s'.demands i).flow

omit [DecidableEq V] in
theorem calcD_mono (hcap : ∀ a, 0 < g.capacity a) (hle : ∀ a, w a ≤ w' a) : g.calcD w ≤ g.calcD w' :=
  Finset.sum_le_sum fun a _ => mul_le_mul_of_nonneg_right (hle a) (hcap a).le

theorem Setting.distance_mono (h : Setting g dijkstra e low cmin demands) (hpar : NoParallel g)
    (hs : Sound low demands s) (hadvance : Advance s s') (i : Fin n) :
    distance dijkstra demands s.gdual i ≤ distance dijkstra demands s'.gdual i :=
  dist_mono h.trees hpar hs.long.nonneg hadvance.lengths (h.reachable i)

theorem step_gain (h : Setting g dijkstra e low cmin demands) (hpar : NoParallel g)
    (hs : Sound low demands s) (hrun : (step g dijkstra e s i).run k = some s') :
    Gain dijkstra e low demands [i] s s' := by
  obtain ⟨-, -, hdemand⟩ := hs.demands i
  obtain ⟨t, hloop, rfl⟩ := WhileLoop.run_map_eq_some.mp hrun
  -- what has been sent so far, at the distance of now
  let I : State g n × K → Prop := fun t => Sound low demands t.1 ∧ Advance s t.1 ∧ 0 ≤ t.2 ∧
    t.2 ≤ (demands i).demand ∧
    t.1.D ≤ s.D + e * (((demands i).demand - t.2) * distance dijkstra demands t.1.gdual i) ∧
    (t.1.demands i).flow = (s.demands i).flow + ((demands i).demand - t.2)
  have hstart : I (s, (s.demands i).demand) := by
    refine ⟨hs, .refl s, hdemand ▸ h.demand i, hdemand.le, ?_, ?_⟩
    · rw [hdemand, sub_self, zero_mul, mul_zero, add_zero]
    · rw [hdemand, sub_self, add_zero]
  have hturn : ∀ t t', I t → t.1.D < 1 ∧ 0 < t.2 → (iteration g dijkstra e i t).run k = some t' → I t' := by
    rintro ⟨s₁, left⟩ ⟨s₂, left'⟩ ⟨hs₁, hadvance, -, hle, hD, hflow⟩ ⟨-, hpos⟩ hturn
    obtain ⟨hs₂, hmore, hleft', hless, hD', hflow'⟩ := iteration_advance h hpar hs₁ hpos hturn
    refine ⟨hs₂, hadvance.trans hmore, hleft', hless.trans hle, ?_, ?_⟩
    · have hfar := mul_le_mul_of_nonneg_left (h.distance_mono hpar hs₁ hmore i)
        (mul_nonneg h.e_pos.le (sub_nonneg.mpr (hless.trans hle)))
      refine le_trans ?_ (add_le_add_right (hfar.trans_eq (mul_assoc _ _ _)) _)
      dsimp only at hD hD' ⊢
      rw [hD']
      refine (add_le_add_left hD _).trans (le_of_eq ?_)
      ring
    · dsimp only at hflow hflow' ⊢
      rw [hflow', hflow]
      ring
  obtain ⟨⟨hs', hadvance, hleft, hle, hD, hflow⟩, hend⟩ := WhileLoop.run_invariant hstart hturn hloop
  refine ⟨hs', hadvance, ?_, ?_⟩
  · have hdist := (distances h.trees hpar h.reachable hs'.long.nonneg).nonneg i
    have hall : ((demands i).demand - t.2) * distance dijkstra demands t.1.gdual i ≤
        (demands i).demand * distance dijkstra demands t.1.gdual i :=
      mul_le_mul_of_nonneg_right (sub_le_self _ hleft) hdist
    refine hD.trans ?_
    rw [List.map_singleton, List.sum_singleton]
    exact add_le_add_right (mul_le_mul_of_nonneg_left hall h.e_pos.le) _
  · intro hbelow j hj
    rw [List.mem_singleton.mp hj]
    have hzero : t.2 = 0 := le_antisymm (not_lt.mp fun hpos => hend ⟨hbelow, hpos⟩) hleft
    rw [hflow, hzero, sub_zero]

theorem foldlM_step_gain (h : Setting g dijkstra e low cmin demands) (hpar : NoParallel g)
    (order : List (Fin n)) (hs : Sound low demands s)
    (hrun : (order.foldlM (step g dijkstra e) s).run k = some s') :
    Gain dijkstra e low demands order s s' := by
  have hcap : ∀ a, 0 < g.capacity a := fun a => h.cmin_pos.trans_le (h.capacity a)
  induction order generalizing s with
  | nil =>
    cases hrun
    refine ⟨hs, .refl _, ?_, by simp⟩
    rw [List.map_nil, List.sum_nil, mul_zero, add_zero]
  | cons j order ih =>
    rw [List.foldlM_cons] at hrun
    obtain ⟨s₁, hstep, hrest⟩ := WhileLoop.run_bind_eq_some.mp hrun
    have hfirst := step_gain h hpar hs hstep
    have hlast := ih hfirst.sound hrest
    refine ⟨hlast.sound, hfirst.advance.trans hlast.advance, ?_, ?_⟩
    · have hfar := mul_le_mul_of_nonneg_left (h.distance_mono hpar hfirst.sound hlast.advance j) (h.demand j)
      have hgrowth := hfirst.growth
      rw [List.map_singleton, List.sum_singleton] at hgrowth
      rw [List.map_cons, List.sum_cons]
      have hscaled := mul_le_mul_of_nonneg_left hfar h.e_pos.le
      refine hlast.growth.trans ?_
      linarith
    · intro hbelow i hi
      have hbefore : s₁.D < 1 := by
        rw [hfirst.sound.D]
        rw [hlast.sound.D] at hbelow
        exact (calcD_mono hcap hlast.advance.lengths).trans_lt hbelow
      rcases List.mem_cons.mp hi with rfl | hmem
      · exact (hfirst.flows hbefore i (List.mem_singleton_self i)).trans (hlast.advance.flows i)
      · exact (add_le_add_left (hfirst.advance.flows i) _).trans (hlast.flows hbelow i hmem)

omit [LinearOrder K] [IsStrictOrderedRing K] in
theorem sum_order (order : Equiv.Perm (Fin n)) (f : Fin n → K) :
    (((List.finRange n).map order).map f).sum = ∑ i, f i := by
  rw [List.map_map, ← Fin.sum_univ_def]
  exact Equiv.sum_comp order f

/-- Each phase sends all demands, and the volume follows the ratio of any routing. -/
theorem phases_gain (h : Setting g dijkstra e low cmin demands) (hpar : NoParallel g)
    (hs : Sound low demands s) (hflows : ∀ i, (s.demands i).flow = 0) {orders : Nat → Equiv.Perm (Fin n)}
    {t : State g n × Nat} (hrun : (phases g dijkstra e orders s).run k = some t) :
    (∀ i, ((t.2 : K) - 1) * (demands i).demand ≤ (t.1.demands i).flow) ∧
      ∀ ratio plan, e ≤ ratio → (problemOf g demands).Routing ratio plan →
        (1 - e / ratio) ^ t.2 * t.1.D ≤ s.D := by
  let I : State g n × Nat → Prop := fun t => Sound low demands t.1 ∧
    (∀ i, ((t.2 : K) - 1) * (demands i).demand ≤ (t.1.demands i).flow) ∧
    (t.1.D < 1 → ∀ i, (t.2 : K) * (demands i).demand ≤ (t.1.demands i).flow) ∧
    ∀ ratio plan, e ≤ ratio → (problemOf g demands).Routing ratio plan → (1 - e / ratio) ^ t.2 * t.1.D ≤ s.D
  have hstart : I (s, 0) := by
    refine ⟨hs, ?_, ?_, ?_⟩
    · intro i
      simp [hflows, h.demand i]
    · intro _ i
      simp [hflows]
    · intro ratio plan _ _
      simp
  have hphase : ∀ t t', I t → t.1.D < 1 →
      ((fun s => (s, t.2 + 1)) <$> phase g dijkstra e (orders t.2) t.1).run k = some t' → I t' := by
    rintro ⟨s₁, done⟩ t' ⟨hs₁, -, hsent, hvolume⟩ hbelow hturn
    obtain ⟨s₂, hrun, rfl⟩ := WhileLoop.run_map_eq_some.mp hturn
    have hgain := foldlM_step_gain h hpar _ hs₁ hrun
    have hall : ∀ i, i ∈ (List.finRange n).map (orders done) := fun i =>
      List.mem_map.mpr ⟨(orders done).symm i, List.mem_finRange _, (orders done).apply_symm_apply i⟩
    refine ⟨hgain.sound, ?_, ?_, ?_⟩
    · intro i
      refine le_trans (le_of_eq ?_) ((hsent hbelow i).trans (hgain.advance.flows i))
      push_cast
      ring
    · intro hbelow' i
      refine le_trans ?_ (hgain.flows hbelow' i (hall i))
      dsimp only
      push_cast
      rw [add_mul, one_mul]
      exact add_le_add_left (hsent hbelow i) _
    · intro ratio plan hratio hplan
      have hpos : 0 < ratio := h.e_pos.trans_le hratio
      have hdist := distances h.trees hpar h.reachable hgain.sound.long.nonneg
      have hgrowth := hgain.growth
      rw [sum_order, hgain.sound.D] at hgrowth
      have hround := hplan.round hpos h.e_pos.le hgain.sound.long.nonneg hdist hgrowth
      have hfactor : 0 ≤ 1 - e / ratio := sub_nonneg.mpr ((div_le_one hpos).mpr hratio)
      dsimp only
      rw [pow_succ, mul_assoc, hgain.sound.D]
      exact (mul_le_mul_of_nonneg_left hround (pow_nonneg hfactor _)).trans (hvolume ratio plan hratio hplan)
  obtain ⟨⟨-, hsent, -, hvolume⟩, -⟩ := WhileLoop.run_invariant hstart hphase hrun
  exact ⟨hsent, hvolume⟩

/-! ## The ratio -/

omit [IsStrictOrderedRing K] [DecidableEq V] in
theorem calcLambda_bounds (dblMax : K) (demands : Fin n → MfDemand V K) :
    (∀ i, (demands i).demand ≠ 0 → calcLambda dblMax demands ≤ (demands i).flow / (demands i).demand) ∧
      ∀ x, x ≤ dblMax → (∀ i, (demands i).demand ≠ 0 → x ≤ (demands i).flow / (demands i).demand) →
        x ≤ calcLambda dblMax demands := by
  unfold calcLambda
  set turn := fun (lambda : K) (i : Fin n) =>
    if (demands i).demand ≠ 0 ∧ (demands i).flow / (demands i).demand < lambda then
      (demands i).flow / (demands i).demand
    else lambda with hturn
  have hless : ∀ lambda i, turn lambda i ≤ lambda ∧
      ((demands i).demand ≠ 0 → turn lambda i ≤ (demands i).flow / (demands i).demand) := by
    intro lambda i
    rw [hturn]
    dsimp only
    split
    · next h => exact ⟨h.2.le, fun _ => le_rfl⟩
    · next h => exact ⟨le_rfl, fun hne => not_lt.mp fun hlt => h ⟨hne, hlt⟩⟩
  have hfold : ∀ (l : List (Fin n)) (lambda : K), l.foldl turn lambda ≤ lambda ∧
      (∀ i ∈ l, (demands i).demand ≠ 0 → l.foldl turn lambda ≤ (demands i).flow / (demands i).demand) ∧
      ∀ x, x ≤ lambda → (∀ i, (demands i).demand ≠ 0 → x ≤ (demands i).flow / (demands i).demand) →
        x ≤ l.foldl turn lambda := by
    intro l
    induction l with
    | nil => exact fun lambda => ⟨le_rfl, by simp, fun x hx _ => hx⟩
    | cons i l ih =>
      intro lambda
      obtain ⟨hle, hall, hgreatest⟩ := ih (turn lambda i)
      rw [List.foldl_cons, List.forall_mem_cons]
      refine ⟨hle.trans (hless lambda i).1, ⟨fun hne => hle.trans ((hless lambda i).2 hne), hall⟩, ?_⟩
      intro x hx hx'
      refine hgreatest x ?_ hx'
      rw [hturn]
      dsimp only
      split
      · next h => exact hx' i h.1
      · exact hx
  obtain ⟨-, hall, hgreatest⟩ := hfold (List.finRange n) dblMax
  exact ⟨fun i => hall i (List.mem_finRange i), hgreatest⟩

/-! ## The recorded paths as a routing -/

/-- The edges of a path. -/
def arcsOf (g : NetGraph V K) : List V → List (Fin g.numEdges)
  | u :: v :: path => (g.edge u v).toList ++ arcsOf g (v :: path)
  | _ => []

omit [Field K] [LinearOrder K] [IsStrictOrderedRing K] in
theorem count_arcsOf (hpar : NoParallel g) {path : List V} (hnodup : path.Nodup) (a : Fin g.numEdges) :
    (arcsOf g path).count a = if [g.source a, g.target a] <:+: path then 1 else 0 := by
  induction path with
  | nil => simp [arcsOf]
  | cons u path ih =>
    cases path with
    | nil =>
      have hshort : ¬[g.source a, g.target a] <:+: [u] := by
        intro hin
        have hle := hin.length_le
        simp at hle
      rw [if_neg hshort]
      rfl
    | cons v path =>
      rw [List.nodup_cons] at hnodup
      rw [arcsOf, List.count_append, ih hnodup.2]
      have hfirst : (g.edge u v).toList.count a = if g.source a = u ∧ g.target a = v then 1 else 0 := by
        by_cases hends : g.source a = u ∧ g.target a = v
        · have hfound : g.edge (g.source a) (g.target a) = some a := hpar.found a
          rw [← hends.1, ← hends.2, hfound]
          simp
        · rw [if_neg hends, List.count_eq_zero]
          intro hmem
          exact hends (NetGraph.edge_eq_some (Option.mem_toList.mp hmem))
      rw [hfirst]
      by_cases hends : g.source a = u ∧ g.target a = v
      · -- the path is simple, so that its first hop does not come again
        have hnot : ¬[g.source a, g.target a] <:+: v :: path := by
          intro hin
          exact hnodup.1 (hends.1 ▸ hin.subset List.mem_cons_self)
        rw [if_pos hends, if_neg hnot, if_pos (pair_infix_cons.mpr (.inl hends))]
      · simp only [pair_infix_cons, hends, false_or, if_false, zero_add]

omit [Field K] [LinearOrder K] [IsStrictOrderedRing K] in
theorem route_arcsOf {u : V} {arcs : List (Fin g.numEdges)} {path : List V} (h : g.Route source u arcs)
    (hwalk : Walks.IsWalk g.Adj u v path) : g.Route source v (arcs ++ arcsOf g path) := by
  induction path generalizing u arcs with
  | nil => cases hwalk.head
  | cons x path ih =>
    obtain rfl : x = u := by simpa using hwalk.head
    cases path with
    | nil =>
      obtain rfl : x = v := by simpa using hwalk.last
      show g.Route source x (arcs ++ [])
      rwa [List.append_nil]
    | cons y path =>
      have hchain := hwalk.chain
      rw [List.isChain_cons_cons] at hchain
      obtain ⟨b, hb⟩ := NetGraph.exists_edge hchain.1
      obtain ⟨hsource, htarget⟩ := NetGraph.edge_eq_some hb
      rw [arcsOf, hb, Option.toList_some, ← List.append_assoc]
      refine ih ?_ ⟨rfl, ?_, hchain.2⟩
      · rw [← htarget]
        exact .next (hsource ▸ h)
      · have hlast := hwalk.last
        rwa [List.getLast?_cons_cons] at hlast

/-- The recorded flows, over their edges, with what is left of them by `x`. -/
def planOf (g : NetGraph V K) (demands : Fin n → MfDemand V K) (x : K) : Plan (Fin g.numEdges) (Fin n) K := fun i =>
  (demands i).pathFlowMap.map fun entry => (arcsOf g entry.1, entry.2 * x)

omit [LinearOrder K] [IsStrictOrderedRing K] in
theorem load_planOf {demands' : Fin n → MfDemand V K} (hpar : NoParallel g)
    (hrecorded : AllRecorded g demands demands') (x : K) (a : Fin g.numEdges) :
    ConcurrentFlow.load (planOf g demands' x) a = routed demands' (g.source a) (g.target a) * x := by
  have hlist : ∀ m : List (List V × K), (∀ path ∈ m.map Prod.fst, path.Nodup) →
      (m.map fun entry => ((arcsOf g entry.1).count a : K) * (entry.2 * x)).sum =
        entriesOver m (g.source a) (g.target a) * x := by
    intro m hm
    induction m with
    | nil => simp [entriesOver]
    | cons entry m ih =>
      rw [List.map_cons, List.forall_mem_cons] at hm
      rw [List.map_cons, List.sum_cons, ih hm.2, entriesOver_cons, count_arcsOf hpar hm.1, add_mul]
      split <;> simp
  rw [ConcurrentFlow.load, routed, Finset.sum_mul]
  refine Finset.sum_congr rfl ?_
  intro i _
  rw [planOf, List.map_map]
  exact hlist _ fun path hpath => ((hrecorded i).walks path hpath).2

/-- Recorded flows that fit when they are scaled are a routing. -/
theorem routing_of_recorded {demands' : Fin n → MfDemand V K} {x ratio : K} (hpar : NoParallel g)
    (hrecorded : AllRecorded g demands demands')
    (hamounts : ∀ i, ∀ entry ∈ (demands' i).pathFlowMap, 0 ≤ entry.2) (hx : 0 ≤ x)
    (htotal : ∀ i, ratio * (demands i).demand ≤ (demands' i).flow * x)
    (hfits : ∀ a, routed demands' (g.source a) (g.target a) * x ≤ g.capacity a) :
    (problemOf g demands).Routing ratio (planOf g demands' x) where
  routes := by
    intro i entry hentry
    obtain ⟨old, hold, rfl⟩ := List.mem_map.mp hentry
    exact route_arcsOf .start ((hrecorded i).walks old.1 (List.mem_map_of_mem hold)).1
  nonneg := by
    intro i entry hentry
    obtain ⟨old, hold, rfl⟩ := List.mem_map.mp hentry
    exact mul_nonneg (hamounts i old hold) hx
  total := by
    intro i
    refine (htotal i).trans (le_of_eq ?_)
    rw [(hrecorded i).total, planOf, List.map_map, ← List.sum_map_mul_right]
    rfl
  fits a := by
    rw [load_planOf hpar hrecorded]
    exact hfits a

end

/-! ## With real numbers -/

section

variable {V : Type} [DecidableEq V] {g : NetGraph V ℝ} {dijkstra : g.Dijkstra} {n k : Nat} {e low cmin : ℝ}
  {demands : Fin n → MfDemand V ℝ} {orders : Nat → Equiv.Perm (Fin n)} {t : State g n × Nat} {s : State g n}

omit [DecidableEq V] in
/-- The least length the volume starts from. -/
theorem numEdges_mul_delta (a : Fin g.numEdges) (he : 0 < e) (he1 : e < 1) :
    g.numEdges * delta g e = (1 - e) * delta g e ^ (1 - e) := by
  have hedges : (0 : ℝ) < g.numEdges := Nat.cast_pos.mpr a.pos
  have hbase : (0 : ℝ) < g.numEdges / (1 - e) := div_pos hedges (by linarith)
  have hpower : delta g e ^ (1 - e) = delta g e * (g.numEdges / (1 - e)) := by
    rw [delta, ← Real.rpow_mul hbase.le]
    have hexp : -1 / e * (1 - e) = -1 / e + 1 := by
      field_simp
      ring
    rw [hexp, Real.rpow_add hbase, Real.rpow_one]
  have hne : 1 - e ≠ 0 := by linarith
  rw [hpower]
  field_simp

theorem start_D (hpar : NoParallel g) (hcap : ∀ a, 0 < g.capacity a) (δ : ℝ) (demands : Fin n → MfDemand V ℝ) :
    (start g δ demands).D = g.numEdges * δ := by
  have hterm : ∀ a, g.assignWeights (fun a => δ / g.capacity a) a * g.capacity a = δ := by
    intro a
    rw [NetGraph.assignWeights_found _ (hpar.found a), div_mul_cancel₀ _ (hcap a).ne']
  show ∑ a, g.assignWeights (fun a => δ / g.capacity a) a * g.capacity a = _
  rw [Finset.sum_congr rfl fun a _ => hterm a, Finset.sum_const, Finset.card_univ, Fintype.card_fin,
    nsmul_eq_mul]

omit [DecidableEq V] in
theorem scaleOf_pos (a : Fin g.numEdges) (he : 0 < e) (he1 : e < 1) : 0 < scaleOf g e := by
  obtain ⟨hδ, hδ1⟩ := delta_bounds a he he1
  have hlog : 0 < Real.log (1 + e) := Real.log_pos (by linarith)
  have hrange : 0 < Real.log (1 / delta g e) := Real.log_pos (one_lt_one_div hδ hδ1)
  rw [scaleOf, one_div_div]
  exact div_pos hlog hrange

omit [DecidableEq V] in
theorem excess_pos (a : Fin g.numEdges) (he : 0 < e) (he1 : e < 1) : 0 < excess g e := by
  have hscale := scaleOf_pos a he he1
  rw [scaleOf, one_div_div] at hscale
  rw [excess]
  linarith

omit [DecidableEq V] in
/-- So many rounds leave a demand its part of any ratio. -/
theorem le_rounds_mul_scale {ratio : ℝ} {rounds : Nat} (a : Fin g.numEdges) (he : 0 < e) (he1 : e < 1)
    (hratio : 1 ≤ ratio) (h : (1 - e / ratio) ^ rounds ≤ (1 - e) * delta g e ^ (1 - e)) :
    (1 - e) ^ 3 * ratio ≤ (rounds - 1) * scaleOf g e := by
  obtain ⟨hδ, hδ1⟩ := delta_bounds a he he1
  have hrange : 0 < Real.log (1 / delta g e) := Real.log_pos (one_lt_one_div hδ hδ1)
  have hrounds := ConcurrentFlow.rounds_ge he he1 hratio hδ hδ1 h
  have hlog : e * (1 - e) ≤ Real.log (1 + e) := by
    have hinv := Real.one_sub_inv_le_log_of_pos (x := 1 + e) (by linarith)
    have hdiv : e * (1 - e) ≤ 1 - (1 + e)⁻¹ := by
      have hsame : 1 - (1 + e)⁻¹ = e / (1 + e) := by
        have hne : 1 + e ≠ 0 := by linarith
        field_simp
        ring
      rw [hsame, le_div_iff₀ (by linarith)]
      nlinarith [pow_pos he 3]
    linarith
  have hscaled := mul_le_mul_of_nonneg_right hrounds (scaleOf_pos a he he1).le
  refine le_trans ?_ hscaled
  have hexpand : ratio * (1 - e) ^ 2 / e * Real.log (1 / delta g e) * scaleOf g e =
      ratio * (1 - e) ^ 2 / e * Real.log (1 + e) := by
    rw [scaleOf, one_div_div]
    field_simp
  rw [hexpand]
  have hfactor : 0 ≤ ratio * (1 - e) ^ 2 / e :=
    div_nonneg (mul_nonneg (by linarith) (sq_nonneg _)) he.le
  refine le_trans (le_of_eq ?_) (mul_le_mul_of_nonneg_left hlog hfactor)
  field_simp

/-- No routing has a ratio above `beta`. -/
theorem le_calcBeta {w : g.Weights} (h : Setting g dijkstra e low cmin demands) (hpar : NoParallel g)
    (hlong : Long g low w) (hpos : ∃ i, 0 < (demands i).demand) {ratio : ℝ} {plan : Plan (Fin g.numEdges) (Fin n) ℝ}
    (hplan : (problemOf g demands).Routing ratio plan) : ratio ≤ calcBeta g dijkstra w demands := by
  have hdist := distances h.trees hpar h.reachable hlong.nonneg
  obtain ⟨i, hi⟩ := hpos
  have hfar : 0 < distance dijkstra demands w i := by
    have htree := h.trees w hlong.nonneg (demands i).source
    obtain ⟨hops, hhops⟩ := htree.exists_treePath (h.reachable i)
    rw [distance, htree.dist_eq hpar hhops (h.reachable i)]
    cases hops with
    | nil =>
      have hsame : (demands i).sink = (demands i).source := by
        generalize (demands i).sink = f at hhops
        cases hhops
        rfl
      exact absurd hsame.symm (h.different i)
    | cons hop rest =>
      rw [List.map_cons, List.sum_cons]
      refine add_pos_of_pos_of_nonneg (h.low_pos.trans_le (hlong.bound _ (hpar.found _))) ?_
      refine List.sum_nonneg ?_
      intro x hx
      obtain ⟨hop', -, rfl⟩ := List.mem_map.mp hx
      exact hlong.nonneg _
  have htotal : 0 < ∑ i, (demands i).demand * distance dijkstra demands w i :=
    Finset.sum_pos' (fun j _ => mul_nonneg (h.demand j) (hdist.nonneg j)) ⟨i, Finset.mem_univ i, mul_pos hi hfar⟩
  show ratio ≤ g.calcD w / ∑ i, (demands i).demand * distance dijkstra demands w i
  rw [le_div_iff₀ htotal]
  exact hplan.mul_le_volume hlong.nonneg hdist

omit [DecidableEq V] in
theorem calcBeta_congr (dijkstra : g.Dijkstra) (w : g.Weights) {demands' : Fin n → MfDemand V ℝ}
    (h : ∀ i, (demands' i).source = (demands i).source ∧ (demands' i).sink = (demands i).sink ∧
      (demands' i).demand = (demands i).demand) {scale : ℝ} :
    calcBeta g dijkstra w (rescaleDemandsFlows demands' scale) = calcBeta g dijkstra w demands := by
  unfold calcBeta rescaleDemandsFlows
  congr 1
  refine Finset.sum_congr rfl ?_
  intro i _
  obtain ⟨hsource, hsink, hdemand⟩ := h i
  dsimp only
  rw [hsource, hsink, hdemand]

/-- `max_concurrent_flow` ends with a `lambda` that is at least `(1 - e) ^ 3` of any ratio that a routing attains, from
a ratio of one on, and that a routing attains itself but for the excess. No routing attains more than `beta`. -/
theorem maxConcurrentFlow_approximates (g : NetGraph V ℝ) (dijkstra : g.Dijkstra) (htrees : dijkstra.FindsTrees)
    (hpar : NoParallel g) (hcap : ∀ a, 0 < g.capacity a) (dblMax e : ℝ) (he : 0 < e) (he1 : e < 1)
    (demands : Fin n → MfDemand V ℝ) (hne : ∀ i, (demands i).source ≠ (demands i).sink)
    (hdemand : ∀ i, 0 ≤ (demands i).demand) (hpos : ∃ i, 0 < (demands i).demand)
    (hreach : ∀ i, Relation.ReflTransGen g.Adj (demands i).source (demands i).sink)
    (orders : Nat → Equiv.Perm (Fin n)) :
    ∃ r, Returns (maxConcurrentFlow g dijkstra dblMax e orders demands) r ∧
      (∀ ratio plan, (problemOf g demands).Routing ratio plan →
        ratio ≤ r.beta ∧ (1 ≤ ratio → (1 - e) ^ 3 * ratio ≤ dblMax → (1 - e) ^ 3 * ratio ≤ r.lambda)) ∧
      ∃ plan, (problemOf g demands).Routing (r.lambda / excess g e) plan := by
  obtain ⟨i, hi⟩ := hpos
  obtain ⟨arc⟩ := exists_arc (hne i) (hreach i)
  obtain ⟨hδ, hδ1⟩ := delta_bounds arc he he1
  obtain ⟨low, cmin, hsetting, hstart⟩ := exists_setting htrees hcap arc he he1 hne hdemand hreach
  obtain ⟨⟨s, done⟩, hphases, hsound, hD⟩ := phases_end hsetting ⟨i, hi⟩ orders hstart
  obtain ⟨turns, hrun⟩ := hphases.exists_run
  obtain ⟨hsent, hvolume⟩ := phases_gain hsetting hpar hstart (fun _ => rfl) hrun
  have hpriced := phases_priced hpar hcap hδ.le he hne (start_priced hpar hcap he hδ1.le demands) hrun
  have hscale := scaleOf_pos arc he he1
  have hexcess := excess_pos arc he he1
  have hflow : ∀ i, (rescaleDemandsFlows s.demands (scaleOf g e) i).flow = (s.demands i).flow * scaleOf g e :=
    fun _ => rfl
  have hsame : ∀ i, (rescaleDemandsFlows s.demands (scaleOf g e) i).demand = (demands i).demand :=
    fun i => (hsound.demands i).2.2
  obtain ⟨hleast, hgreatest⟩ := calcLambda_bounds dblMax (rescaleDemandsFlows s.demands (scaleOf g e))
  refine ⟨_, hphases.bind (WhileLoop.returns_pure _), ?_, ?_⟩
  · intro ratio plan hplan
    refine ⟨?_, ?_⟩
    · have hbeta := le_calcBeta hsetting hpar hsound.long ⟨i, hi⟩ hplan
      rwa [← calcBeta_congr dijkstra s.gdual hsound.demands] at hbeta
    · intro hratio hmax
      have hrounds := hvolume ratio plan (he1.le.trans hratio) hplan
      rw [start_D hpar hcap, numEdges_mul_delta arc he he1] at hrounds
      have hfactor : 0 ≤ 1 - e / ratio := sub_nonneg.mpr ((div_le_one (by linarith)).mpr (he1.le.trans hratio))
      have hpower : (1 - e / ratio) ^ done ≤ (1 - e) * delta g e ^ (1 - e) :=
        (le_mul_of_one_le_right (pow_nonneg hfactor _) hD).trans hrounds
      refine hgreatest _ hmax ?_
      intro j hj
      rw [hsame] at hj ⊢
      rw [hflow, le_div_iff₀ ((hdemand j).lt_of_ne' hj)]
      calc (1 - e) ^ 3 * ratio * (demands j).demand
          ≤ (done - 1) * scaleOf g e * (demands j).demand :=
            mul_le_mul_of_nonneg_right (le_rounds_mul_scale arc he he1 hratio hpower) (hdemand j)
        _ = (done - 1) * (demands j).demand * scaleOf g e := mul_right_comm _ _ _
        _ ≤ (s.demands j).flow * scaleOf g e := mul_le_mul_of_nonneg_right (hsent j) hscale.le
  · refine ⟨planOf g (rescaleDemandsFlows s.demands (scaleOf g e)) (excess g e)⁻¹, ?_⟩
    refine routing_of_recorded hpar (rescale_recorded _ hpriced.recorded) ?_ (inv_nonneg.mpr hexcess.le) ?_ ?_
    · intro j entry hentry
      obtain ⟨old, hold, rfl⟩ := List.mem_map.mp hentry
      exact mul_nonneg (hpriced.amounts j old hold) hscale.le
    · intro j
      rw [div_mul_eq_mul_div, ← div_eq_mul_inv]
      refine div_le_div_of_nonneg_right ?_ hexcess.le
      by_cases hj : (demands j).demand = 0
      · rw [hj, mul_zero, hflow]
        refine mul_nonneg ?_ hscale.le
        have hnonneg := hsent j
        rwa [hj, mul_zero] at hnonneg
      · have hle := hleast j (hsame j ▸ hj)
        rwa [hsame, le_div_iff₀ ((hdemand j).lt_of_ne' hj)] at hle
    · intro a
      rw [← div_eq_mul_inv, div_le_iff₀ hexcess]
      exact hpriced.rescaled_le hcap he he1 a

theorem maxConcurrentFlow_approximates_twoRouters :
    ∃ r, Returns (maxConcurrentFlow twoRouters twoRoutersDijkstra 1000 (1 / 2) (fun _ => Equiv.refl (Fin 1))
        oneDemand) r ∧
      (∀ ratio plan, (problemOf twoRouters oneDemand).Routing ratio plan → ratio ≤ r.beta ∧
        (1 ≤ ratio → (1 - 1 / 2) ^ 3 * ratio ≤ 1000 → (1 - 1 / 2) ^ 3 * ratio ≤ r.lambda)) ∧
      ∃ plan, (problemOf twoRouters oneDemand).Routing (r.lambda / excess twoRouters (1 / 2)) plan :=
  maxConcurrentFlow_approximates twoRouters twoRoutersDijkstra twoRouters_findsTrees twoRouters_noParallel
    (fun _ => one_pos) 1000 (1 / 2) (by norm_num) (by norm_num) oneDemand (fun _ => Bool.false_ne_true)
    (fun _ => zero_le_one) ⟨0, one_pos⟩ (fun _ => twoRouters_connected _ _) fun _ => Equiv.refl (Fin 1)

end

end GraphMf

end Blackadder
