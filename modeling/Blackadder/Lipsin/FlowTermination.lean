import Blackadder.Lipsin.FlowPaths

/-!
# The approximation ends

The weighted length `D` never falls, and a phase that leaves it below one has sent every demand, which makes it grow by
a least amount.
-/

namespace Blackadder

namespace GraphMf

open TMIgraph (MfDemand)
open WhileLoop (Returns)

section

variable {V K : Type} [DecidableEq V] [Field K] [LinearOrder K] [IsStrictOrderedRing K] {g : NetGraph V K}
  {dijkstra : g.Dijkstra} {n : Nat} {e left mincap low cmin x : K} {i : Fin n} {s : State g n} {p : V}
  {a ed : Fin g.numEdges} {rest hops : List (V × Fin g.numEdges)} {w : g.Weights}
  {demands : Fin n → MfDemand V K}

/-! ## Lengths -/

/-- No length is negative, and those of edges that are found have a lower bound. -/
structure Long (g : NetGraph V K) (low : K) (w : g.Weights) : Prop where
  nonneg : ∀ a, 0 ≤ w a
  bound : ∀ a, g.Found a → low ≤ w a

omit [DecidableEq V] [LinearOrder K] [IsStrictOrderedRing K] in
theorem calcD_update (w : g.Weights) (a : Fin g.numEdges) (x : K) :
    g.calcD (Function.update w a x) = g.calcD w + (x - w a) * g.capacity a := by
  have hterm : ∀ b, Function.update w a x b * g.capacity b =
      w b * g.capacity b + if b = a then (x - w a) * g.capacity a else 0 := by
    intro b
    by_cases hb : b = a
    · subst hb
      rw [Function.update_self, if_pos rfl]
      ring
    · rw [Function.update_of_ne hb, if_neg hb, add_zero]
  rw [NetGraph.calcD, Finset.sum_congr rfl fun b _ => hterm b, Finset.sum_add_distrib,
    Finset.sum_ite_eq' Finset.univ a, if_pos (Finset.mem_univ a), NetGraph.calcD]

/-- One edge grows: what is sent, by its length, is added to `D`. -/
theorem growVisit_long (hcap : ∀ a, 0 < g.capacity a) (he : 0 ≤ e) (hmin : 0 ≤ mincap) (hw : Long g low w)
    (path : List V) (p : V) (ed : Fin g.numEdges) :
    Long g low (growVisit g e mincap (w, path) p ed).1 ∧
      g.calcD (growVisit g e mincap (w, path) p ed).1 = g.calcD w + e * mincap * w ed := by
  have hrate : 0 ≤ e * mincap / g.capacity ed := div_nonneg (mul_nonneg he hmin) (hcap ed).le
  have hgrows : w ed ≤ w ed * (1 + e * mincap / g.capacity ed) := by
    rw [mul_add, mul_one]
    exact le_add_of_nonneg_right (mul_nonneg (hw.nonneg ed) hrate)
  have hle : ∀ a, w a ≤ (growVisit g e mincap (w, path) p ed).1 a := by
    intro a
    by_cases ha : a = ed
    · subst ha
      simpa [growVisit] using hgrows
    · simp [growVisit, ha]
  refine ⟨⟨fun a => (hw.nonneg a).trans (hle a), fun a ha => (hw.bound a ha).trans (hle a)⟩, ?_⟩
  rw [growVisit, calcD_update]
  have hne : g.capacity ed ≠ 0 := (hcap ed).ne'
  field_simp
  ring

theorem grow_long (hcap : ∀ a, 0 < g.capacity a) (he : 0 ≤ e) (hmin : 0 ≤ mincap) (hw : Long g low w)
    (hops : List (V × Fin g.numEdges)) :
    Long g low (grow g e mincap hops w) ∧ g.calcD w ≤ g.calcD (grow g e mincap hops w) := by
  induction hops generalizing w with
  | nil => exact ⟨hw, le_rfl⟩
  | cons h hops ih =>
    obtain ⟨hlong, hD⟩ := growVisit_long hcap he hmin hw [] h.1 h.2
    obtain ⟨hrest, hle⟩ := ih hlong
    refine ⟨hrest, le_trans ?_ hle⟩
    rw [hD]
    exact le_add_of_nonneg_right (mul_nonneg (mul_nonneg he hmin) (hw.nonneg _))

/-- Along a path, `D` grows at least by what its last edge brings. -/
theorem grow_cons (hcap : ∀ a, 0 < g.capacity a) (he : 0 ≤ e) (hmin : 0 ≤ mincap) (hw : Long g low w)
    (hed : g.Found ed) :
    g.calcD w + e * mincap * low ≤ g.calcD (grow g e mincap ((p, ed) :: rest) w) := by
  obtain ⟨hlong, hD⟩ := growVisit_long hcap he hmin hw [] p ed
  have hrest := (grow_long hcap he hmin hlong rest).2
  rw [hD] at hrest
  refine le_trans ?_ hrest
  have hless := mul_le_mul_of_nonneg_left (hw.bound ed hed) (mul_nonneg he hmin)
  linarith

omit [DecidableEq V] [Field K] [IsStrictOrderedRing K] in
theorem le_bottleneck (hcmin : ∀ a, cmin ≤ g.capacity a) (ed : Fin g.numEdges)
    (rest : List (V × Fin g.numEdges)) : cmin ≤ bottleneck g ed rest := by
  have hfold : ∀ (rest : List (V × Fin g.numEdges)) (x : K), cmin ≤ x →
      cmin ≤ rest.foldl (fun mincap h => capVisit g mincap h.1 h.2) x := by
    intro rest
    induction rest with
    | nil => exact fun x hx => hx
    | cons h rest ih =>
      intro x hx
      refine ih _ ?_
      show cmin ≤ capVisit g x h.1 h.2
      unfold capVisit
      split
      · exact hcmin _
      · exact hx
  exact hfold rest _ (hcmin ed)

/-! ## The loops -/

/-- The lengths of a state are bounded and `D` is up to date, and the demands are the given ones. -/
structure Sound (low : K) (demands : Fin n → MfDemand V K) (s : State g n) : Prop where
  long : Long g low s.gdual
  D : s.D = g.calcD s.gdual
  demands : ∀ i, (s.demands i).source = (demands i).source ∧ (s.demands i).sink = (demands i).sink ∧
    (s.demands i).demand = (demands i).demand

/-- What the loops start from: capacities and demands with their bounds, and sinks that can be reached. -/
structure Setting (g : NetGraph V K) (dijkstra : g.Dijkstra) (e low cmin : K) (demands : Fin n → MfDemand V K) :
    Prop where
  trees : dijkstra.FindsTrees
  e_pos : 0 < e
  low_pos : 0 < low
  cmin_pos : 0 < cmin
  capacity : ∀ a, cmin ≤ g.capacity a
  different : ∀ i, (demands i).source ≠ (demands i).sink
  demand : ∀ i, 0 ≤ (demands i).demand
  reachable : ∀ i, Relation.ReflTransGen g.Adj (demands i).source (demands i).sink

theorem sendAlong_sound (h : Setting g dijkstra e low cmin demands) (hs : Sound low demands s)
    (hmin : 0 ≤ mincap) (hed : g.Found ed) (i : Fin n) (left : K) (p : V) (rest : List (V × Fin g.numEdges)) :
    Sound low demands (sendAlong e i s left mincap ((p, ed) :: rest)).1 ∧
      s.D + e * mincap * low ≤ (sendAlong e i s left mincap ((p, ed) :: rest)).1.D := by
  have hcap : ∀ a, 0 < g.capacity a := fun a => h.cmin_pos.trans_le (h.capacity a)
  refine ⟨⟨(grow_long hcap h.e_pos.le hmin hs.long _).1, rfl, ?_⟩, ?_⟩
  · intro j
    by_cases hj : j = i
    · subst hj
      simpa [sendAlong] using hs.demands j
    · simpa [sendAlong, hj] using hs.demands j
  · rw [hs.D]
    exact grow_cons hcap h.e_pos.le hmin hs.long hed

/-- An iteration finds its path, sends the demand or a least amount of it, and makes `D` grow by that. -/
theorem iteration_sound (h : Setting g dijkstra e low cmin demands) (hs : Sound low demands s)
    (hleft : 0 < left) :
    ∃ s' left', Returns (iteration g dijkstra e i (s, left)) (s', left') ∧ Sound low demands s' ∧
      0 ≤ left' ∧ left' ≤ max 0 (left - cmin) ∧ s.D + e * low * (left - left') ≤ s'.D := by
  obtain ⟨hsource, hsink, -⟩ := hs.demands i
  obtain ⟨hops, hhops⟩ := (h.trees _ hs.long.nonneg (s.demands i).source).exists_treePath
    (hsource ▸ hsink ▸ h.reachable i)
  cases hops with
  | nil =>
    have hsame : (s.demands i).sink = (s.demands i).source := by
      generalize (s.demands i).sink = f at hhops
      cases hhops
      rfl
    exact absurd (hsource ▸ hsink ▸ hsame.symm) (h.different i)
  | cons hop rest =>
    obtain ⟨p, ed⟩ := hop
    obtain ⟨-, -, hed, -⟩ := NetGraph.TreePath.cons_iff.mp hhops
    have hbottle := le_bottleneck h.capacity ed rest
    set mincap := share g left ed rest with hmincap
    have hmin : 0 ≤ mincap ∧ mincap ≤ left ∧ (mincap = left ∨ cmin ≤ mincap) := by
      rw [hmincap, share]
      split
      · exact ⟨hleft.le, le_rfl, .inl rfl⟩
      · next hnot => exact ⟨h.cmin_pos.le.trans hbottle, not_lt.mp hnot, .inr hbottle⟩
    obtain ⟨hpos, hle, hpart⟩ := hmin
    obtain ⟨hsound, hD⟩ := sendAlong_sound h hs hpos (NetGraph.found_of_edge hed) i left p rest
    refine ⟨_, _, iteration_of_treePath hhops, hsound, sub_nonneg.mpr hle, ?_, ?_⟩
    · rcases hpart with hall | hsome
      · refine le_max_of_le_left ?_
        show left - mincap ≤ 0
        rw [hall, sub_self]
      · exact le_max_of_le_right (sub_le_sub_left hsome left)
    · have hsent : left - (left - mincap) = mincap := by ring
      show s.D + e * low * (left - (left - mincap)) ≤ _
      rw [hsent]
      refine le_trans (le_of_eq ?_) hD
      ring

variable [FloorSemiring K]

/-- The iterations of a demand end. Those that leave `D` below one have sent all of it. -/
theorem step_sound (h : Setting g dijkstra e low cmin demands) (hs : Sound low demands s) (i : Fin n) :
    ∃ s', Returns (step g dijkstra e s i) s' ∧ Sound low demands s' ∧ s.D ≤ s'.D ∧
      (s'.D < 1 → s.D + e * low * (demands i).demand ≤ s'.D) := by
  obtain ⟨-, -, hdemand⟩ := hs.demands i
  let I : State g n × K → Prop := fun t => Sound low demands t.1 ∧ 0 ≤ t.2 ∧ t.2 ≤ (demands i).demand ∧
    s.D + e * low * ((demands i).demand - t.2) ≤ t.1.D
  have hstart : I (s, (s.demands i).demand) := by
    refine ⟨hs, hdemand ▸ h.demand i, hdemand.le, ?_⟩
    rw [hdemand, sub_self, mul_zero, add_zero]
  have hturn : ∀ t, I t → t.1.D < 1 ∧ 0 < t.2 → ∃ t', Returns (iteration g dijkstra e i t) t' ∧ I t' ∧
      t'.2 ≤ max 0 (t.2 - cmin) := by
    rintro ⟨s₁, left⟩ ⟨hs₁, -, hle, hD⟩ ⟨-, hpos⟩
    obtain ⟨s', left', hturn, hs', hleft', hless, hD'⟩ := iteration_sound (i := i) h hs₁ hpos
    refine ⟨(s', left'), hturn, ⟨hs', hleft', ?_, ?_⟩, hless⟩
    · refine hless.trans (max_le (h.demand i) (le_trans ?_ hle))
      exact sub_le_self left h.cmin_pos.le
    · refine le_trans (le_of_eq ?_) ((add_le_add_left hD _).trans hD')
      ring
  obtain ⟨⟨s', left'⟩, hrun, ⟨hs', hleft', hle, hD⟩, hend⟩ :=
    WhileLoop.run_ends_of_gap (fun t : State g n × K => t.2) h.cmin_pos hstart (fun t _ hc => hc.2) hturn
  refine ⟨s', hrun.map Prod.fst, hs', ?_, ?_⟩
  · refine le_trans (le_add_of_nonneg_right ?_) hD
    exact mul_nonneg (mul_nonneg h.e_pos.le h.low_pos.le) (sub_nonneg.mpr hle)
  · intro hbelow
    have hzero : left' = 0 := le_antisymm (not_lt.mp fun hpos => hend ⟨hbelow, hpos⟩) hleft'
    subst hzero
    simpa using hD

theorem foldlM_step_sound (h : Setting g dijkstra e low cmin demands) (order : List (Fin n))
    (hs : Sound low demands s) :
    ∃ s', Returns (order.foldlM (step g dijkstra e) s) s' ∧ Sound low demands s' ∧ s.D ≤ s'.D ∧
      ∀ i ∈ order, s'.D < 1 → s.D + e * low * (demands i).demand ≤ s'.D := by
  induction order generalizing s with
  | nil => exact ⟨s, WhileLoop.returns_pure s, hs, le_rfl, by simp⟩
  | cons j order ih =>
    obtain ⟨s₁, hstep, hs₁, hle₁, hD₁⟩ := step_sound h hs j
    obtain ⟨s', hrest, hs', hle', hD'⟩ := ih hs₁
    refine ⟨s', ?_, hs', hle₁.trans hle', ?_⟩
    · rw [List.foldlM_cons]
      exact hstep.bind hrest
    · intro i hi hbelow
      rcases List.mem_cons.mp hi with rfl | hmem
      · exact (hD₁ (hle'.trans_lt hbelow)).trans hle'
      · exact (add_le_add_left hle₁ _).trans (hD' i hmem hbelow)

/-- The phases end, whatever the orders of the demands. -/
theorem phases_end (h : Setting g dijkstra e low cmin demands) (hpos : ∃ i, 0 < (demands i).demand)
    (orders : Nat → Equiv.Perm (Fin n)) (hs : Sound low demands s) :
    ∃ t, Returns (phases g dijkstra e orders s) t ∧ Sound low demands t.1 ∧ 1 ≤ t.1.D := by
  obtain ⟨i, hi⟩ := hpos
  have hgrowth : 0 < e * low * (demands i).demand := mul_pos (mul_pos h.e_pos h.low_pos) hi
  have hturn : ∀ t : State g n × Nat, Sound low demands t.1 → t.1.D < 1 →
      ∃ t', Returns ((fun s => (s, t.2 + 1)) <$> phase g dijkstra e (orders t.2) t.1) t' ∧
        Sound low demands t'.1 ∧ 1 - t'.1.D ≤ max 0 (1 - t.1.D - e * low * (demands i).demand) := by
    rintro ⟨s₁, k⟩ hs₁ -
    obtain ⟨s', hphase, hs', -, hD⟩ := foldlM_step_sound h ((List.finRange n).map (orders k)) hs₁
    refine ⟨(s', k + 1), hphase.map fun s => (s, k + 1), hs', ?_⟩
    by_cases hbelow : s'.D < 1
    · have hall : i ∈ (List.finRange n).map (orders k) :=
        List.mem_map.mpr ⟨(orders k).symm i, List.mem_finRange _, (orders k).apply_symm_apply i⟩
      have hD := hD i hall hbelow
      refine le_max_of_le_right ?_
      linarith
    · exact le_max_of_le_left (sub_nonpos.mpr (not_lt.mp hbelow))
  obtain ⟨t, hrun, ht, hend⟩ := WhileLoop.run_ends_of_gap (fun t : State g n × Nat => 1 - t.1.D) hgrowth
    (s := (s, 0)) hs (fun t _ hc => sub_pos.mpr hc) hturn
  exact ⟨t, hrun, ht, not_lt.mp hend⟩

end

/-! ## The whole routine -/

section

variable {V : Type} [DecidableEq V] {g : NetGraph V ℝ} {dijkstra : g.Dijkstra} {n : Nat} {delta cmax e : ℝ}
  {demands : Fin n → MfDemand V ℝ}

theorem start_sound (hcap : ∀ a, 0 < g.capacity a) (hcmax : ∀ a, g.capacity a ≤ cmax) (hdelta : 0 < delta)
    (demands : Fin n → MfDemand V ℝ) : Sound (delta / cmax) demands (start g delta demands) where
  long := by
    have hpos : ∀ a, 0 < delta / g.capacity a := fun a => div_pos hdelta (hcap a)
    refine ⟨?_, ?_⟩
    · intro a
      rcases NetGraph.assignWeights_or (fun a => delta / g.capacity a) a with hvalue | hzero
      · exact (hpos a).le.trans hvalue.ge
      · exact hzero.ge
    · intro a ha
      refine le_trans ?_ (NetGraph.assignWeights_found (fun a => delta / g.capacity a) ha).ge
      exact div_le_div_of_nonneg_left hdelta.le (hcap a) (hcmax a)
  D := rfl
  demands _ := ⟨rfl, rfl, rfl⟩

omit [DecidableEq V] in
theorem exists_arc {u v : V} (hne : u ≠ v) (h : Relation.ReflTransGen g.Adj u v) :
    Nonempty (Fin g.numEdges) := by
  rcases h.cases_head with rfl | ⟨_, ⟨a, -, -⟩, -⟩
  · exact absurd rfl hne
  · exact ⟨a⟩

omit [DecidableEq V] in
theorem delta_pos (hedge : Nonempty (Fin g.numEdges)) (he : e < 1) : 0 < GraphMf.delta g e := by
  obtain ⟨a⟩ := hedge
  have hedges : (0 : ℝ) < g.numEdges := Nat.cast_pos.mpr a.pos
  exact Real.rpow_pos_of_pos (div_pos hedges (sub_pos.mpr he)) _

/-- `max_concurrent_flow` ends: every path back from a sink leads over edges to the source, and the phases, their steps
and iterations come to an end with `D` at one or above. -/
theorem maxConcurrentFlow_ends (g : NetGraph V ℝ) (dijkstra : g.Dijkstra) (htrees : dijkstra.FindsTrees)
    (hcap : ∀ a, 0 < g.capacity a) (dblMax e : ℝ) (he : 0 < e) (he1 : e < 1)
    (demands : Fin n → MfDemand V ℝ) (hne : ∀ i, (demands i).source ≠ (demands i).sink)
    (hdemand : ∀ i, 0 ≤ (demands i).demand) (hpos : ∃ i, 0 < (demands i).demand)
    (hreach : ∀ i, Relation.ReflTransGen g.Adj (demands i).source (demands i).sink)
    (orders : Nat → Equiv.Perm (Fin n)) :
    ∃ s phasesDone,
      Returns (phases g dijkstra e orders (start g (GraphMf.delta g e) demands)) (s, phasesDone) ∧
      1 ≤ g.calcD s.gdual ∧
      ∃ r, Returns (maxConcurrentFlow g dijkstra dblMax e orders demands) r ∧ r.totalphases = phasesDone ∧
        ∀ i, ∀ path ∈ (r.demands i).pathFlowMap.map Prod.fst,
          Walks.IsWalk g.Adj (demands i).source (demands i).sink path := by
  obtain ⟨i, hi⟩ := hpos
  have hedge := exists_arc (hne i) (hreach i)
  obtain ⟨least, hleast⟩ := Finite.exists_min g.capacity
  obtain ⟨most, hmost⟩ := Finite.exists_max g.capacity
  have hdelta := delta_pos hedge he1
  have hsetting : Setting g dijkstra e (GraphMf.delta g e / g.capacity most) (g.capacity least) demands := {
    trees := htrees
    e_pos := he
    low_pos := div_pos hdelta (hcap most)
    cmin_pos := hcap least
    capacity := hleast
    different := hne
    demand := hdemand
    reachable := hreach }
  obtain ⟨⟨s, phasesDone⟩, hphases, hsound, hD⟩ :=
    phases_end hsetting ⟨i, hi⟩ orders (start_sound hcap hmost hdelta demands)
  have hreturns : ∃ r, Returns (maxConcurrentFlow g dijkstra dblMax e orders demands) r ∧
      r.totalphases = phasesDone := ⟨_, hphases.bind (WhileLoop.returns_pure _), rfl⟩
  obtain ⟨r, hr, htotal⟩ := hreturns
  obtain ⟨k, hrun⟩ := hr.exists_run
  refine ⟨s, phasesDone, hphases, hsound.D ▸ hD, r, hr, htotal, ?_⟩
  intro i path hpath
  exact ((maxConcurrentFlow_recorded hne hrun).1 i).walks path hpath |>.1

theorem twoRouters_ends : ∃ s phasesDone,
    Returns (phases twoRouters twoRoutersDijkstra (1 / 2) (fun _ => Equiv.refl (Fin 1))
      (start twoRouters (GraphMf.delta twoRouters (1 / 2)) fun _ => ⟨0, false, true, 3, []⟩)) (s, phasesDone) ∧
    1 ≤ twoRouters.calcD s.gdual ∧
    ∃ r, Returns (maxConcurrentFlow twoRouters twoRoutersDijkstra 1000 (1 / 2) (fun _ => Equiv.refl (Fin 1))
        (fun _ => ⟨0, false, true, 3, []⟩)) r ∧ r.totalphases = phasesDone ∧
      ∀ i, ∀ path ∈ (r.demands i).pathFlowMap.map Prod.fst,
        Walks.IsWalk twoRouters.Adj false true path := by
  have hreach : Relation.ReflTransGen twoRouters.Adj false true :=
    .single ⟨twoRoutersArc false, (twoRoutersArc_ends false).1, (twoRoutersArc_ends false).2⟩
  exact maxConcurrentFlow_ends twoRouters twoRoutersDijkstra twoRouters_findsTrees (fun _ => one_pos)
    1000 (1 / 2) (by norm_num) (by norm_num) (fun _ => ⟨0, false, true, 3, []⟩) (by simp) (by norm_num)
    ⟨0, by norm_num⟩ (fun _ => hreach) (fun _ => Equiv.refl (Fin 1))

end

end GraphMf

end Blackadder
