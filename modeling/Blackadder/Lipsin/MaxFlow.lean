import Mathlib.Algebra.BigOperators.Fin
import Mathlib.Analysis.SpecialFunctions.Log.Basic
import Mathlib.Analysis.SpecialFunctions.Pow.Real
import Blackadder.Lib.Walk
import Blackadder.Lib.WhileLoop
import Blackadder.Lipsin.CachedFIDs

/-!
# Concurrent flows

`tm_max_flow.cpp`, with exact numbers for the doubles and a parameter for `dijkstra_shortest_paths`. A program fails
that
asks for a property of an edge that is not there.
-/

namespace Blackadder

namespace GraphMf

open TMIgraph (MfDemand)
open WhileLoop (Program Returns)

variable {V K : Type}

/-- `NetGraph`, as the constructor makes it of edges and their capacities. All weights are zero. -/
structure NetGraph (V K : Type) where
  numEdges : Nat
  source : Fin numEdges → V
  target : Fin numEdges → V
  capacity : Fin numEdges → K

namespace NetGraph

variable (g : NetGraph V K)

abbrev Weights := Fin g.numEdges → K

/-- What `dijkstra_shortest_paths` writes for a source: `penult` and `dist`. -/
abbrev Dijkstra := g.Weights → V → (V → V) × (V → K)

def Adj (u v : V) : Prop := ∃ a, g.source a = u ∧ g.target a = v

section

variable [DecidableEq V]

/-- `edge(u, v, g)`, the first of the edges that lead there. -/
def edge (u v : V) : Option (Fin g.numEdges) :=
  (List.finRange g.numEdges).find? fun a => g.source a = u ∧ g.target a = v

/-- One turn of the loops that assign a weight to all edges. Of parallel edges only the first gets one. -/
def assignWeight (value : Fin g.numEdges → K) (w : g.Weights) (a : Fin g.numEdges) : g.Weights :=
  match g.edge (g.source a) (g.target a) with
  | some ed => Function.update w ed (value ed)
  | none => w

def assignWeights [Zero K] (value : Fin g.numEdges → K) : g.Weights :=
  (List.finRange g.numEdges).foldl (g.assignWeight value) fun _ => 0

/-- A loop that follows `penult` back from `f` to the source. -/
def walkBack {S : Type} (penult : V → V) (source : V) (visit : S → V → Fin g.numEdges → S) (f p : V)
    (s : S) : Program S :=
  (fun t => t.2.2) <$> WhileLoop.run (fun t : V × V × S => t.1 ≠ source) (fun (f, p, s) => do
    let ed ← g.edge p f
    return (p, penult p, visit s p ed)) (f, p, s)

end

variable [Field K]

def calcD (w : g.Weights) : K := ∑ a, w a * g.capacity a

end NetGraph

/-! ## Flows along shortest paths -/

section

variable [DecidableEq V] [Field K] [LinearOrder K] (g : NetGraph V K) (dijkstra : g.Dijkstra) {n : Nat}

/-- The demands, with the flows of an earlier run taken out. -/
def reset (demands : Fin n → MfDemand V K) : Fin n → MfDemand V K := fun i =>
  { demands i with flow := 0, pathFlowMap := [] }

/-- A turn of the loop along the path: the load of the edge, and the path. -/
def spVisit (demand : K) (s : g.Weights × List V) (p : V) (ed : Fin g.numEdges) :
    g.Weights × List V :=
  (Function.update s.1 ed (s.1 ed + demand), p :: s.2)

/-- The turn of a demand. `ed` of the last hop is not used. -/
def spDemand (gdual : g.Weights) (s : g.Weights × (Fin n → MfDemand V K)) (i : Fin n) :
    Program (g.Weights × (Fin n → MfDemand V K)) := do
  let demand := s.2 i
  let penult := (dijkstra gdual demand.source).1
  let f := demand.sink
  let p := penult f
  let (gflow, path) ← g.walkBack penult demand.source (spVisit g demand.demand) p (penult p) (s.1, [p, f])
  return (gflow, Function.update s.2 i
    { demand with flow := demand.demand, pathFlowMap := [(path, demand.demand)] })

structure SpResult (n : Nat) where
  demands : Fin n → MfDemand V K
  gflow : g.Weights
  lambda : K
  gamma : K

/-- A turn of the loop for `lambda`. What is divided by a load of zero is infinite. -/
def ratioTurn (gflow : g.Weights) (lambda : K) (a : Fin g.numEdges) : K :=
  if gflow a ≠ 0 ∧ g.capacity a / gflow a < lambda then g.capacity a / gflow a else lambda

def spLambda (dblMax : K) (gflow : g.Weights) : K :=
  (List.finRange g.numEdges).foldl (ratioTurn g gflow) dblMax

def spConcurrentFlow (dblMax : K) (demands : Fin n → MfDemand V K) : Program (SpResult g n) := do
  let gdual := g.assignWeights fun _ => 1
  let (gflow, demands) ← (List.finRange n).foldlM (spDemand g dijkstra gdual)
    (g.assignWeights fun _ => 0, reset demands)
  let lambda := spLambda g dblMax gflow
  return ⟨demands, gflow, lambda, 1 - 1 / lambda⟩

/-! ## The approximation -/

/-- The members and variables of the phases. -/
structure State (n : Nat) where
  gdual : g.Weights
  demands : Fin n → MfDemand V K
  numberFlows : Nat
  D : K

/-- `path_flow_map[path]`, which is set or grows. -/
def addPath (m : List (List V × K)) (path : List V) (mincap : K) : List (List V × K) × Bool :=
  if path ∈ m.map Prod.fst then
    (m.map fun entry => if entry.1 = path then (path, entry.2 + mincap) else entry, false)
  else (m ++ [(path, mincap)], true)

/-- The least capacity along the path. -/
def capVisit (mincap : K) (_ : V) (ed : Fin g.numEdges) : K :=
  if g.capacity ed < mincap then g.capacity ed else mincap

/-- The length of an edge, which grows with what is sent, and the path. -/
def growVisit (e mincap : K) (s : g.Weights × List V) (p : V) (ed : Fin g.numEdges) :
    g.Weights × List V :=
  (Function.update s.1 ed (s.1 ed * (1 + e * mincap / g.capacity ed)), p :: s.2)

/-- An iteration, of what is left of the demand. -/
def iteration (e : K) (i : Fin n) (s : State g n × K) : Program (State g n × K) := do
  let (s, left) := s
  let demand := s.demands i
  let penult := (dijkstra s.gdual demand.source).1
  let f := demand.sink
  let p := penult f
  let ed ← g.edge p f
  let mincap ← g.walkBack penult demand.source (capVisit g) p (penult p) (g.capacity ed)
  let mincap := if left < mincap then left else mincap
  let (gdual, path) ← g.walkBack penult demand.source (growVisit g e mincap) p (penult p)
    (growVisit g e mincap (s.gdual, [f]) p ed)
  let (pathFlowMap, new) := addPath demand.pathFlowMap path mincap
  return ({
    gdual := gdual
    demands := Function.update s.demands i
      { demand with flow := demand.flow + mincap, pathFlowMap := pathFlowMap }
    numberFlows := if new then s.numberFlows + 1 else s.numberFlows
    D := g.calcD gdual }, left - mincap)

/-- A step: the iterations of a demand. -/
def step (e : K) (s : State g n) (i : Fin n) : Program (State g n) :=
  Prod.fst <$> WhileLoop.run (fun t : State g n × K => t.1.D < 1 ∧ 0 < t.2) (iteration g dijkstra e i)
    (s, (s.demands i).demand)

/-- A phase: the steps in the order of the shuffle. -/
def phase (e : K) (order : Equiv.Perm (Fin n)) (s : State g n) : Program (State g n) :=
  ((List.finRange n).map order).foldlM (step g dijkstra e) s

/-- The phases, each with the order its shuffle has chosen. -/
def phases (e : K) (orders : Nat → Equiv.Perm (Fin n)) (s : State g n) : Program (State g n × Nat) :=
  WhileLoop.run (fun t : State g n × Nat => t.1.D < 1)
    (fun t => (·, t.2 + 1) <$> phase g dijkstra e (orders t.2) t.1) (s, 0)

/-- The state before the phases. -/
def start (delta : K) (demands : Fin n → MfDemand V K) : State g n where
  gdual := g.assignWeights fun a => delta / g.capacity a
  demands := reset demands
  numberFlows := 0
  D := g.calcD (g.assignWeights fun a => delta / g.capacity a)

def rescaleDemandsFlows (demands : Fin n → MfDemand V K) (scale : K) : Fin n → MfDemand V K := fun i =>
  { demands i with
    flow := (demands i).flow * scale
    pathFlowMap := (demands i).pathFlowMap.map fun entry => (entry.1, entry.2 * scale) }

/-- `calcLambda`. The quotient for a demand of zero is not a number, and not less. -/
def calcLambda (dblMax : K) (demands : Fin n → MfDemand V K) : K :=
  (List.finRange n).foldl (fun lambda i =>
    if (demands i).demand ≠ 0 ∧ (demands i).flow / (demands i).demand < lambda then
      (demands i).flow / (demands i).demand
    else lambda) dblMax

def rescaleDemands (demands : Fin n → MfDemand V K) (scale : K) : Fin n → MfDemand V K := fun i =>
  { demands i with demand := (demands i).demand * scale }

def calcBeta (w : g.Weights) (demands : Fin n → MfDemand V K) : K :=
  g.calcD w / ∑ i, (demands i).demand * (dijkstra w (demands i).source).2 (demands i).sink

/-- The loop over a path of `assign_gflow`, which looks for the edges from the next vertex back. -/
def assignPath (flow : K) : List V → g.Weights → Option g.Weights
  | lt :: lh :: path, w => do
    let ed ← g.edge lh lt
    assignPath flow (lh :: path) (Function.update w ed (w ed + flow))
  | _, w => some w

/-- `assign_gflow`: the loads, and `gamma`. -/
def assignGflow (dblMax : K) (demands : Fin n → MfDemand V K) : Option (g.Weights × K) := do
  let gflow ← (List.finRange n).foldlM (fun w i =>
    (demands i).pathFlowMap.foldlM (fun w entry => assignPath g entry.2 entry.1 w) w) fun _ => 0
  return (gflow, (List.finRange g.numEdges).foldl (fun gamma a =>
    if (g.capacity a - gflow a) / g.capacity a < gamma then (g.capacity a - gflow a) / g.capacity a
    else gamma) dblMax)

end

/-! ## With real numbers -/

section

variable [DecidableEq V] (g : NetGraph V ℝ) (dijkstra : g.Dijkstra) {n : Nat}

/-- What there is behind the phases. `gflow` may have failed on an edge that is not there. -/
structure MaxResult (n : Nat) where
  demands : Fin n → MfDemand V ℝ
  gdual : g.Weights
  lambda : ℝ
  beta : ℝ
  gflow : Option (g.Weights × ℝ)
  numberFlows : Nat
  totalphases : Nat

noncomputable def delta (e : ℝ) : ℝ := (g.numEdges / (1 - e)) ^ (-1 / e)

noncomputable def maxConcurrentFlow (dblMax e : ℝ) (orders : Nat → Equiv.Perm (Fin n))
    (demands : Fin n → MfDemand V ℝ) : Program (MaxResult g n) := do
  let (s, totalphases) ← phases g dijkstra e orders (start g (delta g e) demands)
  let scalef := 1 / (Real.log (1 / delta g e) / Real.log (1 + e))
  let demands := rescaleDemandsFlows s.demands scalef
  return {
    demands := demands
    gdual := s.gdual
    lambda := calcLambda dblMax demands
    beta := calcBeta g dijkstra s.gdual demands
    gflow := assignGflow g dblMax demands
    numberFlows := s.numberFlows
    totalphases := totalphases }

/-- `max_concurrent_flow_prescaled`, with the shuffles of both approximations. -/
noncomputable def maxConcurrentFlowPrescaled (dblMax e : ℝ) (orders orders' : Nat → Equiv.Perm (Fin n))
    (demands : Fin n → MfDemand V ℝ) : Program (MaxResult g n) := do
  let sp ← spConcurrentFlow g dijkstra dblMax demands
  let e2 := 1 - (2 : ℝ) ^ (-1 / 3 : ℝ)
  let rough ← maxConcurrentFlow g dijkstra dblMax e2 orders (rescaleDemands sp.demands sp.lambda)
  let fine ← maxConcurrentFlow g dijkstra dblMax e orders' (rescaleDemands rough.demands (rough.beta / 2))
  let demands := fun i => { fine.demands i with demand := (demands i).demand }
  return { fine with
    demands := demands
    lambda := calcLambda dblMax demands
    beta := calcBeta g dijkstra fine.gdual demands
    gflow := assignGflow g dblMax demands }

noncomputable def minCongestionFlow (dblMax e : ℝ) (orders orders' : Nat → Equiv.Perm (Fin n))
    (demands : Fin n → MfDemand V ℝ) : Program (MaxResult g n) := do
  let r ← maxConcurrentFlowPrescaled g dijkstra dblMax e orders orders' demands
  let demands := rescaleDemandsFlows r.demands (1 / r.lambda)
  return { r with
    demands := demands
    gflow := assignGflow g dblMax demands }

end

/-! ## Walks back -/

namespace NetGraph

variable [DecidableEq V] {g : NetGraph V K} {u v f source : V} {a : Fin g.numEdges} {penult : V → V}
  {hops rest : List (V × Fin g.numEdges)}

theorem edge_eq_some (h : g.edge u v = some a) : g.source a = u ∧ g.target a = v := by
  simpa using List.find?_some h

theorem exists_edge (h : g.Adj u v) : ∃ a, g.edge u v = some a := by
  obtain ⟨a, hsource, htarget⟩ := h
  refine Option.isSome_iff_exists.mp (List.find?_isSome.mpr ⟨a, List.mem_finRange a, ?_⟩)
  simp [hsource, htarget]

theorem adj_of_edge (h : g.edge u v = some a) : g.Adj u v :=
  ⟨a, edge_eq_some h⟩

/-- The edges that `edge` finds. -/
def Found (g : NetGraph V K) (a : Fin g.numEdges) : Prop := g.edge (g.source a) (g.target a) = some a

theorem found_of_edge (h : g.edge u v = some a) : g.Found a := by
  obtain ⟨hsource, htarget⟩ := edge_eq_some h
  rw [Found, hsource, htarget, h]

section

variable {value : Fin g.numEdges → K} {w : g.Weights} {l : List (Fin g.numEdges)}

theorem assignWeight_or (w : g.Weights) (b a : Fin g.numEdges) :
    g.assignWeight value w b a = value a ∨ g.assignWeight value w b a = w a := by
  cases hed : g.edge (g.source b) (g.target b) with
  | some ed =>
    simp only [assignWeight, hed]
    by_cases ha : a = ed
    · subst ha
      exact .inl (Function.update_self _ _ _)
    · exact .inr (Function.update_of_ne ha _ _)
  | none =>
    refine .inr ?_
    simp only [assignWeight, hed]

theorem foldl_assignWeight_or (l : List (Fin g.numEdges)) (w : g.Weights) (a : Fin g.numEdges) :
    l.foldl (g.assignWeight value) w a = value a ∨ l.foldl (g.assignWeight value) w a = w a := by
  induction l generalizing w with
  | nil => exact .inr rfl
  | cons b l ih =>
    rcases ih (g.assignWeight value w b) with hvalue | hsame
    · exact .inl hvalue
    · rw [List.foldl_cons, hsame]
      exact assignWeight_or w b a

theorem foldl_assignWeight_found (ha : g.Found a) (hl : a ∈ l) :
    l.foldl (g.assignWeight value) w a = value a := by
  induction l generalizing w with
  | nil => cases hl
  | cons b l ih =>
    rw [List.foldl_cons]
    rcases List.mem_cons.mp hl with rfl | hmem
    · have hset : g.assignWeight value w a a = value a := by
        have hed : g.edge (g.source a) (g.target a) = some a := ha
        simp [assignWeight, hed]
      rcases foldl_assignWeight_or l (g.assignWeight value w a) a with hvalue | hsame
      · exact hvalue
      · rw [hsame, hset]
    · exact ih hmem

theorem assignWeights_or [Zero K] (value : Fin g.numEdges → K) (a : Fin g.numEdges) :
    g.assignWeights value a = value a ∨ g.assignWeights value a = 0 :=
  foldl_assignWeight_or _ _ a

theorem assignWeights_found [Zero K] (value : Fin g.numEdges → K) (ha : g.Found a) :
    g.assignWeights value a = value a :=
  foldl_assignWeight_found ha (List.mem_finRange a)

end

/-- The hops from a vertex back to the source, each with where it comes from and its edge. -/
inductive TreePath (g : NetGraph V K) (penult : V → V) (source : V) : V → List (V × Fin g.numEdges) → Prop
  | done : TreePath g penult source source []
  | hop {f : V} {a : Fin g.numEdges} {hops : List (V × Fin g.numEdges)} (hne : f ≠ source)
      (hed : g.edge (penult f) f = some a) (hrest : TreePath g penult source (penult f) hops) :
      TreePath g penult source f ((penult f, a) :: hops)

theorem TreePath.unique {hops' : List (V × Fin g.numEdges)} (h : g.TreePath penult source f hops)
    (h' : g.TreePath penult source f hops') :
    hops = hops' := by
  induction h generalizing hops' with
  | done =>
    cases h' with
    | done => rfl
    | hop hne => exact absurd rfl hne
  | hop hne hed hrest ih =>
    cases h' with
    | done => exact absurd rfl hne
    | hop _ hed' hrest' =>
      rw [hed, Option.some.injEq] at hed'
      rw [hed', ih hrest']

theorem TreePath.cons_iff {p : V} : g.TreePath penult source f ((p, a) :: hops) ↔
    f ≠ source ∧ p = penult f ∧ g.edge (penult f) f = some a ∧ g.TreePath penult source (penult f) hops := by
  constructor
  · intro h
    cases h with
    | hop hne hed hrest => exact ⟨hne, rfl, hed, hrest⟩
  · rintro ⟨hne, rfl, hed, hrest⟩
    exact .hop hne hed hrest

/-- The vertices from the source on. -/
def pathOf (f : V) (hops : List (V × Fin g.numEdges)) : List V := (hops.map Prod.fst).reverse ++ [f]

omit [DecidableEq V] in
theorem pathOf_cons (f p : V) (a : Fin g.numEdges) (hops : List (V × Fin g.numEdges)) :
    pathOf f ((p, a) :: hops) = pathOf p hops ++ [f] := by
  simp [pathOf]

theorem TreePath.isWalk (h : g.TreePath penult source f hops) :
    Walks.IsWalk g.Adj source f (pathOf f hops) := by
  induction h with
  | done => exact ⟨rfl, rfl, List.isChain_singleton _⟩
  | @hop f a hops hne hed hrest ih =>
    rw [pathOf_cons]
    refine ⟨?_, List.getLast?_concat, ?_⟩
    · rw [List.head?_append, ih.head]
      rfl
    · rw [List.isChain_append]
      refine ⟨ih.chain, List.isChain_singleton _, ?_⟩
      intro x hx y hy
      rw [ih.last, Option.mem_some_iff] at hx
      rw [List.head?_cons, Option.mem_some_iff] at hy
      subst hx hy
      exact adj_of_edge hed

section

variable {S : Type} {visit : S → V → Fin g.numEdges → S} {s s' : S}

theorem walkBack_of_treePath (h : g.TreePath penult source f hops) :
    Returns (g.walkBack penult source visit f (penult f) s)
      (hops.foldl (fun s h => visit s h.1 h.2) s) := by
  have hleads : ∃ t, WhileLoop.Leads (fun t : V × V × S => t.1 ≠ source) (fun (f, p, s) => do
      let ed ← g.edge p f
      return (p, penult p, visit s p ed)) (f, penult f, s) t ∧
      t.2.2 = hops.foldl (fun s h => visit s h.1 h.2) s := by
    induction h generalizing s with
    | done => exact ⟨_, .stop (not_not.mpr rfl), rfl⟩
    | @hop f a hops hne hed hrest ih =>
      obtain ⟨t, hleads, ht⟩ := ih (s := visit s (penult f) a)
      refine ⟨t, .turn hne ?_ hleads, ht⟩
      exact (WhileLoop.returns_lift hed).bind (WhileLoop.returns_pure _)
  obtain ⟨t, hleads, ht⟩ := hleads
  rw [← ht]
  exact hleads.returns.map _

/-- A walk that ends has followed the hops to the source. -/
theorem walkBack_eq_some {n : Nat} (h : (g.walkBack penult source visit f (penult f) s).run n = some s') :
    ∃ hops, g.TreePath penult source f hops ∧ s' = hops.foldl (fun s h => visit s h.1 h.2) s := by
  obtain ⟨t, hrun, rfl⟩ := WhileLoop.run_map_eq_some.mp h
  -- what has been followed so far, in front of whatever is still to follow
  let I : V × V × S → Prop := fun t => t.2.1 = penult t.1 ∧
    ∃ before, (∀ hops, g.TreePath penult source t.1 hops → g.TreePath penult source f (before ++ hops)) ∧
      t.2.2 = before.foldl (fun s h => visit s h.1 h.2) s
  have hstart : I (f, penult f, s) := ⟨rfl, [], fun _ h => h, rfl⟩
  have hstep : ∀ t t' : V × V × S, I t → t.1 ≠ source → (do
      let ed ← g.edge t.2.1 t.1
      return (t.2.1, penult t.2.1, visit t.2.2 t.2.1 ed) : Program (V × V × S)).run n = some t' → I t' := by
    rintro ⟨x, p, r⟩ t' ⟨hp, before, hbefore, hr⟩ hne hturn
    obtain ⟨a, hed, rest⟩ := WhileLoop.run_bind_eq_some.mp hturn
    change g.edge p x = some a at hed
    cases rest
    obtain rfl : p = penult x := hp
    refine ⟨rfl, before ++ [(penult x, a)], ?_, ?_⟩
    · intro hops hrest
      rw [List.append_assoc]
      exact hbefore _ (.hop hne hed hrest)
    · rw [List.foldl_append, ← hr]
      rfl
  obtain ⟨⟨-, before, hbefore, hs'⟩, hend⟩ := WhileLoop.run_invariant hstart hstep hrun
  have hsource : t.1 = source := not_not.mp hend
  have hdone := hbefore [] (hsource ▸ .done)
  rw [List.append_nil] at hdone
  exact ⟨before, hdone, hs'⟩

end

/-- From `source` to `v` over the edges `arcs`. -/
inductive Route (g : NetGraph V K) (source : V) : V → List (Fin g.numEdges) → Prop
  | start : Route g source source []
  | next {arcs : List (Fin g.numEdges)} {a : Fin g.numEdges} (h : Route g source (g.source a) arcs) :
      Route g source (g.target a) (arcs ++ [a])

/-- What is known of `dijkstra_shortest_paths`: the predecessors of what can be reached are a tree, along which the
distances are those of shortest paths. -/
structure ShortestPathTree [AddCommMonoid K] [LE K] (g : NetGraph V K) (w : g.Weights) (source : V)
    (penult : V → V) (dist : V → K) : Prop where
  root : dist source = 0
  reached : ∀ v, Relation.ReflTransGen g.Adj source v → v ≠ source →
    Relation.ReflTransGen g.Adj source (penult v)
  hop : ∀ v, Relation.ReflTransGen g.Adj source v → v ≠ source →
    ∃ a, g.source a = penult v ∧ g.target a = v ∧ dist v = dist (penult v) + w a
  ends : ∀ v, Relation.ReflTransGen g.Adj source v → ∃ k, penult^[k] v = source
  shortest : ∀ v arcs, g.Route source v arcs → dist v ≤ (arcs.map w).sum

/-- `dijkstra_shortest_paths` on weights that are not negative. -/
def Dijkstra.FindsTrees [AddCommMonoid K] [LE K] (dijkstra : g.Dijkstra) : Prop :=
  ∀ w : g.Weights, (∀ a, 0 ≤ w a) → ∀ source,
    g.ShortestPathTree w source (dijkstra w source).1 (dijkstra w source).2

theorem ShortestPathTree.exists_treePath [AddCommMonoid K] [LE K] {w : g.Weights} {dist : V → K}
    (h : g.ShortestPathTree w source penult dist) (hv : Relation.ReflTransGen g.Adj source v) :
    ∃ hops, g.TreePath penult source v hops := by
  obtain ⟨k, hk⟩ := h.ends v hv
  induction k generalizing v with
  | zero =>
    obtain rfl : v = source := hk
    exact ⟨[], .done⟩
  | succ k ih =>
    by_cases hne : v = source
    · subst hne
      exact ⟨[], .done⟩
    · obtain ⟨a, hsource, htarget, -⟩ := h.hop v hv hne
      obtain ⟨ed, hed⟩ := exists_edge ⟨a, hsource, htarget⟩
      obtain ⟨hops, hrest⟩ := ih (h.reached v hv hne) hk
      exact ⟨_, .hop hne hed hrest⟩

end NetGraph

/-! ## One iteration -/

section

variable [DecidableEq V] [Field K] [LinearOrder K] {g : NetGraph V K} {dijkstra : g.Dijkstra} {n : Nat}
  {e left mincap : K} {i : Fin n} {s : State g n} {p : V} {ed : Fin g.numEdges}
  {rest : List (V × Fin g.numEdges)} {r : State g n × K} {penult : V → V} {source f : V}
  {w : g.Weights}

/-- The least capacity of the hops. -/
def bottleneck (g : NetGraph V K) (ed : Fin g.numEdges) (rest : List (V × Fin g.numEdges)) : K :=
  rest.foldl (fun mincap h => capVisit g mincap h.1 h.2) (g.capacity ed)

/-- The lengths grow along the hops. -/
def grow (g : NetGraph V K) (e mincap : K) (hops : List (V × Fin g.numEdges)) (w : g.Weights) : g.Weights :=
  hops.foldl (fun w h => (growVisit g e mincap (w, []) h.1 h.2).1) w

omit [DecidableEq V] [LinearOrder K] in
theorem foldl_growVisit (e mincap : K) (hops : List (V × Fin g.numEdges)) (w : g.Weights) (path : List V) :
    hops.foldl (fun s h => growVisit g e mincap s h.1 h.2) (w, path) =
      (grow g e mincap hops w, (hops.map Prod.fst).reverse ++ path) := by
  induction hops generalizing w path with
  | nil => rfl
  | cons h hops ih =>
    rw [List.foldl_cons, growVisit, ih, List.map_cons, List.reverse_cons, List.append_assoc]
    rfl

/-- What an iteration makes of the state, when the hops are `hops`. -/
def sendAlong (e : K) (i : Fin n) (s : State g n) (left mincap : K) (hops : List (V × Fin g.numEdges)) :
    State g n × K :=
  let demand := s.demands i
  let (pathFlowMap, new) := addPath demand.pathFlowMap (NetGraph.pathOf demand.sink hops) mincap
  ({
    gdual := grow g e mincap hops s.gdual
    demands := Function.update s.demands i
      { demand with flow := demand.flow + mincap, pathFlowMap := pathFlowMap }
    numberFlows := if new then s.numberFlows + 1 else s.numberFlows
    D := g.calcD (grow g e mincap hops s.gdual) }, left - mincap)

/-- What is sent of the demand that is left. -/
def share (g : NetGraph V K) (left : K) (ed : Fin g.numEdges) (rest : List (V × Fin g.numEdges)) : K :=
  if left < bottleneck g ed rest then left else bottleneck g ed rest

omit [LinearOrder K] in
/-- The growing walk, after the last hop, leaves what `sendAlong` has. -/
theorem returns_grow (h : g.TreePath penult source f ((p, ed) :: rest)) (e mincap : K) (w : g.Weights) :
    Returns (g.walkBack penult source (growVisit g e mincap) p (penult p) (growVisit g e mincap (w, [f]) p ed))
      (grow g e mincap ((p, ed) :: rest) w, NetGraph.pathOf f ((p, ed) :: rest)) := by
  obtain ⟨-, rfl, -, hrest⟩ := NetGraph.TreePath.cons_iff.mp h
  have hfold := foldl_growVisit e mincap ((penult f, ed) :: rest) w [f]
  rw [List.foldl_cons] at hfold
  rw [NetGraph.pathOf, ← hfold]
  exact NetGraph.walkBack_of_treePath hrest

omit [LinearOrder K] in
theorem grow_of_run {k : Nat} {grown : g.Weights × List V} (h : g.TreePath penult source f ((p, ed) :: rest))
    (hrun : (g.walkBack penult source (growVisit g e mincap) p (penult p)
      (growVisit g e mincap (w, [f]) p ed)).run k = some grown) :
    grown = (grow g e mincap ((p, ed) :: rest) w, NetGraph.pathOf f ((p, ed) :: rest)) := by
  obtain ⟨-, rfl, -, hrest⟩ := NetGraph.TreePath.cons_iff.mp h
  obtain ⟨rest', hrest', rfl⟩ := NetGraph.walkBack_eq_some hrun
  obtain rfl := hrest.unique hrest'
  exact foldl_growVisit e mincap ((penult f, ed) :: rest) w [f]

theorem iteration_of_treePath (h : g.TreePath (dijkstra s.gdual (s.demands i).source).1 (s.demands i).source
    (s.demands i).sink ((p, ed) :: rest)) :
    Returns (iteration g dijkstra e i (s, left))
      (sendAlong e i s left (share g left ed rest) ((p, ed) :: rest)) := by
  obtain ⟨-, rfl, hed, hrest⟩ := NetGraph.TreePath.cons_iff.mp h
  exact (WhileLoop.returns_lift hed).bind ((NetGraph.walkBack_of_treePath hrest).bind
    ((returns_grow h e (share g left ed rest) s.gdual).bind (WhileLoop.returns_pure _)))

theorem iteration_eq_some {k : Nat} (hne : (s.demands i).sink ≠ (s.demands i).source)
    (h : (iteration g dijkstra e i (s, left)).run k = some r) :
    ∃ p ed rest, g.TreePath (dijkstra s.gdual (s.demands i).source).1 (s.demands i).source
      (s.demands i).sink ((p, ed) :: rest) ∧
      r = sendAlong e i s left (share g left ed rest) ((p, ed) :: rest) := by
  obtain ⟨ed, hed, h⟩ := WhileLoop.run_bind_eq_some.mp h
  obtain ⟨cap, hcap, h⟩ := WhileLoop.run_bind_eq_some.mp h
  obtain ⟨grown, hgrown, h⟩ := WhileLoop.run_bind_eq_some.mp h
  obtain ⟨rest, hpath, rfl⟩ := NetGraph.walkBack_eq_some hcap
  have hhops := NetGraph.TreePath.hop hne hed hpath
  obtain rfl := grow_of_run hhops hgrown
  cases h
  exact ⟨_, ed, rest, hhops, rfl⟩

end

/-! ## Two routers -/

/-- Two vertices and the edges between them. -/
def twoRouters : NetGraph Bool ℝ where
  numEdges := 2
  source a := a.val = 1
  target a := a.val = 0
  capacity _ := 1

/-- The edge that leaves `v`. -/
def twoRoutersArc (v : Bool) : Fin twoRouters.numEdges := if v then Fin.last 1 else (Fin.last 0).castSucc

def twoRoutersDijkstra : twoRouters.Dijkstra := fun w source =>
  (fun _ => source, fun v => if v = source then 0 else w (twoRoutersArc source))

theorem twoRoutersArc_ends (v : Bool) :
    twoRouters.source (twoRoutersArc v) = v ∧ twoRouters.target (twoRoutersArc v) = !v := by
  cases v <;> decide

theorem eq_twoRoutersArc (a : Fin twoRouters.numEdges) :
    a = twoRoutersArc (twoRouters.source a) ∧ twoRouters.target a = !twoRouters.source a := by
  have hall : ∀ b : Fin 2, (b = if b.val = 1 then Fin.last 1 else (Fin.last 0).castSucc) ∧
      (decide (b.val = 0) = !decide (b.val = 1)) := by decide
  obtain ⟨harc, htarget⟩ := hall a
  refine ⟨?_, htarget⟩
  simpa [twoRoutersArc, twoRouters] using harc

theorem twoRouters_findsTrees : twoRoutersDijkstra.FindsTrees := by
  intro w hw source
  have hsum : ∀ arcs : List (Fin twoRouters.numEdges), 0 ≤ (arcs.map w).sum := by
    intro arcs
    refine List.sum_nonneg ?_
    rintro x hx
    obtain ⟨a, -, rfl⟩ := List.mem_map.mp hx
    exact hw a
  have hdist : ∀ v, v ≠ source → (twoRoutersDijkstra w source).2 v = w (twoRoutersArc source) :=
    fun v hv => if_neg hv
  refine ⟨if_pos rfl, fun _ _ _ => .refl, ?_, fun _ _ => ⟨1, rfl⟩, ?_⟩
  · intro v _ hv
    obtain ⟨hsource, htarget⟩ := twoRoutersArc_ends source
    refine ⟨twoRoutersArc source, hsource, ?_, ?_⟩
    · rw [htarget]
      exact (Bool.eq_not_of_ne hv).symm
    · rw [hdist v hv]
      exact (zero_add _).symm.trans (congrArg (· + w _) (if_pos rfl).symm)
  · intro v arcs hroute
    by_cases hv : v = source
    · subst hv
      exact (if_pos rfl : (twoRoutersDijkstra w v).2 v = 0).le.trans (hsum arcs)
    · rw [hdist v hv]
      cases hroute with
      | start => exact absurd rfl hv
      | @next arcs a hroute =>
        obtain ⟨harc, htarget⟩ := eq_twoRoutersArc a
        have hsource : twoRouters.source a = source := by
          rw [htarget] at hv
          exact Bool.not_not_eq.mp hv
        rw [List.map_append, List.sum_append, ← hsource, ← harc]
        simpa using hsum arcs

end GraphMf

end Blackadder
