import Blackadder.Lib.Runs
import Blackadder.Lipsin.TEgraphMF

/-!
# Cached forwarding identifiers

`update_paths` of the traffic engineering manager has paths computed for all its demands. `get_fid`
draws one of them.
-/

namespace Blackadder

namespace TMIgraph

variable {V E D : Type*}

/-- What the manager computes with doubles. -/
structure Doubles (D : Type*) where
  ofNat : Nat → D
  add : D → D → D
  mul : D → D → D
  div : D → D → D
  le : D → D → Bool

/-- `mf_demand`, with the entries of its map in order. -/
structure MfDemand (V D : Type*) where
  flow : D
  source : V
  sink : V
  demand : D
  pathFlowMap : List (List V × D)

/-- What `Graph_mf` does to the demands, and its `lambda`. -/
structure GraphMF (V D : Type*) where
  spConcurrentFlow : List (MfDemand V D) → List (MfDemand V D) × D
  minCongestionFlow : List (MfDemand V D) → List (MfDemand V D)

/-- `te_mf_demand`. -/
structure TeMfDemand (V D : Type*) where
  source : V
  sink : V
  demand : D
  flow : D
  paths : List (List V)
  flows : List D
  probs : List D
  fids : List Bitvector

/-- `te_mf_demandMap`. -/
abbrev TeMfDemandMap (V D : Type*) := V → V → Option (TeMfDemand V D)

/-- The members that the cache is about. -/
structure TEState (V D : Type*) where
  demandMapMeasured : Demands V
  /-- There is one when `cacheValid` is set. -/
  demandMapApplied : Option (TeMfDemandMap V D)

section

variable [DecidableEq V]

def insertDemand (m : TeMfDemandMap V D) (te : TeMfDemand V D) : TeMfDemandMap V D := fun i j =>
  if i = te.source ∧ j = te.sink then some te else m i j

/-- The copy of the measured demands. A demand of `0` counts as one request. -/
def copyDemands (dbl : Doubles D) (vertices : List V) (demands : Demands V) : List (MfDemand V D) :=
  vertices.flatMap fun i => vertices.filterMap fun j => (demands i j).map fun demand => {
    flow := dbl.ofNat 0
    source := i
    sink := j
    demand := if demand = 0 then dbl.ofNat 1 else dbl.ofNat demand
    pathFlowMap := [] }

/-- The internal link of the sink, and the links of a path. -/
def pathFID (g : TMIgraph V E) (sink : V) (path : List V) : Bitvector :=
  (g.pathEdges path).foldl (fun FID eid => FID ||| Bitvector.parse (g.LID eid))
    (0 ||| Bitvector.parse (g.iLID sink))

/-- One turn of the loop over `path_flow_map`. -/
def addPath (g : TMIgraph V E) (dbl : Doubles D) (d : MfDemand V D) (te : TeMfDemand V D)
    (entry : List V × D) : TeMfDemand V D :=
  { te with
    paths := te.paths ++ [entry.1]
    flows := te.flows ++ [entry.2]
    probs := te.probs ++ [dbl.div entry.2 d.flow]
    fids := te.fids ++ [g.pathFID d.sink entry.1] }

/-- One turn of the loop over the demands, which inserts with every path. -/
def insertPaths (g : TMIgraph V E) (dbl : Doubles D) (m : TeMfDemandMap V D) (d : MfDemand V D) :
    TeMfDemandMap V D :=
  (d.pathFlowMap.foldl (fun (te, m) entry =>
    let te := g.addPath dbl d te entry
    (te, insertDemand m te)) (⟨d.source, d.sink, d.demand, d.flow, [], [], [], []⟩, m)).2

def updatePaths (g : TMIgraph V E) (dbl : Doubles D) (vertices : List V) (graphMF : GraphMF V D)
    (s : TEState V D) : TEState V D :=
  let tmpdemands := copyDemands dbl vertices s.demandMapMeasured
  let (tmpdemands, lambda) := graphMF.spConcurrentFlow tmpdemands
  let tmpdemands := tmpdemands.map fun d =>
    { d with demand := dbl.div (dbl.mul d.demand lambda) (dbl.ofNat 2) }
  let tmpdemands := graphMF.minCongestionFlow tmpdemands
  { demandMapMeasured := fun i j => (s.demandMapMeasured i j).map fun _ => 0
    demandMapApplied := some (tmpdemands.foldl (g.insertPaths dbl) fun _ _ => none) }

/-- The loop of `get_fid` for its index, for `n` more turns. -/
def drawPath (dbl : Doubles D) (ran : D) (probs : List D) (cumul : D) (i : Nat) : Nat → Option Nat
  | 0 => some i
  | n + 1 => probs[i]?.bind fun prob =>
    let cumul := dbl.add cumul prob
    if dbl.le ran cumul then some i else drawPath dbl ran probs cumul (i + 1) n

/-- `get_fid`. The bound of the loop is computed without a sign, and `none` is an index outside of a
vector. -/
def getFid (dbl : Doubles D) (m : TeMfDemandMap V D) (ran : D) (source sink : V) : Option Bitvector :=
  match m source sink with
  | none => some 0
  | some te =>
    let bound := (te.flows.length + (2 ^ 64 - 1)) % 2 ^ 64
    (drawPath dbl ran te.probs (dbl.ofNat 0) 0 bound).bind fun i =>
      te.paths[i]?.bind fun _ => te.fids[i]?

/-- `TEgraphMF::calculateFID(source, destination)`. -/
def teCalculateFID (g : TMIgraph V E) (dbl : Doubles D) (s : TEState V D) (ran : D)
    (source destination : V) : Option Bitvector :=
  match s.demandMapApplied with
  | some m => getFid dbl m ran source destination
  | none => some (g.calculateFID source destination)

end

/-! ## What is assumed -/

/-- The minimisation keeps the demands and leaves each at least one path, and its paths lead from the
source of the demand to its sink. -/
structure GraphMF.LeavesPaths (graphMF : GraphMF V D) (adj : V → V → Prop) : Prop where
  scaled : ∀ ds, (graphMF.spConcurrentFlow ds).1.map (fun d => (d.source, d.sink)) =
    ds.map fun d => (d.source, d.sink)
  kept : ∀ ds, (graphMF.minCongestionFlow ds).map (fun d => (d.source, d.sink)) =
    ds.map fun d => (d.source, d.sink)
  paths : ∀ ds, (∀ d ∈ ds, d.source ≠ d.sink ∧ Relation.ReflTransGen adj d.source d.sink) →
    ∀ d ∈ graphMF.minCongestionFlow ds, d.pathFlowMap ≠ [] ∧
      ∀ entry ∈ d.pathFlowMap, Walks.IsWalk adj d.source d.sink entry.1

section

variable [DecidableEq V]

/-- What changes the demands and the cache: a match, which counts a demand, and `update_paths`, each
time with what the minimisation does then. -/
inductive TEStep (g : TMIgraph V E) (dbl : Doubles D) (vertices : List V) (adj : V → V → Prop) :
    TEState V D → Unit → TEState V D → Prop
  | match (s : TEState V D) (source sink : V) (demands : Demands V)
      (h : countDemand s.demandMapMeasured source sink = some demands) :
      TEStep g dbl vertices adj s () { s with demandMapMeasured := demands }
  | update (s : TEState V D) (graphMF : GraphMF V D) (h : graphMF.LeavesPaths adj) :
      TEStep g dbl vertices adj s () (g.updatePaths dbl vertices graphMF s)

/-- What `readTopology` leaves. -/
def TEState.start : TEState V D := ⟨readDemands, none⟩

end

/-- An identifier is returned, with the internal link of the destination and the links of a path. -/
def Arrives (g : TMIgraph V E) (joins : E → V → V → Prop) (source destination : V)
    (result : Option Bitvector) : Prop :=
  ∃ FID, result = some FID ∧ FID.Includes (Bitvector.parse (g.iLID destination)) ∧
    ∃ links, Walks.EdgeWalk joins source destination links ∧
      ∀ e ∈ links, FID.Includes (Bitvector.parse (g.LID e))

/-! ## The table -/

variable {g : TMIgraph V E} {dbl : Doubles D} {d : MfDemand V D} {te : TeMfDemand V D} {i j : V}
  {adj : V → V → Prop} {path : List V} {ran : D} {probs : List D}

theorem foldl_addPath (l : List (List V × D)) :
    l.foldl (g.addPath dbl d) te = { te with
      paths := te.paths ++ l.map Prod.fst
      flows := te.flows ++ l.map Prod.snd
      probs := te.probs ++ l.map fun entry => dbl.div entry.2 d.flow
      fids := te.fids ++ l.map fun entry => g.pathFID d.sink entry.1 } := by
  induction l generalizing te with
  | nil => simp
  | cons entry l ih =>
    rw [List.foldl_cons, ih]
    simp [addPath]

/-- The entry of a demand. -/
def entryOf (g : TMIgraph V E) (dbl : Doubles D) (d : MfDemand V D) : TeMfDemand V D where
  source := d.source
  sink := d.sink
  demand := d.demand
  flow := d.flow
  paths := d.pathFlowMap.map Prod.fst
  flows := d.pathFlowMap.map Prod.snd
  probs := d.pathFlowMap.map fun entry => dbl.div entry.2 d.flow
  fids := d.pathFlowMap.map fun entry => g.pathFID d.sink entry.1

section

variable [DecidableEq V] {m : TeMfDemandMap V D}

theorem insertDemand_again {te' : TeMfDemand V D} (hsource : te'.source = te.source)
    (hsink : te'.sink = te.sink) : insertDemand (insertDemand m te) te' = insertDemand m te' := by
  funext i j
  unfold insertDemand
  rw [hsource, hsink]
  split <;> rfl

theorem foldl_insert (l : List (List V × D)) (hne : l ≠ []) :
    (l.foldl (fun (te, m) entry =>
      let te := g.addPath dbl d te entry
      (te, insertDemand m te)) (te, m)).2 = insertDemand m (l.foldl (g.addPath dbl d) te) := by
  induction l generalizing te m with
  | nil => exact absurd rfl hne
  | cons entry l ih =>
    cases l with
    | nil => rfl
    | cons entry' l =>
      rw [List.foldl_cons, ih (List.cons_ne_nil _ _), List.foldl_cons (b := te)]
      refine insertDemand_again ?_ ?_ <;> rw [foldl_addPath]

theorem insertPaths_eq (hne : d.pathFlowMap ≠ []) :
    g.insertPaths dbl m d = insertDemand m (g.entryOf dbl d) := by
  rw [insertPaths, foldl_insert _ hne, foldl_addPath]
  rfl

theorem foldl_insertPaths (g : TMIgraph V E) (dbl : Doubles D) (m : TeMfDemandMap V D)
    (ds : List (MfDemand V D)) (hne : ∀ d ∈ ds, d.pathFlowMap ≠ []) (i j : V) :
    (∃ d ∈ ds, d.source = i ∧ d.sink = j ∧
      ds.foldl (g.insertPaths dbl) m i j = some (g.entryOf dbl d)) ∨
    (∀ d ∈ ds, ¬ (d.source = i ∧ d.sink = j)) ∧ ds.foldl (g.insertPaths dbl) m i j = m i j := by
  induction ds generalizing m with
  | nil => exact .inr ⟨fun d hd => absurd hd List.not_mem_nil, rfl⟩
  | cons d ds ih =>
    rw [List.foldl_cons]
    rcases ih (g.insertPaths dbl m d) fun d hd => hne d (List.mem_cons_of_mem _ hd) with
      ⟨d', hd', hsource, hsink, hentry⟩ | ⟨hno, hsame⟩
    · exact .inl ⟨d', List.mem_cons_of_mem _ hd', hsource, hsink, hentry⟩
    · rw [hsame, insertPaths_eq (hne d List.mem_cons_self), insertDemand]
      split
      · next hpair => exact .inl ⟨d, List.mem_cons_self, hpair.1.symm, hpair.2.symm, rfl⟩
      · next hpair =>
        refine .inr ⟨fun d' hd' => ?_, rfl⟩
        rcases List.mem_cons.1 hd' with rfl | hd'
        · exact fun h => hpair ⟨h.1.symm, h.2.symm⟩
        · exact hno d' hd'

end

/-! ## The draw -/

/-- Whatever the comparisons are, the index is at most the bound of the loop. -/
theorem drawPath_some (dbl : Doubles D) (ran cumul : D) (k n : Nat) (h : k + n < probs.length) :
    ∃ i, drawPath dbl ran probs cumul k n = some i ∧ i < probs.length := by
  induction n generalizing k cumul with
  | zero => exact ⟨k, rfl, h⟩
  | succ n ih =>
    rw [drawPath, List.getElem?_eq_getElem (by omega), Option.bind_some]
    dsimp only
    split
    · exact ⟨k, rfl, by omega⟩
    · exact ih _ _ (by omega)

theorem getFid_some [DecidableEq V] {m : TeMfDemandMap V D} (hne : d.pathFlowMap ≠ [])
    (hentry : m i j = some (g.entryOf dbl d)) (ran : D) :
    ∃ entry ∈ d.pathFlowMap, getFid dbl m ran i j = some (g.pathFID d.sink entry.1) := by
  have hpos := List.length_pos_iff.2 hne
  have hprobs : (g.entryOf dbl d).probs.length = d.pathFlowMap.length := List.length_map _
  have hflows : (g.entryOf dbl d).flows.length = d.pathFlowMap.length := List.length_map _
  have hbound : 0 + (d.pathFlowMap.length + (2 ^ 64 - 1)) % 2 ^ 64 < (g.entryOf dbl d).probs.length := by
    rw [hprobs]
    omega
  obtain ⟨i', hdraw, hi'⟩ := drawPath_some dbl ran (dbl.ofNat 0) 0 _ hbound
  rw [hprobs] at hi'
  refine ⟨d.pathFlowMap[i'], List.getElem_mem hi', ?_⟩
  simp only [getFid, hentry, hflows, hdraw, Option.bind_some]
  simp [entryOf, hi']

/-! ## Paths -/

theorem pathFID_includes (sink : V) (path : List V) :
    (g.pathFID sink path).Includes (Bitvector.parse (g.iLID sink)) ∧
      ∀ e ∈ g.pathEdges path, (g.pathFID sink path).Includes (Bitvector.parse (g.LID e)) := by
  obtain ⟨hiLID, hlinks⟩ := foldl_or_includes (fun eid => Bitvector.parse (g.LID eid))
    (g.pathEdges path) (0 ||| Bitvector.parse (g.iLID sink))
  exact ⟨hiLID.trans (Bitvector.includes_or_right _ _), hlinks⟩

/-! ## The cache -/

section

variable [DecidableEq V] {vertices : List V} {demands : Demands V} {graphMF : GraphMF V D}
  {s s' : TEState V D}

omit [DecidableEq V] in
theorem mem_copyDemands {p : V × V} : p ∈ (copyDemands dbl vertices demands).map
      (fun d => (d.source, d.sink)) ↔
    p.1 ∈ vertices ∧ p.2 ∈ vertices ∧ ∃ demand, demands p.1 p.2 = some demand := by
  obtain ⟨i, j⟩ := p
  simp only [copyDemands, List.map_flatMap, List.map_filterMap, List.mem_flatMap, List.mem_filterMap,
    Option.map_map, Option.map_eq_some_iff, Function.comp_apply, Prod.mk.injEq]
  constructor
  · rintro ⟨i', hi', j', hj', demand, hdemand, rfl, rfl⟩
    exact ⟨hi', hj', demand, hdemand⟩
  · rintro ⟨hi', hj', demand, hdemand⟩
    exact ⟨i, hi', j, hj', demand, hdemand, rfl, rfl⟩

/-- What the table of the cache has: the pairs of different nodes, each with paths. -/
def Covers (g : TMIgraph V E) (dbl : Doubles D) (adj : V → V → Prop) (m : TeMfDemandMap V D) : Prop :=
  (∀ i, m i i = none) ∧ ∀ i j, i ≠ j → ∃ d : MfDemand V D, d.source = i ∧ d.sink = j ∧
    m i j = some (g.entryOf dbl d) ∧ d.pathFlowMap ≠ [] ∧
    ∀ entry ∈ d.pathFlowMap, Walks.IsWalk adj i j entry.1

/-- The measured demands are of the pairs of different nodes, and so is the cache. -/
structure Sound (g : TMIgraph V E) (dbl : Doubles D) (adj : V → V → Prop) (s : TEState V D) : Prop where
  measured : Measured s.demandMapMeasured
  covers : ∀ m, s.demandMapApplied = some m → Covers g dbl adj m

omit [DecidableEq V] in
/-- The demands that the minimisation is given, and those that it leaves, are of the same pairs. -/
theorem GraphMF.LeavesPaths.pairs (hmf : graphMF.LeavesPaths adj) (ds : List (MfDemand V D))
    (scale : MfDemand V D → D) :
    (graphMF.minCongestionFlow ((graphMF.spConcurrentFlow ds).1.map fun d =>
      { d with demand := scale d })).map (fun d => (d.source, d.sink)) =
      ds.map fun d => (d.source, d.sink) := by
  rw [hmf.kept, List.map_map]
  exact hmf.scaled ds

theorem Sound.update (h : Sound g dbl adj s) (hall : ∀ v, v ∈ vertices)
    (hconnected : ∀ u v, Relation.ReflTransGen adj u v) (hmf : graphMF.LeavesPaths adj) :
    Sound g dbl adj (g.updatePaths dbl vertices graphMF s) where
  measured i j := by
    rw [← h.measured i j]
    simp [updatePaths]
  covers := by
    rintro m hm
    obtain rfl := Option.some.inj hm
    set tmpdemands := copyDemands dbl vertices s.demandMapMeasured with htmp
    set scaled := (graphMF.spConcurrentFlow tmpdemands).1.map fun d =>
      { d with demand := dbl.div (dbl.mul d.demand (graphMF.spConcurrentFlow tmpdemands).2) (dbl.ofNat 2) }
      with hscaled
    have hpairs := hmf.pairs tmpdemands fun d =>
      dbl.div (dbl.mul d.demand (graphMF.spConcurrentFlow tmpdemands).2) (dbl.ofNat 2)
    have hmem : ∀ p, p ∈ (graphMF.minCongestionFlow scaled).map (fun d => (d.source, d.sink)) ↔
        p.1 ≠ p.2 := fun p => by
      rw [hscaled, hpairs, htmp, mem_copyDemands, h.measured p.1 p.2]
      simp only [hall, true_and]
    have hgiven : ∀ d ∈ scaled, d.source ≠ d.sink ∧ Relation.ReflTransGen adj d.source d.sink :=
      fun d hd => by
        refine ⟨(hmem (d.source, d.sink)).1 ?_, hconnected _ _⟩
        rw [hmf.kept]
        exact List.mem_map_of_mem hd
    have hpaths := hmf.paths scaled hgiven
    have hne := fun d hd => (hpaths d hd).1
    refine ⟨fun i => ?_, fun i j hij => ?_⟩
    · rcases foldl_insertPaths g dbl (fun _ _ => none) _ hne i i with
        ⟨d, hd, hsource, hsink, -⟩ | ⟨-, hnone⟩
      · exact absurd (hsource.trans hsink.symm) ((hmem (d.source, d.sink)).1 (List.mem_map_of_mem hd))
      · exact hnone
    · rcases foldl_insertPaths g dbl (fun _ _ => none) _ hne i j with
        ⟨d, hd, rfl, rfl, hentry⟩ | ⟨hno, -⟩
      · exact ⟨d, rfl, rfl, hentry, hpaths d hd⟩
      · obtain ⟨d, hd, hpair⟩ := List.mem_map.1 ((hmem (i, j)).2 hij)
        exact absurd ⟨congrArg Prod.fst hpair, congrArg Prod.snd hpair⟩ (hno d hd)

theorem sound_start : Sound g dbl adj (TEState.start : TEState V D) := ⟨measured_readDemands, nofun⟩

theorem Sound.step (h : Sound g dbl adj s) (hall : ∀ v, v ∈ vertices)
    (hconnected : ∀ u v, Relation.ReflTransGen adj u v) (hstep : TEStep g dbl vertices adj s () s') :
    Sound g dbl adj s' := by
  cases hstep with
  | «match» source sink demands hcount => exact ⟨(h.measured.count hcount).2, h.covers⟩
  | update graphMF hmf => exact h.update hall hconnected hmf

theorem sound_reachable (hall : ∀ v, v ∈ vertices) (hconnected : ∀ u v, Relation.ReflTransGen adj u v)
    (h : Runs.Reachable (TEStep g dbl vertices adj) TEState.start s) : Sound g dbl adj s :=
  h.invariant sound_start fun _ _ _ _ hsound hstep => hsound.step hall hconnected hstep

/-! ## What is returned -/

variable {joins : E → V → V → Prop} {m : TeMfDemandMap V D}

omit [DecidableEq V] in
theorem arrives_zero : Arrives g joins i i (some 0) ↔ Bitvector.parse (g.iLID i) = 0 := by
  constructor
  · rintro ⟨FID, hFID, hiLID, -⟩
    obtain rfl := Option.some.inj hFID
    exact hiLID.symm.trans (BitVec.zero_and)
  · intro hzero
    refine ⟨0, rfl, ?_, [], rfl, nofun⟩
    rw [hzero]
    exact .refl _

theorem Covers.arrives (h : Covers g dbl (Linked joins) m) (hget : g.FindsEdges joins) (hij : i ≠ j)
    (ran : D) : Arrives g joins i j (getFid dbl m ran i j) := by
  obtain ⟨d, rfl, rfl, hentry, hne, hwalks⟩ := h.2 i j hij
  obtain ⟨entry, hmem, hFID⟩ := getFid_some hne hentry ran
  obtain ⟨hiLID, hlinks⟩ := g.pathFID_includes d.sink entry.1
  exact ⟨_, hFID, hiLID, _, (edgeWalk_pathEdges hget (hwalks entry hmem)).1, hlinks⟩

/-- A node has no entry for itself, so nothing is returned that would bring a packet to it. -/
theorem cachedFID_iff (hall : ∀ v, v ∈ vertices)
    (hconnected : ∀ u v, Relation.ReflTransGen (Linked joins) u v) (hget : g.FindsEdges joins)
    (h : Runs.Reachable (TEStep g dbl vertices (Linked joins)) TEState.start s)
    (hm : s.demandMapApplied = some m) (i j : V) (ran : D) :
    Arrives g joins i j (g.teCalculateFID dbl s ran i j) ↔ i ≠ j ∨ Bitvector.parse (g.iLID j) = 0 := by
  have hcovers := (sound_reachable hall hconnected h).covers m hm
  have hresult : g.teCalculateFID dbl s ran i j = getFid dbl m ran i j := by
    rw [teCalculateFID, hm]
  rw [hresult]
  by_cases hij : i = j
  · subst hij
    rw [getFid, hcovers.1 i, arrives_zero]
    simp
  · exact ⟨fun _ => .inl hij, fun _ => hcovers.arrives hget hij ran⟩

end

/-! ## Two nodes -/

def pair : TMIgraph Bool (Bool × Bool) where
  LID e := Bitvector.oneHot (if e.1 then 10 else 11)
  iLID v := Bitvector.oneHot (if v then 0 else 1)
  getShortestPath := Walks.search (· ≠ ·) [false, true]
  getEid u v := (u, v)

def pairJoins (e : Bool × Bool) (u v : Bool) : Prop := e = (u, v) ∧ u ≠ v

def pairDoubles : Doubles Nat where
  ofNat := id
  add := (· + ·)
  mul := (· * ·)
  div := (· / ·)
  le := (· ≤ ·)

/-- Each demand gets the link to its sink. -/
def pairMF : GraphMF Bool Nat where
  spConcurrentFlow ds := (ds, 2)
  minCongestionFlow ds := ds.map fun d =>
    { d with flow := d.demand, pathFlowMap := [([d.source, d.sink], d.demand)] }

theorem linked_pair : Linked pairJoins = (· ≠ ·) := by
  funext u v
  exact propext ⟨fun ⟨_, _, h⟩ => h, fun h => ⟨(u, v), rfl, h⟩⟩

theorem pairMF_leavesPaths : pairMF.LeavesPaths (Linked pairJoins) where
  scaled _ := rfl
  kept ds := by
    rw [pairMF, List.map_map]
    rfl
  paths ds h d hd := by
    obtain ⟨d, hin, rfl⟩ := List.mem_map.1 hd
    refine ⟨List.cons_ne_nil _ _, List.forall_mem_singleton.2 ⟨rfl, rfl, ?_⟩⟩
    rw [linked_pair]
    exact .cons_cons (h d hin).1 (.singleton _)

def pairUpdated : TEState Bool Nat :=
  pair.updatePaths pairDoubles [false, true] pairMF TEState.start

theorem cachedFID_pair : Arrives pair pairJoins false true
    (pair.teCalculateFID pairDoubles pairUpdated 0 false true) := by
  have hconnected : ∀ u v, Relation.ReflTransGen (Linked pairJoins) u v := fun u v => by
    rw [linked_pair]
    by_cases huv : u = v
    · rw [huv]
    · exact .single huv
  refine (cachedFID_iff (by decide) hconnected (fun u v ⟨_, _, h⟩ => ⟨rfl, h⟩)
    (.next .start (.update TEState.start pairMF pairMF_leavesPaths)) rfl false true 0).2 (.inl (by decide))

/-- The identifier of a node for itself is empty with the cache, and without it has the internal
link. -/
theorem not_cachedFID : pair.teCalculateFID pairDoubles pairUpdated 0 true true = some 0 ∧
    ¬ Arrives pair pairJoins true true (pair.teCalculateFID pairDoubles pairUpdated 0 true true) ∧
    pair.teCalculateFID pairDoubles TEState.start 0 true true =
      some (Bitvector.parse (pair.iLID true)) := by
  have hempty : pair.teCalculateFID pairDoubles pairUpdated 0 true true = some 0 := by decide +kernel
  have hiLID : Bitvector.parse (pair.iLID true) ≠ 0 := by decide +kernel
  refine ⟨hempty, ?_, by decide +kernel⟩
  rw [hempty, arrives_zero]
  exact hiLID

end TMIgraph

end Blackadder
