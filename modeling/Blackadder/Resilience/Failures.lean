import Blackadder.Resilience.Links

/-!
# Reports and their effect

A report for both directions acts on them together. It has its effect when earlier reports did not
leave one of them behind.
-/

namespace Blackadder

open LinkGraph (not_mem_down)

namespace LinkReport

variable {V : Type} {c c' : LinkReport V} {pair : V × V} {down : Set (V × V)}

/-- The report can bring the link back. -/
def Restores (c : LinkReport V) (pair : V × V) : Prop :=
  c.update_op = true ∧ (c.there = pair ∨ c.net = .e ∧ c.back = pair)

theorem nextDown_stays (hdown : pair ∈ down) (hc : ¬ c.Restores pair) : pair ∈ c.nextDown down := by
  unfold nextDown
  split
  · rename_i hop
    have hthere : pair ≠ c.there := fun hsame => hc ⟨hop, Or.inl hsame.symm⟩
    split
    · exact hdown
    · split
      · rename_i hnet
        have hback : pair ≠ c.back := fun hsame => hc ⟨hop, Or.inr ⟨hnet, hsame.symm⟩⟩
        exact ⟨hdown, by simp [hthere, hback]⟩
      · exact ⟨hdown, hthere⟩
  · split
    · split
      · exact hdown
      · exact Or.inl hdown
    · exact Or.inl hdown
    · exact hdown

theorem nextDown_removal (hop : c.update_op = false) (hnet : c.net ≠ .other) :
    (c.there ∈ c.nextDown down ∧ (c.net = .e → c.back ∈ c.nextDown down)) ↔
      (c.net = .e → (c.there ∈ down ↔ c.back ∈ down)) := by
  unfold nextDown
  rw [hop, if_neg Bool.false_ne_true]
  cases hn : c.net with
  | e =>
    by_cases hdown : c.there ∈ down ∨ c.back ∈ down
    · simp only [if_pos hdown, forall_const]
      exact ⟨fun h => iff_of_true h.1 h.2, fun h => ⟨hdown.elim id h.mpr, hdown.elim h.mp id⟩⟩
    · simp only [if_neg hdown, forall_const]
      have hup := not_or.mp hdown
      exact iff_of_true ⟨by simp, by simp⟩ (iff_of_false hup.1 hup.2)
  | o => simp
  | other => exact absurd hn hnet

theorem nextDown_recovery (hop : c.update_op = true) :
    (c.there ∉ c.nextDown down ∧ (c.net = .e → c.back ∉ c.nextDown down)) ↔
      (c.net = .e → c.there ∉ down → c.back ∉ down) := by
  unfold nextDown
  rw [if_pos hop]
  by_cases hdown : c.there ∈ down
  · rw [if_neg (not_not.mpr hdown)]
    refine iff_of_true ?_ fun _ hup => absurd hdown hup
    split
    · simp
    · rename_i hnet
      exact ⟨by simp, fun hsame => absurd hsame hnet⟩
  · rw [if_pos hdown]
    exact ⟨fun h hnet _ => h.2 hnet, fun h => ⟨hdown, fun hnet => h hnet hdown⟩⟩

end LinkReport

/-! ## Identifiers and failed links -/

section

variable {V : Type} [LinearOrder V] {x : NodeIndex V} {g : LinkGraph V (List Char)} {w : List V}
  {pair : V × V}

/-- No identifier that is computed now has a link of this pair: the links of a path are links of the
graph, and this is none of them. -/
def NodeIndex.Avoids (x : NodeIndex V) (g : LinkGraph V (List Char)) (pair : V × V) : Prop :=
  ∀ s d, ∀ eid ∈ (x.igraph g).pathEdges ((x.igraph g).getShortestPath s d),
    ∃ e, g.edges[eid]? = some e ∧ (x.igraph g).LID eid = e.LID ∧ e.ends ≠ pair

theorem NodeIndex.mem_pathEdges (hg : g.edge_LID = g.edges.map LinkEdge.LID)
    (hw : w.IsChain (Adj g.edges)) : ∀ eid ∈ (x.igraph g).pathEdges w,
      ∃ e, g.edges[eid]? = some e ∧ (x.igraph g).LID eid = e.LID := by
  induction w with
  | nil => simp [TMIgraph.pathEdges]
  | cons u w ih =>
    cases w with
    | nil => simp [TMIgraph.pathEdges]
    | cons v w =>
      rw [List.isChain_cons_cons] at hw
      rw [TMIgraph.pathEdges, List.forall_mem_cons]
      refine ⟨?_, ih hw.2⟩
      obtain ⟨e, he, hsource, htarget⟩ := hw.1
      obtain ⟨i, hi⟩ : ∃ i, g.getEid (u, v) = some i := by
        rw [← Option.isSome_iff_exists, LinkGraph.getEid, List.findIdx?_isSome, List.any_eq_true]
        exact ⟨e, he, by simp [hsource, htarget]⟩
      obtain ⟨hlt, -, -⟩ := List.findIdx?_eq_some_iff_getElem.mp hi
      exact ⟨g.edges[i], by simp [NodeIndex.igraph, hi, hlt], by simp [NodeIndex.igraph, hi, hg, hlt]⟩

theorem NodeIndex.avoids (hx : x.ShortestPaths) (hg : g.edge_LID = g.edges.map LinkEdge.LID)
    (hpair : pair ∉ g.edges.map LinkEdge.ends) : x.Avoids g pair := by
  intro s d eid heid
  have hw : ((x.igraph g).getShortestPath s d).IsChain (Adj g.edges) := by
    by_cases hreach : Relation.ReflTransGen (Adj g.edges) s d
    · exact ((hx g.edges s d).1 hreach).chain
    · have hnil : (x.igraph g).getShortestPath s d = [] := (hx g.edges s d).2 hreach
      rw [hnil]
      exact .nil
  obtain ⟨e, he, hLID⟩ := mem_pathEdges (x := x) hg hw eid heid
  refine ⟨e, he, hLID, fun hends => hpair ?_⟩
  exact List.mem_map.mpr ⟨e, List.mem_of_getElem? he, hends⟩

end

/-! ## The effect of a report -/

namespace LinkTopology

section

variable {V L : Type} {t : LinkTopology V L} {g : LinkGraph V L} {pair : V × V}

/-- The link is in the graph with the identifier of the topology. -/
def Up (t : LinkTopology V L) (g : LinkGraph V L) (pair : V × V) : Prop :=
  ∃ e ∈ g.edges, e.ends = pair ∧ e.link ∈ t.edges.map LinkEdge.link

theorem Conserved.mem_ends (h : t.Conserved g) (hpair : ∃ e ∈ t.edges, e.ends = pair) :
    pair ∈ g.edges.map LinkEdge.ends ↔ pair ∉ g.down := by
  obtain ⟨e, he, rfl⟩ := hpair
  refine ⟨fun hin => ?_, fun hup => ?_⟩
  · obtain ⟨e', he', hends⟩ := List.mem_map.mp hin
    rw [not_mem_down, ← hends]
    exact h.up e' he'
  · obtain ⟨e', he', hends, -⟩ := h.there he (not_mem_down.mp hup)
    exact List.mem_map.mpr ⟨e', he', hends⟩

theorem Conserved.up_iff (h : t.Conserved g) (hpair : ∃ e ∈ t.edges, e.ends = pair) :
    t.Up g pair ↔ pair ∉ g.down := by
  rw [← h.mem_ends hpair]
  refine ⟨fun ⟨e, he, hends, _⟩ => List.mem_map.mpr ⟨e, he, hends⟩, fun hin => ?_⟩
  obtain ⟨e, he, hends⟩ := List.mem_map.mp hin
  exact ⟨e, he, hends, h.link e he⟩

end

variable {V : Type} [LinearOrder V] {x : NodeIndex V} {t : LinkTopology V (List Char)}
  {g g' : LinkGraph V (List Char)} {c : LinkReport V} {pair : V × V}

/-- The link is out of the graph and of the identifiers until a report brings it back. -/
def Gone (t : LinkTopology V (List Char)) (x : NodeIndex V) (g : LinkGraph V (List Char))
    (pair : V × V) : Prop :=
  ∀ g', Runs.Reachable (Runs.Guarded t.Step fun _ c => ¬ c.Restores pair) g g' →
    pair ∉ g'.edges.map LinkEdge.ends ∧ x.Avoids g' pair

/-- What the report says holds after it. -/
def TakesEffect (t : LinkTopology V (List Char)) (x : NodeIndex V) (c : LinkReport V)
    (g' : LinkGraph V (List Char)) : Prop :=
  if c.update_op then t.Up g' c.there ∧ (c.net = .e → t.Up g' c.back)
  else t.Gone x g' c.there ∧ (c.net = .e → t.Gone x g' c.back)

/-- When both directions fail, both are in the graph or none is, and when both recover, not only the
reverse one is missing. -/
def Paired (g : LinkGraph V (List Char)) (c : LinkReport V) : Prop :=
  c.net = .e →
    if c.update_op then
      c.there ∈ g.edges.map LinkEdge.ends → c.back ∈ g.edges.map LinkEdge.ends
    else (c.there ∈ g.edges.map LinkEdge.ends ↔ c.back ∈ g.edges.map LinkEdge.ends)

theorem gone_iff (hx : x.ShortestPaths) (h : t.Kept g) (hpair : ∃ e ∈ t.edges, e.ends = pair) :
    t.Gone x g pair ↔ pair ∈ g.down := by
  refine ⟨fun hgone => ?_, fun hdown g' hrun => ?_⟩
  · have hout := (hgone g .start).1
    rw [h.1.mem_ends hpair] at hout
    exact not_not.mp hout
  · obtain ⟨hkept', hdown'⟩ : t.Kept g' ∧ pair ∈ g'.down := by
      refine hrun.invariant (I := fun g' => t.Kept g' ∧ pair ∈ g'.down) ⟨h, hdown⟩ ?_
      rintro g₁ c g₂ - ⟨hkept, hdown⟩ ⟨hstep, hc⟩
      obtain ⟨hkept', hnext⟩ := hkept.step hstep
      refine ⟨hkept', ?_⟩
      rw [hnext]
      exact LinkReport.nextDown_stays hdown hc
    have hout : pair ∉ g'.edges.map LinkEdge.ends := by
      rw [hkept'.1.mem_ends hpair]
      exact not_not.mpr hdown'
    exact ⟨hout, NodeIndex.avoids hx hkept'.2.edge_LID hout⟩

/-- After every sequence of reports the next one is carried out, and it takes effect exactly when it
finds the two directions of its link together. -/
theorem report_takes_effect (hx : x.ShortestPaths) (h : Runs.Reachable t.Step (.new t.edges) g)
    (hc : t.About c) (hnet : c.net ≠ .other) :
    ∃ g', t.Step g c g' ∧ (t.TakesEffect x c g' ↔ Paired g c) := by
  have hkept := kept_reachable h
  obtain ⟨g', hrun, hkept', hnext⟩ := hkept.run hc
  refine ⟨g', ⟨hc, hrun⟩, ?_⟩
  unfold TakesEffect Paired
  rw [hkept.1.mem_ends hc, hkept.1.mem_ends hc.back]
  cases hop : c.update_op with
  | true =>
    simp only [if_true]
    rw [hkept'.1.up_iff hc, hkept'.1.up_iff hc.back, hnext]
    exact LinkReport.nextDown_recovery hop
  | false =>
    simp only [Bool.false_eq_true, if_false]
    rw [gone_iff hx hkept' hc, gone_iff hx hkept' hc.back, hnext, not_iff_not]
    exact LinkReport.nextDown_removal hop hnet

/-! ## Two nodes -/

def twoNodes : LinkTopology (Fin 2) (List Char) := ofPair (Bitvector.oneHot 10) (Bitvector.oneHot 11)

def twoIndex : NodeIndex (Fin 2) where
  nodes := List.finRange 2
  vertex := Fin.val
  iLID v := Bitvector.oneHot v
  shortest edges := Walks.search (Adj edges) (List.finRange 2)
  mem_nodes := List.mem_finRange
  vertex_injective := Fin.val_injective
  vertex_lt v := by
    rw [List.length_finRange]
    exact v.isLt

/-- The link fails in both directions. -/
theorem report_takes_effect_twoNodes : ∃ g', twoNodes.Step (.new twoNodes.edges) ⟨0, 1, .e, false⟩ g' ∧
    twoNodes.TakesEffect twoIndex ⟨0, 1, .e, false⟩ g' := by
  have hx : twoIndex.ShortestPaths := fun _ _ _ =>
    ⟨Walks.isShortest_search List.mem_finRange, Walks.search_eq_nil List.mem_finRange⟩
  obtain ⟨g', hstep, heffect⟩ := report_takes_effect (t := twoNodes) (c := ⟨0, 1, .e, false⟩) hx .start
    ⟨_, List.mem_cons_self, rfl⟩ (by decide)
  refine ⟨g', hstep, heffect.mpr fun _ => ?_⟩
  exact iff_of_true List.mem_cons_self (List.mem_cons_of_mem _ List.mem_cons_self)

theorem about_twoNodes {c : LinkReport (Fin 2)} (hc : c.source ≠ c.destination) : twoNodes.About c := by
  obtain ⟨source, destination, net, update_op⟩ := c
  simp only at hc
  have hcases : (source, destination) = (0, 1) ∨ (source, destination) = (1, 0) := by
    revert hc source destination
    decide
  rcases hcases with h | h
  · exact ⟨_, List.mem_cons_self, h.symm⟩
  · exact ⟨_, List.mem_cons_of_mem _ List.mem_cons_self, h.symm⟩

theorem twoNodes_run (c c' : LinkReport (Fin 2)) (links : List (Fin 2 × Fin 2))
    (hc : c.source ≠ c.destination) (hc' : c'.source ≠ c'.destination)
    (h : ([c, c'].foldlM LinkReport.run (.new twoNodes.edges)).map (fun g => g.edges.map LinkEdge.ends) =
      some links) :
    ∃ g g', Runs.Reachable twoNodes.Step (.new twoNodes.edges) g ∧ twoNodes.Step g c' g' ∧
      g'.edges.map LinkEdge.ends = links := by
  obtain ⟨g', hrun, rfl⟩ := Option.map_eq_some_iff.mp h
  simp only [List.foldlM_cons, List.foldlM_nil, bind_pure] at hrun
  obtain ⟨g, hfirst, hsecond⟩ := Option.bind_eq_some_iff.mp hrun
  exact ⟨g, g', Runs.Reachable.start.next ⟨about_twoNodes hc, hfirst⟩, ⟨about_twoNodes hc', hsecond⟩, rfl⟩

/-- One direction fails, and then both: the other one stays. And when the other one failed, the recovery
of both does not bring it back. -/
theorem not_takes_effect :
    (∃ g g', Runs.Reachable twoNodes.Step (.new twoNodes.edges) g ∧
      twoNodes.Step g ⟨0, 1, .e, false⟩ g' ∧ ¬ twoNodes.TakesEffect twoIndex ⟨0, 1, .e, false⟩ g') ∧
    ∃ g g', Runs.Reachable twoNodes.Step (.new twoNodes.edges) g ∧
      twoNodes.Step g ⟨0, 1, .e, true⟩ g' ∧ ¬ twoNodes.TakesEffect twoIndex ⟨0, 1, .e, true⟩ g' := by
  constructor
  · obtain ⟨g, g', hreach, hstep, hlinks⟩ := twoNodes_run ⟨0, 1, .o, false⟩
      ⟨0, 1, .e, false⟩ [(1, 0)] (by decide) (by decide) (by decide +kernel)
    refine ⟨g, g', hreach, hstep, fun heffect => ?_⟩
    have hout := (heffect.2 rfl g' .start).1
    rw [hlinks] at hout
    exact hout List.mem_cons_self
  · obtain ⟨g, g', hreach, hstep, hlinks⟩ := twoNodes_run ⟨1, 0, .o, false⟩
      ⟨0, 1, .e, true⟩ [(0, 1)] (by decide) (by decide) (by decide +kernel)
    refine ⟨g, g', hreach, hstep, fun heffect => ?_⟩
    obtain ⟨e, he, hends, -⟩ := heffect.2 rfl
    have hin : e.ends ∈ g'.edges.map LinkEdge.ends := List.mem_map_of_mem he
    rw [hlinks, hends] at hin
    revert hin
    decide

end LinkTopology

end Blackadder
