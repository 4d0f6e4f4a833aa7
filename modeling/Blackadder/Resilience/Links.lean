import Blackadder.Resilience.Routes
import Mathlib.Data.List.Nodup

/-!
# Links that go and come back

A link of the topology is in the graph, or `rmv_edge_lid` has its identifier, and never both. A
report moves links between the two places.
-/

namespace Blackadder

variable {V L : Type}

def LinkEdge.ends (e : LinkEdge V L) : V × V := (e.source, e.target)

/-- What `readTopology` reads of an edge. -/
def LinkEdge.link (e : LinkEdge V L) : (V × V) × L := (e.ends, e.LID)

/-- A simple directed graph that has both directions of each link. -/
structure LinkTopology (V L : Type) where
  edges : List (LinkEdge V L)
  simple : (edges.map LinkEdge.ends).Nodup
  loopless : ∀ e ∈ edges, e.source ≠ e.target
  both : ∀ e ∈ edges, ∃ e' ∈ edges, e'.ends = e.ends.swap

/-- The arguments of `updateGraph`. -/
structure LinkReport (V : Type) where
  source : V
  destination : V
  net : Net
  update_op : Bool

namespace LinkReport

def there (c : LinkReport V) : V × V := (c.source, c.destination)

def back (c : LinkReport V) : V × V := (c.destination, c.source)

variable [DecidableEq V] [DecidableEq L]

def run (g : LinkGraph V L) (c : LinkReport V) : Option (LinkGraph V L) :=
  g.updateGraph c.source c.destination c.net c.update_op

end LinkReport

namespace LinkGraph

variable [DecidableEq V] {g g' : LinkGraph V L} {e : LinkEdge V L} {pairs : List (V × V)}
  {pair : V × V} {i : Nat}

theorem getEid_ends (hsimple : (g.edges.map LinkEdge.ends).Nodup) (hi : g.edges[i]? = some e) :
    g.getEid e.ends = some i := by
  obtain ⟨hlt, hget⟩ := List.getElem?_eq_some_iff.mp hi
  refine List.findIdx?_eq_some_iff_getElem.mpr ⟨hlt, ?_, fun j hj => ?_⟩
  · simp [hget, LinkEdge.ends]
  · have hj' : j < (g.edges.map LinkEdge.ends).length := by
      rw [List.length_map]
      omega
    have hi' : i < (g.edges.map LinkEdge.ends).length := by rwa [List.length_map]
    simp only [decide_eq_true_eq]
    intro hsame
    have hends : (g.edges.map LinkEdge.ends)[j] = (g.edges.map LinkEdge.ends)[i] := by
      simp [LinkEdge.ends, hsame.1, hsame.2, hget]
    have hplace := (hsimple.getElem_inj_iff).mp hends
    omega

/-- `igraph_delete_edges` keeps the edges of other pairs, in their order. -/
theorem filter_zipIdx {eids : List Nat} (heids : ∀ i e, g.edges[i]? = some e → (i ∈ eids ↔ e.ends ∈ pairs)) :
    (g.edges.zipIdx.filter fun e => e.2 ∉ eids).map Prod.fst =
      g.edges.filter fun e => e.ends ∉ pairs := by
  have hsame : g.edges.zipIdx.filter (fun e => e.2 ∉ eids) =
      g.edges.zipIdx.filter ((fun e => decide (e.ends ∉ pairs)) ∘ Prod.fst) := by
    refine List.filter_congr fun ⟨e, i⟩ he => ?_
    have hplace := heids i e (List.mem_zipIdx_iff_getElem?.mp he)
    simp [hplace]
  rw [hsame, ← List.filter_map, List.zipIdx_map_fst]

/-- What a removal of edges that are there does. -/
structure Removed (pairs : List (V × V)) (g g' : LinkGraph V L) : Prop where
  there : ∀ pair ∈ pairs, ∃ e ∈ g.edges, e.ends = pair
  edges : g'.edges = g.edges.filter fun e => e.ends ∉ pairs
  other : ∀ pair, pair ∉ pairs → g'.rmv_edge_lid pair = g.rmv_edge_lid pair
  recorded : ∀ e ∈ g.edges, e.ends ∈ pairs → g'.rmv_edge_lid e.ends = some e.LID

theorem foldl_insert {removed : List ((V × V) × L)} (rmv : V × V → Option L)
    (hnodup : (removed.map Prod.fst).Nodup) (hnone : ∀ r ∈ removed, rmv r.1 = none) :
    (∀ pair, pair ∉ removed.map Prod.fst → removed.foldl
      (fun rmv e => Function.update rmv e.1 ((rmv e.1).or (some e.2))) rmv pair = rmv pair) ∧
    ∀ r ∈ removed, removed.foldl
      (fun rmv e => Function.update rmv e.1 ((rmv e.1).or (some e.2))) rmv r.1 = some r.2 := by
  induction removed generalizing rmv with
  | nil => simp
  | cons r removed ih =>
    rw [List.map_cons, List.nodup_cons] at hnodup
    rw [List.forall_mem_cons] at hnone
    have hrest : ∀ r' ∈ removed, r'.1 ≠ r.1 := by
      rintro r' hr' hsame
      exact hnodup.1 (hsame ▸ List.mem_map_of_mem hr')
    have hupdate : ∀ r' ∈ removed,
        Function.update rmv r.1 ((rmv r.1).or (some r.2)) r'.1 = none := by
      intro r' hr'
      rw [Function.update_of_ne (hrest r' hr')]
      exact hnone.2 r' hr'
    obtain ⟨hother, hin⟩ := ih _ hnodup.2 hupdate
    refine ⟨fun pair hpair => ?_, List.forall_mem_cons.mpr ⟨?_, hin⟩⟩
    · rw [List.map_cons, List.mem_cons, not_or] at hpair
      rw [List.foldl_cons, hother pair hpair.2, Function.update_of_ne hpair.1]
    · rw [List.foldl_cons, hother r.1 hnodup.1, Function.update_self, hnone.1, Option.none_or]

theorem removed_removeEdges (hLID : g.edge_LID = g.edges.map LinkEdge.LID)
    (hsimple : (g.edges.map LinkEdge.ends).Nodup) (hnodup : pairs.Nodup)
    (hthere : ∀ pair ∈ pairs, ∃ e ∈ g.edges, e.ends = pair)
    (hnone : ∀ pair ∈ pairs, g.rmv_edge_lid pair = none) :
    ∃ g', g.removeEdges pairs = some g' ∧ Removed pairs g g' := by
  have heid : ∀ pair ∈ pairs, ∃ i, g.getEid pair = some i ∧ ∃ e, g.edges[i]? = some e ∧ e.ends = pair := by
    intro pair hpair
    obtain ⟨e, he, rfl⟩ := hthere pair hpair
    obtain ⟨i, hi⟩ := List.getElem?_of_mem he
    exact ⟨i, getEid_ends hsimple hi, e, hi, rfl⟩
  obtain ⟨eids, heids, -⟩ := Wire.mapM_all heid
  have hentry : ∀ pair ∈ pairs, ∃ r, (do
      let eid ← g.getEid pair
      let lid ← g.edge_LID[eid]?
      return (pair, lid)) = some r ∧ r.1 = pair ∧ ∃ e ∈ g.edges, e.ends = pair ∧ r.2 = e.LID := by
    intro pair hpair
    obtain ⟨i, hi, e, he, rfl⟩ := heid pair hpair
    refine ⟨(e.ends, e.LID), ?_, rfl, e, List.mem_of_getElem? he, rfl, rfl⟩
    simp [hi, hLID, he]
  obtain ⟨removed, hremoved, hall⟩ := Wire.mapM_all hentry
  have hfst : pairs = removed.map Prod.fst := by
    rw [← List.forall₂_eq_eq_eq (α := V × V), List.forall₂_map_right_iff]
    exact hall.imp fun pair r h => h.1.symm
  have hvalue : ∀ r ∈ removed, ∃ e ∈ g.edges, e.ends = r.1 ∧ r.2 = e.LID := by
    intro r hr
    obtain ⟨pair, hpair, hfind⟩ := (Wire.mem_mapM hremoved).mp hr
    obtain ⟨r', hr', rfl, hedge⟩ := hentry pair hpair
    obtain rfl := Option.some.inj (hr'.symm.trans hfind)
    exact hedge
  rw [hfst] at hnodup
  obtain ⟨hother, hin⟩ := foldl_insert g.rmv_edge_lid hnodup fun r hr =>
    hnone r.1 (hfst ▸ List.mem_map_of_mem hr)
  have hrun : g.removeEdges pairs = some { g with
      edges := (g.edges.zipIdx.filter fun e => e.2 ∉ eids).map Prod.fst
      rmv_edge_lid := removed.foldl
        (fun rmv e => Function.update rmv e.1 ((rmv e.1).or (some e.2))) g.rmv_edge_lid } := by
    rw [removeEdges, heids, Option.bind_eq_bind, Option.bind_some, hremoved]
    rfl
  refine ⟨_, hrun, hthere, ?_, ?_, ?_⟩
  · refine filter_zipIdx fun i e hi => ?_
    rw [Wire.mem_mapM heids]
    constructor
    · rintro ⟨pair, hpair, hfind⟩
      obtain ⟨i', hi', e', he', rfl⟩ := heid pair hpair
      obtain rfl := Option.some.inj (hi'.symm.trans hfind)
      obtain rfl := Option.some.inj (he'.symm.trans hi)
      exact hpair
    · intro hpair
      exact ⟨e.ends, hpair, getEid_ends hsimple hi⟩
  · intro pair hpair
    exact hother pair (hfst ▸ hpair)
  · intro e he hpair
    rw [hfst] at hpair
    obtain ⟨r, hr, hends⟩ := List.mem_map.mp hpair
    obtain ⟨e', he', hends', hlid⟩ := hvalue r hr
    have hsame : e' = e := List.inj_on_of_nodup_map hsimple he' he (hends'.trans hends)
    rw [← hends, ← hsame, ← hlid]
    exact hin r hr

/-- The links that are not in the graph. -/
def down (g : LinkGraph V L) : Set (V × V) := {pair | g.rmv_edge_lid pair ≠ none}

omit [DecidableEq V] in
theorem not_mem_down : pair ∉ g.down ↔ g.rmv_edge_lid pair = none := Classical.not_not

theorem Removed.down (h : Removed pairs g g') : g'.down = g.down ∪ {pair | pair ∈ pairs} := by
  ext pair
  rw [Set.mem_union, Set.mem_ofPred_eq]
  by_cases hpair : pair ∈ pairs
  · obtain ⟨e, he, rfl⟩ := h.there pair hpair
    simp [LinkGraph.down, h.recorded e he hpair, hpair]
  · simp [LinkGraph.down, h.other pair hpair, hpair]

theorem down_restoreEdge (lid : L) : (g.restoreEdge pair lid).down = g.down \ {pair} := by
  ext p
  by_cases hp : p = pair
  · simp [down, restoreEdge, hp]
  · simp [down, restoreEdge, hp]

end LinkGraph

/-! ## A link is in one place -/

/-- The links in the graph and the links that are recorded are the links of the topology. -/
structure LinkTopology.Conserved (t : LinkTopology V L) (g : LinkGraph V L) : Prop where
  simple : (g.edges.map LinkEdge.ends).Nodup
  link : ∀ e ∈ g.edges, e.link ∈ t.edges.map LinkEdge.link
  up : ∀ e ∈ g.edges, g.rmv_edge_lid e.ends = none
  recorded : ∀ pair lid, g.rmv_edge_lid pair = some lid → (pair, lid) ∈ t.edges.map LinkEdge.link
  kept : ∀ e ∈ t.edges, g.rmv_edge_lid e.ends = none → e.link ∈ g.edges.map LinkEdge.link

namespace LinkTopology

open LinkGraph (Removed)

variable {t : LinkTopology V L} {g g' : LinkGraph V L} {e : LinkEdge V L} {pairs : List (V × V)}
  {pair : V × V} {lid : L} {c : LinkReport V}

theorem Conserved.there (h : t.Conserved g) (he : e ∈ t.edges) (hup : g.rmv_edge_lid e.ends = none) :
    ∃ e' ∈ g.edges, e'.ends = e.ends ∧ e'.LID = e.LID := by
  obtain ⟨e', he', hlink⟩ := List.mem_map.mp (h.kept e he hup)
  exact ⟨e', he', congrArg Prod.fst hlink, congrArg Prod.snd hlink⟩

theorem eq_of_ends {e' : LinkEdge V L} (he : e ∈ t.edges) (he' : e' ∈ t.edges) (hends : e.ends = e'.ends) :
    e = e' := List.inj_on_of_nodup_map t.simple he he' hends

variable [DecidableEq V]

theorem Conserved.remove (h : t.Conserved g) (hrm : Removed pairs g g') : t.Conserved g' := by
  have hmem : ∀ e, e ∈ g'.edges ↔ e ∈ g.edges ∧ e.ends ∉ pairs := by
    intro e
    rw [hrm.edges, List.mem_filter, decide_eq_true_eq]
  refine ⟨?_, fun e he => ?_, fun e he => ?_, fun pair lid hrec => ?_, fun e he hup => ?_⟩
  · rw [hrm.edges]
    exact h.simple.sublist (List.filter_sublist.map _)
  · exact h.link e ((hmem e).mp he).1
  · obtain ⟨hin, hpairs⟩ := (hmem e).mp he
    rw [hrm.other _ hpairs]
    exact h.up e hin
  · by_cases hpair : pair ∈ pairs
    · obtain ⟨e, he, rfl⟩ := hrm.there pair hpair
      rw [hrm.recorded e he hpair] at hrec
      obtain rfl := Option.some.inj hrec
      exact h.link e he
    · rw [hrm.other _ hpair] at hrec
      exact h.recorded pair lid hrec
  · by_cases hpair : e.ends ∈ pairs
    · obtain ⟨e', he', hends⟩ := hrm.there _ hpair
      rw [← hends] at hpair hup
      rw [hrm.recorded e' he' hpair] at hup
      cases hup
    · rw [hrm.other _ hpair] at hup
      obtain ⟨e', he', hends, hlid⟩ := h.there he hup
      refine List.mem_map.mpr ⟨e', (hmem e').mpr ⟨he', hends ▸ hpair⟩, ?_⟩
      exact Prod.ext hends hlid

theorem Conserved.restore (h : t.Conserved g) (hrec : g.rmv_edge_lid pair = some lid) :
    t.Conserved (g.restoreEdge pair lid) := by
  have hmem : ∀ e, e ∈ (g.restoreEdge pair lid).edges ↔
      e ∈ g.edges ∨ e = ⟨pair.1, pair.2, lid, QoSList.empty⟩ := by
    intro e
    simp [LinkGraph.restoreEdge]
  have hnew : ∀ e ∈ g.edges, e.ends ≠ pair := by
    rintro e he rfl
    rw [h.up e he] at hrec
    cases hrec
  have hother : ∀ p, p ≠ pair → (g.restoreEdge pair lid).rmv_edge_lid p = g.rmv_edge_lid p :=
    fun p hp => Function.update_of_ne hp _ _
  have hself : (g.restoreEdge pair lid).rmv_edge_lid pair = none := Function.update_self _ _ _
  refine ⟨?_, fun e he => ?_, fun e he => ?_, fun p l hp => ?_, fun e he hup => ?_⟩
  · rw [LinkGraph.restoreEdge, List.map_append, List.nodup_append]
    refine ⟨h.simple, List.nodup_singleton _, fun a ha b hb => ?_⟩
    obtain ⟨e, he, rfl⟩ := List.mem_map.mp ha
    rw [List.mem_singleton.mp hb]
    exact hnew e he
  · rcases (hmem e).mp he with he | rfl
    · exact h.link e he
    · exact h.recorded pair lid hrec
  · rcases (hmem e).mp he with he | rfl
    · rw [hother _ (hnew e he)]
      exact h.up e he
    · exact hself
  · have hne : p ≠ pair := by
      rintro rfl
      rw [hself] at hp
      cases hp
    rw [hother p hne] at hp
    exact h.recorded p l hp
  · by_cases hpair : e.ends = pair
    · obtain ⟨e', he', hlink⟩ := List.mem_map.mp (h.recorded pair lid hrec)
      obtain rfl := t.eq_of_ends he he' (hpair.trans (congrArg Prod.fst hlink).symm)
      exact List.mem_map.mpr ⟨_, (hmem _).mpr (Or.inr rfl), hlink.symm⟩
    · rw [hother _ hpair] at hup
      obtain ⟨e', he', hends, hlid⟩ := h.there he hup
      exact List.mem_map.mpr ⟨e', (hmem e').mpr (Or.inl he'), Prod.ext hends hlid⟩

end LinkTopology

/-! ## What a report does to the set of links that are down -/

namespace LinkReport

variable [DecidableEq V] (c : LinkReport V)

open Classical in
/-- The links that are down after a report. -/
noncomputable def nextDown (down : Set (V × V)) : Set (V × V) :=
  if c.update_op then
    if c.there ∉ down then down
    else if c.net = .e then down \ {c.there, c.back} else down \ {c.there}
  else
    match c.net with
    | .e => if c.there ∈ down ∨ c.back ∈ down then down else down ∪ {c.there, c.back}
    | .o => down ∪ {c.there}
    | .other => down

end LinkReport

namespace LinkTopology

open LinkGraph (removed_removeEdges down_restoreEdge not_mem_down)

variable {t : LinkTopology V L} {g g' : LinkGraph V L} {c : LinkReport V}

/-- The report is about a link of the topology. -/
def About (t : LinkTopology V L) (c : LinkReport V) : Prop := ∃ e ∈ t.edges, e.ends = c.there

theorem About.back (h : t.About c) : ∃ e ∈ t.edges, e.ends = c.back := by
  obtain ⟨e, he, hends⟩ := h
  obtain ⟨e', he', hback⟩ := t.both e he
  exact ⟨e', he', hback.trans (congrArg Prod.swap hends)⟩

theorem About.ne (h : t.About c) : c.there ≠ c.back := by
  obtain ⟨e, he, hends⟩ := h
  intro hsame
  refine t.loopless e he ?_
  exact (congrArg Prod.fst hends).trans ((congrArg Prod.fst hsame).trans (congrArg Prod.snd hends).symm)

variable [DecidableEq V]

theorem conserved_removal (h : t.Conserved g) (hg : g.edge_LID = g.edges.map LinkEdge.LID)
    (pairs : List (V × V)) (hnodup : pairs.Nodup) (hpairs : ∀ pair ∈ pairs, ∃ e ∈ t.edges, e.ends = pair)
    (hup : ∀ pair ∈ pairs, pair ∉ g.down) :
    ∃ g', g.removeEdges pairs = some g' ∧ t.Conserved g' ∧ g'.down = g.down ∪ {pair | pair ∈ pairs} := by
  have hnone : ∀ pair ∈ pairs, g.rmv_edge_lid pair = none := fun pair hpair =>
    not_mem_down.mp (hup pair hpair)
  have hthere : ∀ pair ∈ pairs, ∃ e ∈ g.edges, e.ends = pair := by
    intro pair hpair
    obtain ⟨e, he, rfl⟩ := hpairs pair hpair
    obtain ⟨e', he', hends, -⟩ := h.there he (hnone _ hpair)
    exact ⟨e', he', hends⟩
  obtain ⟨g', hrun, hrm⟩ := removed_removeEdges hg h.simple hnodup hthere hnone
  exact ⟨g', hrun, h.remove hrm, hrm.down⟩

theorem conserved_recovery (h : t.Conserved g) {pair : V × V} (hdown : pair ∈ g.down) :
    ∃ lid, g.rmv_edge_lid pair = some lid ∧ t.Conserved (g.restoreEdge pair lid) ∧
      (g.restoreEdge pair lid).down = g.down \ {pair} := by
  obtain ⟨lid, hlid⟩ := Option.ne_none_iff_exists'.mp hdown
  exact ⟨lid, hlid, h.restore hlid, down_restoreEdge lid⟩

/-- A report is carried out, and no link gets lost. -/
theorem conserved_changeEdges (h : t.Conserved g) (hg : g.edge_LID = g.edges.map LinkEdge.LID)
    (hc : t.About c) : ∃ g', g.changeEdges c.source c.destination c.net c.update_op = some g' ∧
      t.Conserved g' ∧ g'.down = c.nextDown g.down := by
  have hne := hc.ne
  unfold LinkGraph.changeEdges LinkReport.nextDown
  cases c.update_op with
  | true =>
    by_cases hdown : c.there ∈ g.down
    · obtain ⟨lid, hlid, hkept, hdown'⟩ := conserved_recovery h hdown
      have hlid' : g.rmv_edge_lid (c.source, c.destination) = some lid := hlid
      simp only [if_true, hlid', hdown, not_true_eq_false, if_false]
      by_cases hback : c.back ∈ (g.restoreEdge c.there lid).down
      · obtain ⟨lid', hlid', hkept', hdownNext⟩ := conserved_recovery hkept hback
        cases c.net with
        | e =>
          have hback' : (g.restoreEdge (c.source, c.destination) lid).rmv_edge_lid
              (c.destination, c.source) = some lid' := hlid'
          refine ⟨_, ?_, hkept', ?_⟩
          · simp only [hback']
            rfl
          · rw [hdownNext, hdown', if_pos rfl, Set.sdiff_sdiff]
            rfl
        | o => exact ⟨_, rfl, hkept, hdown'⟩
        | other => exact ⟨_, rfl, hkept, hdown'⟩
      · have hnone : (g.restoreEdge (c.source, c.destination) lid).rmv_edge_lid
            (c.destination, c.source) = none := not_mem_down.mp hback
        rw [hdown'] at hback
        cases c.net with
        | e =>
          refine ⟨_, ?_, hkept, ?_⟩
          · simp only [hnone]
            rfl
          · rw [hdown', if_pos rfl, ← Set.sdiff_singleton_eq_self hback, Set.sdiff_sdiff]
            rfl
        | o => exact ⟨_, rfl, hkept, hdown'⟩
        | other => exact ⟨_, rfl, hkept, hdown'⟩
    · have hnone : g.rmv_edge_lid (c.source, c.destination) = none := not_mem_down.mp hdown
      simp only [if_true, hnone]
      exact ⟨g, rfl, h, (if_pos hdown).symm⟩
  | false =>
    simp only [Bool.false_eq_true, if_false]
    cases c.net with
    | e =>
      by_cases hdown : c.there ∈ g.down ∨ c.back ∈ g.down
      · exact ⟨g, if_pos hdown, h, (if_pos hdown).symm⟩
      · have hup := not_or.mp hdown
        obtain ⟨g', hrun, hkept, hdown'⟩ := conserved_removal h hg [c.there, c.back]
          (by simpa using hne) (List.forall_mem_cons.mpr ⟨hc, List.forall_mem_singleton.mpr hc.back⟩)
          (List.forall_mem_cons.mpr ⟨hup.1, List.forall_mem_singleton.mpr hup.2⟩)
        refine ⟨g', (if_neg hdown).trans hrun, hkept, hdown'.trans ?_⟩
        rw [if_neg hdown]
        congr 1
        ext pair
        simp
    | o =>
      by_cases hdown : c.there ∈ g.down
      · refine ⟨g, if_pos hdown, h, ?_⟩
        simp [hdown]
      · obtain ⟨g', hrun, hkept, hdown'⟩ := conserved_removal h hg [c.there] (by simp)
          (List.forall_mem_singleton.mpr hc) (List.forall_mem_singleton.mpr hdown)
        refine ⟨g', (if_neg hdown).trans hrun, hkept, ?_⟩
        simpa using hdown'
    | other => exact ⟨g, rfl, h, rfl⟩

variable [DecidableEq L]

/-- What is kept between the reports. -/
def Kept (t : LinkTopology V L) (g : LinkGraph V L) : Prop := t.Conserved g ∧ g.Indexed

theorem Kept.run (h : t.Kept g) (hc : t.About c) :
    ∃ g', c.run g = some g' ∧ t.Kept g' ∧ g'.down = c.nextDown g.down := by
  obtain ⟨g₁, hrun, hkept, hdown⟩ := conserved_changeEdges h.1 h.2.edge_LID hc
  refine ⟨g₁.reindex, ?_, ⟨?_, LinkGraph.indexed_reindex g₁⟩, hdown⟩
  · simp [LinkReport.run, LinkGraph.updateGraph, hrun]
  · exact ⟨hkept.simple, hkept.link, hkept.up, hkept.recorded, hkept.kept⟩

omit [DecidableEq V] in
theorem kept_new (t : LinkTopology V L) : t.Kept (.new t.edges) := by
  refine ⟨⟨t.simple, fun e he => ?_, fun _ _ => rfl, nofun, fun e he _ => ?_⟩, LinkGraph.indexed_reindex _⟩
  · exact List.mem_map_of_mem he
  · exact List.mem_map_of_mem he

def Step (t : LinkTopology V L) (g : LinkGraph V L) (c : LinkReport V) (g' : LinkGraph V L) : Prop :=
  t.About c ∧ c.run g = some g'

theorem Kept.step (h : t.Kept g) (hstep : t.Step g c g') : t.Kept g' ∧ g'.down = c.nextDown g.down := by
  obtain ⟨g₁, hrun, hkept⟩ := h.run hstep.1
  obtain rfl := Option.some.inj (hrun.symm.trans hstep.2)
  exact hkept

theorem kept_reachable (h : Runs.Reachable t.Step (.new t.edges) g) : t.Kept g :=
  h.invariant t.kept_new fun _ _ _ _ hkept hstep => (hkept.step hstep).1

/-! ## Recovery of all links -/

omit [DecidableEq V] [DecidableEq L] in
/-- When no link is down, the graph has the links of the topology. -/
theorem Conserved.perm (h : t.Conserved g) (hdown : g.down = ∅) :
    (g.edges.map LinkEdge.link).Perm (t.edges.map LinkEdge.link) := by
  have hnodup : ∀ es : List (LinkEdge V L), (es.map LinkEdge.ends).Nodup →
      (es.map LinkEdge.link).Nodup := by
    intro es hes
    refine List.Nodup.of_map Prod.fst ?_
    rwa [List.map_map]
  rw [List.perm_ext_iff_of_nodup (hnodup _ h.simple) (hnodup _ t.simple)]
  refine fun link => ⟨fun hlink => ?_, fun hlink => ?_⟩
  · obtain ⟨e, he, rfl⟩ := List.mem_map.mp hlink
    exact h.link e he
  · obtain ⟨e, he, rfl⟩ := List.mem_map.mp hlink
    refine h.kept e he (not_mem_down.mp ?_)
    rw [hdown]
    exact Set.notMem_empty _

omit [DecidableEq V] in
theorem nextDown_add (hc : c.update_op = true) (down : Set (V × V)) :
    c.nextDown down ⊆ down \ {c.there} := by
  unfold LinkReport.nextDown
  rw [hc, if_pos rfl]
  split
  · rename_i hup
    rw [Set.sdiff_singleton_eq_self hup]
  · split
    · exact Set.sdiff_subset_sdiff_right (by simp)
    · exact subset_rfl

theorem Kept.restored (h : t.Kept g) {calls : List (LinkReport V)}
    (hcalls : ∀ c ∈ calls, t.About c ∧ c.update_op = true)
    (hall : ∀ pair ∈ g.down, ∃ c ∈ calls, c.there = pair) :
    ∃ g', calls.foldlM LinkReport.run g = some g' ∧
      (g'.edges.map LinkEdge.link).Perm (t.edges.map LinkEdge.link) ∧ g'.down = ∅ := by
  obtain ⟨g', hrun, hkept, hdown⟩ := Wire.foldlM_all (l := calls) (f := LinkReport.run) (s := g)
    (I := fun done g' => t.Kept g' ∧ ∀ pair ∈ g'.down, pair ∈ g.down ∧ ∀ c ∈ done, c.there ≠ pair)
    ⟨h, by simp⟩ (by
      rintro done c rest g₁ rfl ⟨hkept, hdown⟩
      obtain ⟨hc, hop⟩ := hcalls c (by simp)
      obtain ⟨g₂, hrun, hkept', hnext⟩ := hkept.run hc
      refine ⟨g₂, hrun, hkept', fun pair hpair => ?_⟩
      rw [hnext] at hpair
      obtain ⟨hpair, hne⟩ := nextDown_add hop _ hpair
      obtain ⟨hin, hdone⟩ := hdown pair hpair
      refine ⟨hin, fun c' hc' => ?_⟩
      rcases List.mem_append.mp hc' with hc' | hc'
      · exact hdone c' hc'
      · rw [List.mem_singleton.mp hc']
        exact fun hsame => hne hsame.symm)
  have hnone : g'.down = ∅ := by
    refine Set.eq_empty_of_forall_notMem fun pair hpair => ?_
    obtain ⟨hin, hdone⟩ := hdown pair hpair
    obtain ⟨c, hc, hthere⟩ := hall pair hin
    exact hdone c hc hthere
  exact ⟨g', hrun, hkept.1.perm hnone, hnone⟩

/-! ## Every run -/

/-- The link is in the graph once, or it is recorded. -/
def Placed (g : LinkGraph V L) (e : LinkEdge V L) : Prop :=
  ((g.edges.map LinkEdge.ends).count e.ends = 1 ∧ e.link ∈ g.edges.map LinkEdge.link ∧
    g.rmv_edge_lid e.ends = none) ∨
  (e.ends ∉ g.edges.map LinkEdge.ends ∧ g.rmv_edge_lid e.ends = some e.LID)

omit [DecidableEq L] in
theorem Conserved.placed (h : t.Conserved g) {e : LinkEdge V L} (he : e ∈ t.edges) : Placed g e := by
  cases hrec : g.rmv_edge_lid e.ends with
  | none =>
    refine Or.inl ⟨List.count_eq_one_of_mem h.simple ?_, h.kept e he hrec, hrec⟩
    obtain ⟨e', he', hends, -⟩ := h.there he hrec
    exact List.mem_map.mpr ⟨e', he', hends⟩
  | some lid =>
    obtain ⟨e', he', hlink⟩ := List.mem_map.mp (h.recorded _ _ hrec)
    obtain rfl := t.eq_of_ends he he' (congrArg Prod.fst hlink).symm
    obtain rfl : e.LID = lid := congrArg Prod.snd hlink
    refine Or.inr ⟨fun hin => ?_, hrec⟩
    obtain ⟨e', he', hends⟩ := List.mem_map.mp hin
    have hup := h.up e' he'
    rw [hends, hrec] at hup
    cases hup

/-- The tables are the maps between the places of the edges and their identifiers. -/
structure TablesExact (g : LinkGraph V L) : Prop where
  edge_LID : ∀ i : Nat, g.edge_LID[i]? = g.edges[i]?.map LinkEdge.LID
  /-- The first place of an identifier. -/
  index : ∀ l (i : Nat), g.reverse_edge_index l = some i ↔
    g.edge_LID[i]? = some l ∧ ∀ j < i, g.edge_LID[j]? ≠ some l

omit [DecidableEq V] in
theorem tablesExact (h : g.Indexed) : TablesExact g := by
  refine ⟨fun i => by rw [h.edge_LID, List.getElem?_map], fun l i => ?_⟩
  rw [h.index, LinkGraph.findIdx?_LID, ← h.edge_LID, List.findIdx?_eq_some_iff_getElem]
  constructor
  · rintro ⟨hlt, hl, hfirst⟩
    refine ⟨by simpa [hlt] using hl, fun j hj hsame => hfirst j hj ?_⟩
    have hj' : j < g.edge_LID.length := by omega
    simpa [hj'] using hsame
  · rintro ⟨hl, hfirst⟩
    obtain ⟨hlt, hget⟩ := List.getElem?_eq_some_iff.mp hl
    refine ⟨hlt, by simpa using hget, fun j hj hsame => hfirst j hj ?_⟩
    have hj' : j < g.edge_LID.length := by omega
    simpa [hj'] using hsame

omit [DecidableEq V] [DecidableEq L] in
theorem Conserved.distinct (h : t.Conserved g) (ht : (t.edges.map LinkEdge.LID).Nodup) :
    (g.edges.map LinkEdge.LID).Nodup := by
  refine List.Nodup.map_on ?_ (List.Nodup.of_map _ h.simple)
  intro e he e' he' hlid
  obtain ⟨e₀, he₀, hlink⟩ := List.mem_map.mp (h.link e he)
  obtain ⟨e₁, he₁, hlink'⟩ := List.mem_map.mp (h.link e' he')
  have hsame : e₀ = e₁ := by
    refine List.inj_on_of_nodup_map ht he₀ he₁ ?_
    exact (congrArg Prod.snd hlink).trans (hlid.trans (congrArg Prod.snd hlink').symm)
  refine List.inj_on_of_nodup_map h.simple he he' ?_
  rw [← hsame] at hlink'
  exact (congrArg Prod.fst hlink).symm.trans (congrArg Prod.fst hlink')

/-- After every sequence of reports each link is in one place, the tables are those of the graph, and
recovery gives back the topology. -/
theorem links_conserved (h : Runs.Reachable t.Step (.new t.edges) g) :
    (∀ e ∈ t.edges, Placed g e) ∧
    (TablesExact g ∧ ((t.edges.map LinkEdge.LID).Nodup →
      ∀ l (i : Nat), g.reverse_edge_index l = some i ↔ g.edge_LID[i]? = some l)) ∧
    (∀ c, t.About c → ∃ g', t.Step g c g') ∧
    ∀ calls : List (LinkReport V), (∀ c ∈ calls, t.About c ∧ c.update_op = true) →
      (∀ pair, g.rmv_edge_lid pair ≠ none → ∃ c ∈ calls, c.there = pair) →
      ∃ g', calls.foldlM LinkReport.run g = some g' ∧
        (g'.edges.map LinkEdge.link).Perm (t.edges.map LinkEdge.link) ∧
        ∀ pair, g'.rmv_edge_lid pair = none := by
  have hkept := kept_reachable h
  refine ⟨fun e he => hkept.1.placed he, ⟨tablesExact hkept.2, fun ht l i => ?_⟩, fun c hc => ?_,
    fun calls hcalls hall => ?_⟩
  · rw [(tablesExact hkept.2).index]
    refine ⟨fun hl => hl.1, fun hl => ⟨hl, fun j hj hsame => ?_⟩⟩
    have hnodup := hkept.1.distinct ht
    rw [← hkept.2.edge_LID] at hnodup
    obtain ⟨hlt, hi⟩ := List.getElem?_eq_some_iff.mp hl
    obtain ⟨hlt', hj'⟩ := List.getElem?_eq_some_iff.mp hsame
    have hplace := (hnodup.getElem_inj_iff).mp (hj'.trans hi.symm)
    omega
  · obtain ⟨g', hrun, -⟩ := hkept.run hc
    exact ⟨g', hc, hrun⟩
  · obtain ⟨g', hrun, hperm, hdown⟩ := hkept.restored hcalls hall
    refine ⟨g', hrun, hperm, fun pair => not_mem_down.mp ?_⟩
    rw [hdown]
    exact Set.notMem_empty pair

/-- One link, with an identifier for each direction. -/
def ofPair (l l' : L) : LinkTopology (Fin 2) L where
  edges := (List.finRange 2).map fun u => ⟨u, u.rev, if u.val = 0 then l else l', QoSList.empty⟩
  simple := by
    have hends : ((List.finRange 2).map fun u => (u, u.rev)).Nodup := by decide
    rw [List.map_map]
    exact hends
  loopless := by
    have hne : ∀ u : Fin 2, u ≠ u.rev := by decide
    exact List.forall_mem_map.mpr fun u _ => hne u
  both := List.forall_mem_map.mpr fun u _ =>
    ⟨_, List.mem_map_of_mem (List.mem_finRange u.rev), Prod.ext rfl (Fin.rev_rev u)⟩

/-- One direction fails, and both recover. -/
theorem links_conserved_pair : ∃ g g' : LinkGraph (Fin 2) Nat,
    LinkReport.run (.new (ofPair 10 20).edges) ⟨0, 1, .o, false⟩ = some g ∧
    Placed g ⟨0, 1, 10, QoSList.empty⟩ ∧ Placed g ⟨1, 0, 20, QoSList.empty⟩ ∧
    LinkReport.run g ⟨0, 1, .e, true⟩ = some g' ∧
    (g'.edges.map LinkEdge.link).Perm [((0, 1), 10), ((1, 0), 20)] := by
  have hfail : (ofPair 10 20).About ⟨0, 1, .o, false⟩ := ⟨_, List.mem_cons_self, rfl⟩
  obtain ⟨g, hrun⟩ : ∃ g, LinkReport.run (.new (ofPair 10 20).edges) ⟨0, 1, .o, false⟩ = some g :=
    ⟨_, rfl⟩
  have hreach : Runs.Reachable (ofPair 10 20).Step (.new (ofPair 10 20).edges) g :=
    Runs.Reachable.start.next ⟨hfail, hrun⟩
  obtain ⟨hplaced, -, -, hback⟩ := links_conserved hreach
  have hdown : ∀ p, g.rmv_edge_lid p ≠ none → p = (0, 1) := by
    obtain rfl := Option.some.inj hrun
    intro p hp
    by_contra hne
    exact hp (Function.update_of_ne hne _ _)
  obtain ⟨g', hrun', hperm, -⟩ := hback [⟨0, 1, .e, true⟩]
    (List.forall_mem_singleton.mpr ⟨⟨_, List.mem_cons_self, rfl⟩, rfl⟩)
    fun p hp => ⟨_, List.mem_singleton_self _, (hdown p hp).symm⟩
  refine ⟨g, g', hrun, hplaced _ List.mem_cons_self, hplaced _ (List.mem_cons_of_mem _ List.mem_cons_self),
    ?_, hperm⟩
  simpa using hrun'

end LinkTopology

end Blackadder
