import Blackadder.Deployment.Interfaces

/-!
# Links of a simulated network

The places of two nodes that list connections towards each other are a part of the run that the
other places do not meet.
-/

namespace Blackadder.Deployment

/-- How many connections a node lists towards another. -/
def NetworkNode.countTo (nn : NetworkNode) (label : String) : Nat :=
  nn.connections.countP (·.dst_label = label)

/-- Labels name the nodes, and a node lists as many connections towards another as the other
towards it. -/
structure Domain.Symmetric (dm : Domain) : Prop where
  labels : (dm.network_nodes.map (·.label)).Nodup
  balanced : ∀ nn ∈ dm.network_nodes, ∀ nc ∈ nn.connections, nc.dst_label ≠ nn.label →
    ∃ nn' ∈ dm.network_nodes, nn'.label = nc.dst_label ∧
      nn'.countTo nn.label = nn.countTo nc.dst_label

variable {dm : Domain} {nn nn' : NetworkNode} {nc nc' : NetworkConnection} {p q r : Nat × Nat}
  {i j k m : Nat} {a b label : String}

/-! ## Places -/

theorem connection?_eq_some : dm.connection? p = some nc ↔
    ∃ nn, dm.network_nodes[p.1]? = some nn ∧ nn.connections[p.2]? = some nc :=
  Option.bind_eq_some_iff

/-- The places of a node. -/
def Domain.row (dm : Domain) (i : Nat) : List (Nat × Nat) :=
  (List.range ((dm.network_nodes[i]?.map (·.connections.length)).getD 0)).map fun j => (i, j)

theorem places_eq (dm : Domain) :
    dm.places = (List.range dm.network_nodes.length).flatMap dm.row := rfl

theorem mem_row : p ∈ dm.row i ↔ p.1 = i ∧ ∃ nc, dm.connection? p = some nc := by
  simp only [Domain.row, List.mem_map, List.mem_range, connection?_eq_some]
  constructor
  · rintro ⟨j, hj, rfl⟩
    cases hnn : dm.network_nodes[i]? with
    | none => simp [hnn] at hj
    | some nn =>
      rw [hnn] at hj
      exact ⟨rfl, nn.connections[j], nn, rfl, List.getElem?_eq_getElem hj⟩
  · rintro ⟨rfl, nc, nn, hnn, hnc⟩
    obtain ⟨hlt, -⟩ := List.getElem?_eq_some_iff.mp hnc
    exact ⟨p.2, by simpa [hnn] using hlt, rfl⟩

theorem mem_places : p ∈ dm.places ↔ ∃ nc, dm.connection? p = some nc := by
  rw [places_eq, List.mem_flatMap]
  constructor
  · rintro ⟨i, -, hp⟩
    exact (mem_row.mp hp).2
  · rintro ⟨nc, hp⟩
    obtain ⟨nn, hnn, -⟩ := connection?_eq_some.mp hp
    obtain ⟨hlt, -⟩ := List.getElem?_eq_some_iff.mp hnn
    exact ⟨p.1, List.mem_range.mpr hlt, mem_row.mpr ⟨rfl, nc, hp⟩⟩

theorem row_nodup (dm : Domain) (i : Nat) : (dm.row i).Nodup :=
  List.nodup_range.map fun _ _ h => (Prod.mk.inj h).2

theorem places_nodup (dm : Domain) : dm.places.Nodup := by
  rw [places_eq, List.nodup_flatMap]
  refine ⟨fun i _ => row_nodup dm i, List.nodup_range.imp ?_⟩
  intro i k hik p hp hp'
  exact hik ((mem_row.mp hp).1.symm.trans (mem_row.mp hp').1)

theorem length_places (dm : Domain) : dm.places.length = dm.connections.length := by
  rw [places_eq, Domain.connections, List.length_flatMap, List.length_flatMap]
  congr 1
  apply List.ext_getElem?
  intro i
  rw [List.getElem?_map, List.getElem?_map]
  by_cases hi : i < dm.network_nodes.length
  · rw [List.getElem?_range hi, List.getElem?_eq_getElem hi]
    simp [Domain.row, hi]
  · rw [List.getElem?_eq_none (by simpa using hi), List.getElem?_eq_none (by simpa using hi)]
    rfl

/-! ## Nodes by their labels -/

theorem Domain.Symmetric.node_inj (h : dm.Symmetric) (hi : dm.network_nodes[i]? = some nn)
    (hk : dm.network_nodes[k]? = some nn') (hlabel : nn.label = nn'.label) : i = k := by
  obtain ⟨hlt, hget⟩ := List.getElem?_eq_some_iff.mp hi
  obtain ⟨hlt', hget'⟩ := List.getElem?_eq_some_iff.mp hk
  have hlt₁ : i < (dm.network_nodes.map (·.label)).length := by simpa using hlt
  have hlt₂ : k < (dm.network_nodes.map (·.label)).length := by simpa using hlt'
  have heq : (dm.network_nodes.map (·.label))[i] = (dm.network_nodes.map (·.label))[k] := by
    simp [hget, hget', hlabel]
  exact h.labels.getElem_inj_iff.mp heq

theorem Domain.Symmetric.getNode_eq (h : dm.Symmetric) (hk : dm.network_nodes[k]? = some nn) :
    dm.getNode nn.label = some k := by
  unfold Domain.getNode
  obtain ⟨hlt, hget⟩ := List.getElem?_eq_some_iff.mp hk
  refine List.findIdx?_eq_some_iff_getElem.mpr ⟨hlt, by simp [hget], ?_⟩
  intro j hj hlabel
  have hjlt : j < dm.network_nodes.length := by omega
  have := h.node_inj (List.getElem?_eq_getElem hjlt) hk (by simpa using hlabel)
  omega

/-- A simulated network as it is parsed. -/
structure Domain.Simulated (dm : Domain) : Prop extends dm.Symmetric where
  fresh : ∀ nn ∈ dm.network_nodes, nn.Fresh

theorem Domain.Simulated.src_label (h : dm.Simulated) (hnn : dm.network_nodes[p.1]? = some nn)
    (hp : dm.connection? p = some nc) : nc.src_label = nn.label := by
  obtain ⟨nn', hnn', hnc⟩ := connection?_eq_some.mp hp
  obtain rfl := Option.some.inj (hnn.symm.trans hnn')
  exact ((h.fresh nn (List.mem_of_getElem? hnn)).connections nc (List.mem_of_getElem? hnc)).src_label

theorem Domain.Simulated.node_eq (h : dm.Simulated) (hp : dm.connection? p = some nc)
    (hq : dm.connection? q = some nc') (hlabel : nc.src_label = nc'.src_label) : p.1 = q.1 := by
  obtain ⟨nn, hnn, -⟩ := connection?_eq_some.mp hp
  obtain ⟨nn', hnn', -⟩ := connection?_eq_some.mp hq
  refine h.node_inj hnn hnn' ?_
  rw [← h.src_label hnn hp, ← h.src_label hnn' hq, hlabel]

/-- The neighbour lists a connection back, and the lookup finds the first such. -/
theorem Domain.Simulated.mirrorOf_spec (h : dm.Simulated) (hp : dm.connection? p = some nc) :
    dm.mirrorOf? p = some (dm.mirrorOf p) ∧ ∃ nc', dm.connection? (dm.mirrorOf p) = some nc' ∧
      nc'.src_label = nc.dst_label ∧ nc'.dst_label = nc.src_label ∧
      ∀ m nc'', dm.connection? ((dm.mirrorOf p).1, m) = some nc'' → nc''.dst_label = nc.src_label →
        (dm.mirrorOf p).2 ≤ m := by
  obtain ⟨nn, hnn, hnc⟩ := connection?_eq_some.mp hp
  have hmem := List.mem_of_getElem? hnn
  have hsrc := h.src_label hnn hp
  -- the neighbour, which may be the node itself
  have hneighbour : ∃ nn' ∈ dm.network_nodes, nn'.label = nc.dst_label ∧
      ∃ nc' ∈ nn'.connections, nc'.dst_label = nn.label := by
    by_cases hself : nc.dst_label = nn.label
    · exact ⟨nn, hmem, hself.symm, nc, List.mem_of_getElem? hnc, hself⟩
    · obtain ⟨nn', hnn', hlabel, hcount⟩ := h.balanced nn hmem nc (List.mem_of_getElem? hnc) hself
      have hpos : 0 < nn'.countTo nn.label := by
        rw [hcount]
        exact List.countP_pos_iff.mpr ⟨nc, List.mem_of_getElem? hnc, by simp⟩
      obtain ⟨nc', hnc', hdst⟩ := List.countP_pos_iff.mp hpos
      exact ⟨nn', hnn', hlabel, nc', hnc', by simpa using hdst⟩
  obtain ⟨nn', hnn', hlabel, nc', hnc', hback⟩ := hneighbour
  obtain ⟨k, hk⟩ := List.mem_iff_getElem?.mp hnn'
  have hgetNode : dm.getNode nc.dst_label = some k := hlabel ▸ h.getNode_eq hk
  -- the source label of a connection of the neighbour says nothing
  have hfirst : ∀ nc'' ∈ nn'.connections, (nc''.src_label = nc.dst_label ∧
      nc''.dst_label = nc.src_label ↔ nc''.dst_label = nc.src_label) := by
    intro nc'' hnc''
    have := ((h.fresh nn' hnn').connections nc'' hnc'').src_label
    simp [this, hlabel]
  have hsome : nn'.getConnection nc.dst_label nc.src_label ≠ none := by
    intro hnone
    have := List.findIdx?_eq_none_iff.mp hnone nc' hnc'
    exact of_decide_eq_false this ((hfirst nc' hnc').mpr (hback.trans hsrc.symm))
  obtain ⟨m, hm⟩ := Option.ne_none_iff_exists'.mp hsome
  have hmir : dm.mirrorOf? p = some (k, m) := by
    unfold Domain.mirrorOf?
    simp only [hp, hgetNode, hk, hm, Option.bind_eq_bind, Option.bind_some]
  have heq : dm.mirrorOf p = (k, m) := by rw [Domain.mirrorOf, hmir, Option.getD_some]
  obtain ⟨hlt, hget, hmin⟩ := List.findIdx?_eq_some_iff_getElem.mp hm
  rw [heq]
  refine ⟨hmir, nn'.connections[m], connection?_eq_some.mpr ⟨nn', hk, List.getElem?_eq_getElem hlt⟩,
    (of_decide_eq_true hget).1, (of_decide_eq_true hget).2, ?_⟩
  intro m' nc'' hnc'' hdst
  obtain ⟨nn'', hk', hm'⟩ := connection?_eq_some.mp hnc''
  obtain rfl := Option.some.inj (hk.symm.trans hk')
  by_contra hlt'
  obtain ⟨hm'lt, hget'⟩ := List.getElem?_eq_some_iff.mp hm'
  refine of_decide_eq_false (eq_false_of_ne_true (hmin m' (by dsimp only at hlt'; omega))) ?_
  rw [hget']
  exact (hfirst nc'' (List.mem_of_getElem? hm')).mpr hdst

/-! ## Sides -/

/-- The places of a node whose connections lead to a label. -/
def Domain.side (dm : Domain) (i : Nat) (label : String) : List (Nat × Nat) :=
  (dm.row i).filter fun p => (dm.connection? p).any (·.dst_label = label)

theorem mem_side : p ∈ dm.side i b ↔ p.1 = i ∧ ∃ nc, dm.connection? p = some nc ∧ nc.dst_label = b := by
  rw [Domain.side, List.mem_filter, mem_row]
  constructor
  · rintro ⟨⟨hi, nc, hp⟩, hb⟩
    exact ⟨hi, nc, hp, by simpa [hp] using hb⟩
  · rintro ⟨hi, nc, hp, hb⟩
    exact ⟨⟨hi, nc, hp⟩, by simpa [hp] using hb⟩

theorem side_nodup (dm : Domain) (i : Nat) (b : String) : (dm.side i b).Nodup :=
  (row_nodup dm i).filter _

theorem countP_range {α : Type*} (P : α → Bool) (l : List α) :
    (List.range l.length).countP (fun j => l[j]?.any P) = l.countP P := by
  induction l with
  | nil => rfl
  | cons a l ih =>
    rw [List.length_cons, List.range_succ_eq_map, List.countP_cons, List.countP_map,
      List.countP_cons, ← ih]
    rfl

theorem length_side (hnn : dm.network_nodes[i]? = some nn) (b : String) :
    (dm.side i b).length = nn.countTo b := by
  rw [Domain.side, ← List.countP_eq_length_filter, Domain.row, List.countP_map, hnn, Option.map_some,
    Option.getD_some]
  refine Eq.trans ?_ (countP_range (fun nc : NetworkConnection => decide (nc.dst_label = b)) _)
  congr 1
  funext j
  simp [Domain.connection?, hnn]

theorem side_eq_cons (hq : q ∈ dm.side k a) (hmin : ∀ r ∈ dm.side k a, q.2 ≤ r.2) :
    ∃ bs, dm.side k a = q :: bs := by
  have hsorted : (dm.side k a).Pairwise fun x y => x.2 < y.2 := by
    refine List.Pairwise.filter _ ?_
    rw [Domain.row, List.pairwise_map]
    exact List.pairwise_lt_range
  cases hside : dm.side k a with
  | nil =>
    rw [hside] at hq
    cases hq
  | cons x bs =>
    rw [hside] at hq hsorted hmin
    rcases List.mem_cons.mp hq with rfl | hq
    · exact ⟨bs, rfl⟩
    · have hlt := (List.pairwise_cons.mp hsorted).1 q hq
      have hle := hmin x List.mem_cons_self
      omega

theorem Domain.Simulated.side_mirror (h : dm.Simulated) (hp : dm.connection? p = some nc) :
    ∃ bs, dm.side (dm.mirrorOf p).1 nc.src_label = dm.mirrorOf p :: bs := by
  obtain ⟨-, nc', hq, -, hdst, hmin⟩ := h.mirrorOf_spec hp
  refine side_eq_cons (mem_side.mpr ⟨rfl, nc', hq, hdst⟩) ?_
  intro r hr
  obtain ⟨hr1, nc'', hr, hdst''⟩ := mem_side.mp hr
  refine hmin r.2 nc'' ?_ hdst''
  rw [← hr1]
  exact hr

/-- All places of a side have the same mirror. -/
theorem Domain.Simulated.mirror_of_side (h : dm.Simulated) (hp : dm.connection? p = some nc)
    (hr : r ∈ dm.side p.1 nc.dst_label) : dm.mirrorOf r = dm.mirrorOf p := by
  obtain ⟨hr1, nc', hr, hdst⟩ := mem_side.mp hr
  obtain ⟨nn, hnn, -⟩ := connection?_eq_some.mp hp
  have hlabel : nc'.src_label = nc.src_label := by
    rw [h.src_label (by rw [hr1]; exact hnn) hr, h.src_label hnn hp]
  unfold Domain.mirrorOf
  have hsame : dm.mirrorOf? r = dm.mirrorOf? p := by
    unfold Domain.mirrorOf?
    simp only [hr, hp, Option.bind_eq_bind, Option.bind_some, hdst, hlabel]
  have hp' := (h.mirrorOf_spec hp).1
  rw [hsame, hp', Option.getD_some, Option.getD_some]

/-! ## The connections between two nodes -/

/-- The connection leads from one of two labels to the other. -/
def Domain.between (dm : Domain) (a b : String) (p : Nat × Nat) : Bool :=
  (dm.connection? p).any fun nc =>
    (nc.src_label = a ∧ nc.dst_label = b) ∨ (nc.src_label = b ∧ nc.dst_label = a)

theorem between_iff (hp : dm.connection? p = some nc) : dm.between a b p = true ↔
    (nc.src_label = a ∧ nc.dst_label = b) ∨ (nc.src_label = b ∧ nc.dst_label = a) := by
  simp [Domain.between, hp]

theorem between_comm (dm : Domain) (a b : String) : dm.between a b = dm.between b a := by
  funext p
  unfold Domain.between
  simp only [or_comm]

theorem Domain.Simulated.between_mirror (h : dm.Simulated) (a b : String) (q : Nat × Nat) :
    dm.between a b (dm.mirrorOf q) = dm.between a b q := by
  cases hq : dm.connection? q with
  | none =>
    have hnone : dm.mirrorOf q = q := by
      rw [Domain.mirrorOf, Domain.mirrorOf?, hq]
      rfl
    rw [hnone]
  | some nc =>
    obtain ⟨-, nc', hq', hsrc, hdst, -⟩ := h.mirrorOf_spec hq
    rw [Bool.eq_iff_iff, between_iff hq, between_iff hq', hsrc, hdst]
    tauto

theorem flatMap_range_one {β : Type*} {g : Nat → List β} {n : Nat} (hi : i < n)
    (h : ∀ j < n, j ≠ i → g j = []) : (List.range n).flatMap g = g i := by
  induction n with
  | zero => omega
  | succ n ih =>
    rw [List.range_succ, List.flatMap_append, List.flatMap_singleton]
    by_cases hin : i = n
    · subst hin
      rw [List.flatMap_eq_nil_iff.mpr fun j hj => ?_, List.nil_append]
      have := List.mem_range.mp hj
      exact h j (by omega) (by omega)
    · rw [ih (by omega) fun j hj => h j (by omega), h n (by omega) (Ne.symm hin), List.append_nil]

theorem flatMap_range_two {β : Type*} {g : Nat → List β} {n : Nat} (hik : i < k) (hk : k < n)
    (h : ∀ j < n, j ≠ i → j ≠ k → g j = []) : (List.range n).flatMap g = g i ++ g k := by
  induction n with
  | zero => omega
  | succ n ih =>
    rw [List.range_succ, List.flatMap_append, List.flatMap_singleton]
    by_cases hkn : k = n
    · subst hkn
      rw [flatMap_range_one hik fun j hj hji => h j (by omega) hji (by omega)]
    · rw [ih (by omega) fun j hj => h j (by omega), h n (by omega) (by omega) (Ne.symm hkn),
        List.append_nil]

theorem Domain.Simulated.node_iff (h : dm.Simulated) (hp : dm.connection? p = some nc)
    (hq : dm.connection? q = some nc') : q.1 = p.1 ↔ nc'.src_label = nc.src_label := by
  constructor
  · intro heq
    obtain ⟨nn, hnn, -⟩ := connection?_eq_some.mp hp
    rw [h.src_label (by rw [heq]; exact hnn) hq, h.src_label hnn hp]
  · exact h.node_eq hq hp

/-- In the row of the one node the connections between both are its side. -/
theorem Domain.Simulated.filter_row (h : dm.Simulated) (hp : dm.connection? p = some nc)
    (hne : nc.src_label ≠ nc.dst_label) :
    (dm.row p.1).filter (dm.between nc.src_label nc.dst_label) = dm.side p.1 nc.dst_label := by
  refine List.filter_congr ?_
  intro r hr
  obtain ⟨hr1, nc', hr⟩ := mem_row.mp hr
  rw [Bool.eq_iff_iff, between_iff hr, (h.node_iff hp hr).mp hr1, hr]
  simp only [true_and, Option.any_some, decide_eq_true_eq]
  exact or_iff_left fun hback => hne hback.1

theorem Domain.Simulated.filter_places (h : dm.Simulated) (hp : dm.connection? p = some nc)
    (hlt : p.1 < (dm.mirrorOf p).1) :
    dm.places.filter (dm.between nc.src_label nc.dst_label) =
      dm.side p.1 nc.dst_label ++ dm.side (dm.mirrorOf p).1 nc.src_label := by
  obtain ⟨-, nc', hq, hsrc, hdst, -⟩ := h.mirrorOf_spec hp
  have hne : nc.src_label ≠ nc.dst_label := by
    intro heq
    have := h.node_eq hp hq (by rw [hsrc, heq])
    omega
  have hmirror := h.filter_row hq (by rw [hsrc, hdst]; exact hne.symm)
  rw [hsrc, hdst, between_comm] at hmirror
  obtain ⟨nn, hnn, -⟩ := connection?_eq_some.mp hq
  obtain ⟨hk, -⟩ := List.getElem?_eq_some_iff.mp hnn
  rw [places_eq, List.filter_flatMap, flatMap_range_two hlt hk, h.filter_row hp hne, hmirror]
  intro j _ hjp hjq
  refine List.filter_eq_nil_iff.mpr fun r hr hbetween => ?_
  obtain ⟨hr1, nc'', hr⟩ := mem_row.mp hr
  rcases (between_iff hr).mp hbetween with ⟨hs, -⟩ | ⟨hs, -⟩
  · exact hjp (hr1.symm.trans ((h.node_iff hp hr).mpr hs))
  · exact hjq (hr1.symm.trans ((h.node_iff hq hr).mpr (by rw [hsrc]; exact hs)))

theorem Domain.Simulated.mirror_mirror (h : dm.Simulated) (hp : dm.connection? p = some nc) :
    (dm.mirrorOf (dm.mirrorOf p)).1 = p.1 := by
  obtain ⟨-, nc', hq, hsrc, hdst, -⟩ := h.mirrorOf_spec hp
  obtain ⟨-, nc'', hr, hsrc', -, -⟩ := h.mirrorOf_spec hq
  exact (h.node_iff hp hr).mpr (hsrc'.trans hdst)

theorem Domain.Simulated.length_sides (h : dm.Simulated) (hp : dm.connection? p = some nc)
    (hne : nc.src_label ≠ nc.dst_label) : (dm.side p.1 nc.dst_label).length =
      (dm.side (dm.mirrorOf p).1 nc.src_label).length := by
  obtain ⟨-, nc', hq, hsrc, -, -⟩ := h.mirrorOf_spec hp
  obtain ⟨nn, hnn, hnc⟩ := connection?_eq_some.mp hp
  obtain ⟨nn', hnn', -⟩ := connection?_eq_some.mp hq
  have hlabel := h.src_label hnn hp
  obtain ⟨nn'', hmem, hlabel', hcount⟩ := h.balanced nn (List.mem_of_getElem? hnn) nc
    (List.mem_of_getElem? hnc) (by rw [← hlabel]; exact hne.symm)
  obtain ⟨k, hk⟩ := List.mem_iff_getElem?.mp hmem
  have hnode : k = (dm.mirrorOf p).1 :=
    h.node_inj hk hnn' (by rw [hlabel', ← h.src_label hnn' hq, hsrc])
  rw [hnode] at hk
  rw [length_side hnn, length_side hk, hlabel, hcount]

/-- Between two nodes the run goes through the side of the first and then through that of the
second. -/
theorem Domain.Simulated.facing (h : dm.Simulated) (hp : dm.connection? p = some nc)
    (hlt : p.1 < (dm.mirrorOf p).1) : ∃ f fs b bs, dm.side p.1 nc.dst_label = f :: fs ∧
      dm.places.filter (dm.between nc.src_label nc.dst_label) = f :: fs ++ b :: bs ∧
      Mirror.Facing dm.mirrorOf f fs b bs ∧ fs.length = bs.length := by
  obtain ⟨-, nc', hq, hsrc, hdst, -⟩ := h.mirrorOf_spec hp
  have hne : nc.src_label ≠ nc.dst_label := by
    intro heq
    have := h.node_eq hp hq (by rw [hsrc, heq])
    omega
  obtain ⟨bs, hbs⟩ := h.side_mirror hp
  obtain ⟨fs, hfs⟩ := h.side_mirror hq
  rw [h.mirror_mirror hp, hsrc] at hfs
  have hfilter := h.filter_places hp hlt
  rw [hfs, hbs] at hfilter
  refine ⟨_, fs, _, bs, hfs, hfilter, ⟨?_, ?_, ?_⟩, ?_⟩
  · rw [← hfilter]
    exact (places_nodup dm).filter _
  · intro r hr
    rw [← hfs] at hr
    exact h.mirror_of_side hp hr
  · intro r hr
    rw [← hbs, ← hdst] at hr
    exact h.mirror_of_side hq hr
  · have hlen := h.length_sides hp hne
    rw [hfs, hbs, List.length_cons, List.length_cons] at hlen
    omega

/-- No node lists a connection to itself or three connections to another node. -/
def Domain.AtMostDouble (dm : Domain) : Prop := ∀ nn ∈ dm.network_nodes, ∀ nc ∈ nn.connections,
  nc.dst_label ≠ nn.label ∧ nn.countTo nc.dst_label ≤ 2

instance (dm : Domain) : Decidable dm.AtMostDouble := inferInstanceAs (Decidable (∀ _ ∈ _, _))

theorem Domain.AtMostDouble.of_connection (hd : dm.AtMostDouble) (h : dm.Simulated)
    (hp : dm.connection? p = some nc) :
    nc.src_label ≠ nc.dst_label ∧ (dm.side p.1 nc.dst_label).length ≤ 2 := by
  obtain ⟨nn, hnn, hnc⟩ := connection?_eq_some.mp hp
  obtain ⟨hne, hle⟩ := hd nn (List.mem_of_getElem? hnn) nc (List.mem_of_getElem? hnc)
  rw [h.src_label hnn hp, length_side hnn]
  exact ⟨hne.symm, hle⟩

/-- With at most two links between two nodes every write is seen at both ends. -/
theorem Domain.AtMostDouble.settled (hd : dm.AtMostDouble) (h : dm.Simulated)
    (hp : dm.connection? p = some nc) :
    Mirror.Settled dm.mirrorOf (Mirror.run dm.mirrorOf dm.places) p := by
  have hpart : ∀ q nc', dm.connection? q = some nc' → q.1 < (dm.mirrorOf q).1 →
      dm.between nc'.src_label nc'.dst_label p = true →
      Mirror.Settled dm.mirrorOf (Mirror.run dm.mirrorOf dm.places) p := by
    intro q nc' hq hlt hbetween
    obtain ⟨f, fs, b, bs, hside, hfilter, hfacing, hlen⟩ := h.facing hq hlt
    have hle := (hd.of_connection h hq).2
    rw [hside, List.length_cons] at hle
    have hmem : p ∈ f :: fs ++ b :: bs := by
      rw [← hfilter]
      exact List.mem_filter.mpr ⟨mem_places.mpr ⟨nc, hp⟩, hbetween⟩
    refine Mirror.settled_run_filter (h.between_mirror nc'.src_label nc'.dst_label) hbetween ?_
    rw [hfilter]
    exact hfacing.settled hlen (by omega) hmem
  obtain ⟨-, nc', hq, hsrc, hdst, -⟩ := h.mirrorOf_spec hp
  have hne : p.1 ≠ (dm.mirrorOf p).1 := by
    intro heq
    have hlabel := (h.node_iff hq hp).mp heq
    exact (hd.of_connection h hp).1 (hlabel.trans hsrc)
  rcases Nat.lt_or_gt_of_ne hne with hlt | hgt
  · exact hpart p nc hp hlt ((between_iff hp).mpr (.inl ⟨rfl, rfl⟩))
  · refine hpart _ nc' hq (by rw [h.mirror_mirror hp]; exact hgt) ((between_iff hp).mpr (.inr ?_))
    exact ⟨hdst.symm, hsrc.symm⟩

end Blackadder.Deployment
