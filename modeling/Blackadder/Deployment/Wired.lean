import Blackadder.Deployment.Pairing

/-!
# The links of a simulated network after its interfaces are assigned
-/

namespace Blackadder.Deployment

/-- Both ends of a connection are given. -/
structure NetworkConnection.Complete (nc : NetworkConnection) : Prop where
  src_if : nc.src_if ≠ ""
  dst_if : nc.dst_if ≠ ""
  src_mac : nc.src_mac ≠ ""
  dst_mac : nc.dst_mac ≠ ""

/-- Two connections that are the directions of one link. -/
structure NetworkConnection.Reverses (nc nc' : NetworkConnection) : Prop where
  src_label : nc.src_label = nc'.dst_label
  dst_label : nc.dst_label = nc'.src_label
  src_if : nc.src_if = nc'.dst_if
  dst_if : nc.dst_if = nc'.src_if
  src_mac : nc.src_mac = nc'.dst_mac
  dst_mac : nc.dst_mac = nc'.src_mac

theorem NetworkConnection.Reverses.symm {nc nc' : NetworkConnection} (h : nc.Reverses nc') :
    nc'.Reverses nc :=
  ⟨h.dst_label.symm, h.src_label.symm, h.dst_if.symm, h.src_if.symm, h.dst_mac.symm, h.src_mac.symm⟩

def NetworkConnection.macs (nc : NetworkConnection) : List String := [nc.src_mac, nc.dst_mac]

/-- Connections are paired into links. Links share no address, and the connections of a node no
interface. -/
structure Domain.Wired (dm : Domain) : Prop where
  complete : ∀ p nc, dm.connection? p = some nc → nc.Complete
  paired : ∃ other : Nat × Nat → Nat × Nat, ∀ p nc, dm.connection? p = some nc →
    other p ≠ p ∧ other (other p) = p ∧
      (∃ nc', dm.connection? (other p) = some nc' ∧ nc.Reverses nc') ∧
      ∀ p' nc', dm.connection? p' = some nc' → p' ≠ p → p' ≠ other p → nc.macs.Disjoint nc'.macs
  interfaces : ∀ i j j' nc nc', dm.connection? (i, j) = some nc → dm.connection? (i, j') = some nc' →
    nc.src_if = nc'.src_if → j = j'

variable {dm : Domain} {nn nn' : NetworkNode} {nc nc' : NetworkConnection} {p p' q r : Nat × Nat}
  {i j k m : Nat} {a b label : String} {s : Wiring} {turn : Nat × Nat → Turn} {id : BitVec 64}
  {mir : Nat × Nat → Nat × Nat} {log : List (Nat × Nat)}

/-! ## What is written at an end -/

theorem Tracks.ends_eq (ht : Tracks mir id log turn s) (hw : Mirror.lastWrite mir log r = some q) :
    s.ends r = written mir id turn q r := by
  rw [ht.ends, hw]

theorem written_complete (q r : Nat × Nat) (nc : NetworkConnection) :
    (nc.fill (written mir id turn q r)).Complete := by
  unfold written
  split
  · split
    · exact ⟨deviceName_ne _, deviceName_ne _, macString_ne _, macString_ne _⟩
    · exact ⟨deviceName_ne _, deviceName_ne _, macString_ne _, macString_ne _⟩
  · exact ⟨deviceName_ne _, deviceName_ne _, macString_ne _, macString_ne _⟩

theorem Tracks.src_if (ht : Tracks mir id log turn s) (hw : Mirror.lastWrite mir log r = some q) :
    ∃ d, (s.ends r).src_if = deviceName d ∧ Uses mir turn q r.1 d := by
  rw [ht.ends_eq hw, written]
  by_cases hqr : q = r
  · subst hqr
    rw [if_pos rfl]
    by_cases hm : mir q = q
    · rw [if_pos hm]
      exact ⟨(turn q).dst_dev, rfl, .inr ⟨by rw [hm], rfl⟩⟩
    · rw [if_neg hm]
      exact ⟨(turn q).src_dev, rfl, .inl ⟨rfl, rfl⟩⟩
  · rw [if_neg hqr]
    have hm := (Mirror.lastWrite_touches hw).resolve_left hqr
    exact ⟨(turn q).dst_dev, rfl, .inr ⟨by rw [hm], rfl⟩⟩

theorem Tracks.dst_if (ht : Tracks mir id log turn s) (hw : Mirror.lastWrite mir log r = some q)
    (hback : (mir (mir q)).1 = q.1) :
    ∃ d, (s.ends r).dst_if = deviceName d ∧ Uses mir turn q (mir r).1 d := by
  rw [ht.ends_eq hw, written]
  by_cases hqr : q = r
  · subst hqr
    rw [if_pos rfl]
    by_cases hm : mir q = q
    · rw [if_pos hm]
      exact ⟨(turn q).dst_dev, rfl, .inr ⟨rfl, rfl⟩⟩
    · rw [if_neg hm]
      exact ⟨(turn q).dst_dev, rfl, .inr ⟨rfl, rfl⟩⟩
  · rw [if_neg hqr]
    have hm := (Mirror.lastWrite_touches hw).resolve_left hqr
    exact ⟨(turn q).src_dev, rfl, .inl ⟨by rw [← hm, hback], rfl⟩⟩

theorem Tracks.macs (ht : Tracks mir id log turn s) (hw : Mirror.lastWrite mir log r = some q)
    {address : String} (ha : address ∈ (nc.fill (s.ends r)).macs) :
    ∃ b ≤ 1, address = macString (addressAfter id (turn q).num + BitVec.ofNat 64 b) := by
  have hends : ∀ e, e = (turn q).ends id ∨ e = ((turn q).ends id).swap ∨ e = ((turn q).ends id).turned →
      address ∈ (nc.fill e).macs →
      ∃ b ≤ 1, address = macString (addressAfter id (turn q).num + BitVec.ofNat 64 b) := by
    have hzero : macString (addressAfter id (turn q).num) =
        macString (addressAfter id (turn q).num + BitVec.ofNat 64 0) := by
      rw [BitVec.add_zero]
    rintro e (rfl | rfl | rfl) ha <;> rcases List.mem_pair.mp ha with rfl | rfl
    · exact ⟨0, by decide, hzero⟩
    · exact ⟨1, by decide, rfl⟩
    · exact ⟨1, by decide, rfl⟩
    · exact ⟨0, by decide, hzero⟩
    · exact ⟨1, by decide, rfl⟩
    · exact ⟨1, by decide, rfl⟩
  rw [ht.ends_eq hw, written] at ha
  split at ha
  · split at ha
    · exact hends _ (.inr (.inr rfl)) ha
    · exact hends _ (.inl rfl) ha
  · exact hends _ (.inr (.inl rfl)) ha

/-! ## The network when the loops end -/

/-- A simulated network with the state that the loops leave. -/
structure Domain.Assigned (dm : Domain) (id : BitVec 64) (turn : Nat × Nat → Turn) (s : Wiring) : Prop
    extends dm.Simulated where
  tracks : Tracks dm.mirrorOf id (Mirror.run dm.mirrorOf dm.places) turn s

theorem Domain.Simulated.render_blank (h : dm.Simulated) :
    dm.render ⟨fun _ => .blank, fun _ => 0, dm.id⟩ = dm := by
  have hnc : ∀ nn ∈ dm.network_nodes, ∀ nc ∈ nn.connections, nc.fill .blank = nc := by
    intro nn hnn nc hnc
    obtain ⟨-, hsi, hdi, hsm, hdm⟩ := (h.fresh nn hnn).connections nc hnc
    cases nc
    simp_all [NetworkConnection.fill, Ends.blank]
  have hnode : ∀ nn ∈ dm.network_nodes, { nn with
      connections := nn.connections.mapIdx fun _ nc => nc.fill .blank
      deviceOffset := 0 } = nn := by
    intro nn hnn
    have hconn : nn.connections.mapIdx (fun _ nc => nc.fill .blank) = nn.connections := by
      rw [List.mapIdx_eq_iff]
      intro j
      cases hj : nn.connections[j]? with
      | none => rfl
      | some nc => rw [Option.map_some, hnc nn hnn nc (List.mem_of_getElem? hj)]
    rw [hconn, ← (h.fresh nn hnn).deviceOffset]
  unfold Domain.render
  have hnodes : dm.network_nodes.mapIdx (fun _ nn => { nn with
      connections := nn.connections.mapIdx fun _ nc => nc.fill .blank
      deviceOffset := 0 }) = dm.network_nodes := by
    rw [List.mapIdx_eq_iff]
    intro i
    cases hi : dm.network_nodes[i]? with
    | none => rfl
    | some nn => rw [Option.map_some, hnode nn (List.mem_of_getElem? hi)]
  rw [hnodes]

theorem Domain.Simulated.assigned (h : dm.Simulated) : ∃ turn s,
    assignDeviceNamesAndMacAddresses dm = some (dm.render s) ∧ dm.Assigned dm.id turn s := by
  have hmir : ∀ p ∈ dm.places, (dm.mirrorOf? p).isSome := by
    intro p hp
    obtain ⟨nc, hp⟩ := mem_places.mp hp
    rw [(h.mirrorOf_spec hp).1]
    rfl
  have hrun := foldlM_render hmir ⟨fun _ => .blank, fun _ => 0, dm.id⟩
  rw [h.render_blank] at hrun
  obtain ⟨turn, ht⟩ := (tracks_nil dm.mirrorOf dm.id (fun _ => ⟨0, 0, 0⟩) fun _ => 0).run dm.places
  exact ⟨turn, _, hrun, h, ht⟩

theorem lastWrite_of_connection (hp : dm.connection? p = some nc) :
    ∃ q nc', Mirror.lastWrite dm.mirrorOf (Mirror.run dm.mirrorOf dm.places) p = some q ∧
      dm.connection? q = some nc' := by
  obtain ⟨q, hq⟩ : ∃ q, Mirror.lastWrite dm.mirrorOf (Mirror.run dm.mirrorOf dm.places) p = some q :=
    Mirror.lastWrite_run (mem_places.mpr ⟨nc, hp⟩)
  obtain ⟨nc', hq'⟩ := mem_places.mp (Mirror.mem_run (Mirror.lastWrite_mem hq))
  exact ⟨q, nc', hq, hq'⟩

theorem render_connection?_eq_some : (dm.render s).connection? p = some nc' ↔
    ∃ nc, dm.connection? p = some nc ∧ nc.fill (s.ends p) = nc' := by
  rw [render_connection?, Option.map_eq_some_iff]

theorem Domain.Assigned.complete (h : dm.Assigned id turn s) (hp : dm.connection? p = some nc) :
    (nc.fill (s.ends p)).Complete := by
  obtain ⟨q, -, hw, -⟩ := lastWrite_of_connection hp
  rw [h.tracks.ends_eq hw]
  exact written_complete q p nc

/-- Two connections of a node with one interface were written in the same turn. -/
theorem Domain.Assigned.same_turn (h : dm.Assigned id turn s) (hnode : p.1 = p'.1)
    (hw : Mirror.lastWrite dm.mirrorOf (Mirror.run dm.mirrorOf dm.places) p = some q)
    (hw' : Mirror.lastWrite dm.mirrorOf (Mirror.run dm.mirrorOf dm.places) p' = some r)
    (hif : (s.ends p).src_if = (s.ends p').src_if) : q = r := by
  obtain ⟨d, hd, hu⟩ := h.tracks.src_if hw
  obtain ⟨d', hd', hu'⟩ := h.tracks.src_if hw'
  rw [hd, hd'] at hif
  rw [← hnode, ← deviceName_inj hif] at hu'
  exact h.tracks.once q (Mirror.lastWrite_mem hw) r (Mirror.lastWrite_mem hw') p.1 d hu hu'

/-! ## Every write is seen at both ends -/

theorem Domain.Assigned.interfaces (h : dm.Assigned id turn s) (hd : dm.AtMostDouble)
    (hp : dm.connection? p = some nc) (hp' : dm.connection? p' = some nc') (hnode : p.1 = p'.1)
    (hif : (s.ends p).src_if = (s.ends p').src_if) : p = p' := by
  obtain ⟨q, nq, hw, hq⟩ := lastWrite_of_connection hp
  obtain ⟨r, -, hw', -⟩ := lastWrite_of_connection hp'
  obtain rfl := h.same_turn hnode hw hw' hif
  -- the two ends of a turn are in different nodes
  have hends : (dm.mirrorOf q).1 ≠ q.1 := by
    intro hm
    obtain ⟨-, nm, hqm, hsrc, -⟩ := h.mirrorOf_spec hq
    have hlabel := (h.node_iff hq hqm).mp hm
    exact (hd.of_connection h.toSimulated hq).1 (hlabel.symm.trans hsrc)
  rcases Mirror.lastWrite_touches hw with rfl | rfl <;>
    rcases Mirror.lastWrite_touches hw' with h' | h'
  · exact h'
  · rw [← h'] at hnode
    exact absurd hnode.symm hends
  · rw [← h'] at hnode
    exact absurd hnode hends
  · exact h'

/-- The other end of the turn that wrote the place last. -/
def otherEnd (mir : Nat × Nat → Nat × Nat) (log : List (Nat × Nat)) (p : Nat × Nat) : Nat × Nat :=
  match Mirror.lastWrite mir log p with
  | none => p
  | some q => if q = p then mir p else q

theorem otherEnd_near (hq : Mirror.lastWrite mir log q = some q) : otherEnd mir log q = mir q := by
  simp [otherEnd, hq]

theorem otherEnd_far (hm : Mirror.lastWrite mir log (mir q) = some q) (hne : mir q ≠ q) :
    otherEnd mir log (mir q) = q := by
  simp [otherEnd, hm, hne.symm]

theorem Domain.Assigned.reverses (h : dm.Assigned id turn s) (hq : dm.connection? q = some nc)
    (hw : Mirror.lastWrite dm.mirrorOf (Mirror.run dm.mirrorOf dm.places) q = some q)
    (hw' : Mirror.lastWrite dm.mirrorOf (Mirror.run dm.mirrorOf dm.places) (dm.mirrorOf q) = some q)
    (hne : dm.mirrorOf q ≠ q) : ∃ nc', dm.connection? (dm.mirrorOf q) = some nc' ∧
      (nc.fill (s.ends q)).Reverses (nc'.fill (s.ends (dm.mirrorOf q))) := by
  obtain ⟨-, nc', hq', hsrc, hdst, -⟩ := h.mirrorOf_spec hq
  refine ⟨nc', hq', ?_⟩
  rw [h.tracks.ends_eq hw, h.tracks.ends_eq hw', written, written, if_pos rfl, if_neg hne,
    if_neg hne.symm]
  exact ⟨hdst.symm, hsrc.symm, rfl, rfl, rfl, rfl⟩

/-- Connections that share an address were written in the same turn. -/
theorem Domain.Assigned.disjoint (h : dm.Assigned id turn s) (hcount : dm.connections.length < 2 ^ 32)
    (hw : Mirror.lastWrite dm.mirrorOf (Mirror.run dm.mirrorOf dm.places) p = some q)
    (hw' : Mirror.lastWrite dm.mirrorOf (Mirror.run dm.mirrorOf dm.places) p' = some r) (hne : q ≠ r) :
    (nc.fill (s.ends p)).macs.Disjoint (nc'.fill (s.ends p')).macs := by
  intro address ha ha'
  obtain ⟨b, hb, heq⟩ := h.tracks.macs hw ha
  obtain ⟨b', hb', heq'⟩ := h.tracks.macs hw' ha'
  have hq := Mirror.lastWrite_mem hw
  have hr := Mirror.lastWrite_mem hw'
  have hlen : (Mirror.run dm.mirrorOf dm.places).length ≤ dm.places.length :=
    Mirror.length_run_le dm.places
  rw [length_places] at hlen
  have hq' := h.tracks.num q hq
  have hr' := h.tracks.num r hr
  have hnum := addressAfter_inj id (by omega) (by omega) hb hb' (heq.symm.trans heq')
  exact hne (h.tracks.num_inj q hq r hr hnum)

theorem Domain.Assigned.wired (h : dm.Assigned id turn s) (hcount : dm.connections.length < 2 ^ 32)
    (hd : dm.AtMostDouble) : (dm.render s).Wired where
  complete p _ hp' := by
    obtain ⟨nc, hp, rfl⟩ := render_connection?_eq_some.mp hp'
    exact h.complete hp
  paired := by
    refine ⟨otherEnd dm.mirrorOf (Mirror.run dm.mirrorOf dm.places), ?_⟩
    intro p _ hp₀
    obtain ⟨nc, hp, rfl⟩ := render_connection?_eq_some.mp hp₀
    obtain ⟨q, hw, hwq, hwm, hne⟩ := hd.settled h.toSimulated hp
    obtain ⟨nq, hq⟩ := mem_places.mp (Mirror.mem_run (Mirror.lastWrite_mem hw))
    obtain ⟨nm, hm, hrev⟩ := h.reverses hq hwq hwm hne
    have hnear := otherEnd_near hwq
    have hfar := otherEnd_far hwm hne
    -- every other connection was written in another turn
    have hdisjoint : ∀ p' nc', (dm.render s).connection? p' = some nc' → p' ≠ q →
        p' ≠ dm.mirrorOf q → (nc.fill (s.ends p)).macs.Disjoint nc'.macs := by
      intro p' _ hp₁ hpq hpm
      obtain ⟨nc', hp', rfl⟩ := render_connection?_eq_some.mp hp₁
      obtain ⟨q', -, hw', -⟩ := lastWrite_of_connection hp'
      refine h.disjoint hcount hw hw' ?_
      rintro rfl
      rcases Mirror.lastWrite_touches hw' with h' | h'
      · exact hpq h'.symm
      · exact hpm h'.symm
    rcases Mirror.lastWrite_touches hw with rfl | rfl
    · obtain rfl := Option.some.inj (hp.symm.trans hq)
      rw [hnear, hfar]
      exact ⟨hne, rfl, ⟨_, render_connection?_eq_some.mpr ⟨nm, hm, rfl⟩, hrev⟩, hdisjoint⟩
    · obtain rfl := Option.some.inj (hp.symm.trans hm)
      rw [hfar, hnear]
      exact ⟨hne.symm, rfl, ⟨_, render_connection?_eq_some.mpr ⟨nq, hq, rfl⟩, hrev.symm⟩,
        fun p' nc' hp' hpm hpq => hdisjoint p' nc' hp' hpq hpm⟩
  interfaces i j j' _ _ hp₀ hp₁ hif := by
    obtain ⟨nc, hp, rfl⟩ := render_connection?_eq_some.mp hp₀
    obtain ⟨nc', hp', rfl⟩ := render_connection?_eq_some.mp hp₁
    exact (Prod.mk.inj (h.interfaces hd hp hp' rfl hif)).2

/-! ## Writes that are lost -/

theorem Domain.Wired.interfaces_render (hwired : (dm.render s).Wired) (hp : dm.connection? p = some nc)
    (hp' : dm.connection? p' = some nc') (hnode : p.1 = p'.1)
    (hif : (s.ends p).src_if = (s.ends p').src_if) : p = p' := by
  obtain ⟨i, j⟩ := p
  obtain ⟨i', j'⟩ := p'
  obtain rfl : i = i' := hnode
  rw [hwired.interfaces i j j' _ _ (render_connection?_eq_some.mpr ⟨nc, hp, rfl⟩)
    (render_connection?_eq_some.mpr ⟨nc', hp', rfl⟩) hif]

theorem Domain.Simulated.filter_places_self (h : dm.Simulated) (hp : dm.connection? p = some nc) :
    dm.places.filter (dm.between nc.src_label nc.src_label) = dm.side p.1 nc.src_label := by
  obtain ⟨nn, hnn, -⟩ := connection?_eq_some.mp hp
  obtain ⟨hi, -⟩ := List.getElem?_eq_some_iff.mp hnn
  rw [places_eq, List.filter_flatMap, flatMap_range_one hi]
  · refine List.filter_congr ?_
    intro r hr
    obtain ⟨hr1, nc', hr⟩ := mem_row.mp hr
    rw [Bool.eq_iff_iff, between_iff hr, (h.node_iff hp hr).mp hr1, hr]
    simp
  · intro j _ hj
    refine List.filter_eq_nil_iff.mpr fun r hr hbetween => ?_
    obtain ⟨hr1, nc', hr⟩ := mem_row.mp hr
    rw [between_iff hr, or_self] at hbetween
    exact hj (hr1.symm.trans ((h.node_iff hp hr).mpr hbetween.1))

theorem Domain.Wired.ne_self (hwired : (dm.render s).Wired) (h : dm.Assigned id turn s)
    (hp : dm.connection? p = some nc) : nc.dst_label ≠ nc.src_label := by
  intro hself
  obtain ⟨fs, hside⟩ := h.side_mirror hp
  have hnode : (dm.mirrorOf p).1 = p.1 := by
    obtain ⟨-, nc', hq, hsrc, -⟩ := h.mirrorOf_spec hp
    exact (h.node_iff hp hq).mpr (hsrc.trans hself)
  rw [hnode] at hside
  generalize hf : dm.mirrorOf p = f at hside
  have hfilter := h.filter_places_self hp
  rw [hside] at hfilter
  have hmir : ∀ r ∈ f :: fs, dm.mirrorOf r = f := by
    intro r hr
    rw [← hside, ← hself] at hr
    exact (h.mirror_of_side hp hr).trans hf
  have hpmem : p ∈ f :: fs := by
    rw [← hside]
    exact mem_side.mpr ⟨rfl, nc, hp, hself⟩
  by_cases hfs : fs = []
  · -- the one connection to itself has no other end
    obtain ⟨other, hother⟩ := hwired.paired
    obtain ⟨hne, -, ⟨_, hq₀, hrev⟩, -⟩ := hother p _ (render_connection?_eq_some.mpr ⟨nc, hp, rfl⟩)
    obtain ⟨nc', hq, rfl⟩ := render_connection?_eq_some.mp hq₀
    have hsrc : nc'.src_label = nc.src_label := hrev.dst_label.symm.trans hself
    have hmem : other p ∈ f :: fs := by
      rw [← hside]
      exact mem_side.mpr ⟨(h.node_iff hp hq).mpr hsrc, nc', hq, hrev.src_label.symm⟩
    rw [hfs, List.mem_singleton] at hmem hpmem
    exact hne (hmem.trans hpmem.symm)
  · have hnodup : (f :: fs).Nodup := by
      rw [← hside]
      exact side_nodup dm _ _
    obtain ⟨g, hg, hwf, hwg⟩ := Mirror.lastWrite_turned hnodup hmir hfs
    have hfg : f ≠ g := by
      rintro rfl
      exact (List.nodup_cons.mp hnodup).1 hg
    have hpart : ∀ r ∈ f :: fs, dm.between nc.src_label nc.src_label r = true := by
      intro r hr
      rw [← hfilter] at hr
      exact (List.mem_filter.mp hr).2
    have hstay := h.between_mirror nc.src_label nc.src_label
    rw [← hfilter, ← Mirror.lastWrite_run_filter hstay (hpart f List.mem_cons_self)] at hwf
    rw [← hfilter, ← Mirror.lastWrite_run_filter hstay (hpart g (List.mem_cons_of_mem _ hg))] at hwg
    have hplace : ∀ r ∈ f :: fs, r.1 = p.1 ∧ ∃ nc', dm.connection? r = some nc' := by
      intro r hr
      rw [← hside] at hr
      obtain ⟨hr1, nc', hr, -⟩ := mem_side.mp hr
      exact ⟨hr1, nc', hr⟩
    obtain ⟨hf1, nf, hfc⟩ := hplace f List.mem_cons_self
    obtain ⟨hg1, ng, hgc⟩ := hplace g (List.mem_cons_of_mem _ hg)
    have hmirg := hmir g (List.mem_cons_of_mem _ hg)
    -- the last turn wrote its device also at the first connection
    have hdev := h.tracks.loop g (Mirror.lastWrite_mem hwg) (by rw [hmirg, hf1, hg1])
    refine hfg (hwired.interfaces_render hfc hgc (hf1.trans hg1.symm) ?_)
    rw [h.tracks.ends_eq hwf, h.tracks.ends_eq hwg, written, written, if_neg hfg.symm, if_pos rfl,
      hmirg, if_neg hfg]
    exact congrArg deviceName hdev.symm

/-- The write of the second of three connections is lost at the other node. -/
theorem Domain.Wired.length_side_le (hwired : (dm.render s).Wired) (h : dm.Assigned id turn s)
    (hp : dm.connection? p = some nc) (hlt : p.1 < (dm.mirrorOf p).1) :
    (dm.side p.1 nc.dst_label).length ≤ 2 := by
  obtain ⟨f, fs, b, bs, hside, hfilter, hfacing, -⟩ := h.facing hp hlt
  rw [hside]
  match fs, hside, hfilter, hfacing with
  | [], _, _, _ => simp
  | [_], _, _, _ => simp
  | f' :: g :: fs, hside, hfilter, hfacing =>
    exfalso
    obtain ⟨hwf, hwb⟩ := hfacing.lost (List.cons_ne_nil g fs)
    have hpart : ∀ r ∈ f :: f' :: g :: fs ++ b :: bs,
        dm.between nc.src_label nc.dst_label r = true := by
      intro r hr
      rw [← hfilter] at hr
      exact (List.mem_filter.mp hr).2
    have hstay := h.between_mirror nc.src_label nc.dst_label
    rw [← hfilter, ← Mirror.lastWrite_run_filter hstay (hpart f' (by simp))] at hwf
    rw [← hfilter, ← Mirror.lastWrite_run_filter hstay (hpart b (by simp))] at hwb
    have hf'side : f' ∈ dm.side p.1 nc.dst_label := by simp [hside]
    obtain ⟨-, nf, hf', -⟩ := mem_side.mp hf'side
    have hmir : dm.mirrorOf f' = b := hfacing.front f' (by simp)
    -- the partner of that connection was written in the same turn
    obtain ⟨other, hother⟩ := hwired.paired
    obtain ⟨hne, -, ⟨_, ho₀, hrev⟩, -⟩ := hother f' _ (render_connection?_eq_some.mpr ⟨nf, hf', rfl⟩)
    obtain ⟨no, ho, rfl⟩ := render_connection?_eq_some.mp ho₀
    obtain ⟨-, nm, hm, hsrc, -⟩ := h.mirrorOf_spec hf'
    have hnode : (other f').1 = (dm.mirrorOf f').1 :=
      (h.node_iff hm ho).mpr (hrev.dst_label.symm.trans hsrc.symm)
    obtain ⟨q, -, hw, -⟩ := lastWrite_of_connection ho
    obtain ⟨d, hd, hu⟩ := h.tracks.src_if hw
    obtain ⟨d', hd', hu'⟩ := h.tracks.dst_if hwf (h.mirror_mirror hf')
    have hdev : d' = d := deviceName_inj (hd'.symm.trans (hrev.dst_if.trans hd))
    rw [hdev, ← hnode] at hu'
    obtain rfl := h.tracks.once q (Mirror.lastWrite_mem hw) f' (Mirror.lastWrite_mem hwf) _ d hu hu'
    rcases Mirror.lastWrite_touches hw with heq | heq
    · exact hne heq.symm
    · rw [← heq, hmir] at hw
      exact hwb hw

theorem Domain.Wired.atMostDouble (hwired : (dm.render s).Wired) (h : dm.Assigned id turn s) :
    dm.AtMostDouble := by
  intro nn hnn nc hnc
  obtain ⟨i, hi⟩ := List.mem_iff_getElem?.mp hnn
  obtain ⟨j, hj⟩ := List.mem_iff_getElem?.mp hnc
  have hp : dm.connection? (i, j) = some nc := connection?_eq_some.mpr ⟨nn, hi, hj⟩
  have hlabel := h.src_label hi hp
  have hne := hwired.ne_self h hp
  rw [← hlabel]
  refine ⟨hne, ?_⟩
  rw [← length_side hi]
  obtain ⟨-, nc', hq, hsrc, hdst, -⟩ := h.mirrorOf_spec hp
  have hnode : (dm.mirrorOf (i, j)).1 ≠ i := by
    intro heq
    exact hne (hsrc.symm.trans ((h.node_iff hp hq).mp heq))
  have hback := h.mirror_mirror hp
  rcases Nat.lt_or_gt_of_ne hnode with hlt | hgt
  · have hle := hwired.length_side_le h hq (by rw [hback]; exact hlt)
    rwa [hdst, ← h.length_sides hp hne.symm] at hle
  · exact hwired.length_side_le h hp hgt

/-- The interfaces of a simulated network are paired exactly when no node is linked to itself and
no two nodes are linked three times. The counter of connections has 32 bits. -/
theorem assignDeviceNames_wired_iff {cfg : Config} (h : buildNS3NetworkDomain (.new id) cfg = .ok dm)
    (hcount : dm.number_of_connections < 2 ^ 32) (hsym : dm.Symmetric) :
    ∃ dm', assignDeviceNamesAndMacAddresses dm = some dm' ∧ (dm'.Wired ↔ dm.AtMostDouble) := by
  obtain ⟨hcounted, hfresh⟩ := buildNS3NetworkDomain_counted h
  obtain ⟨turn, s, hrun, hassigned⟩ := Domain.Simulated.assigned ⟨hsym, hfresh⟩
  rw [hcounted.connections] at hcount
  exact ⟨dm.render s, hrun, fun hwired => hwired.atMostDouble hassigned,
    hassigned.wired hcount⟩

/-- A link of a simulated network. -/
def ns3Link (label : String) : ConnectionSetting := { ConnectionSetting.blank with
  toLabel := some label, Mtu := some 1500, DataRate := some "100Mbps", Delay := some "10ms" }

/-- A file with two nodes that list so many links towards each other. -/
def ns3Config (links : Nat) : Config where
  BLACKADDER_ID_LENGTH := some 1
  LIPSIN_ID_LENGTH := some 32
  OVERLAY_MODE := none
  nodes := some [
    ⟨some "a", none, none, none, none, some ["RV", "TM"], some (.replicate links (ns3Link "b"))⟩,
    ⟨some "b", none, none, none, none, none, some (.replicate links (ns3Link "a"))⟩]
  ol_nodes := none
  pl_nodes := none

def ns3Domain (links : Nat) : Domain :=
  (buildNS3NetworkDomain (.new 0) (ns3Config links)).toOption.getD (.new 0)

theorem assignDeviceNames_wired_iff_double :
    ∃ dm', assignDeviceNamesAndMacAddresses (ns3Domain 2) = some dm' ∧ dm'.Wired := by
  have hbuilt : buildNS3NetworkDomain (.new 0) (ns3Config 2) = .ok (ns3Domain 2) := by
    decide +kernel
  have hsym : (ns3Domain 2).Symmetric := ⟨by decide +kernel, by decide +kernel⟩
  obtain ⟨dm', hrun, hiff⟩ := assignDeviceNames_wired_iff hbuilt (by decide +kernel) hsym
  exact ⟨dm', hrun, hiff.mpr (by decide +kernel)⟩

/-- Of three links between two nodes the second one of the first node has no other end. -/
theorem tripleLink_not_wired : buildNS3NetworkDomain (.new 0) (ns3Config 3) = .ok (ns3Domain 3) ∧
    (ns3Domain 3).Symmetric ∧
    ∃ dm', assignDeviceNamesAndMacAddresses (ns3Domain 3) = some dm' ∧ ¬ dm'.Wired := by
  refine ⟨by decide +kernel, ⟨by decide +kernel, by decide +kernel⟩,
    (assignDeviceNamesAndMacAddresses (ns3Domain 3)).getD (.new 0), by decide +kernel, ?_⟩
  generalize hdm : (assignDeviceNamesAndMacAddresses (ns3Domain 3)).getD (.new 0) = dm
  have hsecond : ∃ nc, dm.connection? (0, 1) = some nc ∧ nc.src_mac = "00:00:00:00:00:02" := by
    rw [← hdm]
    decide +kernel
  have hnone : ∀ p ∈ dm.places, ∀ nc ∈ dm.connection? p, nc.dst_mac ≠ "00:00:00:00:00:02" := by
    rw [← hdm]
    decide +kernel
  intro hwired
  obtain ⟨other, hother⟩ := hwired.paired
  obtain ⟨nc, hnc, hmac⟩ := hsecond
  obtain ⟨-, -, ⟨nc', hnc', hrev⟩, -⟩ := hother (0, 1) nc hnc
  exact hnone _ (mem_places.mpr ⟨nc', hnc'⟩) nc' hnc' (hrev.src_mac.symm.trans hmac)

end Blackadder.Deployment
