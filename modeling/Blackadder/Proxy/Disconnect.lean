import Mathlib.Data.List.Dedup
import Blackadder.Proxy.Tables

/-!
# The loops of a disconnection

Every turn works on one entry, and the four loops together meet every entry of the host once.
-/

namespace Blackadder

namespace LocalProxy

/-- Both directions agree, an entry is stored under its own id, and ids are whole
fragments. -/
structure Sound (s : LocalProxy) : Prop where
  linked : s.table.Linked
  keyed : s.table.Attrs fun k a => a.fullID = k.2
  accepted : s.table.Attrs fun k a => accepts k.1 a.strategy = true
  whole : s.table.Attrs fun k _ => pursuitIdLen ∣ k.2.length

/-- No entry is stored under the empty id. -/
structure Named (s : LocalProxy) : Prop extends s.Sound where
  named : s.table.Attrs fun k _ => pursuitIdLen ≤ k.2.length

/-- The host has no scope under the empty id. -/
def Clear (s : LocalProxy) (host : HostId) : Prop :=
  (∀ ap ∈ s.activePublicationIndex [], ap.isScope = true → host ∉ ap.publishers) ∧
  ∀ sub ∈ s.activeSubscriptionIndex [], sub.isScope = true → ¬ host ∈ sub.subscribers

/-- What the turns for a host do not write. -/
structure Rest where
  gc : GlobalConf
  others : HostId → Option LocalHost
  indexed : Bool

def rest (host : HostId) (s : LocalProxy) : Rest :=
  ⟨s.gc, Function.update s.localPubSubIndex host none, (s.localPubSubIndex host).isSome⟩

/-- An entry, and whether the host knows of it. -/
def cell (host : HostId) (s : LocalProxy) (k : Key) : Option Entry × Prop :=
  (s.entryAt k, k ∈ s.table.keysOf host)

namespace Entry

def kind (e : Entry) : Kind := if e.attr.isScope then .scope else .item

/-- What becomes of an entry when a host that disconnected leaves it. -/
def left (host : HostId) : Entry → Option Entry × List ProxyOutput
  | .inl ap => ((publicationLeft (kind (.inl ap)) host ap).1.map .inl,
      (publicationLeft (kind (.inl ap)) host ap).2)
  | .inr sub => ((subscriptionLeft (kind (.inr sub)) host sub).1.map .inr,
      (subscriptionLeft (kind (.inr sub)) host sub).2)

end Entry

variable {s s' : LocalProxy} {host h : HostId} {X : Id} {k : Key} {kd : Kind} {e : Entry}
  {o : Option Entry} {m : Nat} {IDs : List Id}

/-! ## One turn -/

@[simp]
theorem rest_setPublication (o : Option ActivePublication) :
    rest host (s.setPublication X o) = rest host s := rfl

@[simp]
theorem rest_setSubscription (o : Option ActiveSubscription) :
    rest host (s.setSubscription X o) = rest host s := rfl

@[simp]
theorem rest_modifyHost (f : LocalHost → LocalHost) :
    rest host (s.modifyHost host f) = rest host s := by
  unfold rest modifyHost
  congr 1
  · exact Function.update_idem _ _ _
  · simp

theorem cell_eq_update (he : s'.entryAt = Function.update s.entryAt k o)
    (hk : s'.table.keysOf host = s.table.keysOf host \ {k}) :
    cell host s' = Function.update (cell host s) k (o, False) := by
  funext k'
  unfold cell
  rw [he, hk]
  by_cases hkk : k' = k
  · subst hkk
    simp
  · simp [hkk]

/-- The turn of a loop for items or for scopes. -/
def turn (kd : Kind) (host : HostId) (c : Option Entry × Prop) :
    (Option Entry × Prop) × List ProxyOutput :=
  match c.1 with
  | none => (c, [])
  | some e => if e.kind = kd then (((e.left host).1, False), (e.left host).2) else (c, [])

theorem kind_eq_iff : e.kind = kd ↔ (e.attr.isScope = decide (kd = .scope)) := by
  unfold Entry.kind
  cases kd <;> cases e.attr.isScope <;> simp

theorem turn_of_some {c : Option Entry × Prop} (he : c.1 = some e) : turn kd host c =
    if e.kind = kd then (((e.left host).1, False), (e.left host).2) else (c, []) := by
  rw [turn, he]

theorem turn_writes {s : LocalProxy} (he : s.entryAt k = some e)
    {run : Result (LocalProxy × List ProxyOutput)}
    (hmatch : e.kind = kd → ∃ s', run = .ok (s', (e.left host).2) ∧
      s'.entryAt = Function.update s.entryAt k (e.left host).1 ∧
      s'.table.keysOf host = s.table.keysOf host \ {k} ∧ rest host s' = rest host s)
    (hskip : e.kind ≠ kd → run = .ok (s, [])) :
    ∃ s', run = .ok (s', (turn kd host (cell host s k)).2) ∧
      cell host s' = Function.update (cell host s) k (turn kd host (cell host s k)).1 ∧
      rest host s' = rest host s := by
  rw [turn_of_some (c := cell host s k) he]
  by_cases hk : e.kind = kd
  · rw [if_pos hk]
    obtain ⟨s', hrun, hentry, hkeys, hrest⟩ := hmatch hk
    exact ⟨s', hrun, cell_eq_update hentry hkeys, hrest⟩
  · rw [if_neg hk]
    exact ⟨s, hskip hk, (Function.update_eq_self _ _).symm, rfl⟩

theorem deletePublication_writes (kd : Kind) (host : HostId) :
    Cells.Writes (deletePublication kd host) (fun X => (Role.publisher, X)) (cell host) (rest host)
      (fun _ X c => ∃ e, c.1 = some e ∧ e.attr.fullID = X) (fun _ _ => turn kd host) := by
  rintro s X ⟨e, he, hfull⟩
  have he : s.entryAt (.publisher, X) = some e := he
  obtain ⟨ap, hX, rfl⟩ := Option.map_eq_some_iff.mp he
  have hfull : ap.fullID = X := hfull
  refine turn_writes he (fun hk => ?_) fun hk => ?_ <;> unfold deletePublication <;> rw [hX]
  · have hscope : ¬ ap.isScope ≠ (kd = .scope) := by
      have hkind : ap.isScope = decide (kd = .scope) := kind_eq_iff.mp hk
      simp [hkind]
    refine ⟨(s.eraseActivePublication host X).setPublication X (publicationLeft kd host ap).1,
      ?_, ?_, ?_, (rest_setPublication _).trans (rest_modifyHost _)⟩
    · simp only [deref_some, bind, Except.bind, if_neg hscope, Entry.left, hk]
      cases publicationLeft kd host ap with
      | mk o outs => cases o <;> simp [hfull, pure, Except.pure]
    · rw [entryAt_setPublication, eraseActivePublication, entryAt_modifyHost, Entry.left, hk]
    · rw [table_setPublication, table_eraseActivePublication]
      exact Function.update_self _ _ _
  · have hscope : ap.isScope ≠ (kd = .scope) := by
      intro heq
      exact hk (kind_eq_iff.mpr (by simp [← heq, Entry.attr, Entry.view, pubView]))
    exact if_pos hscope

theorem deleteSubscription_writes (kd : Kind) (host : HostId) :
    Cells.Writes (deleteSubscription kd host) (fun X => (Role.subscriber, X)) (cell host) (rest host)
      (fun _ X c => ∃ e, c.1 = some e ∧ e.attr.fullID = X) (fun _ _ => turn kd host) := by
  rintro s X ⟨e, he, hfull⟩
  have he : s.entryAt (.subscriber, X) = some e := he
  obtain ⟨sub, hX, rfl⟩ := Option.map_eq_some_iff.mp he
  have hfull : sub.fullID = X := hfull
  refine turn_writes he (fun hk => ?_) fun hk => ?_ <;> unfold deleteSubscription <;> rw [hX]
  · have hscope : ¬ sub.isScope ≠ (kd = .scope) := by
      have hkind : sub.isScope = decide (kd = .scope) := kind_eq_iff.mp hk
      simp [hkind]
    refine ⟨(s.eraseActiveSubscription host X).setSubscription X (subscriptionLeft kd host sub).1,
      ?_, ?_, ?_, (rest_setSubscription _).trans (rest_modifyHost _)⟩
    · simp only [deref_some, bind, Except.bind, if_neg hscope, Entry.left, hk]
      cases subscriptionLeft kd host sub with
      | mk o outs => cases o <;> simp [hfull, pure, Except.pure]
    · rw [entryAt_setSubscription, eraseActiveSubscription, entryAt_modifyHost, Entry.left, hk]
    · rw [table_setSubscription, table_eraseActiveSubscription]
      exact Function.update_self _ _ _
  · have hscope : sub.isScope ≠ (kd = .scope) := by
      intro heq
      exact hk (kind_eq_iff.mpr (by simp [← heq, Entry.attr, Entry.view, subView]))
    exact if_pos hscope

/-! ## The orders -/

theorem mem_visit {order : List Id} {set : Finset Id} (hcover : ∀ X ∈ set, X ∈ order) :
    X ∈ visit order set ↔ X ∈ set := by
  simp only [visit, List.mem_filter, decide_eq_true_eq]
  exact ⟨And.right, fun h => ⟨hcover X h, h⟩⟩

theorem nodup_visit {order : List Id} (hnodup : order.Nodup) (set : Finset Id) :
    (visit order set).Nodup := hnodup.filter _

theorem mem_levelPasses : X ∈ levelPasses m IDs ↔ X ∈ IDs ∧ 1 ≤ level X ∧ level X ≤ m := by
  simp only [levelPasses, List.mem_flatMap, List.mem_reverse, List.mem_range, List.mem_filter,
    decide_eq_true_eq]
  constructor
  · rintro ⟨i, hi, hX, hlevel⟩
    exact ⟨hX, by omega, by omega⟩
  · rintro ⟨hX, hpos, hle⟩
    exact ⟨level X - 1, by omega, hX, by omega⟩

theorem nodup_levelPasses (hnodup : IDs.Nodup) : (levelPasses m IDs).Nodup := by
  rw [levelPasses, List.nodup_flatMap]
  refine ⟨fun i _ => hnodup.filter _, ?_⟩
  have hrange : (List.range m).reverse.Nodup := List.nodup_reverse.mpr List.nodup_range
  refine hrange.imp fun {i j} hij X hi hj => hij ?_
  simp only [List.mem_filter, decide_eq_true_eq] at hi hj
  omega

theorem maxLevel_spec {isScope : Id → Option Bool} (hfound : ∀ X ∈ IDs, isScope X ≠ none) :
    ∃ m, maxLevel isScope IDs = .ok m ∧ ∀ X ∈ IDs, isScope X = some true → level X ≤ m := by
  refine Loops.foldlM_total_done
    (I := fun done m => ∀ X ∈ done, isScope X = some true → level X ≤ m) nofun ?_
  intro done X rest m hsplit hdone
  have hX : X ∈ IDs := by simp [hsplit]
  obtain ⟨b, hb⟩ := Option.ne_none_iff_exists'.mp (hfound X hX)
  rw [hb]
  refine ⟨_, rfl, fun Y hY hscope => ?_⟩
  rcases List.mem_append.mp hY with hY | hY
  · have hle := hdone Y hY hscope
    split <;> omega
  · obtain rfl := List.mem_singleton.mp hY
    obtain rfl : b = true := Option.some.inj (hb.symm.trans hscope)
    simp only [true_and]
    split <;> omega

/-! ## The four loops -/

/-- What the departure of a host makes of an entry, and what it sends. -/
def departure (s : LocalProxy) (host : HostId) (k : Key) : Option Entry × List ProxyOutput :=
  match s.entryAt k with
  | none => (none, [])
  | some e => e.left host

/-- A loop met those entries of the host that `P` tells. -/
structure Swept (P : Key → Entry → Prop) (host : HostId) (s s' : LocalProxy) (keys : List Key)
    (outs : List ProxyOutput) : Prop where
  nodup : keys.Nodup
  mem : ∀ k, k ∈ keys ↔ k ∈ s.table.keysOf host ∧ ∃ e, s.entryAt k = some e ∧ P k e
  outs : outs = keys.flatMap fun k => (s.departure host k).2
  gone : ∀ k ∈ keys, cell host s' k = ((s.departure host k).1, False)
  kept : ∀ k, k ∉ keys → cell host s' k = cell host s k
  rest : rest host s' = rest host s

variable {P Q : Key → Entry → Prop} {t u : LocalProxy} {keys keys' : List Key}
  {outs outs' : List ProxyOutput} {role : Role}

theorem entryAt_eq (h : cell host s k = cell host t k) : s.entryAt k = t.entryAt k :=
  congrArg Prod.fst h

theorem mem_keysOf_eq (h : cell host s k = cell host t k) :
    k ∈ s.table.keysOf host ↔ k ∈ t.table.keysOf host :=
  iff_of_eq (congrArg Prod.snd h)

theorem departure_eq (h : cell host s k = cell host t k) :
    s.departure host k = t.departure host k := by
  unfold departure
  rw [entryAt_eq h]

theorem Swept.not_mem_keysOf (hs : Swept P host s t keys outs) (hk : k ∈ keys) :
    k ∉ t.table.keysOf host := by
  have hgone : (cell host t k).2 = False := congrArg Prod.snd (hs.gone k hk)
  exact hgone.mp

theorem Swept.cell_eq (hs : Swept P host s t keys outs) (hk : k ∈ t.table.keysOf host) :
    cell host t k = cell host s k :=
  hs.kept k fun hmem => hs.not_mem_keysOf hmem hk

theorem Swept.congr (hs : Swept P host s t keys outs)
    (hPQ : ∀ k ∈ s.table.keysOf host, ∀ e, s.entryAt k = some e → (P k e ↔ Q k e)) :
    Swept Q host s t keys outs :=
  { hs with
    mem := fun k => by
      rw [hs.mem]
      refine and_congr_right fun hk => exists_congr fun e => and_congr_right fun he => ?_
      exact hPQ k hk e he }

theorem Swept.trans (h1 : Swept P host s t keys outs) (h2 : Swept Q host t u keys' outs') :
    Swept (fun k e => P k e ∨ Q k e) host s u (keys ++ keys') (outs ++ outs') where
  nodup := by
    refine List.nodup_append'.mpr ⟨h1.nodup, h2.nodup, fun k hk hk' => ?_⟩
    exact h1.not_mem_keysOf hk ((h2.mem k).mp hk').1
  mem k := by
    rw [List.mem_append]
    constructor
    · rintro (hk | hk)
      · obtain ⟨hknown, e, he, hP⟩ := (h1.mem k).mp hk
        exact ⟨hknown, e, he, Or.inl hP⟩
      · obtain ⟨hknown, e, he, hQ⟩ := (h2.mem k).mp hk
        have hcell := h1.cell_eq hknown
        exact ⟨(mem_keysOf_eq hcell).mp hknown, e, (entryAt_eq hcell).symm.trans he, Or.inr hQ⟩
    · rintro ⟨hknown, e, he, hPQ⟩
      by_cases hk : k ∈ keys
      · exact Or.inl hk
      · have hcell := h1.kept k hk
        rcases hPQ with hP | hQ
        · exact Or.inl ((h1.mem k).mpr ⟨hknown, e, he, hP⟩)
        · exact Or.inr ((h2.mem k).mpr
            ⟨(mem_keysOf_eq hcell).mpr hknown, e, (entryAt_eq hcell).trans he, hQ⟩)
  outs := by
    have hsame : ∀ k ∈ keys', (t.departure host k).2 = (s.departure host k).2 := fun k hk => by
      rw [departure_eq (h1.cell_eq ((h2.mem k).mp hk).1)]
    rw [h1.outs, h2.outs, List.flatMap_append, List.flatMap_congr hsame]
  gone k hk := by
    rcases List.mem_append.mp hk with hk | hk
    · have hk' : k ∉ keys' := fun hk' => h1.not_mem_keysOf hk ((h2.mem k).mp hk').1
      rw [h2.kept k hk', h1.gone k hk]
    · rw [h2.gone k hk, departure_eq (h1.cell_eq ((h2.mem k).mp hk).1)]
  kept k hk := by
    rw [List.mem_append, not_or] at hk
    rw [h2.kept k hk.2, h1.kept k hk.1]
  rest := h2.rest.trans h1.rest

/-- All that the host knows of is there. -/
def Found (host : HostId) (s : LocalProxy) : Prop :=
  ∀ k ∈ s.table.keysOf host, ∃ e, s.entryAt k = some e ∧ e.attr.fullID = k.2 ∧
    pursuitIdLen ∣ k.2.length

theorem Swept.found (hs : Swept P host s t keys outs) (hf : Found host s) : Found host t := by
  intro k hk
  have hcell := hs.cell_eq hk
  rw [entryAt_eq hcell]
  exact hf k ((mem_keysOf_eq hcell).mp hk)

theorem swept_collect {body : LocalProxy → Id → Result (LocalProxy × List ProxyOutput)}
    (hw : Cells.Writes body (fun X => (role, X)) (cell host) (rest host)
      (fun _ X c => ∃ e, c.1 = some e ∧ e.attr.fullID = X) (fun _ _ => turn kd host))
    (hf : Found host s) (hnodup : IDs.Nodup) (hknown : ∀ X ∈ IDs, (role, X) ∈ s.table.keysOf host) :
    ∃ s' keys outs, Cells.collect body s IDs = .ok (s', outs) ∧
      Swept (fun k e => k.1 = role ∧ e.kind = kd ∧ k.2 ∈ IDs) host s s' keys outs := by
  have hinj : Function.Injective (fun X : Id => (role, X)) := fun X Y h => (Prod.mk.inj h).2
  obtain ⟨s', hrun, hdone, hothers, hrest⟩ := Cells.collect_writes (s := s) hw
    (hnodup.map hinj) fun X hX => by
      obtain ⟨e, he, hfull, -⟩ := hf _ (hknown X hX)
      exact ⟨e, he, hfull⟩
  let met : Id → Bool := fun X => (s.entryAt (role, X)).map Entry.kind = some kd
  have hmet : ∀ {X}, met X = true ↔ ∃ e, s.entryAt (role, X) = some e ∧ e.kind = kd := by
    intro X
    simp only [met, decide_eq_true_eq, Option.map_eq_some_iff]
  have hturn : ∀ X ∈ IDs, turn kd host (cell host s (role, X)) =
      if met X then (((s.departure host (role, X)).1, False), (s.departure host (role, X)).2)
      else (cell host s (role, X), []) := by
    intro X hX
    obtain ⟨e, he, -⟩ := hf _ (hknown X hX)
    have hiff : met X = true ↔ e.kind = kd := by
      rw [hmet, he]
      simp
    rw [turn_of_some (c := cell host s (role, X)) he, departure, he]
    by_cases hk : e.kind = kd
    · rw [if_pos hk, if_pos (hiff.mpr hk)]
    · rw [if_neg hk, if_neg (fun h => hk (hiff.mp h))]
  have hmem : ∀ {k}, k ∈ (IDs.filter met).map (fun X => (role, X)) ↔
      ∃ X, (X ∈ IDs ∧ met X = true) ∧ (role, X) = k := by
    intro k
    simp only [List.mem_map, List.mem_filter]
  refine ⟨s', (IDs.filter met).map (fun X => (role, X)), _, hrun, ?_⟩
  exact {
    nodup := (hnodup.filter _).map hinj
    mem := fun k => by
      rw [hmem]
      constructor
      · rintro ⟨X, ⟨hX, hm⟩, rfl⟩
        obtain ⟨e, he, hk⟩ := hmet.mp hm
        exact ⟨hknown X hX, e, he, rfl, hk, hX⟩
      · rintro ⟨-, e, he, rfl, hk, hX⟩
        exact ⟨k.2, ⟨hX, hmet.mpr ⟨e, he, hk⟩⟩, rfl⟩
    outs := by
      rw [List.flatMap_map]
      refine Cells.flatMap_filter fun X hX => ?_
      rw [hturn X hX]
      split <;> rfl
    gone := fun k hk => by
      obtain ⟨X, ⟨hX, hm⟩, rfl⟩ := hmem.mp hk
      rw [hdone X hX, hturn X hX, if_pos hm]
    kept := fun k hk => by
      by_cases hin : k ∈ IDs.map (fun X => (role, X))
      · obtain ⟨X, hX, rfl⟩ := List.mem_map.mp hin
        have hm : ¬ met X = true := fun hm => hk (hmem.mpr ⟨X, ⟨hX, hm⟩, rfl⟩)
        rw [hdone X hX, hturn X hX, if_neg hm]
      · exact hothers k hin
    rest := hrest }

/-- An order in which the sets of a host can be walked. -/
structure Walks (s : LocalProxy) (host : HostId) (pubOrder subOrder : List Id) : Prop where
  nodup_pub : pubOrder.Nodup
  nodup_sub : subOrder.Nodup
  pub : ∀ X ∈ s.publicationsOf host, X ∈ pubOrder
  sub : ∀ X ∈ s.subscriptionsOf host, X ∈ subOrder

variable {pubOrder subOrder : List Id}

theorem Swept.walks (hs : Swept P host s t keys outs) (hw : s.Walks host pubOrder subOrder) :
    t.Walks host pubOrder subOrder where
  nodup_pub := hw.nodup_pub
  nodup_sub := hw.nodup_sub
  pub X hX := hw.pub X ((mem_keysOf_eq (k := (.publisher, X)) (hs.cell_eq hX)).mp hX)
  sub X hX := hw.sub X ((mem_keysOf_eq (k := (.subscriber, X)) (hs.cell_eq hX)).mp hX)

theorem swept_itemPublications (hf : Found host s) (hw : s.Walks host pubOrder subOrder) :
    ∃ s' keys outs, s.deleteAllActiveInformationItemPublications pubOrder host = .ok (s', outs) ∧
      Swept (fun k e => k.1 = .publisher ∧ e.kind = .item) host s s' keys outs := by
  obtain ⟨s', keys, outs, hrun, hs⟩ := swept_collect (deletePublication_writes .item host) hf
    (nodup_visit hw.nodup_pub _) fun _ hX => (mem_visit hw.pub).mp hX
  refine ⟨s', keys, outs, hrun, hs.congr ?_⟩
  rintro ⟨role, X⟩ hk e -
  refine ⟨fun h => ⟨h.1, h.2.1⟩, ?_⟩
  rintro ⟨rfl, hkind⟩
  exact ⟨rfl, hkind, (mem_visit hw.pub).mpr hk⟩

theorem swept_itemSubscriptions (hf : Found host s) (hw : s.Walks host pubOrder subOrder) :
    ∃ s' keys outs, s.deleteAllActiveInformationItemSubscriptions subOrder host = .ok (s', outs) ∧
      Swept (fun k e => k.1 = .subscriber ∧ e.kind = .item) host s s' keys outs := by
  obtain ⟨s', keys, outs, hrun, hs⟩ := swept_collect (deleteSubscription_writes .item host) hf
    (nodup_visit hw.nodup_sub _) fun _ hX => (mem_visit hw.sub).mp hX
  refine ⟨s', keys, outs, hrun, hs.congr ?_⟩
  rintro ⟨role, X⟩ hk e -
  refine ⟨fun h => ⟨h.1, h.2.1⟩, ?_⟩
  rintro ⟨rfl, hkind⟩
  exact ⟨rfl, hkind, (mem_visit hw.sub).mpr hk⟩

/-- The passes go down to level 1, so they miss the empty id. -/
theorem mem_passes {isScope : Id → Option Bool} (hm : ∀ X ∈ IDs, isScope X = some true → level X ≤ m)
    (hX : X ∈ IDs) (hdvd : pursuitIdLen ∣ X.length) (hscope : isScope X = some true) :
    X ∈ levelPasses m IDs ↔ X ≠ [] := by
  rw [mem_levelPasses]
  constructor
  · rintro ⟨-, hpos, -⟩ rfl
    exact absurd hpos (by decide)
  · intro hne
    exact ⟨hX, Nat.div_pos (Request.length_of_dvd hdvd hne) (by decide), hm X hX hscope⟩

theorem swept_scopePublications (hf : Found host s) (hw : s.Walks host pubOrder subOrder) :
    ∃ s' keys outs, s.deleteAllActiveScopePublications pubOrder host = .ok (s', outs) ∧
      Swept (fun k e => k.1 = .publisher ∧ e.kind = .scope ∧ k.2 ≠ []) host s s' keys outs := by
  have hvisit : ∀ X, X ∈ visit pubOrder (s.publicationsOf host) ↔ X ∈ s.publicationsOf host :=
    fun X => mem_visit hw.pub
  have hfound : ∀ X ∈ visit pubOrder (s.publicationsOf host),
      (s.activePublicationIndex X).map (·.isScope) ≠ none := by
    intro X hX
    obtain ⟨e, he, -⟩ := hf (.publisher, X) ((hvisit X).mp hX)
    obtain ⟨ap, hap, -⟩ := Option.map_eq_some_iff.mp he
    simp [hap]
  obtain ⟨m, hm, hmax⟩ := maxLevel_spec hfound
  obtain ⟨s', keys, outs, hrun, hs⟩ := swept_collect (deletePublication_writes .scope host) hf
    (nodup_levelPasses (m := m) (nodup_visit hw.nodup_pub _))
    fun X hX => (hvisit X).mp (mem_levelPasses.mp hX).1
  refine ⟨s', keys, outs, Loops.bind_eq_ok.mpr ⟨m, hm, hrun⟩, hs.congr ?_⟩
  rintro ⟨role, X⟩ hk e he
  refine and_congr_right fun hrole => and_congr_right fun hkind => ?_
  obtain rfl : role = .publisher := hrole
  obtain ⟨ap, hap, rfl⟩ := Option.map_eq_some_iff.mp he
  obtain ⟨-, -, -, hdvd⟩ := hf _ hk
  have hscope : ap.isScope = true := kind_eq_iff.mp hkind
  exact mem_passes hmax ((hvisit X).mpr hk) hdvd (by simp [hap, hscope])

theorem swept_scopeSubscriptions (hf : Found host s) (hw : s.Walks host pubOrder subOrder) :
    ∃ s' keys outs, s.deleteAllActiveScopeSubscriptions subOrder host = .ok (s', outs) ∧
      Swept (fun k e => k.1 = .subscriber ∧ e.kind = .scope ∧ k.2 ≠ []) host s s' keys outs := by
  have hvisit : ∀ X, X ∈ visit subOrder (s.subscriptionsOf host) ↔ X ∈ s.subscriptionsOf host :=
    fun X => mem_visit hw.sub
  have hfound : ∀ X ∈ visit subOrder (s.subscriptionsOf host),
      (s.activeSubscriptionIndex X).map (·.isScope) ≠ none := by
    intro X hX
    obtain ⟨e, he, -⟩ := hf (.subscriber, X) ((hvisit X).mp hX)
    obtain ⟨sub, hsub, -⟩ := Option.map_eq_some_iff.mp he
    simp [hsub]
  obtain ⟨m, hm, hmax⟩ := maxLevel_spec hfound
  obtain ⟨s', keys, outs, hrun, hs⟩ := swept_collect (deleteSubscription_writes .scope host) hf
    (nodup_levelPasses (m := m) (nodup_visit hw.nodup_sub _))
    fun X hX => (hvisit X).mp (mem_levelPasses.mp hX).1
  refine ⟨s', keys, outs, Loops.bind_eq_ok.mpr ⟨m, hm, hrun⟩, hs.congr ?_⟩
  rintro ⟨role, X⟩ hk e he
  refine and_congr_right fun hrole => and_congr_right fun hkind => ?_
  obtain rfl : role = .subscriber := hrole
  obtain ⟨sub, hsub, rfl⟩ := Option.map_eq_some_iff.mp he
  obtain ⟨-, -, -, hdvd⟩ := hf _ hk
  have hscope : sub.isScope = true := kind_eq_iff.mp hkind
  exact mem_passes hmax ((hvisit X).mpr hk) hdvd (by simp [hsub, hscope])

/-! ## Disconnection as a whole -/

theorem getLocalHost_of_ne (type : HostType) (hne : h ≠ host) :
    (s.getLocalHost type host).localPubSubIndex h = s.localPubSubIndex h := by
  unfold getLocalHost
  split
  · exact Function.update_of_ne hne _ _
  · rfl

theorem getLocalHost_ne_none (s : LocalProxy) (type : HostType) (host : HostId) :
    (s.getLocalHost type host).localPubSubIndex host ≠ none := by
  unfold getLocalHost
  split
  · simp
  · next hl => simp [hl]

@[simp]
theorem entryAt_getLocalHost (type : HostType) : (s.getLocalHost type host).entryAt = s.entryAt := by
  unfold getLocalHost
  split
  · funext k
    obtain ⟨_ | _, Y⟩ := k <;> rfl
  · rfl

@[simp]
theorem getLocalHost_gc (type : HostType) : (s.getLocalHost type host).gc = s.gc := by
  unfold getLocalHost
  split <;> rfl

/-- A host that is new knows of nothing, like a host that is not there. -/
@[simp]
theorem table_getLocalHost (type : HostType) (host : HostId) :
    (s.getLocalHost type host).table = s.table := by
  unfold getLocalHost
  split
  · next hnone =>
    refine Roster.ext' (fun k => ?_) fun h k => ?_
    · obtain ⟨_ | _, Y⟩ := k <;> rfl
    · by_cases hh : h = host
      · subst hh
        obtain ⟨_ | _, Y⟩ := k <;> simp [publicationsOf, subscriptionsOf, hnone]
      · obtain ⟨_ | _, Y⟩ := k <;> simp [publicationsOf, subscriptionsOf, hh]
  · rfl

theorem Sound.found (hs : s.Sound) (host : HostId) : Found host s := by
  intro k hk
  obtain ⟨a, ms, hentry, -⟩ := (hs.linked.mem_keysOf host k).mp hk
  have he := hentry
  rw [table_entry] at he
  obtain ⟨e, he, hview⟩ := Option.map_eq_some_iff.mp he
  have hattr : e.attr = a := congrArg Prod.fst hview
  exact ⟨e, he, hattr ▸ hs.keyed k a ms hentry, hs.whole k a ms hentry⟩

/-- The entries of the host that the four loops come to. -/
def Met (s : LocalProxy) (host : HostId) (k : Key) : Prop :=
  k ∈ s.table.keysOf host ∧ ∃ e, s.entryAt k = some e ∧ (e.kind = .scope → k.2 ≠ [])

/-- A disconnection takes the host from every entry that its loops come to, and does nothing else. -/
theorem disconnect_met (hs : s.Sound) (hw : s.Walks host pubOrder subOrder) (type : HostType) :
    ∃ (s' : LocalProxy) (keys : List Key), s.disconnect pubOrder subOrder type host =
        .ok (s', keys.flatMap fun k => (s.departure host k).2) ∧
      keys.Nodup ∧ (∀ k, k ∈ keys ↔ s.Met host k) ∧
      (∀ k, s.Met host k → s'.entryAt k = (s.departure host k).1) ∧
      (∀ k, ¬ s.Met host k → s'.entryAt k = s.entryAt k) ∧
      s'.localPubSubIndex = Function.update s.localPubSubIndex host none ∧ s'.gc = s.gc := by
  have hdep : ∀ k, (s.getLocalHost type host).departure host k = s.departure host k := by
    intro k
    simp only [departure, entryAt_getLocalHost]
  have hf : Found host (s.getLocalHost type host) := by
    unfold Found
    rw [table_getLocalHost, entryAt_getLocalHost]
    exact hs.found host
  have hw' : (s.getLocalHost type host).Walks host pubOrder subOrder := {
    nodup_pub := hw.nodup_pub
    nodup_sub := hw.nodup_sub
    pub := fun X hX => hw.pub X (by
      rw [← mem_keysOf_publisher, table_getLocalHost] at hX
      exact hX)
    sub := fun X hX => hw.sub X (by
      rw [← mem_keysOf_subscriber, table_getLocalHost] at hX
      exact hX) }
  obtain ⟨s₁, keys₁, outs₁, hrun₁, h1⟩ := swept_itemPublications hf hw'
  obtain ⟨s₂, keys₂, outs₂, hrun₂, h2⟩ := swept_itemSubscriptions (h1.found hf) (h1.walks hw')
  have h12 := h1.trans h2
  obtain ⟨s₃, keys₃, outs₃, hrun₃, h3⟩ := swept_scopePublications (h12.found hf) (h12.walks hw')
  have h13 := h12.trans h3
  obtain ⟨s₄, keys₄, outs₄, hrun₄, h4⟩ := swept_scopeSubscriptions (h13.found hf) (h13.walks hw')
  have hall := h13.trans h4
  have hmem : ∀ k, k ∈ keys₁ ++ keys₂ ++ keys₃ ++ keys₄ ↔ s.Met host k := by
    intro k
    rw [hall.mem, table_getLocalHost, entryAt_getLocalHost]
    refine and_congr_right fun _ => exists_congr fun e => and_congr_right fun _ => ?_
    obtain ⟨_ | _, X⟩ := k <;> cases e.kind <;> simp
  refine ⟨s₄.setHost host none, keys₁ ++ keys₂ ++ keys₃ ++ keys₄, ?_, hall.nodup, hmem, ?_, ?_, ?_,
    ?_⟩
  · have houts : (keys₁ ++ keys₂ ++ keys₃ ++ keys₄).flatMap (fun k => (s.departure host k).2) =
        outs₁ ++ outs₂ ++ outs₃ ++ outs₄ := by
      rw [hall.outs]
      exact List.flatMap_congr fun k _ => by rw [hdep]
    simp only [disconnect, hrun₁, hrun₂, hrun₃, hrun₄, bind, Except.bind, houts]
    rfl
  · intro k hk
    have hgone := congrArg Prod.fst (hall.gone k ((hmem k).mpr hk))
    rw [hdep] at hgone
    rw [← hgone]
    obtain ⟨_ | _, Y⟩ := k <;> rfl
  · intro k hk
    have hkept := entryAt_eq (hall.kept k fun h => hk ((hmem k).mp h))
    rw [entryAt_getLocalHost] at hkept
    rw [← hkept]
    obtain ⟨_ | _, Y⟩ := k <;> rfl
  · have hothers := congrArg Rest.others hall.rest
    refine Eq.trans hothers ?_
    funext h
    by_cases hh : h = host
    · subst hh
      simp [rest]
    · simp [rest, hh, getLocalHost_of_ne type hh]
  · have hgc := congrArg Rest.gc hall.rest
    exact hgc.trans (getLocalHost_gc type)

/-- The loops come to all entries of a host exactly if it has no scope under the empty id. -/
theorem clear_iff (hs : s.Sound) :
    s.Clear host ↔ ∀ k ∈ s.table.keysOf host, s.Met host k := by
  constructor
  · rintro ⟨hpub, hsub⟩ ⟨_ | _, X⟩ hk
    · obtain ⟨ap, hX, hmem⟩ := has_publisher.mp ((hs.linked.mem_keysOf host _).mp hk)
      refine ⟨hk, .inl ap, by simp [hX], fun hkind hnil => ?_⟩
      obtain rfl : X = [] := hnil
      exact hpub ap hX (kind_eq_iff.mp hkind) hmem
    · obtain ⟨sub, hX, hmem⟩ := has_subscriber.mp ((hs.linked.mem_keysOf host _).mp hk)
      refine ⟨hk, .inr sub, by simp [hX], fun hkind hnil => ?_⟩
      obtain rfl : X = [] := hnil
      exact hsub sub hX (kind_eq_iff.mp hkind) hmem
  · intro hmet
    constructor
    · intro ap hX hscope hmem
      have hk : (.publisher, []) ∈ s.table.keysOf host :=
        (hs.linked.mem_keysOf host _).mpr (has_publisher.mpr ⟨ap, hX, hmem⟩)
      obtain ⟨-, e, he, hne⟩ := hmet _ hk
      have hentry : s.entryAt (.publisher, []) = some (.inl ap) := congrArg (Option.map Sum.inl) hX
      obtain rfl := Option.some.inj (hentry.symm.trans he)
      exact hne (kind_eq_iff.mpr hscope) rfl
    · intro sub hX hscope hmem
      have hk : (.subscriber, []) ∈ s.table.keysOf host :=
        (hs.linked.mem_keysOf host _).mpr (has_subscriber.mpr ⟨sub, hX, hmem⟩)
      obtain ⟨-, e, he, hne⟩ := hmet _ hk
      have hentry : s.entryAt (.subscriber, []) = some (.inr sub) := congrArg (Option.map Sum.inr) hX
      obtain rfl := Option.some.inj (hentry.symm.trans he)
      exact hne (kind_eq_iff.mpr hscope) rfl

theorem Clear.met_iff (hc : s.Clear host) (hs : s.Sound) (k : Key) :
    s.Met host k ↔ k ∈ s.table.keysOf host :=
  ⟨And.left, (clear_iff hs).mp hc k⟩

/-- A disconnection takes the host from every entry that it is in, and does nothing else. -/
theorem disconnect_spec (hs : s.Sound) (hc : s.Clear host) (hw : s.Walks host pubOrder subOrder)
    (type : HostType) :
    ∃ (s' : LocalProxy) (keys : List Key), s.disconnect pubOrder subOrder type host =
        .ok (s', keys.flatMap fun k => (s.departure host k).2) ∧
      keys.Nodup ∧ (∀ k, k ∈ keys ↔ k ∈ s.table.keysOf host) ∧
      (∀ k ∈ s.table.keysOf host, s'.entryAt k = (s.departure host k).1) ∧
      (∀ k, k ∉ s.table.keysOf host → s'.entryAt k = s.entryAt k) ∧
      s'.localPubSubIndex = Function.update s.localPubSubIndex host none ∧ s'.gc = s.gc := by
  obtain ⟨s', keys, hrun, hnodup, hkeys, hin, hout, hrest⟩ := disconnect_met hs hw type
  simp only [hc.met_iff hs] at hkeys hin hout
  exact ⟨s', keys, hrun, hnodup, hkeys, hin, hout, hrest⟩

theorem Named.length_of_entryAt (hs : s.Named) (he : s.entryAt k = some e) :
    pursuitIdLen ≤ k.2.length :=
  hs.named k e.attr e.hosts (by rw [table_entry, he]; rfl)

theorem Named.ne_nil_of_entryAt (hs : s.Named) (he : s.entryAt k = some e) : k.2 ≠ [] :=
  List.ne_nil_of_length_pos (Nat.lt_of_lt_of_le (by decide) (hs.length_of_entryAt he))

theorem Named.clear (hs : s.Named) (host : HostId) : s.Clear host := by
  refine (clear_iff hs.toSound).mpr fun k hk => ⟨hk, ?_⟩
  obtain ⟨e, he, -⟩ := hs.found host k hk
  exact ⟨e, he, fun _ => hs.ne_nil_of_entryAt he⟩

/-! ## What is left in the tables -/

theorem sendToRV_of_le {RVFID : Bitvector} {ty : RequestType} {strategy : Strategy}
    (hX : pursuitIdLen ≤ X.length) :
    sendToRV RVFID ty X strategy = .toRV RVFID (withdrawal ty X strategy) :=
  if_neg (not_lt.mpr hX)

theorem toRV_eq_sendToRV {RVFID RVFID' : Bitvector} {r : Request} {ty : RequestType}
    {strategy : Strategy} (h : .toRV RVFID r = sendToRV RVFID' ty X strategy) :
    r = withdrawal ty X strategy := by
  unfold sendToRV at h
  split at h
  · cases h
  · exact (ProxyOutput.toRV.inj h).2

@[simp]
theorem notify_ne_sendToRV {event : LocalEvent} {RVFID : Bitvector} {ty : RequestType}
    {strategy : Strategy} {Y : Id} : ProxyOutput.notify event h Y ≠ sendToRV RVFID ty X strategy := by
  unfold sendToRV
  split <;> simp

theorem publicationLeft_last {ap : ActivePublication} (hlast : (ap.publishers.erase host).keys = []) :
    publicationLeft kd host ap =
      (none, [sendToRV ap.RVFID (unpublishType kd) ap.fullID ap.strategy]) :=
  if_pos hlast

theorem publicationLeft_handed {ap : ActivePublication}
    (hmore : (ap.publishers.erase host).keys ≠ [])
    (hnotify : kd = .item ∧ ap.publishers.lookup host ≠ some .stopPublish) :
    publicationLeft kd host ap =
      (some (startFirst ap.fullID { ap with publishers := ap.publishers.erase host }).1,
        (startFirst ap.fullID { ap with publishers := ap.publishers.erase host }).2) :=
  (if_neg hmore).trans (if_pos hnotify)

theorem publicationLeft_kept {ap : ActivePublication}
    (hmore : (ap.publishers.erase host).keys ≠ [])
    (hnotify : ¬ (kd = .item ∧ ap.publishers.lookup host ≠ some .stopPublish)) :
    publicationLeft kd host ap = (some { ap with publishers := ap.publishers.erase host }, []) :=
  (if_neg hmore).trans (if_neg hnotify)

theorem pubView_startFirst (X : Id) (ap : ActivePublication) :
    pubView (startFirst X ap).1 = pubView ap := by
  unfold startFirst
  split
  · rfl
  · simp only [pubView, AList.keys_replace]

theorem publicationLeft_view (kd : Kind) (ap : ActivePublication) :
    (publicationLeft kd host ap).1.map pubView = Roster.without host (pubView ap) := by
  have hview : pubView { ap with publishers := ap.publishers.erase host } =
      ((pubView ap).1, (pubView ap).2.erase host) := pubView_erase
  unfold Roster.without
  by_cases hlast : (ap.publishers.erase host).keys = []
  · have hnone : (pubView ap).2.erase host = ∅ := by rwa [keys_eq_nil, keys_erase] at hlast
    rw [publicationLeft_last hlast, if_pos hnone, Option.map_none]
  · have hmore : (pubView ap).2.erase host ≠ ∅ := by rwa [keys_eq_nil, keys_erase] at hlast
    rw [if_neg hmore]
    by_cases hnotify : kd = .item ∧ ap.publishers.lookup host ≠ some .stopPublish
    · rw [publicationLeft_handed hlast hnotify, Option.map_some, pubView_startFirst, hview]
    · rw [publicationLeft_kept hlast hnotify, Option.map_some, hview]

theorem subscriptionLeft_view (kd : Kind) (sub : ActiveSubscription) :
    (subscriptionLeft kd host sub).1.map subView = Roster.without host (subView sub) := by
  have hview : subView { sub with subscribers := sub.subscribers.erase host } =
      ((subView sub).1, (subView sub).2.erase host) := subView_erase
  unfold subscriptionLeft Roster.without
  by_cases hlast : (sub.subscribers.erase host).size = 0
  · have hnone : (subView sub).2.erase host = ∅ := by rwa [size_eq_zero_iff, toFinset_erase] at hlast
    simp only [if_pos hlast, if_pos hnone, Option.map_none]
  · have hmore : (subView sub).2.erase host ≠ ∅ := by
      rwa [size_eq_zero_iff, toFinset_erase] at hlast
    simp only [if_neg hlast, if_neg hmore, Option.map_some, hview]

theorem left_view (e : Entry) : (e.left host).1.map Entry.view = Roster.without host e.view := by
  cases e with
  | inl ap =>
    rw [Entry.left, Option.map_map]
    exact publicationLeft_view _ ap
  | inr sub =>
    rw [Entry.left, Option.map_map]
    exact subscriptionLeft_view _ sub

theorem entry_departure (he : s.entryAt k = some e) : (s.departure host k).1.map Entry.view =
    (s.table.entry k).bind (Roster.without host) := by
  rw [departure, table_entry, he]
  exact left_view e

theorem table_disconnect (hs : s.Sound)
    (hin : ∀ k ∈ s.table.keysOf host, s'.entryAt k = (s.departure host k).1)
    (hout : ∀ k, k ∉ s.table.keysOf host → s'.entryAt k = s.entryAt k)
    (hhosts : s'.localPubSubIndex = Function.update s.localPubSubIndex host none) :
    s'.table = s.table.drop host := by
  refine Roster.ext' (fun k => ?_) fun h k => ?_
  · have hdrop : (s.table.drop host).entry k = (s.table.entry k).bind (Roster.without host) := rfl
    rw [table_entry, hdrop]
    by_cases hk : k ∈ s.table.keysOf host
    · obtain ⟨e, he, -⟩ := hs.found host k hk
      rw [hin k hk, entry_departure he]
    · rw [hout k hk, ← table_entry]
      cases hentry : s.table.entry k with
      | none => rfl
      | some e =>
        have hnot : host ∉ e.2 := fun hmem =>
          hk ((hs.linked.mem_keysOf host k).mpr ⟨e.1, e.2, hentry, hmem⟩)
        exact (hs.linked.without_of_not_has hentry hnot).symm
  · by_cases hh : h = host
    · subst hh
      obtain ⟨_ | _, X⟩ := k <;>
        simp [publicationsOf, subscriptionsOf, hhosts, Roster.drop]
    · have hkeys : (s.table.drop host).keysOf h = s.table.keysOf h := Function.update_of_ne hh _ _
      rw [hkeys]
      obtain ⟨_ | _, X⟩ := k <;> simp [publicationsOf, subscriptionsOf, hhosts, hh]

/-- Only the host leaves, and only the entries that the loops come to. -/
theorem has_disconnect (hin : ∀ k, s.Met host k → s'.entryAt k = (s.departure host k).1)
    (hout : ∀ k, ¬ s.Met host k → s'.entryAt k = s.entryAt k) :
    s'.table.Has k h ↔ s.table.Has k h ∧ ¬ (h = host ∧ s.Met host k) := by
  by_cases hk : s.Met host k
  · have hentry : s'.table.entry k = (s.table.drop host).entry k := by
      obtain ⟨e, he, -⟩ := hk.2
      rw [table_entry, hin k hk, entry_departure he]
      rfl
    have hdrop : s'.table.Has k h ↔ (s.table.drop host).Has k h := by
      simp only [Roster.Has, hentry]
    rw [hdrop, Roster.has_drop]
    simp [hk]
  · have hsame : s'.table.Has k h ↔ s.table.Has k h := by
      simp only [Roster.Has, table_entry, hout k hk]
    simp [hsame, hk]

end LocalProxy

end Blackadder
