import Blackadder.Proxy.Runs

/-!
# The publisher that was told to start

The rendezvous element tells a node to start an item, and the proxy picks one local publisher.
-/

namespace Blackadder

namespace Notification

def Starts (X : Id) : Notification → Prop
  | .startPublish IDs _ => X ∈ IDs
  | _ => False

def Stops (X : Id) : Notification → Prop
  | .stopPublish IDs => X ∈ IDs
  | _ => False

/-- `X` is announced with no other id. -/
def Alone (X : Id) : Notification → Prop
  | .startPublish IDs _ => X ∈ IDs → IDs = [X]
  | .stopPublish IDs => X ∈ IDs → IDs = [X]
  | _ => True

end Notification

namespace LocalProxy

/-! ## Tables of publishers -/

variable {p q : PublisherHashMap} {host h first : HostId} {state st : PublishState}

theorem dlookup_kreplace {l : List (Sigma fun _ : HostId => PublishState)} (host h : HostId)
    (state : PublishState) : (l.kreplace host state).dlookup h =
      if h = host then (l.dlookup h).map fun _ => state else l.dlookup h := by
  induction l with
  | nil => simp [List.kreplace]
  | cons e l ih =>
    obtain ⟨g, st⟩ := e
    by_cases hg : host = g
    · subst hg
      rw [List.kreplace, List.lookmap_cons_some _ _ (b := ⟨host, state⟩) (by simp)]
      by_cases hh : h = host
      · subst hh
        simp
      · simp [List.dlookup_cons_ne, hh]
    · have hcons : List.kreplace host state (⟨g, st⟩ :: l) = ⟨g, st⟩ :: List.kreplace host state l := by
        unfold List.kreplace
        exact List.lookmap_cons_none _ _ (if_neg hg)
      rw [hcons]
      by_cases hgh : h = g
      · subst hgh
        simp [Ne.symm hg]
      · rw [List.dlookup_cons_ne _ _ hgh, List.dlookup_cons_ne _ _ hgh, ih]

theorem lookup_replace (p : PublisherHashMap) (host h : HostId) (state : PublishState) :
    (p.replace host state).lookup h =
      if h = host then (p.lookup h).map fun _ => state else p.lookup h :=
  dlookup_kreplace host h state

theorem lookup_erase_eq (p : PublisherHashMap) (host h : HostId) :
    (p.erase host).lookup h = if h = host then none else p.lookup h := by
  by_cases hh : h = host
  · subst hh
    rw [if_pos rfl, AList.lookup_erase]
  · rw [if_neg hh, AList.lookup_erase_ne hh]

theorem lookup_findInsert (p : PublisherHashMap) (host h : HostId) (state : PublishState) :
    (findInsert p host state).lookup h = some st ↔
      p.lookup h = some st ∨ (h = host ∧ host ∉ p ∧ st = state) := by
  unfold findInsert
  by_cases hmem : host ∈ p
  · simp [hmem]
  · rw [if_neg hmem]
    by_cases hh : h = host
    · subst hh
      rw [AList.lookup_insert, AList.lookup_eq_none.mpr hmem]
      simp [hmem, eq_comm]
    · rw [AList.lookup_insert_ne hh]
      simp [hh]

theorem lookup_of_keys {rest : List HostId} (hkeys : p.keys = first :: rest) :
    ∃ st, p.lookup first = some st := by
  have hmem : first ∈ p := AList.mem_keys.mpr (by simp [hkeys])
  exact Option.isSome_iff_exists.mp (AList.lookup_isSome.mpr hmem)

/-! ## What an input does to the publishers of an id -/

namespace Entry

def publishers : Entry → Option PublisherHashMap
  | .inl ap => some ap.publishers
  | .inr _ => none

end Entry

def publishersOf (s : LocalProxy) (X : Id) : Option PublisherHashMap :=
  (s.activePublicationIndex X).map (·.publishers)

/-- Some host is told to start `X`. -/
def tells (outs : List ProxyOutput) (X : Id) (host : HostId) : Prop :=
  .notify .startPublish host X ∈ outs

namespace Input

def Notifies (P : Notification → Prop) : Input → Prop
  | .notification n => P n
  | .localNotification _ _ n => P n
  | _ => False

def Starts (X : Id) (i : Input) : Prop := i.Notifies (·.Starts X)

def Stops (X : Id) (i : Input) : Prop := i.Notifies (·.Stops X)

def Alone (X : Id) : Input → Prop
  | .notification n => n.Alone X
  | .localNotification _ _ n => n.Alone X
  | _ => True

end Input

/-- The publisher `host` withdraws `X` by a request, or it disconnects and the entry is that of
a scope. -/
def Withdraws (ap : ActivePublication) (X : Id) (host : HostId) : Input → Prop
  | .request _ g r => g = host ∧ r.type.role = .publisher ∧ r.type.enters = false ∧
      r.fullID = X ∧ r.strategy = ap.strategy
  | .disconnect _ g _ _ => g = host ∧ ap.isScope = true
  | _ => False

/-- The publisher that was told leaves without a successor although there are others. -/
def LosesToken (X : Id) (s : LocalProxy) (i : Input) : Prop :=
  ∃ ap host other, s.activePublicationIndex X = some ap ∧
    ap.publishers.lookup host = some .startPublish ∧ other ≠ host ∧ other ∈ ap.publishers ∧
    Withdraws ap X host i

/-- What an input makes of the publishers of `X`, and who is told to start. -/
inductive Passed (s : LocalProxy) (X : Id) (i : Input) :
    Option PublisherHashMap → (HostId → Prop) → Prop
  | kept (hstart : i.Starts X → s.publishersOf X = none ∨
        ∃ p h, s.publishersOf X = some p ∧ p.lookup h = some .startPublish)
      (hstop : i.Stops X → s.publishersOf X = none) :
      Passed s X i (s.publishersOf X) fun _ => False
  | created {host : HostId} (hnone : s.publishersOf X = none) (hn : ¬ i.Starts X) (hn' : ¬ i.Stops X) :
      Passed s X i (some (findInsert ∅ host .stopPublish)) fun _ => False
  | joined {p : PublisherHashMap} {host : HostId} (hsome : s.publishersOf X = some p)
      (hn : ¬ i.Starts X) (hn' : ¬ i.Stops X) :
      Passed s X i (some (findInsert p host .stopPublish)) fun _ => False
  | left {p : PublisherHashMap} {host : HostId} (hsome : s.publishersOf X = some p)
      (hn : ¬ i.Starts X) (hn' : ¬ i.Stops X) (hmore : (p.erase host).keys ≠ [])
      (hstate : p.lookup host = some .startPublish → LosesToken X s i) :
      Passed s X i (some (p.erase host)) fun _ => False
  | handed {p : PublisherHashMap} {host first : HostId} {rest : List HostId}
      (hsome : s.publishersOf X = some p) (hn : ¬ i.Starts X) (hn' : ¬ i.Stops X)
      (hstate : p.lookup host = some .startPublish) (hkeys : (p.erase host).keys = first :: rest) :
      Passed s X i (some ((p.erase host).replace first .startPublish)) fun h => h = first
  | gone : Passed s X i none fun _ => False
  | started {p : PublisherHashMap} {first : HostId} {rest : List HostId}
      (hsome : s.publishersOf X = some p) (hs : i.Starts X)
      (hnone : ∀ h, p.lookup h ≠ some .startPublish) (hkeys : p.keys = first :: rest) :
      Passed s X i (some (p.replace first .startPublish)) fun h => h = first
  | stopped {p q : PublisherHashMap} (hsome : s.publishersOf X = some p) (hs : i.Stops X)
      (hn : ¬ i.Starts X) (hnone : ∀ h, q.lookup h ≠ some .startPublish) :
      Passed s X i (some q) fun _ => False

variable {s s' t : LocalProxy} {X Y : Id} {k : Key} {r : Request} {type : HostType}
  {ap : ActivePublication} {outs : List ProxyOutput} {i : Input} {IDs l : List Id}
  {FID RVFID : Bitvector} {n : Notification} {e : Entry}

theorem publishersOf_eq (s : LocalProxy) (X : Id) :
    s.publishersOf X = (s.entryAt (.publisher, X)).bind Entry.publishers := by
  cases hX : s.activePublicationIndex X <;> simp [publishersOf, hX, Entry.publishers]

theorem publishersOf_congr (h : s.entryAt (.publisher, X) = t.entryAt (.publisher, X)) :
    s.publishersOf X = t.publishersOf X := by
  rw [publishersOf_eq, publishersOf_eq, h]

theorem publishersOf_of_some (hX : s.activePublicationIndex X = some ap) :
    s.publishersOf X = some ap.publishers := by
  simp [publishersOf, hX]

theorem publishersOf_setPublication (o : Option ActivePublication) :
    (s.setPublication X o).publishersOf X = o.map (·.publishers) := by
  simp [publishersOf]

theorem publishersOf_setPublication_ne (hne : X ≠ Y) (o : Option ActivePublication) :
    (s.setPublication Y o).publishersOf X = s.publishersOf X := by
  simp [publishersOf, hne]

theorem Passed.congr {o o' : Option PublisherHashMap} {told told' : HostId → Prop}
    (h : Passed s X i o told) (ho : o' = o) (ht : ∀ h, told' h ↔ told h) :
    Passed s X i o' told' := by
  obtain rfl : told' = told := funext fun h => propext (ht h)
  exact ho ▸ h

/-! ### Notifications -/

theorem stopPublishers_told (X : Id) (p : PublisherHashMap) :
    (∀ h, (stopPublishers X p).1.lookup h ≠ some .startPublish) ∧
      ∀ Y h, ¬ tells (stopPublishers X p).2 Y h := by
  suffices ∀ (l : List HostId) (acc : PublisherHashMap × List ProxyOutput),
      (∀ Y h, ¬ tells acc.2 Y h) →
      (∀ h, (l.foldl (fun acc host =>
          if acc.1.lookup host = some .startPublish then
            (acc.1.replace host .stopPublish, acc.2 ++ [.notify .stopPublish host X])
          else acc) acc).1.lookup h = some .startPublish →
        acc.1.lookup h = some .startPublish ∧ h ∉ l) ∧
      ∀ Y h, ¬ tells (l.foldl (fun acc host =>
          if acc.1.lookup host = some .startPublish then
            (acc.1.replace host .stopPublish, acc.2 ++ [.notify .stopPublish host X])
          else acc) acc).2 Y h by
    obtain ⟨hstates, houts⟩ := this p.keys (p, []) fun Y h => List.not_mem_nil
    refine ⟨fun h hstart => ?_, houts⟩
    obtain ⟨hlookup, hnot⟩ := hstates h hstart
    refine hnot (AList.mem_keys.mp (AList.lookup_isSome.mp ?_))
    rw [hlookup]
    rfl
  intro l
  induction l with
  | nil => exact fun acc hacc => ⟨fun h hh => ⟨hh, List.not_mem_nil⟩, hacc⟩
  | cons g l ih =>
    intro acc hacc
    rw [List.foldl_cons]
    by_cases hg : acc.1.lookup g = some .startPublish
    · rw [if_pos hg]
      obtain ⟨hstates, houts⟩ := ih (acc.1.replace g .stopPublish,
        acc.2 ++ [.notify .stopPublish g X]) fun Y h hmem => by
          rcases List.mem_append.mp hmem with hmem | hmem
          · exact hacc Y h hmem
          · cases List.mem_singleton.mp hmem
      refine ⟨fun h hstart => ?_, houts⟩
      obtain ⟨hlookup, hnot⟩ := hstates h hstart
      rw [lookup_replace] at hlookup
      split at hlookup
      · simp at hlookup
      · next hne => exact ⟨hlookup, fun hmem => (List.mem_cons.mp hmem).elim hne hnot⟩
    · rw [if_neg hg]
      obtain ⟨hstates, houts⟩ := ih acc hacc
      refine ⟨fun h hstart => ?_, houts⟩
      obtain ⟨hlookup, hnot⟩ := hstates h hstart
      refine ⟨hlookup, fun hmem => (List.mem_cons.mp hmem).elim (fun he => ?_) hnot⟩
      exact hg (he ▸ hlookup)

theorem startCheck_of_not_mem (IDs : List Id) (FID : Bitvector) (hX : X ∉ l) :
    (startCheck IDs FID s l).2.publishersOf X = s.publishersOf X := by
  induction l generalizing s with
  | nil => rfl
  | cons Y l ih =>
    rw [List.mem_cons, not_or] at hX
    unfold startCheck
    split
    · exact ih hX.2
    · split
      · exact publishersOf_setPublication_ne hX.1 _
      · exact (ih hX.2).trans (publishersOf_setPublication_ne hX.1 _)

theorem startNotify_of_not_mem (hX : X ∉ l) :
    (startNotify s l).1.publishersOf X = s.publishersOf X ∧ ∀ h, ¬ tells (startNotify s l).2 X h := by
  induction l generalizing s with
  | nil => exact ⟨rfl, fun h => List.not_mem_nil⟩
  | cons Y l ih =>
    rw [List.mem_cons, not_or] at hX
    unfold startNotify
    split
    · exact ih hX.2
    · split
      · exact ih hX.2
      · refine ⟨publishersOf_setPublication_ne hX.1 _, fun h hmem => ?_⟩
        unfold tells startFirst at hmem
        split at hmem
        · cases hmem
        · cases List.mem_singleton.mp hmem
          exact hX.1 rfl

theorem handleStopPublish_of_not_mem (hX : X ∉ IDs) :
    (s.handleStopPublish IDs).1.publishersOf X = s.publishersOf X := by
  unfold handleStopPublish
  refine List.foldlRecOn IDs _ (motive := fun (acc : LocalProxy × List ProxyOutput) =>
    acc.1.publishersOf X = s.publishersOf X) rfl fun acc hacc Y hY => ?_
  have hne : X ≠ Y := fun h => hX (h ▸ hY)
  split
  · exact hacc
  · exact (publishersOf_setPublication_ne hne _).trans hacc

theorem handleStopPublish_tells (h : HostId) : ¬ tells (s.handleStopPublish IDs).2 X h := by
  unfold handleStopPublish
  refine List.foldlRecOn IDs _ (motive := fun (acc : LocalProxy × List ProxyOutput) =>
    ¬ tells acc.2 X h) List.not_mem_nil fun acc hacc Y hY => ?_
  split
  · exact hacc
  · next ap _ =>
    intro hmem
    exact (List.mem_append.mp hmem).elim hacc ((stopPublishers_told Y ap.publishers).2 X h)

theorem any_started (p : PublisherHashMap) :
    p.keys.any (fun host => decide (p.lookup host = some .startPublish)) = true ↔
      ∃ h, p.lookup h = some .startPublish := by
  simp only [List.any_eq_true, decide_eq_true_eq]
  refine ⟨fun ⟨h, _, hstart⟩ => ⟨h, hstart⟩, fun ⟨h, hstart⟩ => ⟨h, ?_, hstart⟩⟩
  exact AList.mem_keys.mp (AList.lookup_isSome.mp (by rw [hstart]; rfl))

theorem startFirst_of_keys (ap : ActivePublication) {rest : List HostId}
    (hkeys : ap.publishers.keys = first :: rest) :
    startFirst X ap = ({ ap with publishers := ap.publishers.replace first .startPublish },
      [.notify .startPublish first X]) := by
  rw [startFirst, hkeys]

theorem tells_singleton : tells [.notify .startPublish first X] X h ↔ h = first := by
  simp [tells]

theorem handleStartPublish_single (hs : s.Sound) (hi : i.Starts X) (hn : ¬ i.Stops X) :
    Passed s X i ((s.handleStartPublish [X] FID).1.publishersOf X)
      (tells (s.handleStartPublish [X] FID).2 X) := by
  have hno : ∀ h, tells [] X h ↔ False := fun h => iff_of_false List.not_mem_nil id
  cases hX : s.activePublicationIndex X with
  | none =>
    have hrun : s.handleStartPublish [X] FID = (s, []) := by
      simp [handleStartPublish, startCheck, startNotify, hX]
    have hnone : s.publishersOf X = none := by simp [publishersOf, hX]
    rw [hrun]
    exact (Passed.kept (fun _ => Or.inl hnone) fun h => absurd h hn).congr rfl hno
  | some ap =>
    have hsome := publishersOf_of_some hX
    by_cases hany : ∃ h, ap.publishers.lookup h = some .startPublish
    · have hrun : s.handleStartPublish [X] FID = (s.setPublication X (some
          { ap with allKnownIDs := [X], FIDToSubscribers := FID }), []) := by
        simp only [handleStartPublish, startCheck, hX, (any_started ap.publishers).mpr hany, if_true]
      obtain ⟨h, hstart⟩ := hany
      rw [hrun]
      refine (Passed.kept (fun _ => Or.inr ⟨_, h, hsome, hstart⟩) fun h => absurd h hn).congr ?_ hno
      rw [publishersOf_setPublication, hsome]
      rfl
    · obtain ⟨first, rest, hkeys⟩ := List.exists_cons_of_ne_nil (hs.publication hX).2
      have hnot : ∀ h, ap.publishers.lookup h ≠ some .startPublish :=
        fun h hstart => hany ⟨h, hstart⟩
      have hfalse : ¬ ap.publishers.keys.any
          (fun host => decide (ap.publishers.lookup host = some .startPublish)) = true :=
        fun h => hany ((any_started ap.publishers).mp h)
      have hne : ¬ ap.publishers.keys = [] := by simp [hkeys]
      have hrun : s.handleStartPublish [X] FID = ((s.setPublication X (some
            { ap with allKnownIDs := [X], FIDToSubscribers := FID })).setPublication X (some
              { ap with
                allKnownIDs := [X]
                FIDToSubscribers := FID
                publishers := ap.publishers.replace first .startPublish }),
          [.notify .startPublish first X]) := by
        simp only [handleStartPublish, startCheck, hX, if_neg hfalse, startNotify,
          setPublication_activePublicationIndex, Function.update_self, if_neg hne]
        rw [startFirst_of_keys { ap with allKnownIDs := [X], FIDToSubscribers := FID } hkeys]
      rw [hrun]
      refine (Passed.started hsome hi hnot hkeys).congr ?_ fun h => tells_singleton
      rw [publishersOf_setPublication]
      rfl

theorem handleStopPublish_single (hi : i.Stops X) (hn : ¬ i.Starts X) :
    Passed s X i ((s.handleStopPublish [X]).1.publishersOf X)
      (tells (s.handleStopPublish [X]).2 X) := by
  have hno : ∀ h, tells (s.handleStopPublish [X]).2 X h ↔ False :=
    fun h => iff_of_false (handleStopPublish_tells h) id
  cases hX : s.activePublicationIndex X with
  | none =>
    have hrun : (s.handleStopPublish [X]).1 = s := by simp [handleStopPublish, hX]
    have hnone : s.publishersOf X = none := by simp [publishersOf, hX]
    exact (Passed.kept (fun h => absurd h hn) fun _ => hnone).congr (by rw [hrun]) hno
  | some ap =>
    refine (Passed.stopped (publishersOf_of_some hX) hi hn
      (stopPublishers_told X ap.publishers).1).congr ?_ hno
    simp [handleStopPublish, hX, publishersOf]

theorem handleRVNotification_passed (hs : s.Sound) (ha : n.Alone X)
    (hstart : i.Starts X ↔ n.Starts X) (hstop : i.Stops X ↔ n.Stops X) :
    Passed s X i ((s.handleRVNotification n).1.publishersOf X)
      (tells (s.handleRVNotification n).2 X) := by
  have hkept : ¬ n.Starts X → ¬ n.Stops X → ∀ {o told}, o = s.publishersOf X →
      (∀ h, ¬ told h) → Passed s X i o told := fun h1 h2 {o told} ho ht =>
    (Passed.kept (fun h => absurd (hstart.mp h) h1) fun h => absurd (hstop.mp h) h2).congr ho
      fun h => iff_of_false (ht h) id
  have hscopes : ∀ e, e ≠ .startPublish → ∀ IDs h, ¬ tells (s.notifyScopes e IDs) X h := by
    intro e he IDs h hmem
    obtain ⟨Y, -, hmem⟩ := List.mem_flatMap.mp hmem
    obtain ⟨g, -, heq⟩ := List.mem_map.mp hmem
    injection heq with h1
    exact he h1
  cases n with
  | scopePublished IDs => exact hkept id id rfl (hscopes .scopePublished nofun IDs)
  | scopeUnpublished IDs => exact hkept id id rfl (hscopes .scopeUnpublished nofun IDs)
  | updateBA RVFID TMFID => exact hkept id id rfl fun h => List.not_mem_nil
  | startPublish IDs FID =>
    by_cases hX : X ∈ IDs
    · obtain rfl : IDs = [X] := ha hX
      exact handleStartPublish_single hs (hstart.mpr hX) fun h => hstop.mp h
    · have hcheck : (startCheck IDs FID s IDs).2.publishersOf X = s.publishersOf X :=
        startCheck_of_not_mem IDs FID hX
      refine hkept hX id ?_ ?_
      · change (s.handleStartPublish IDs FID).1.publishersOf X = _
        unfold handleStartPublish
        split
        · next t ht => rw [ht] at hcheck; exact hcheck
        · next t ht => rw [ht] at hcheck; exact (startNotify_of_not_mem hX).1.trans hcheck
      · intro h
        change ¬ tells (s.handleStartPublish IDs FID).2 X h
        unfold handleStartPublish
        split
        · exact List.not_mem_nil
        · exact (startNotify_of_not_mem hX).2 h
  | stopPublish IDs =>
    by_cases hX : X ∈ IDs
    · obtain rfl : IDs = [X] := ha hX
      exact handleStopPublish_single (hstop.mpr hX) fun h => hstart.mp h
    · exact hkept id hX (handleStopPublish_of_not_mem hX) handleStopPublish_tells

/-! ### Requests -/

theorem exists_publication (he : s.entryAt (.publisher, X) = some e) :
    ∃ ap, s.activePublicationIndex X = some ap ∧ e = .inl ap := by
  obtain ⟨ap, hX, rfl⟩ := Option.map_eq_some_iff.mp he
  exact ⟨ap, hX, rfl⟩

theorem publishersOf_update {o : Option Entry}
    (he : s'.entryAt = Function.update s.entryAt (.publisher, X) o) :
    s'.publishersOf X = o.bind Entry.publishers := by
  rw [publishersOf_eq, he, Function.update_self]

theorem passed_kept (hn : ¬ i.Starts X) (hn' : ¬ i.Stops X) (hs' : s'.publishersOf X = s.publishersOf X)
    (hno : ∀ h, ¬ tells outs X h) : Passed s X i (s'.publishersOf X) (tells outs X) :=
  (Passed.kept (fun h => absurd h hn) fun h => absurd h hn').congr hs'
    fun h => iff_of_false (hno h) id

theorem exists_other {rest : List HostId} (hkeys : (p.erase host).keys = first :: rest) :
    first ≠ host ∧ first ∈ p := by
  have hmem : first ∈ p.erase host := AList.mem_keys.mpr (by simp [hkeys])
  exact AList.mem_erase.mp hmem

theorem Served.passed {forward : Bool} (hserved : Served s host r RVFID forward s')
    (hno : ∀ h, ¬ tells outs X h) :
    Passed s X (.request type host r) (s'.publishersOf X) (tells outs X) := by
  have hn : ¬ (Input.request type host r).Starts X := id
  have hn' : ¬ (Input.request type host r).Stops X := id
  have hfalse : ∀ h, tells outs X h ↔ False := fun h => iff_of_false (hno h) id
  by_cases hk : keyOf r = (.publisher, X)
  · have hrole : r.type.role = .publisher := congrArg Prod.fst hk
    have hfull : r.fullID = X := congrArg Prod.snd hk
    unfold Served at hserved
    rw [hk] at hserved
    split at hserved
    · cases hserved with
      | refused => exact passed_kept hn hn' rfl hno
      | created _ hnone he _ =>
        have hpnone : s.publishersOf X = none := by rw [publishersOf_eq, hnone]; rfl
        exact (Passed.created hpnone hn hn').congr (publishersOf_update he) hfalse
      | joined hsome _ he _ =>
        obtain ⟨ap, hX, rfl⟩ := exists_publication hsome
        exact (Passed.joined (publishersOf_of_some hX) hn hn').congr (publishersOf_update he) hfalse
    · next hent =>
      cases hserved with
      | refused => exact passed_kept hn hn' rfl hno
      | last _ _ _ he _ => exact Passed.gone.congr (publishersOf_update he) hfalse
      | others hsome hst hmore he _ =>
        obtain ⟨ap, hX, rfl⟩ := exists_publication hsome
        have hkeys : (ap.publishers.erase host).keys ≠ [] := fun h => hmore (keys_eq_nil.mp h)
        obtain ⟨other, rest, hcons⟩ := List.exists_cons_of_ne_nil hkeys
        obtain ⟨hne, hmem⟩ := exists_other hcons
        refine (Passed.left (publishersOf_of_some hX) hn hn' hkeys
          fun hstart => ?_).congr (publishersOf_update he) hfalse
        have hleaves : r.type.enters = false := by simpa using hent
        exact ⟨ap, host, other, hX, hstart, hne, hmem, rfl, hrole, hleaves, hfull, hst.symm⟩
  · refine passed_kept hn hn' (publishersOf_congr ?_) hno
    have hsame : ∀ {o : Option Entry}, s'.entryAt = Function.update s.entryAt (keyOf r) o →
        s'.entryAt (.publisher, X) = s.entryAt (.publisher, X) := fun he => by
      rw [he, Function.update_of_ne (Ne.symm hk)]
    unfold Served at hserved
    split at hserved
    · cases hserved with
      | refused => rfl
      | created _ _ he _ => exact hsame he
      | joined _ _ he _ => exact hsame he
    · cases hserved with
      | refused => rfl
      | last _ _ _ he _ => exact hsame he
      | others _ _ _ he _ => exact hsame he

theorem Passed.of_entryAt {o : Option PublisherHashMap} {told : HostId → Prop}
    (h : Passed t X i o told) (ht : t.activePublicationIndex X = s.activePublicationIndex X) :
    Passed s X i o told := by
  have hpub : t.publishersOf X = s.publishersOf X := by simp only [publishersOf, ht]
  cases h with
  | kept hstart hstop => exact hpub ▸ .kept (hpub ▸ hstart) (hpub ▸ hstop)
  | created hnone hn hn' => exact .created (hpub ▸ hnone) hn hn'
  | joined hsome hn hn' => exact .joined (hpub ▸ hsome) hn hn'
  | left hsome hn hn' hmore hstate =>
    refine .left (hpub ▸ hsome) hn hn' hmore fun hstart => ?_
    obtain ⟨ap, host, other, hX, hrest⟩ := hstate hstart
    exact ⟨ap, host, other, ht ▸ hX, hrest⟩
  | handed hsome hn hn' hstate hkeys => exact .handed (hpub ▸ hsome) hn hn' hstate hkeys
  | gone => exact .gone
  | started hsome hs hnone hkeys => exact .started (hpub ▸ hsome) hs hnone hkeys
  | stopped hsome hs hn hnone => exact .stopped (hpub ▸ hsome) hs hn hnone

theorem getLocalHost_publication (type : HostType) (host : HostId) :
    (s.getLocalHost type host).activePublicationIndex X = s.activePublicationIndex X := by
  unfold getLocalHost
  split <;> rfl

/-! ### Disconnections -/

/-- Only the departure from `X` itself tells anybody to start `X`. -/
theorem tells_departures (hs : s.Sound) {keys : List Key} :
    tells (keys.flatMap fun k => (s.departure host k).2) X h ↔
      (.publisher, X) ∈ keys ∧ tells (s.departure host (.publisher, X)).2 X h := by
  unfold tells
  rw [List.mem_flatMap]
  constructor
  · rintro ⟨⟨_ | _, Y⟩, hk, hmem⟩
    · cases hY : s.activePublicationIndex Y with
      | none => simp [departure, hY] at hmem
      | some ap =>
        have hfull := (hs.publication hY).1
        have hYX : Y = X := by
          have hmem' := hmem
          simp only [departure, entryAt_publisher, hY, Option.map_some, Entry.left, publicationLeft,
            startFirst, hfull] at hmem'
          split at hmem'
          · simp at hmem'
          · split at hmem'
            · split at hmem'
              · cases hmem'
              · cases List.mem_singleton.mp hmem'
                rfl
            · cases hmem'
        exact hYX ▸ ⟨hk, hYX ▸ hmem⟩
    · cases hY : s.activeSubscriptionIndex Y with
      | none => simp [departure, hY] at hmem
      | some sub =>
        simp only [departure, entryAt_subscriber, hY, Option.map_some, Entry.left,
          subscriptionLeft] at hmem
        split at hmem
        · split at hmem <;> simp at hmem
        · cases hmem
  · rintro ⟨hk, hmem⟩
    exact ⟨_, hk, hmem⟩

theorem isScope_of_kind (hk : Entry.kind (.inl ap) ≠ .item) : ap.isScope = true := by
  by_contra hscope
  refine hk (kind_eq_iff.mpr ?_)
  simpa [Entry.attr, Entry.view, pubView] using hscope

/-- The departure of a publisher hands the token over, unless the entry is that of a scope. -/
theorem departure_passed (hX : s.activePublicationIndex X = some ap) (hfull : ap.fullID = X)
    (hmem : host ∈ ap.publishers) (hi : i = .disconnect type host l IDs) :
    Passed s X i ((s.departure host (.publisher, X)).1.bind Entry.publishers)
      (tells (s.departure host (.publisher, X)).2 X) := by
  have hn : ¬ i.Starts X := hi ▸ id
  have hn' : ¬ i.Stops X := hi ▸ id
  have hsome := publishersOf_of_some hX
  have hdep : s.departure host (.publisher, X) = Entry.left host (.inl ap) := by
    simp [departure, hX]
  rw [hdep, Entry.left]
  by_cases hlast : (ap.publishers.erase host).keys = []
  · rw [publicationLeft_last hlast]
    exact Passed.gone.congr rfl fun h => iff_of_false (by simp [tells]) id
  · obtain ⟨first, rest, hkeys⟩ := List.exists_cons_of_ne_nil hlast
    by_cases hnotify : Entry.kind (.inl ap) = .item ∧ ap.publishers.lookup host ≠ some .stopPublish
    · have hstart : ap.publishers.lookup host = some .startPublish := by
        obtain ⟨st, hst⟩ := Option.isSome_iff_exists.mp (AList.lookup_isSome.mpr hmem)
        cases st with
        | startPublish => exact hst
        | stopPublish => exact absurd hst hnotify.2
      rw [publicationLeft_handed hlast hnotify,
        startFirst_of_keys { ap with publishers := ap.publishers.erase host } hkeys, hfull]
      exact (Passed.handed hsome hn hn' hstart hkeys).congr rfl fun h => tells_singleton
    · rw [publicationLeft_kept hlast hnotify]
      refine (Passed.left hsome hn hn' hlast fun hstart => ?_).congr rfl
        fun h => iff_of_false (by simp [tells]) id
      obtain ⟨hne, hother⟩ := exists_other hkeys
      refine ⟨ap, host, first, hX, hstart, hne, hother, ?_⟩
      rw [hi]
      refine ⟨rfl, isScope_of_kind fun hk => hnotify ⟨hk, ?_⟩⟩
      rw [hstart]
      decide

theorem push_passed (hs : s.Sound) (hi : s.Allowed i) (ho : s.Orderly i) (ha : i.Alone X)
    (hrun : s.push i = .ok (s', outs)) : Passed s X i (s'.publishersOf X) (tells outs X) := by
  have hhost : ∀ type host, (s.getLocalHost type host).publishersOf X = s.publishersOf X :=
    fun type host => publishersOf_congr (congrFun (entryAt_getLocalHost type) _)
  cases i with
  | request type host r =>
    obtain ⟨forward, t, hserved, hpush⟩ := pushRequest_spec s type host r
    obtain ⟨rfl, rfl⟩ := Prod.mk.inj (Except.ok.inj ((congrArg Except.ok hpush).symm.trans hrun))
    refine (hserved.passed fun h hmem => ?_).of_entryAt (getLocalHost_publication type host)
    unfold tells at hmem
    split at hmem
    · cases List.mem_singleton.mp hmem
    · cases hmem
  | unknown type host =>
    obtain ⟨rfl, rfl⟩ := Prod.mk.inj (Except.ok.inj hrun)
    exact passed_kept id id (hhost type host) fun h => List.not_mem_nil
  | disconnect type host pubOrder subOrder =>
    obtain ⟨t, keys, hdisc, -, hkeys, hin, hout, -, -⟩ := disconnect_spec hs ho hi type
    obtain ⟨rfl, rfl⟩ := Prod.mk.inj (Except.ok.inj (hdisc.symm.trans hrun))
    by_cases hknown : (.publisher, X) ∈ s.table.keysOf host
    · obtain ⟨ap, hX, hmem⟩ := has_publisher.mp ((hs.linked.mem_keysOf host _).mp hknown)
      refine (departure_passed hX (hs.publication hX).1 hmem rfl).congr ?_ fun h => ?_
      · rw [publishersOf_eq, hin _ hknown]
      · rw [tells_departures hs]
        exact and_iff_right ((hkeys _).mpr hknown)
    · refine passed_kept id id (publishersOf_congr (hout _ hknown)) fun h hmem => ?_
      exact hknown ((hkeys _).mp ((tells_departures hs).mp hmem).1)
  | publication type host ID strategy FID payload =>
    have hpush : s.pushData type host ID strategy FID payload = (s', outs) := Except.ok.inj hrun
    have hfst : s' = s.getLocalHost type host := by
      rw [← pushData_fst ID strategy FID payload, hpush]
    refine passed_kept id id (hfst ▸ hhost type host) fun h hmem => ?_
    have hsnd : (s.pushData type host ID strategy FID payload).2 = outs := congrArg Prod.snd hpush
    exact pushData_data _ (hsnd ▸ hmem)
  | network IDs payload =>
    obtain ⟨rfl, rfl⟩ := Prod.mk.inj (Except.ok.inj hrun)
    exact passed_kept id id rfl fun h hmem => handleNetworkPublication_data _ hmem
  | notification n =>
    have hpush : s.handleRVNotification n = (s', outs) := Except.ok.inj hrun
    have hpassed := handleRVNotification_passed (i := .notification n) hs ha Iff.rfl Iff.rfl
    rwa [hpush] at hpassed
  | localNotification type host n =>
    have hpush : (s.getLocalHost type host).handleRVNotification n = (s', outs) := Except.ok.inj hrun
    have hpassed := handleRVNotification_passed (i := .localNotification type host n)
      (hs.of_table (table_getLocalHost type host)) ha Iff.rfl Iff.rfl
    rw [hpush] at hpassed
    exact hpassed.of_entryAt (getLocalHost_publication type host)

/-! ## Runs -/

def InState (s : LocalProxy) (X : Id) (st : PublishState) (host : HostId) : Prop :=
  ∃ p, s.publishersOf X = some p ∧ p.lookup host = some st

/-- A state of a run with what its past says about `X`. -/
structure Watch where
  proxy : LocalProxy
  /-- A `START_PUBLISH` met publishers, which were never all gone since, and no `STOP_PUBLISH`
  came. -/
  started : Prop
  /-- The hosts that were told to start after they were last in `STOP_PUBLISH`. -/
  told : HostId → Prop

namespace Watch

def init (gc : GlobalConf) : Watch := ⟨LocalProxy.init gc, False, fun _ => False⟩

/-- A step of the proxy in a run that announces `X` alone. -/
structure Step (X : Id) (w : Watch) (a : Input × List ProxyOutput) (w' : Watch) : Prop where
  step : w.proxy.Step a w'.proxy
  alone : a.1.Alone X
  started : w'.started ↔ w'.proxy.publishersOf X ≠ none ∧
    (a.1.Starts X ∨ (w.started ∧ ¬ a.1.Stops X))
  told : ∀ h, w'.told h ↔ w'.proxy.InState X .startPublish h ∧ (tells a.2 X h ∨ w.told h)

/-- One publisher has the token and knows it, or nobody has it. -/
def TokenHeld (X : Id) (w : Watch) : Prop :=
  (w.started → ∃ h, w.proxy.InState X .startPublish h ∧ w.told h ∧
    ∀ h', w.proxy.InState X .startPublish h' → h' = h) ∧
  (¬ w.started → ∀ h, ¬ w.proxy.InState X .startPublish h)

variable {w w' : Watch} {a : Input × List ProxyOutput}

theorem tokenHeld_of_same (hw : w.TokenHeld X) (hstep : w.Step X a w')
    (hstarted : w'.started ↔ w.started)
    (hstate : ∀ h, w'.proxy.InState X .startPublish h ↔ w.proxy.InState X .startPublish h) :
    w'.TokenHeld X := by
  constructor
  · intro hs
    obtain ⟨h, hstart, htold, honly⟩ := hw.1 (hstarted.mp hs)
    refine ⟨h, (hstate h).mpr hstart, (hstep.told h).mpr ⟨(hstate h).mpr hstart, Or.inr htold⟩, ?_⟩
    exact fun h' hh' => honly h' ((hstate h').mp hh')
  · intro hs h hstart
    exact hw.2 (fun h => hs (hstarted.mpr h)) h ((hstate h).mp hstart)

theorem tokenHeld_of_first (hstep : w.Step X a w') (hs : w'.started) (htold : tells a.2 X first)
    (hstate : ∀ h, w'.proxy.InState X .startPublish h ↔ h = first) : w'.TokenHeld X := by
  have hfirst := (hstate first).mpr rfl
  exact ⟨fun _ => ⟨first, hfirst, (hstep.told first).mpr ⟨hfirst, Or.inl htold⟩,
    fun h' hh' => (hstate h').mp hh'⟩, fun h => absurd hs h⟩

theorem tokenHeld_of_none (hs : ¬ w'.started) (hnone : ∀ h, ¬ w'.proxy.InState X .startPublish h) :
    w'.TokenHeld X :=
  ⟨fun h => absurd h hs, fun _ => hnone⟩

theorem inState_iff {s : LocalProxy} (hsome : s.publishersOf X = some p) :
    s.InState X st h ↔ p.lookup h = some st := by
  unfold InState
  rw [hsome]
  simp

theorem lookup_replace_first {rest : List HostId} (hkeys : q.keys = first :: rest)
    (hnone : ∀ h, q.lookup h ≠ some .startPublish) (h : HostId) :
    (q.replace first .startPublish).lookup h = some .startPublish ↔ h = first := by
  rw [lookup_replace]
  split
  · next heq =>
    obtain ⟨st, hst⟩ := lookup_of_keys hkeys
    rw [heq, hst]
    simp
  · next hne => exact iff_of_false (hnone h) hne

/-- A step that loses no token keeps exactly one holder. -/
theorem Step.tokenHeld (hstep : w.Step X a w') (hs : w.proxy.Sound) (hord : w.proxy.Orderly a.1)
    (hok : ¬ LosesToken X w.proxy a.1) (hw : w.TokenHeld X) : w'.TokenHeld X := by
  have hpassed := push_passed hs hstep.step.1 hord hstep.alone hstep.step.2
  have hstarted := hstep.started
  generalize ho : w'.proxy.publishersOf X = o at hpassed hstarted
  generalize ht : tells a.2 X = told at hpassed
  cases hpassed with
  | kept hstart hstop =>
    have hstate : ∀ h, w'.proxy.InState X .startPublish h ↔ w.proxy.InState X .startPublish h := by
      intro h
      unfold InState
      rw [ho]
    refine tokenHeld_of_same hw hstep ?_ hstate
    rw [hstarted]
    constructor
    · rintro ⟨hp, hst | ⟨hst, -⟩⟩
      · obtain hnone | ⟨p, h, hsome, hlook⟩ := hstart hst
        · exact absurd hnone hp
        · by_contra hns
          exact hw.2 hns h ((inState_iff hsome).mpr hlook)
      · exact hst
    · intro hst
      obtain ⟨h, ⟨p, hsome, -⟩, -⟩ := hw.1 hst
      have hp : w.proxy.publishersOf X ≠ none := by simp [hsome]
      exact ⟨hp, Or.inr ⟨hst, fun hstp => hp (hstop hstp)⟩⟩
  | created hnone hn hn' =>
    refine tokenHeld_of_none (fun hst => ?_) fun h hstart => ?_
    · obtain ⟨-, hst | ⟨hst, -⟩⟩ := hstarted.mp hst
      · exact hn hst
      · obtain ⟨h, ⟨p, hsome, -⟩, -⟩ := hw.1 hst
        exact nomatch hnone.symm.trans hsome
    · rw [inState_iff ho, lookup_findInsert] at hstart
      simp at hstart
  | joined hsome hn hn' =>
    refine tokenHeld_of_same hw hstep ?_ fun h => ?_
    · rw [hstarted]
      simp [hn, hn']
    · rw [inState_iff ho, inState_iff hsome, lookup_findInsert]
      simp
  | @left p host hsome hn hn' hmore hlose =>
    refine tokenHeld_of_same hw hstep ?_ fun h => ?_
    · rw [hstarted]
      simp [hn, hn']
    · rw [inState_iff ho, inState_iff hsome, lookup_erase_eq]
      split
      · next heq =>
        refine iff_of_false nofun fun hlook => hok (hlose ?_)
        rw [← heq, hlook]
      · rfl
  | @handed p host first rest hsome hn hn' hstate hkeys =>
    have hst : w.started := by
      by_contra hns
      exact hw.2 hns host ((inState_iff hsome).mpr hstate)
    have hfirst : tells a.2 X first := by rw [ht]
    refine tokenHeld_of_first hstep (hstarted.mpr ⟨by simp, Or.inr ⟨hst, hn'⟩⟩) hfirst fun h => ?_
    rw [inState_iff ho]
    refine lookup_replace_first hkeys (fun g hg => ?_) h
    obtain ⟨holder, -, -, honly⟩ := hw.1 hst
    rw [lookup_erase_eq] at hg
    split at hg
    · cases hg
    · next hne =>
      have h1 := honly g ((inState_iff hsome).mpr hg)
      have h2 := honly host ((inState_iff hsome).mpr hstate)
      exact hne (h1.trans h2.symm)
  | gone =>
    refine tokenHeld_of_none (fun hst => ((hstarted.mp hst).1 rfl).elim) fun h hstart => ?_
    obtain ⟨p, hsome, -⟩ := hstart
    exact nomatch ho.symm.trans hsome
  | @started p first rest hsome hsx hnone hkeys =>
    have hfirst : tells a.2 X first := by rw [ht]
    refine tokenHeld_of_first hstep (hstarted.mpr ⟨by simp, Or.inl hsx⟩) hfirst fun h => ?_
    rw [inState_iff ho]
    exact lookup_replace_first hkeys hnone h
  | stopped hsome hsx hn hnone =>
    refine tokenHeld_of_none (fun hst => ?_) fun h hstart => ?_
    · obtain ⟨-, hst | ⟨-, hst⟩⟩ := hstarted.mp hst
      · exact hn hst
      · exact hst hsx
    · exact hnone h ((inState_iff ho).mp hstart)

end Watch

/-- A lost token leaves the other publishers as they are. -/
theorem LosesToken.erased (hl : LosesToken X s i) (hs : s.Sound) (hi : s.Allowed i)
    (ho : s.Orderly i) (hrun : s.push i = .ok (s', outs)) :
    ∃ ap host, s.activePublicationIndex X = some ap ∧
      ap.publishers.lookup host = some .startPublish ∧
      s'.publishersOf X = some (ap.publishers.erase host) ∧ ¬ i.Stops X := by
  obtain ⟨ap, host, other, hX, hstart, hne, hmem, hw⟩ := hl
  refine ⟨ap, host, hX, hstart, ?_⟩
  have hmore : (ap.publishers.erase host).keys ≠ [] :=
    List.ne_nil_of_mem (AList.mem_keys.mp (AList.mem_erase.mpr ⟨hne, hmem⟩))
  cases i with
  | request type g r =>
    obtain ⟨rfl, hrole, hent, rfl, hst⟩ := hw
    obtain ⟨forward, t, hserved, hpush⟩ := pushRequest_spec s type g r
    obtain ⟨rfl, -⟩ := Prod.mk.inj (Except.ok.inj ((congrArg Except.ok hpush).symm.trans hrun))
    have hk : keyOf r = (.publisher, r.fullID) := Prod.ext hrole rfl
    have he : s.entryAt (.publisher, r.fullID) = some (.inl ap) := by simp [hX]
    rw [Served, hent, hk] at hserved
    refine ⟨?_, id⟩
    cases hserved with
    | refused href =>
      have hacc := hs.accepted_of_entryAt he
      rw [entryAt_getLocalHost, he] at href
      rcases href with href | href | ⟨e, hsome, hne⟩
      · rw [hst] at href
        exact nomatch hacc.symm.trans href
      · cases href
      · obtain rfl := Option.some.inj hsome
        exact absurd hst.symm hne
    | last hsome _ hlast _ _ =>
      rw [entryAt_getLocalHost, he] at hsome
      obtain rfl := Option.some.inj hsome
      exact absurd (keys_eq_nil.mpr hlast) hmore
    | others hsome _ _ he' _ =>
      rw [entryAt_getLocalHost, he] at hsome
      obtain rfl := Option.some.inj hsome
      exact publishersOf_update he'
  | disconnect type g pubOrder subOrder =>
    obtain ⟨rfl, hscope⟩ := hw
    obtain ⟨t, keys, hdisc, -, -, hin, -, -, -⟩ := disconnect_spec hs ho hi type
    obtain ⟨rfl, -⟩ := Prod.mk.inj (Except.ok.inj (hdisc.symm.trans hrun))
    have hpub : g ∈ ap.publishers := AList.lookup_isSome.mp (by rw [hstart]; rfl)
    have hknown : (.publisher, X) ∈ s.table.keysOf g :=
      (hs.linked.mem_keysOf g _).mpr (has_publisher.mpr ⟨ap, hX, hpub⟩)
    have hkind : ¬ (Entry.kind (.inl ap) = .item ∧ ap.publishers.lookup g ≠ some .stopPublish) := by
      rintro ⟨hk, -⟩
      have hitem := kind_eq_iff.mp hk
      simp [Entry.attr, Entry.view, pubView, hscope] at hitem
    have hdep : s.departure g (.publisher, X) = Entry.left g (.inl ap) := by simp [departure, hX]
    refine ⟨?_, id⟩
    rw [publishersOf_eq, hin _ hknown, hdep, Entry.left, publicationLeft_kept hmore hkind]
    rfl
  | unknown => exact hw.elim
  | publication => exact hw.elim
  | network => exact hw.elim
  | notification => exact hw.elim
  | localNotification => exact hw.elim

/-- Runs in which no publisher with the token is withdrawn, and no host leaves a scope under the
empty id behind. -/
def TokenRun (X : Id) (gc : GlobalConf) : Watch → Prop :=
  Runs.Reachable (Runs.Guarded (Watch.Step X) fun w a =>
    w.proxy.Orderly a.1 ∧ ¬ LosesToken X w.proxy a.1) (Watch.init gc)

theorem TokenRun.held {gc : GlobalConf} {w : Watch} (h : TokenRun X gc w) :
    w.proxy.Sound ∧ w.TokenHeld X := by
  refine h.invariant (I := fun w => w.proxy.Sound ∧ w.TokenHeld X) ⟨sound_init gc, ?_⟩
    fun w a w' _ hw hstep => ?_
  · exact Watch.tokenHeld_of_none id fun h hstart => by
      obtain ⟨p, hsome, -⟩ := hstart
      cases hsome
  · obtain ⟨hstep, hord, hl⟩ := hstep
    exact ⟨hstep.step.sound hw.1 hord, hstep.tokenHeld hw.1 hord hl hw.2⟩

/-- Between a start and the next stop exactly one publisher is started and knows it, and at
other times none is, in every run that withdraws no publisher with the token. A step that does
leaves publishers of which none is started. -/
theorem one_publisher_started {gc : GlobalConf} {w : Watch} (h : TokenRun X gc w) :
    (w.started → ∃ h, w.proxy.InState X .startPublish h ∧ w.told h ∧
      ∀ h', w.proxy.InState X .startPublish h' → h' = h) ∧
    (¬ w.started → ∀ h, ¬ w.proxy.InState X .startPublish h) ∧
    ∀ a w', w.Step X a w' → w.proxy.Orderly a.1 → LosesToken X w.proxy a.1 →
      w'.started ∧ ∀ h, ¬ w'.proxy.InState X .startPublish h := by
  obtain ⟨hs, hheld⟩ := h.held
  refine ⟨hheld.1, hheld.2, fun a w' hstep hord hl => ?_⟩
  obtain ⟨ap, host, hX, hstart, hpub, hns⟩ := hl.erased hs hstep.step.1 hord hstep.step.2
  have hholder : w.proxy.InState X .startPublish host :=
    (Watch.inState_iff (publishersOf_of_some hX)).mpr hstart
  have hw : w.started := by
    by_contra hn
    exact hheld.2 hn host hholder
  refine ⟨hstep.started.mpr ⟨by simp [hpub], Or.inr ⟨hw, hns⟩⟩, fun h hh => ?_⟩
  rw [Watch.inState_iff hpub, lookup_erase_eq] at hh
  split at hh
  · cases hh
  · next hne =>
    obtain ⟨holder, -, -, honly⟩ := hheld.1 hw
    have h1 := honly h ((Watch.inState_iff (publishersOf_of_some hX)).mpr hh)
    exact hne (h1.trans (honly host hholder).symm)

/-- The state of the past after an input. -/
def Watch.next (X : Id) (w : Watch) (i : Input) (res : LocalProxy × List ProxyOutput) : Watch where
  proxy := res.1
  started := res.1.publishersOf X ≠ none ∧ (i.Starts X ∨ (w.started ∧ ¬ i.Stops X))
  told h := res.1.InState X .startPublish h ∧ (tells res.2 X h ∨ w.told h)

theorem Watch.step_next {w : Watch} {res : LocalProxy × List ProxyOutput} (hi : w.proxy.Allowed i)
    (ha : i.Alone X) (hrun : w.proxy.push i = .ok res) :
    w.Step X (i, res.2) (w.next X i res) :=
  ⟨⟨hi, hrun⟩, ha, Iff.rfl, fun _ => Iff.rfl⟩

theorem TokenRun.next {gc : GlobalConf} {w : Watch} {res : LocalProxy × List ProxyOutput}
    (h : TokenRun X gc w) (hi : w.proxy.Allowed i) (ho : w.proxy.Orderly i) (ha : i.Alone X)
    (hl : ¬ LosesToken X w.proxy i) (hrun : w.proxy.push i = .ok res) :
    TokenRun X gc (w.next X i res) :=
  Runs.Reachable.next h (a := (i, res.2)) ⟨Watch.step_next hi ha hrun, ho, hl⟩

/-- A publication of an application, for runs on fixed inputs. -/
def Watch.publishes (X : Id) (w : Watch) (host : HostId) : Watch :=
  let r : Request := ⟨.publishInfo, suffixOf X, fatherOf X, domainLocal⟩
  w.next X (.request .localProcess host r) (w.proxy.pushRequest .localProcess host r)

def Watch.starts (X : Id) (w : Watch) : Watch :=
  w.next X (.notification (.startPublish [X] 1)) (w.proxy.handleRVNotification (.startPublish [X] 1))

/-- An item with two publishers, of which the second one is told to start. -/
def sharedItem : Watch :=
  (((Watch.init exampleConf).publishes (frag 1 ++ frag 2) 1).publishes (frag 1 ++ frag 2) 2).starts
    (frag 1 ++ frag 2)

theorem tokenRun_sharedItem : TokenRun (frag 1 ++ frag 2) exampleConf sharedItem := by
  have hfirst : TokenRun (frag 1 ++ frag 2) exampleConf (Watch.init exampleConf) := .start
  have hpublishes : ∀ {w : Watch} (host : HostId), TokenRun (frag 1 ++ frag 2) exampleConf w →
      TokenRun (frag 1 ++ frag 2) exampleConf (w.publishes (frag 1 ++ frag 2) host) := by
    intro w host hw
    refine hw.next (by decide : Request.Whole _) True.intro True.intro ?_ rfl
    rintro ⟨ap, holder, other, -, -, -, -, -, -, hent, -⟩
    cases hent
  refine (hpublishes 2 (hpublishes 1 hfirst)).next True.intro True.intro (fun _ => rfl) ?_ rfl
  rintro ⟨ap, holder, other, -, -, -, -, hw⟩
  exact hw

theorem one_publisher_started_shared :
    ∃ h, sharedItem.proxy.InState (frag 1 ++ frag 2) .startPublish h ∧ sharedItem.told h ∧
      ∀ h', sharedItem.proxy.InState (frag 1 ++ frag 2) .startPublish h' → h' = h :=
  (one_publisher_started tokenRun_sharedItem).1 ⟨by decide, Or.inl (List.mem_singleton.mpr rfl)⟩

/-- The publisher that was told withdraws the item. -/
def lostItem : Watch :=
  let r : Request := ⟨.unpublishInfo, frag 2, frag 1, domainLocal⟩
  sharedItem.next (frag 1 ++ frag 2) (.request .localProcess 2 r)
    (sharedItem.proxy.pushRequest .localProcess 2 r)

/-- The first publisher stays, is in `STOP_PUBLISH` and is told nothing. -/
theorem token_lost :
    ∃ (X : Id) (gc : GlobalConf) (w : Watch), Runs.Reachable (Watch.Step X) (Watch.init gc) w ∧
      w.started ∧ w.proxy.InState X .stopPublish 1 ∧
      ¬ ∃ h, w.proxy.InState X .startPublish h := by
  refine ⟨frag 1 ++ frag 2, exampleConf, lostItem, ?_, ?_, ⟨_, rfl, by decide⟩, ?_⟩
  · exact (Runs.Reachable.of_guarded tokenRun_sharedItem).next
      (Watch.step_next (by decide : Request.Whole _) True.intro rfl)
  · exact ⟨by decide, Or.inr ⟨⟨by decide, Or.inl (List.mem_singleton.mpr rfl)⟩, id⟩⟩
  · rintro ⟨h, p, hp, hstart⟩
    have hkeys : (lostItem.proxy.publishersOf (frag 1 ++ frag 2)).map AList.keys = some [1] := by
      decide
    have hone : (lostItem.proxy.publishersOf (frag 1 ++ frag 2)).map (AList.lookup 1) =
        some (some .stopPublish) := by decide
    rw [hp, Option.map_some, Option.some.injEq] at hkeys hone
    have hmem : h ∈ p.keys :=
      AList.mem_keys.mp (AList.lookup_isSome.mp (by rw [hstart]; rfl))
    rw [hkeys] at hmem
    obtain rfl := List.mem_singleton.mp hmem
    exact nomatch hstart.symm.trans hone

end LocalProxy

end Blackadder
