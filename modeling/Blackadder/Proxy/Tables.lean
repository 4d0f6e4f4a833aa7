import Mathlib.Tactic.Common
import Blackadder.Lib.Roster
import Blackadder.Proxy.Notifications

/-!
# The indexes of the proxy as one table

Publications and subscriptions are keys, and local hosts are the members.
-/

namespace Blackadder

namespace LocalProxy

/-- What an entry keeps from the registration that made it. -/
structure Attr where
  fullID : Id
  strategy : Strategy
  isScope : Bool
  RVFID : Bitvector
deriving DecidableEq

abbrev Key := Role × Id

abbrev Table := Roster Key HostId Attr

def pubView (ap : ActivePublication) : Attr × Finset HostId :=
  (⟨ap.fullID, ap.strategy, ap.isScope, ap.RVFID⟩, ap.publishers.keys.toFinset)

def subView (sub : ActiveSubscription) : Attr × Finset HostId :=
  (⟨sub.fullID, sub.strategy, sub.isScope, sub.RVFID⟩, sub.subscribers.toList.toFinset)

/-- The four maps as one table. -/
def table (s : LocalProxy) : Table where
  entry := fun
    | (.publisher, X) => (s.activePublicationIndex X).map pubView
    | (.subscriber, X) => (s.activeSubscriptionIndex X).map subView
  keysOf host := fun
    | (.publisher, X) => X ∈ s.publicationsOf host
    | (.subscriber, X) => X ∈ s.subscriptionsOf host

/-- An entry of one of the two indexes. -/
abbrev Entry := ActivePublication ⊕ ActiveSubscription

namespace Entry

def view : Entry → Attr × Finset HostId := Sum.elim pubView subView

def attr (e : Entry) : Attr := e.view.1

def hosts (e : Entry) : Finset HostId := e.view.2

/-- The entry of a first registration. -/
def new (k : Key) (host : HostId) (a : Attr) : Entry :=
  match k.1 with
  | .publisher => .inl {
      fullID := a.fullID
      strategy := a.strategy
      publishers := findInsert ∅ host .stopPublish
      allKnownIDs := []
      FIDToSubscribers := 0
      RVFID := a.RVFID
      isScope := a.isScope }
  | .subscriber => .inr {
      fullID := a.fullID
      strategy := a.strategy
      subscribers := ListSet.insert ∅ host
      RVFID := a.RVFID
      isScope := a.isScope }

def join (host : HostId) : Entry → Entry
  | .inl ap => .inl { ap with publishers := findInsert ap.publishers host .stopPublish }
  | .inr sub => .inr { sub with subscribers := sub.subscribers.insert host }

def without (host : HostId) : Entry → Entry
  | .inl ap => .inl { ap with publishers := ap.publishers.erase host }
  | .inr sub => .inr { sub with subscribers := sub.subscribers.erase host }

end Entry

/-- The two indexes as one map. -/
def entryAt (s : LocalProxy) : Key → Option Entry
  | (.publisher, X) => (s.activePublicationIndex X).map .inl
  | (.subscriber, X) => (s.activeSubscriptionIndex X).map .inr

variable {s : LocalProxy} {X Y : Id} {host h : HostId} {role : Role} {ap : ActivePublication}
  {sub : ActiveSubscription} {strategy : Strategy} {RVFID : Bitvector} {isScope : Bool}
  {publishers : PublisherHashMap} {state : PublishState} {k : Key} {e : Entry}

theorem table_entry (k : Key) : s.table.entry k = (s.entryAt k).map Entry.view := by
  obtain ⟨_ | _, X⟩ := k <;> simp [table, entryAt] <;> rfl

@[simp]
theorem entryAt_publisher : s.entryAt (.publisher, X) = (s.activePublicationIndex X).map .inl := rfl

@[simp]
theorem entryAt_subscriber : s.entryAt (.subscriber, X) = (s.activeSubscriptionIndex X).map .inr := rfl

@[simp]
theorem table_entry_publisher : s.table.entry (.publisher, X) =
    (s.activePublicationIndex X).map pubView := rfl

@[simp]
theorem table_entry_subscriber : s.table.entry (.subscriber, X) =
    (s.activeSubscriptionIndex X).map subView := rfl

@[simp]
theorem mem_keysOf_publisher : (.publisher, X) ∈ s.table.keysOf host ↔ X ∈ s.publicationsOf host :=
  Iff.rfl

@[simp]
theorem mem_keysOf_subscriber :
    (.subscriber, X) ∈ s.table.keysOf host ↔ X ∈ s.subscriptionsOf host := Iff.rfl

theorem has_publisher : s.table.Has (.publisher, X) host ↔
    ∃ ap, s.activePublicationIndex X = some ap ∧ host ∈ ap.publishers := by
  constructor
  · rintro ⟨a, ms, he, hms⟩
    obtain ⟨ap, hX, hview⟩ := Option.map_eq_some_iff.mp he
    obtain rfl : ap.publishers.keys.toFinset = ms := congrArg Prod.snd hview
    exact ⟨ap, hX, AList.mem_keys.mpr (List.mem_toFinset.mp hms)⟩
  · rintro ⟨ap, hX, hmem⟩
    exact ⟨_, _, by rw [table_entry_publisher, hX]; rfl,
      List.mem_toFinset.mpr (AList.mem_keys.mp hmem)⟩

theorem has_subscriber : s.table.Has (.subscriber, X) host ↔
    ∃ sub, s.activeSubscriptionIndex X = some sub ∧ host ∈ sub.subscribers := by
  constructor
  · rintro ⟨a, ms, he, hms⟩
    obtain ⟨sub, hX, hview⟩ := Option.map_eq_some_iff.mp he
    obtain rfl : sub.subscribers.toList.toFinset = ms := congrArg Prod.snd hview
    exact ⟨sub, hX, List.mem_toFinset.mp hms⟩
  · rintro ⟨sub, hX, hmem⟩
    exact ⟨_, _, by rw [table_entry_subscriber, hX]; rfl, List.mem_toFinset.mpr hmem⟩

/-! ## Writes -/

theorem entryAt_setPublication (o : Option ActivePublication) : (s.setPublication X o).entryAt =
    Function.update s.entryAt (.publisher, X) (o.map .inl) := by
  funext k
  obtain ⟨_ | _, Y⟩ := k
  · by_cases hY : Y = X
    · subst hY
      simp
    · simp [hY]
  · simp

theorem entryAt_setSubscription (o : Option ActiveSubscription) :
    (s.setSubscription X o).entryAt =
      Function.update s.entryAt (.subscriber, X) (o.map .inr) := by
  funext k
  obtain ⟨_ | _, Y⟩ := k
  · simp
  · by_cases hY : Y = X
    · subst hY
      simp
    · simp [hY]

theorem entryAt_modifyHost (f : LocalHost → LocalHost) :
    (s.modifyHost host f).entryAt = s.entryAt := by
  funext k
  obtain ⟨_ | _, Y⟩ := k <;> rfl

theorem table_setPublication (o : Option ActivePublication) : (s.setPublication X o).table =
    { s.table with entry := Function.update s.table.entry (.publisher, X) (o.map pubView) } := by
  refine Roster.ext' (fun k => ?_) fun _ _ => Iff.rfl
  obtain ⟨_ | _, Y⟩ := k
  · by_cases hY : Y = X
    · subst hY
      simp
    · simp [hY]
  · simp

theorem table_setSubscription (o : Option ActiveSubscription) : (s.setSubscription X o).table =
    { s.table with entry := Function.update s.table.entry (.subscriber, X) (o.map subView) } := by
  refine Roster.ext' (fun k => ?_) fun _ _ => Iff.rfl
  obtain ⟨_ | _, Y⟩ := k
  · simp
  · by_cases hY : Y = X
    · subst hY
      simp
    · simp [hY]

theorem mem_publicationsOf_modifyHost (f : LocalHost → LocalHost) :
    Y ∈ (s.modifyHost host f).publicationsOf h ↔
      if h = host then ∃ l, s.localPubSubIndex host = some l ∧ Y ∈ (f l).activePublications
      else Y ∈ s.publicationsOf h := by
  unfold publicationsOf modifyHost
  by_cases hh : h = host
  · subst hh
    cases s.localPubSubIndex h <;> simp
  · simp [hh]

theorem mem_subscriptionsOf_modifyHost (f : LocalHost → LocalHost) :
    Y ∈ (s.modifyHost host f).subscriptionsOf h ↔
      if h = host then ∃ l, s.localPubSubIndex host = some l ∧ Y ∈ (f l).activeSubscriptions
      else Y ∈ s.subscriptionsOf h := by
  unfold subscriptionsOf modifyHost
  by_cases hh : h = host
  · subst hh
    cases s.localPubSubIndex h <;> simp
  · simp [hh]

theorem table_modifyHost {f : LocalHost → LocalHost} {keys : Set Key}
    (hf : ∀ l, s.localPubSubIndex host = some l →
      (∀ X, X ∈ (f l).activePublications ↔ (.publisher, X) ∈ keys) ∧
        ∀ X, X ∈ (f l).activeSubscriptions ↔ (.subscriber, X) ∈ keys)
    (hnone : s.localPubSubIndex host = none → keys = ∅) :
    (s.modifyHost host f).table =
      { s.table with keysOf := Function.update s.table.keysOf host keys } := by
  refine Roster.ext' (fun k => ?_) fun h k => ?_
  · obtain ⟨_ | _, Y⟩ := k <;> rfl
  · by_cases hh : h = host
    · subst hh
      cases hl : s.localPubSubIndex h with
      | none =>
        obtain rfl := hnone hl
        obtain ⟨_ | _, Y⟩ := k <;> simp [mem_publicationsOf_modifyHost,
          mem_subscriptionsOf_modifyHost, hl]
      | some l =>
        obtain ⟨hp, hs⟩ := hf l hl
        obtain ⟨_ | _, Y⟩ := k <;> simp [mem_publicationsOf_modifyHost,
          mem_subscriptionsOf_modifyHost, hl, hp, hs]
    · obtain ⟨_ | _, Y⟩ := k <;> simp [mem_publicationsOf_modifyHost,
        mem_subscriptionsOf_modifyHost, hh]

theorem keysOf_of_some {l : LocalHost} (hl : s.localPubSubIndex host = some l) :
    (∀ X, X ∈ l.activePublications ↔ (.publisher, X) ∈ s.table.keysOf host) ∧
      ∀ X, X ∈ l.activeSubscriptions ↔ (.subscriber, X) ∈ s.table.keysOf host := by
  constructor <;> intro X <;> simp [publicationsOf, subscriptionsOf, hl]

theorem keysOf_of_none (hl : s.localPubSubIndex host = none) : s.table.keysOf host = ∅ := by
  refine Set.eq_empty_of_forall_notMem fun k => ?_
  obtain ⟨_ | _, Y⟩ := k <;> simp [publicationsOf, subscriptionsOf, hl]

theorem table_addActivePublication (hhost : s.localPubSubIndex host ≠ none) :
    (s.addActivePublication host X).table = { s.table with
      keysOf := Function.update s.table.keysOf host (insert (.publisher, X) (s.table.keysOf host)) } := by
  refine table_modifyHost (fun l hl => ?_) fun h => absurd h hhost
  obtain ⟨hp, hs⟩ := keysOf_of_some hl
  constructor <;> intro Y <;> simp [hp, hs]

theorem table_addActiveSubscription (hhost : s.localPubSubIndex host ≠ none) :
    (s.addActiveSubscription host X).table = { s.table with
      keysOf := Function.update s.table.keysOf host (insert (.subscriber, X) (s.table.keysOf host)) } := by
  refine table_modifyHost (fun l hl => ?_) fun h => absurd h hhost
  obtain ⟨hp, hs⟩ := keysOf_of_some hl
  constructor <;> intro Y <;> simp [hp, hs]

theorem table_eraseActivePublication : (s.eraseActivePublication host X).table = { s.table with
    keysOf := Function.update s.table.keysOf host (s.table.keysOf host \ {(.publisher, X)}) } := by
  refine table_modifyHost (fun l hl => ?_) fun h => by rw [keysOf_of_none h, Set.empty_sdiff]
  obtain ⟨hp, hs⟩ := keysOf_of_some hl
  constructor <;> intro Y <;> simp [hp, hs, and_comm]

theorem table_eraseActiveSubscription : (s.eraseActiveSubscription host X).table = { s.table with
    keysOf := Function.update s.table.keysOf host (s.table.keysOf host \ {(.subscriber, X)}) } := by
  refine table_modifyHost (fun l hl => ?_) fun h => by rw [keysOf_of_none h, Set.empty_sdiff]
  obtain ⟨hp, hs⟩ := keysOf_of_some hl
  constructor <;> intro Y <;> simp [hp, hs, and_comm]

/-! ## Publishers as sets -/

theorem keys_findInsert : (findInsert publishers host state).keys.toFinset =
    insert host publishers.keys.toFinset := by
  unfold findInsert
  split
  · next hmem =>
    rw [Finset.insert_eq_of_mem]
    exact List.mem_toFinset.mpr (AList.mem_keys.mp hmem)
  · ext h
    simp only [List.mem_toFinset, ← AList.mem_keys, AList.mem_insert, Finset.mem_insert]

theorem keys_erase : (publishers.erase host).keys.toFinset = publishers.keys.toFinset.erase host := by
  ext h
  simp only [List.mem_toFinset, ← AList.mem_keys, AList.mem_erase, Finset.mem_erase]

theorem keys_eq_nil : publishers.keys = [] ↔ publishers.keys.toFinset = ∅ := by
  rw [List.toFinset_eq_empty_iff]

theorem pubView_erase : pubView { ap with publishers := ap.publishers.erase host } =
    ((pubView ap).1, (pubView ap).2.erase host) := by
  simp only [pubView, keys_erase]

theorem toFinset_insert (l : ListSet HostId) : (l.insert host).toList.toFinset =
    insert host l.toList.toFinset := by
  ext h
  rw [List.mem_toFinset, ListSet.mem_toList, ListSet.mem_insert, Finset.mem_insert,
    List.mem_toFinset, ListSet.mem_toList]

theorem toFinset_insert_empty : (ListSet.insert ∅ host).toList.toFinset = {host} := by
  rw [toFinset_insert]
  rfl

theorem toFinset_erase (l : ListSet HostId) : (l.erase host).toList.toFinset =
    l.toList.toFinset.erase host := by
  ext h
  rw [List.mem_toFinset, ListSet.mem_toList, ListSet.mem_erase, Finset.mem_erase,
    List.mem_toFinset, ListSet.mem_toList]

theorem size_eq_zero_iff (l : ListSet HostId) : l.size = 0 ↔ l.toList.toFinset = ∅ := by
  rw [ListSet.size, List.length_eq_zero_iff, List.toFinset_eq_empty_iff]

theorem subView_erase : subView { sub with subscribers := sub.subscribers.erase host } =
    ((subView sub).1, (subView sub).2.erase host) := by
  simp only [subView, toFinset_erase]

/-! ## Requests -/

theorem table_setPublication_add (o : Option ActivePublication)
    (hhost : s.localPubSubIndex host ≠ none) :
    ((s.setPublication X o).addActivePublication host X).table = {
      entry := Function.update s.table.entry (.publisher, X) (o.map pubView)
      keysOf := Function.update s.table.keysOf host (insert (.publisher, X) (s.table.keysOf host)) } := by
  rw [table_addActivePublication (s := s.setPublication X o) hhost, table_setPublication]

theorem table_setSubscription_add (o : Option ActiveSubscription)
    (hhost : s.localPubSubIndex host ≠ none) :
    ((s.setSubscription X o).addActiveSubscription host X).table = {
      entry := Function.update s.table.entry (.subscriber, X) (o.map subView)
      keysOf := Function.update s.table.keysOf host (insert (.subscriber, X) (s.table.keysOf host)) } := by
  rw [table_addActiveSubscription (s := s.setSubscription X o) hhost, table_setSubscription]

/-- The strategies with which `store` and `remove` do anything. -/
def accepts : Role → Strategy → Bool
  | .publisher, strategy => strategy = nodeLocal ∨ strategy = domainLocal
  | .subscriber, _ => true

/-- The strategies whose registrations the rendezvous element hears of. -/
def forwards : Role → Strategy → Bool
  | .publisher, strategy => strategy = nodeLocal ∨ strategy = domainLocal
  | .subscriber, strategy => !staysLocal strategy

/-- What a registration can do, with the flag to forward it. -/
inductive Stored (s : LocalProxy) (k : Key) (host : HostId) (a : Attr) : Bool → LocalProxy → Prop
  | refused (h : accepts k.1 a.strategy = false ∨
      ∃ e, s.entryAt k = some e ∧ e.attr.strategy ≠ a.strategy) : Stored s k host a false s
  | created {s' : LocalProxy} (hacc : accepts k.1 a.strategy = true) (hnone : s.entryAt k = none)
      (he : s'.entryAt = Function.update s.entryAt k (some (.new k host a)))
      (ht : s'.table = s.table.join k host a) : Stored s k host a (forwards k.1 a.strategy) s'
  | joined {s' : LocalProxy} {e : Entry} (hsome : s.entryAt k = some e)
      (hst : e.attr.strategy = a.strategy)
      (he : s'.entryAt = Function.update s.entryAt k (some (e.join host)))
      (ht : s'.table = s.table.join k host a) : Stored s k host a false s'

/-- What a withdrawal can do. -/
inductive Removed (s : LocalProxy) (k : Key) (host : HostId) (strategy : Strategy) :
    Bool → LocalProxy → Prop
  | refused (h : accepts k.1 strategy = false ∨ s.entryAt k = none ∨
      ∃ e, s.entryAt k = some e ∧ e.attr.strategy ≠ strategy) : Removed s k host strategy false s
  | last {s' : LocalProxy} {e : Entry} (hsome : s.entryAt k = some e)
      (hst : e.attr.strategy = strategy) (hlast : (e.without host).hosts = ∅)
      (he : s'.entryAt = Function.update s.entryAt k none)
      (ht : s'.table = s.table.leave k host) : Removed s k host strategy (forwards k.1 strategy) s'
  | others {s' : LocalProxy} {e : Entry} (hsome : s.entryAt k = some e)
      (hst : e.attr.strategy = strategy) (hmore : (e.without host).hosts ≠ ∅)
      (he : s'.entryAt = Function.update s.entryAt k (some (e.without host)))
      (ht : s'.table = s.table.leave k host) : Removed s k host strategy false s'

theorem storeActivePublication_spec (hhost : s.localPubSubIndex host ≠ none) (X : Id)
    (strategy : Strategy) (RVFID : Bitvector) (isScope : Bool) :
    Stored s (.publisher, X) host ⟨X, strategy, isScope, RVFID⟩
      (s.storeActivePublication host X strategy RVFID isScope).1
      (s.storeActivePublication host X strategy RVFID isScope).2 := by
  unfold storeActivePublication
  by_cases hacc : strategy = nodeLocal ∨ strategy = domainLocal
  · rw [if_pos hacc]
    cases hX : s.activePublicationIndex X with
    | none =>
      have hfwd : forwards .publisher strategy = true := decide_eq_true hacc
      rw [← hfwd]
      refine .created (decide_eq_true hacc) (by simp [hX]) ?_ ?_
      · exact (entryAt_modifyHost _).trans (entryAt_setPublication _)
      · rw [table_setPublication_add _ hhost]
        simp [Roster.join, hX, pubView, keys_findInsert]
    | some ap =>
      by_cases hap : ap.strategy = strategy
      · simp only [if_pos hap]
        refine .joined (e := .inl ap) (by simp [hX]) hap ?_ ?_
        · exact (entryAt_modifyHost _).trans (entryAt_setPublication _)
        · rw [table_setPublication_add _ hhost]
          simp [Roster.join, hX, pubView, keys_findInsert]
      · simp only [if_neg hap]
        exact .refused (Or.inr ⟨.inl ap, by simp [hX], hap⟩)
  · rw [if_neg hacc]
    exact .refused (Or.inl (decide_eq_false hacc))

theorem removeActivePublication_spec (s : LocalProxy) (host : HostId) (X : Id)
    (strategy : Strategy) : Removed s (.publisher, X) host strategy
      (s.removeActivePublication host X strategy).1
      (s.removeActivePublication host X strategy).2 := by
  unfold removeActivePublication
  by_cases hacc : strategy = nodeLocal ∨ strategy = domainLocal
  · rw [if_pos hacc]
    cases hX : s.activePublicationIndex X with
    | none => exact .refused (Or.inr (Or.inl (by simp [hX])))
    | some ap =>
      have he : s.entryAt (.publisher, X) = some (.inl ap) := by simp [hX]
      by_cases hap : ap.strategy = strategy
      · simp only [if_pos hap]
        by_cases hlast : (ap.publishers.erase host).keys = []
        · have hfwd : forwards .publisher strategy = true := decide_eq_true hacc
          rw [if_pos hlast, ← hfwd]
          rw [keys_eq_nil] at hlast
          refine .last he hap hlast ?_ ?_
          · rw [entryAt_setPublication]
            exact congrArg (Function.update · _ _) (entryAt_modifyHost _)
          · rw [keys_erase] at hlast
            rw [table_setPublication, table_eraseActivePublication]
            simp [Roster.leave, Roster.without, hX, pubView, hlast]
        · rw [if_neg hlast]
          rw [keys_eq_nil] at hlast
          refine .others he hap hlast ?_ ?_
          · rw [entryAt_setPublication]
            exact congrArg (Function.update · _ _) (entryAt_modifyHost _)
          · rw [keys_erase] at hlast
            have hmore : (pubView ap).2.erase host ≠ ∅ := hlast
            rw [table_setPublication, table_eraseActivePublication]
            simp [Roster.leave, Roster.without, hX, hmore, pubView_erase]
      · simp only [if_neg hap]
        exact .refused (Or.inr (Or.inr ⟨_, he, hap⟩))
  · rw [if_neg hacc]
    exact .refused (Or.inl (decide_eq_false hacc))

theorem storeActiveSubscription_spec (hhost : s.localPubSubIndex host ≠ none) (X : Id)
    (strategy : Strategy) (RVFID : Bitvector) (isScope : Bool) :
    Stored s (.subscriber, X) host ⟨X, strategy, isScope, RVFID⟩
      (s.storeActiveSubscription host X strategy RVFID isScope).1
      (s.storeActiveSubscription host X strategy RVFID isScope).2 := by
  unfold storeActiveSubscription
  cases hX : s.activeSubscriptionIndex X with
  | none =>
    refine .created rfl (by simp [hX]) ?_ ?_
    · exact (entryAt_modifyHost _).trans (entryAt_setSubscription _)
    · rw [table_setSubscription_add _ hhost]
      simp [Roster.join, hX, subView, toFinset_insert_empty]
  | some sub =>
    by_cases hsub : sub.strategy = strategy
    · simp only [if_pos hsub]
      refine .joined (e := .inr sub) (by simp [hX]) hsub ?_ ?_
      · exact (entryAt_modifyHost _).trans (entryAt_setSubscription _)
      · rw [table_setSubscription_add _ hhost]
        simp [Roster.join, hX, subView, toFinset_insert]
    · simp only [if_neg hsub]
      exact .refused (Or.inr ⟨.inr sub, by simp [hX], hsub⟩)

theorem removeActiveSubscription_spec (s : LocalProxy) (host : HostId) (X : Id)
    (strategy : Strategy) : Removed s (.subscriber, X) host strategy
      (s.removeActiveSubscription host X strategy).1
      (s.removeActiveSubscription host X strategy).2 := by
  unfold removeActiveSubscription
  cases hX : s.activeSubscriptionIndex X with
  | none => exact .refused (Or.inr (Or.inl (by simp [hX])))
  | some sub =>
    have he : s.entryAt (.subscriber, X) = some (.inr sub) := by simp [hX]
    by_cases hsub : sub.strategy = strategy
    · simp only [if_pos hsub]
      by_cases hlast : (sub.subscribers.erase host).size = 0
      · rw [if_pos hlast]
        rw [size_eq_zero_iff] at hlast
        refine .last he hsub hlast ?_ ?_
        · rw [entryAt_setSubscription]
          exact congrArg (Function.update · _ _) (entryAt_modifyHost _)
        · rw [toFinset_erase] at hlast
          rw [table_setSubscription, table_eraseActiveSubscription]
          simp [Roster.leave, Roster.without, hX, subView, hlast]
      · rw [if_neg hlast]
        rw [size_eq_zero_iff] at hlast
        refine .others he hsub hlast ?_ ?_
        · rw [entryAt_setSubscription]
          exact congrArg (Function.update · _ _) (entryAt_modifyHost _)
        · rw [toFinset_erase] at hlast
          have hmore : (subView sub).2.erase host ≠ ∅ := hlast
          rw [table_setSubscription, table_eraseActiveSubscription]
          simp [Roster.leave, Roster.without, hX, hmore, subView_erase]
    · simp only [if_neg hsub]
      exact .refused (Or.inr (Or.inr ⟨_, he, hsub⟩))

/-- The key that a request is about. -/
def keyOf (r : Request) : Key := (r.type.role, r.fullID)

/-- What a request registers. -/
def attrOf (r : Request) (RVFID : Bitvector) : Attr :=
  ⟨r.fullID, r.strategy, r.type.kind = .scope, RVFID⟩

/-- What a request can do to the indexes. -/
def Served (s : LocalProxy) (host : HostId) (r : Request) (RVFID : Bitvector) (forward : Bool)
    (s' : LocalProxy) : Prop :=
  if r.type.enters then Stored s (keyOf r) host (attrOf r RVFID) forward s'
  else Removed s (keyOf r) host r.strategy forward s'

theorem handleLocalRequest_spec (hhost : s.localPubSubIndex host ≠ none) (r : Request)
    (RVFID : Bitvector) : Served s host r RVFID
      (s.handleLocalRequest r.type host r.ID r.prefixID r.strategy RVFID).1
      (s.handleLocalRequest r.type host r.ID r.prefixID r.strategy RVFID).2 := by
  obtain ⟨type, ID, prefixID, strategy⟩ := r
  have hfull : (if ID.length = pursuitIdLen then prefixID ++ ID else prefixID ++ suffixOf ID) =
      prefixID ++ suffixOf ID := by
    split
    · next hID => rw [suffixOf_of_length hID]
    · rfl
  unfold handleLocalRequest
  simp only [hfull]
  cases type with
  | publishScope => exact storeActivePublication_spec hhost _ _ _ _
  | publishInfo => exact storeActivePublication_spec hhost _ _ _ _
  | subscribeScope => exact storeActiveSubscription_spec hhost _ _ _ _
  | subscribeInfo => exact storeActiveSubscription_spec hhost _ _ _ _
  | unpublishScope => exact removeActivePublication_spec s _ _ _
  | unpublishInfo => exact removeActivePublication_spec s _ _ _
  | unsubscribeScope => exact removeActiveSubscription_spec s _ _ _
  | unsubscribeInfo => exact removeActiveSubscription_spec s _ _ _

end LocalProxy

end Blackadder
