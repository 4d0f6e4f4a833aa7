import Blackadder.Proxy.Token

/-!
# Withdrawing by hand

A host can end its registrations one by one, with a request for each.
-/

namespace Blackadder

namespace LocalProxy

/-- The requests of one host, one after the other. -/
def byHand (type : HostType) (host : HostId) (s : LocalProxy) (rs : List Request) :
    Result (LocalProxy × List ProxyOutput) :=
  Cells.collect (fun s r => return s.pushRequest type host r) s rs

/-- The request that ends the registrations of an entry. -/
def Entry.withdrawal : Entry → Request
  | .inl ap => LocalProxy.withdrawal (unpublishType (kind (.inl ap))) ap.fullID ap.strategy
  | .inr sub => LocalProxy.withdrawal (unsubscribeType (kind (.inr sub))) sub.fullID sub.strategy

def Entry.role : Entry → Role
  | .inl _ => .publisher
  | .inr _ => .subscriber

/-- The requests that end the registrations of some keys. -/
def withdrawals (s : LocalProxy) (keys : List Key) : List Request :=
  keys.filterMap fun k => (s.entryAt k).map Entry.withdrawal

/-- What a request for withdrawal makes of an entry, and what is sent. -/
def removal (gc : GlobalConf) (host : HostId) (e : Entry) : Option Entry × List ProxyOutput :=
  if (e.without host).hosts = ∅ then
    (none, if forwards e.role e.attr.strategy then
      [.toRV (rendezvousFID gc e.attr.strategy) e.withdrawal] else [])
  else (some (e.without host), [])

variable {s s' t : LocalProxy} {host h : HostId} {X : Id} {k : Key} {e : Entry} {r : Request}
  {type : HostType} {keys : List Key} {gc : GlobalConf} {strategy : Strategy}
  {pubOrder subOrder : List Id}

/-! ## One request -/

theorem role_of_entryAt (he : s.entryAt k = some e) : e.role = k.1 := by
  obtain ⟨_ | _, X⟩ := k <;> obtain ⟨_, -, rfl⟩ := Option.map_eq_some_iff.mp he <;> rfl

theorem withdrawal_fullID {ty : RequestType} (hX : pursuitIdLen ∣ X.length) :
    (withdrawal ty X strategy).fullID = X := by
  rw [Request.fullID, withdrawal]
  by_cases hnil : X = []
  · subst hnil
    rfl
  · rw [suffixOf_of_length (suffixOf_length (Request.length_of_dvd hX hnil)),
      fatherOf_append_suffixOf]

theorem keyOf_withdrawal (he : s.entryAt k = some e) (hfull : e.attr.fullID = k.2)
    (hlen : pursuitIdLen ∣ k.2.length) : keyOf e.withdrawal = k ∧ e.withdrawal.type.enters = false ∧
      e.withdrawal.strategy = e.attr.strategy := by
  have hrole := role_of_entryAt he
  rw [← hfull] at hlen
  cases e with
  | inl ap =>
    refine ⟨Prod.ext ?_ ((withdrawal_fullID hlen).trans hfull), ?_, rfl⟩
    · rw [← hrole]
      cases hk : Entry.kind (.inl ap) <;> simp [keyOf, Entry.withdrawal, LocalProxy.withdrawal, hk,
        unpublishType, RequestType.role, Entry.role]
    · cases hk : Entry.kind (.inl ap) <;> simp [Entry.withdrawal, LocalProxy.withdrawal, hk,
        unpublishType, RequestType.enters]
  | inr sub =>
    refine ⟨Prod.ext ?_ ((withdrawal_fullID hlen).trans hfull), ?_, rfl⟩
    · rw [← hrole]
      cases hk : Entry.kind (.inr sub) <;> simp [keyOf, Entry.withdrawal, LocalProxy.withdrawal, hk,
        unsubscribeType, RequestType.role, Entry.role]
    · cases hk : Entry.kind (.inr sub) <;> simp [Entry.withdrawal, LocalProxy.withdrawal, hk,
        unsubscribeType, RequestType.enters]

theorem rest_removeActivePublication (X : Id) (strategy : Strategy) :
    rest host (s.removeActivePublication host X strategy).2 = rest host s := by
  unfold removeActivePublication
  dsimp only
  split
  · split
    · rfl
    · split
      · split <;> simp [eraseActivePublication]
      · rfl
  · rfl

theorem rest_removeActiveSubscription (X : Id) (strategy : Strategy) :
    rest host (s.removeActiveSubscription host X strategy).2 = rest host s := by
  unfold removeActiveSubscription
  dsimp only
  split
  · rfl
  · split
    · split <;> simp [eraseActiveSubscription]
    · rfl

theorem getLocalHost_of_indexed (hidx : (rest host s).indexed = true) :
    s.getLocalHost type host = s := by
  obtain ⟨l, hl⟩ := Option.isSome_iff_exists.mp hidx
  simp [getLocalHost, hl]

theorem rest_pushRequest (hidx : (rest host s).indexed = true) (hr : r.type.enters = false) :
    rest host (s.pushRequest type host r).1 = rest host s := by
  have hlocal : ∀ RVFID, rest host (s.handleLocalRequest r.type host r.ID r.prefixID r.strategy
      RVFID).2 = rest host s := by
    intro RVFID
    unfold handleLocalRequest
    cases hty : r.type with
    | publishScope => simp [hty, RequestType.enters] at hr
    | publishInfo => simp [hty, RequestType.enters] at hr
    | subscribeScope => simp [hty, RequestType.enters] at hr
    | subscribeInfo => simp [hty, RequestType.enters] at hr
    | unpublishScope => exact rest_removeActivePublication _ _
    | unpublishInfo => exact rest_removeActivePublication _ _
    | unsubscribeScope => exact rest_removeActiveSubscription _ _
    | unsubscribeInfo => exact rest_removeActiveSubscription _ _
  simp only [pushRequest, getLocalHost_of_indexed hidx]
  have hall := hlocal (if r.strategy = domainLocal then s.gc.defaultRVdl else 0)
  split
  all_goals
    next heq =>
      rw [heq] at hall
      exact hall

/-- What a withdrawal by hand makes of its cell. -/
def removeTurn (rst : Rest) (host : HostId) (c : Option Entry × Prop) :
    (Option Entry × Prop) × List ProxyOutput :=
  match c.1 with
  | none => (c, [])
  | some e => (((removal rst.gc host e).1, False), (removal rst.gc host e).2)

/-- The request names the entry, which accepts it. -/
structure Matches (rst : Rest) (r : Request) (c : Option Entry × Prop) : Prop where
  indexed : rst.indexed = true
  leaves : r.type.enters = false
  entry : ∃ e, c.1 = some e ∧ r = e.withdrawal ∧ r.strategy = e.attr.strategy ∧
    accepts (keyOf r).1 e.attr.strategy = true

theorem pushRequest_writes (type : HostType) (host : HostId) :
    Cells.Writes (ε := Fault) (fun s r => return s.pushRequest type host r) keyOf (cell host)
      (rest host) Matches (fun rst _ => removeTurn rst host) := by
  intro s r hm
  obtain ⟨e, he, hreq, hst, hacc⟩ := hm.entry
  have he : s.entryAt (keyOf r) = some e := he
  have hrole := role_of_entryAt he
  have hturn : removeTurn (rest host s) host (cell host s (keyOf r)) =
      (((removal s.gc host e).1, False), (removal s.gc host e).2) := by
    rw [removeTurn, cell, he]
    rfl
  obtain ⟨forward, s', hserved, hpush⟩ := pushRequest_spec s type host r
  have hrest : rest host (s.pushRequest type host r).1 = rest host s :=
    rest_pushRequest hm.indexed hm.leaves
  rw [hpush] at hrest
  rw [getLocalHost_of_indexed hm.indexed, Served, if_neg (by simp [hm.leaves])] at hserved
  refine ⟨s', ?_⟩
  dsimp only
  rw [hturn, hpush]
  cases hserved with
  | refused href =>
    rw [he, hst, hacc] at href
    rcases href with href | href | ⟨e', hsome, hne⟩
    · cases href
    · cases href
    · obtain rfl := Option.some.inj hsome
      exact absurd rfl hne
  | last hsome _ hlast hentry ht =>
    obtain rfl := Option.some.inj (he.symm.trans hsome)
    have hkeys : s'.table.keysOf host = s.table.keysOf host \ {keyOf r} := by
      rw [ht]
      exact Function.update_self _ _ _
    rw [removal, if_pos hlast, hrole, ← hst, ← hreq]
    exact ⟨rfl, cell_eq_update hentry hkeys, hrest⟩
  | others hsome _ hmore hentry ht =>
    obtain rfl := Option.some.inj (he.symm.trans hsome)
    have hkeys : s'.table.keysOf host = s.table.keysOf host \ {keyOf r} := by
      rw [ht]
      exact Function.update_self _ _ _
    rw [removal, if_neg hmore]
    exact ⟨rfl, cell_eq_update hentry hkeys, hrest⟩

/-! ## All requests -/

theorem mem_withdrawals : r ∈ s.withdrawals keys ↔
    ∃ k ∈ keys, ∃ e, s.entryAt k = some e ∧ e.withdrawal = r := by
  simp [withdrawals]

theorem map_keyOf_withdrawals (hfound : ∀ k ∈ keys, ∃ e, s.entryAt k = some e ∧
    e.attr.fullID = k.2 ∧ pursuitIdLen ∣ k.2.length) : (s.withdrawals keys).map keyOf = keys := by
  induction keys with
  | nil => rfl
  | cons k keys ih =>
    obtain ⟨e, he, hfull, hlen⟩ := hfound k List.mem_cons_self
    have hrest := ih fun k hk => hfound k (List.mem_cons_of_mem _ hk)
    rw [withdrawals, List.filterMap_cons, he]
    simp only [Option.map_some, List.map_cons, (keyOf_withdrawal he hfull hlen).1]
    exact congrArg (k :: ·) hrest

/-- What the request for a key makes of its entry. -/
def removalAt (s : LocalProxy) (host : HostId) (k : Key) : Option Entry × List ProxyOutput :=
  match s.entryAt k with
  | none => (none, [])
  | some e => removal s.gc host e

/-- Requests for all entries of the host take it from each of them. -/
theorem byHand_spec (hs : s.Sound) (type : HostType) (hnodup : keys.Nodup)
    (hkeys : ∀ k, k ∈ keys ↔ k ∈ s.table.keysOf host) :
    ∃ t, byHand type host s (s.withdrawals keys) =
        .ok (t, keys.flatMap fun k => (s.removalAt host k).2) ∧
      (∀ k ∈ s.table.keysOf host, t.entryAt k = (s.removalAt host k).1) ∧
      ∀ k, k ∉ s.table.keysOf host → t.entryAt k = s.entryAt k := by
  have hfound : ∀ k ∈ keys, ∃ e, s.entryAt k = some e ∧ e.attr.fullID = k.2 ∧
      pursuitIdLen ∣ k.2.length := fun k hk => hs.found host k ((hkeys k).mp hk)
  have hmap := map_keyOf_withdrawals hfound
  have hturn : ∀ r ∈ s.withdrawals keys, removeTurn (rest host s) host (cell host s (keyOf r)) =
      (((s.removalAt host (keyOf r)).1, False), (s.removalAt host (keyOf r)).2) := by
    intro r hr
    obtain ⟨k, hk, e, he, rfl⟩ := mem_withdrawals.mp hr
    obtain ⟨e', he', hfull, hlen⟩ := hfound k hk
    obtain rfl := Option.some.inj (he.symm.trans he')
    rw [(keyOf_withdrawal he hfull hlen).1, removeTurn, cell, removalAt, he]
    rfl
  obtain ⟨t, hrun, hdone, hothers, -⟩ := Cells.collect_writes (s := s)
    (pushRequest_writes type host) (hmap.symm ▸ hnodup) fun r hr => by
      obtain ⟨k, hk, e, he, rfl⟩ := mem_withdrawals.mp hr
      obtain ⟨e', he', hfull, hlen⟩ := hfound k hk
      obtain rfl := Option.some.inj (he.symm.trans he')
      obtain ⟨hkey, hleaves, hst⟩ := keyOf_withdrawal he hfull hlen
      have hidx : s.localPubSubIndex host ≠ none := fun hnone => by
        have hknown := (hkeys k).mp hk
        rw [keysOf_of_none hnone] at hknown
        exact hknown
      refine ⟨Option.isSome_iff_ne_none.mpr hidx, hleaves, e, ?_, rfl, hst, ?_⟩
      · rw [hkey]
        exact he
      · rw [hkey]
        exact hs.accepted_of_entryAt he
  refine ⟨t, ?_, fun k hk => ?_, fun k hk => ?_⟩
  · have houts : (s.withdrawals keys).flatMap (fun r =>
        (removeTurn (rest host s) host (cell host s (keyOf r))).2) =
          keys.flatMap fun k => (s.removalAt host k).2 := by
      rw [← congrArg (List.flatMap fun k => (s.removalAt host k).2) hmap, List.flatMap_map]
      exact List.flatMap_congr fun r hr => by rw [hturn r hr]
    rw [byHand, hrun, houts]
  · have hmem : k ∈ (s.withdrawals keys).map keyOf := by rwa [hmap, hkeys]
    obtain ⟨r, hr, rfl⟩ := List.mem_map.mp hmem
    have hcell := hdone r hr
    rw [hturn r hr] at hcell
    exact congrArg Prod.fst hcell
  · exact entryAt_eq (hothers k (by rwa [hmap, hkeys]))

/-! ## The two ways compared -/

theorem hosts_without (e : Entry) : (e.without host).hosts = e.hosts.erase host := by
  cases e with
  | inl ap => exact keys_erase
  | inr sub => exact toFinset_erase _

/-- The departure of `host` makes another publisher start. -/
def Entry.Promotes (host : HostId) (e : Entry) : Prop :=
  ∃ ap, e = .inl ap ∧ ap.isScope = false ∧ ap.publishers.lookup host = some .startPublish

/-- What a disconnection sends when the last host leaves an entry. -/
def Entry.notice (e : Entry) : ProxyOutput :=
  sendToRV e.attr.RVFID e.withdrawal.type e.attr.fullID e.attr.strategy

theorem notice_of_le (hlen : pursuitIdLen ≤ e.attr.fullID.length) :
    e.notice = .toRV e.attr.RVFID e.withdrawal := by
  rw [Entry.notice, sendToRV_of_le hlen]
  cases e <;> rfl

theorem notice_of_nil (hnil : e.attr.fullID = []) :
    e.notice = .unsetToRV e.attr.RVFID e.withdrawal.type e.attr.strategy := by
  rw [Entry.notice, hnil]
  rfl

theorem left_of_last (hacc : accepts e.role e.attr.strategy = true)
    (hlast : (e.without host).hosts = ∅) : e.left host =
      (none, if forwards e.role e.attr.strategy then [e.notice] else []) := by
  cases e with
  | inl ap =>
    have hfwd : forwards (Entry.role (.inl ap)) (Entry.attr (.inl ap)).strategy = true := hacc
    rw [if_pos hfwd, Entry.left, publicationLeft_last (keys_eq_nil.mpr hlast)]
    rfl
  | inr sub =>
    have hzero := (size_eq_zero_iff _).mpr hlast
    simp only [Entry.left, subscriptionLeft, if_pos hzero, forwards, Entry.role]
    cases hstays : staysLocal sub.strategy <;>
      simp [Entry.attr, Entry.view, subView, hstays, Entry.notice, Entry.withdrawal,
        LocalProxy.withdrawal]

theorem left_of_kept (hmem : host ∈ e.hosts) (hmore : (e.without host).hosts ≠ ∅)
    (hp : ¬ e.Promotes host) : e.left host = (some (e.without host), []) := by
  cases e with
  | inl ap =>
    have hkeys : (ap.publishers.erase host).keys ≠ [] := fun h => hmore (keys_eq_nil.mp h)
    rw [Entry.left, publicationLeft_kept hkeys]
    · rfl
    · rintro ⟨hk, hstate⟩
      have hin : host ∈ ap.publishers := AList.mem_keys.mpr (List.mem_toFinset.mp hmem)
      obtain ⟨st, hst⟩ := Option.isSome_iff_exists.mp (AList.lookup_isSome.mpr hin)
      refine hp ⟨ap, rfl, kind_eq_iff.mp hk, ?_⟩
      cases st with
      | startPublish => exact hst
      | stopPublish => exact absurd hst hstate
  | inr sub =>
    have hsize : (sub.subscribers.erase host).size ≠ 0 := fun h => hmore ((size_eq_zero_iff _).mp h)
    simp only [Entry.left, subscriptionLeft, if_neg hsize]
    rfl

theorem left_of_promotes (hmore : (e.without host).hosts ≠ ∅) (hp : e.Promotes host) :
    ∃ first, .notify .startPublish first e.attr.fullID ∈ (e.left host).2 := by
  obtain ⟨ap, rfl, hscope, hstart⟩ := hp
  have hkeys : (ap.publishers.erase host).keys ≠ [] := fun h => hmore (keys_eq_nil.mp h)
  obtain ⟨first, rest, hcons⟩ := List.exists_cons_of_ne_nil hkeys
  have hkind : Entry.kind (.inl ap) = .item := kind_eq_iff.mpr hscope
  refine ⟨first, ?_⟩
  rw [Entry.left, publicationLeft_handed hkeys ⟨hkind, by rw [hstart]; decide⟩,
    startFirst_of_keys { ap with publishers := ap.publishers.erase host } hcons]
  exact List.mem_singleton.mpr rfl

/-- The host has no scope under the empty id, it is told to publish no item that others publish too,
and what it alone registered has an id and was registered over the FID that is in use now. -/
def AgreesByHand (s : LocalProxy) (host : HostId) : Prop :=
  s.Clear host ∧
  (∀ X ap, s.activePublicationIndex X = some ap → ap.isScope = false →
    ap.publishers.lookup host = some .startPublish → ∀ other ∈ ap.publishers, other = host) ∧
  ∀ k e, s.entryAt k = some e → e.hosts = {host} → forwards k.1 e.attr.strategy = true →
    k.2 ≠ [] ∧ e.attr.RVFID = rendezvousFID s.gc e.attr.strategy

theorem Sound.entryAt_of_mem (hs : s.Sound) (hk : k ∈ s.table.keysOf host) :
    ∃ e, s.entryAt k = some e ∧ host ∈ e.hosts := by
  obtain ⟨a, ms, hentry, hmem⟩ := (hs.linked.mem_keysOf host k).mp hk
  rw [table_entry] at hentry
  obtain ⟨e, he, hview⟩ := Option.map_eq_some_iff.mp hentry
  obtain rfl : e.hosts = ms := congrArg Prod.snd hview
  exact ⟨e, he, hmem⟩

theorem notice_eq (hs : s.Sound) (he : s.entryAt k = some e) (hne : k.2 ≠ []) :
    e.notice = .toRV e.attr.RVFID e.withdrawal := by
  have hentry : s.table.entry k = some (e.attr, e.hosts) := by
    rw [table_entry, he]
    rfl
  have hfull : e.attr.fullID = k.2 := hs.keyed _ _ _ hentry
  refine notice_of_le ?_
  rw [hfull]
  exact Request.length_of_dvd (hs.whole _ _ _ hentry) hne

theorem departure_eq_removal (hs : s.Sound) (ha : s.AgreesByHand host)
    (hk : k ∈ s.table.keysOf host) : s.departure host k = s.removalAt host k := by
  obtain ⟨e, he, hhost⟩ := hs.entryAt_of_mem hk
  obtain ⟨-, htoken, hsent⟩ := ha
  have hrole := role_of_entryAt he
  have hacc := hs.accepted_of_entryAt he
  have hdep : s.departure host k = e.left host := by rw [departure, he]
  have hrem : s.removalAt host k = removal s.gc host e := by rw [removalAt, he]
  rw [hdep, hrem, removal]
  by_cases hlast : (e.without host).hosts = ∅
  · rw [if_pos hlast, left_of_last (hrole ▸ hacc) hlast]
    by_cases hfwd : forwards e.role e.attr.strategy = true
    · have hone : e.hosts = {host} := by
        rw [hosts_without] at hlast
        rw [← Finset.insert_erase hhost, hlast]
        rfl
      obtain ⟨hne, hfid⟩ := hsent k e he hone (hrole ▸ hfwd)
      rw [if_pos hfwd, if_pos hfwd, notice_eq hs he hne, hfid]
    · rw [if_neg hfwd, if_neg hfwd]
  · rw [if_neg hlast]
    refine left_of_kept hhost hlast ?_
    rintro ⟨ap, rfl, hscope, hstart⟩
    obtain ⟨_ | _, X⟩ := k
    · obtain ⟨ap', hX, heq⟩ := exists_publication he
      obtain rfl := Sum.inl.inj heq
      obtain ⟨other, hother⟩ := Finset.nonempty_iff_ne_empty.mpr hlast
      rw [hosts_without, Finset.mem_erase] at hother
      have hin : other ∈ ap.publishers := AList.mem_keys.mpr (List.mem_toFinset.mp hother.2)
      exact hother.1 (htoken X ap hX hscope hstart other hin)
    · cases hrole

theorem sent_by_hand {o : ProxyOutput} (ho : o ∈ (s.removalAt host k).2) :
    ∃ e, s.entryAt k = some e ∧ o = .toRV (rendezvousFID s.gc e.attr.strategy) e.withdrawal := by
  cases he : s.entryAt k with
  | none => simp [removalAt, he] at ho
  | some e =>
    refine ⟨e, rfl, ?_⟩
    simp only [removalAt, he, removal] at ho
    split at ho
    · split at ho
      · exact List.mem_singleton.mp ho
      · cases ho
    · cases ho

theorem withdrawal_strategy (e : Entry) : e.withdrawal.strategy = e.attr.strategy := by
  cases e <;> rfl

/-- Whatever a disconnection sends is a request over the FID in use. -/
theorem agrees_of_sent (hs : s.Sound) (hc : s.Clear host)
    (hsent : ∀ k o, k ∈ s.table.keysOf host → o ∈ (s.departure host k).2 →
      ∃ k', o ∈ (s.removalAt host k').2) : s.AgreesByHand host := by
  refine ⟨hc, ?_, ?_⟩
  · intro X ap hX hscope hstart other hother
    by_contra hne
    have he : s.entryAt (.publisher, X) = some (.inl ap) := by simp [hX]
    have hin : host ∈ ap.publishers := AList.lookup_isSome.mp (by rw [hstart]; rfl)
    have hk : (.publisher, X) ∈ s.table.keysOf host :=
      (hs.linked.mem_keysOf host _).mpr (has_publisher.mpr ⟨ap, hX, hin⟩)
    have hmore : (Entry.without host (.inl ap)).hosts ≠ ∅ := by
      rw [hosts_without]
      exact Finset.ne_empty_of_mem (Finset.mem_erase.mpr
        ⟨hne, List.mem_toFinset.mpr (AList.mem_keys.mp hother)⟩)
    obtain ⟨first, hnotify⟩ := left_of_promotes hmore ⟨ap, rfl, hscope, hstart⟩
    have hdep : s.departure host (.publisher, X) = Entry.left host (.inl ap) := by
      rw [departure, he]
    obtain ⟨k', hk'⟩ := hsent _ _ hk (hdep ▸ hnotify)
    obtain ⟨e', -, heq⟩ := sent_by_hand hk'
    cases heq
  · intro k e he hone hfwd
    have hk : k ∈ s.table.keysOf host := by
      refine (hs.linked.mem_keysOf host k).mpr ⟨e.attr, e.hosts, ?_, by simp [hone]⟩
      rw [table_entry, he]
      rfl
    have hrole := role_of_entryAt he
    have hlast : (e.without host).hosts = ∅ := by
      rw [hosts_without, hone]
      simp
    have hdep : s.departure host k = e.left host := by rw [departure, he]
    have hleft := left_of_last (hrole ▸ hs.accepted_of_entryAt he) hlast
    rw [if_pos (hrole ▸ hfwd)] at hleft
    obtain ⟨k', hk'⟩ := hsent k e.notice hk (by rw [hdep, hleft]; simp)
    obtain ⟨e', -, heq⟩ := sent_by_hand hk'
    have hne : k.2 ≠ [] := by
      intro hnil
      obtain ⟨e₀, he₀, hfull, -⟩ := hs.found host k hk
      obtain rfl := Option.some.inj (he.symm.trans he₀)
      rw [notice_of_nil (hfull.trans hnil)] at heq
      cases heq
    refine ⟨hne, ?_⟩
    rw [notice_eq hs he hne] at heq
    obtain ⟨hfid, hreq⟩ := ProxyOutput.toRV.inj heq
    rw [hfid, ← withdrawal_strategy e', ← hreq, withdrawal_strategy]

theorem indexes_of_entryAt (h : s.entryAt = t.entryAt) :
    s.activePublicationIndex = t.activePublicationIndex ∧
      s.activeSubscriptionIndex = t.activeSubscriptionIndex := by
  constructor
  · funext X
    exact Option.map_injective Sum.inl_injective (congrFun h (.publisher, X))
  · funext X
    exact Option.map_injective Sum.inr_injective (congrFun h (.subscriber, X))

/-- By hand the host leaves all its entries, so the loops of the disconnection have to come to them
all. -/
theorem clear_of_entryAt (hs : s.Sound)
    (hout : ∀ k, ¬ s.Met host k → s'.entryAt k = s.entryAt k)
    (hin : ∀ k ∈ s.table.keysOf host, t.entryAt k = (s.removalAt host k).1)
    (hsame : s'.entryAt = t.entryAt) : s.Clear host := by
  refine (clear_iff hs).mpr fun k hk => ?_
  by_contra hmet
  obtain ⟨e, he, hhost⟩ := hs.entryAt_of_mem hk
  have hleft := (hin k hk).symm.trans ((congrFun hsame k).symm.trans (hout k hmet))
  have hrem : s.removalAt host k = removal s.gc host e := by rw [removalAt, he]
  rw [hrem, he, removal] at hleft
  split at hleft
  · cases hleft
  · have hhosts : (e.without host).hosts = e.hosts := congrArg Entry.hosts (Option.some.inj hleft)
    rw [hosts_without] at hhosts
    rw [← hhosts] at hhost
    exact Finset.notMem_erase host e.hosts hhost

theorem entryAt_of_indexes (hpub : s.activePublicationIndex = t.activePublicationIndex)
    (hsub : s.activeSubscriptionIndex = t.activeSubscriptionIndex) : s.entryAt = t.entryAt := by
  funext k
  obtain ⟨_ | _, X⟩ := k
  · rw [entryAt_publisher, entryAt_publisher, hpub]
  · rw [entryAt_subscriber, entryAt_subscriber, hsub]

/-- A disconnection leaves the indexes as requests by hand would and sends the same, exactly
when the host has no token to hand over, registered over the FID in use and has nothing to withdraw
under the empty id. -/
theorem disconnect_by_hand (hs : s.Reachable) (hw : s.Walks host pubOrder subOrder)
    (type : HostType) (hnodup : keys.Nodup) (hkeys : ∀ k, k ∈ keys ↔ k ∈ s.table.keysOf host) :
    ∃ s' outs t outs', s.disconnect pubOrder subOrder type host = .ok (s', outs) ∧
      byHand type host s (s.withdrawals keys) = .ok (t, outs') ∧
      ((s'.activePublicationIndex = t.activePublicationIndex ∧
        s'.activeSubscriptionIndex = t.activeSubscriptionIndex ∧ outs.Perm outs') ↔
        s.AgreesByHand host) := by
  have hsound := hs.sound
  obtain ⟨s', keys', hdisc, hnodup', hkeys', hin, hout, -, -⟩ := disconnect_met hsound hw type
  obtain ⟨t, hrun, hin', hout'⟩ := byHand_spec hsound type hnodup hkeys
  refine ⟨s', _, t, _, hdisc, hrun, ⟨?_, fun ha => ?_⟩⟩
  · rintro ⟨hpub, hsub, hperm⟩
    have hc := clear_of_entryAt hsound hout hin' (entryAt_of_indexes hpub hsub)
    refine agrees_of_sent hsound hc fun k o hk ho => ?_
    have hsent : o ∈ keys'.flatMap fun k => (s.departure host k).2 :=
      List.mem_flatMap.mpr ⟨k, (hkeys' k).mpr ((hc.met_iff hsound k).mpr hk), ho⟩
    obtain ⟨k', -, ho'⟩ := List.mem_flatMap.mp (hperm.mem_iff.mp hsent)
    exact ⟨k', ho'⟩
  · have hmet := ha.1.met_iff hsound
    have hentry : s'.entryAt = t.entryAt := by
      funext k
      by_cases hk : k ∈ s.table.keysOf host
      · rw [hin k ((hmet k).mpr hk), hin' k hk, departure_eq_removal hsound ha hk]
      · rw [hout k fun h => hk h.1, hout' k hk]
    obtain ⟨hpub, hsub⟩ := indexes_of_entryAt hentry
    have hsame : keys'.Perm keys := (List.perm_ext_iff_of_nodup hnodup' hnodup).mpr fun k =>
      (hkeys' k).trans ((hmet k).trans (hkeys k).symm)
    refine ⟨hpub, hsub, (List.Perm.flatMap_right _ hsame).trans (List.Perm.of_eq ?_)⟩
    exact List.flatMap_congr fun k hk => by rw [departure_eq_removal hsound ha ((hkeys k).mp hk)]

theorem reachable_sharedItem : sharedItem.proxy.Reachable :=
  (((reachable_init exampleConf).request .localProcess 1 (by decide)).request .localProcess 2
    (by decide)).notification _

/-- The publisher that was not told to start leaves an item of two publishers. -/
theorem disconnect_by_hand_sharedItem :
    ∃ s' outs t outs',
      sharedItem.proxy.disconnect [frag 1 ++ frag 2] [] .localProcess 1 = .ok (s', outs) ∧
      byHand .localProcess 1 sharedItem.proxy
        (sharedItem.proxy.withdrawals [(.publisher, frag 1 ++ frag 2)]) = .ok (t, outs') ∧
      ((s'.activePublicationIndex = t.activePublicationIndex ∧
        s'.activeSubscriptionIndex = t.activeSubscriptionIndex ∧ outs.Perm outs') ↔
        sharedItem.proxy.AgreesByHand 1) := by
  refine disconnect_by_hand reachable_sharedItem ⟨by decide, by decide, by decide, by decide⟩
    .localProcess (by decide) fun k => ?_
  have hpub : sharedItem.proxy.publicationsOf 1 = {frag 1 ++ frag 2} := by decide
  have hsub : sharedItem.proxy.subscriptionsOf 1 = ∅ := by decide
  obtain ⟨_ | _, X⟩ := k <;> simp [hpub, hsub]

/-- A scope that was published before the rendezvous element was found elsewhere. -/
def movedScope : LocalProxy :=
  (((init exampleConf).pushRequest .localProcess 1
    ⟨.publishScope, frag 1, [], domainLocal⟩).1.handleRVNotification (.updateBA 1 1)).1

/-- The publisher that was told to start leaves a shared item, a publisher leaves after the FID of the
rendezvous element changed, and one leaves a scope under the empty id. -/
theorem disconnect_not_by_hand :
    (sharedItem.proxy.Reachable ∧ sharedItem.proxy.Walks 2 [frag 1 ++ frag 2] [] ∧
      ∃ s' outs t outs',
        sharedItem.proxy.disconnect [frag 1 ++ frag 2] [] .localProcess 2 = .ok (s', outs) ∧
        byHand .localProcess 2 sharedItem.proxy
          (sharedItem.proxy.withdrawals [(.publisher, frag 1 ++ frag 2)]) = .ok (t, outs') ∧
        s'.InState (frag 1 ++ frag 2) .startPublish 1 ∧
        t.InState (frag 1 ++ frag 2) .stopPublish 1) ∧
    (movedScope.Reachable ∧ movedScope.Walks 1 [frag 1] [] ∧
      ∃ s' t, movedScope.disconnect [frag 1] [] .localProcess 1 =
          .ok (s', [.toRV 0 ⟨.unpublishScope, frag 1, [], domainLocal⟩]) ∧
        byHand .localProcess 1 movedScope (movedScope.withdrawals [(.publisher, frag 1)]) =
          .ok (t, [.toRV 1 ⟨.unpublishScope, frag 1, [], domainLocal⟩])) ∧
    (emptyScope.Reachable ∧ emptyScope.Walks 1 [[]] [] ∧
      ∃ s' t, emptyScope.disconnect [[]] [] .localProcess 1 = .ok (s', []) ∧
        byHand .localProcess 1 emptyScope (emptyScope.withdrawals [(.publisher, [])]) =
          .ok (t, [.toRV 0 ⟨.unpublishScope, [], [], domainLocal⟩])) := by
  refine ⟨⟨reachable_sharedItem, ⟨by decide, by decide, by decide, by decide⟩, _, _, _, _, rfl, rfl,
    ⟨_, rfl, by decide⟩, ⟨_, rfl, by decide⟩⟩, ⟨?_, ⟨by decide, by decide, by decide, by decide⟩,
    _, _, rfl, rfl⟩, reachable_emptyScope, ⟨by decide, by decide, by decide, by decide⟩, _, _, rfl, rfl⟩
  exact ((reachable_init exampleConf).request .localProcess 1 (by decide)).notification _

end LocalProxy

end Blackadder
