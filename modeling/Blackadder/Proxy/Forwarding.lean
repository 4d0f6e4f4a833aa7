import Blackadder.Lib.Registers
import Blackadder.Proxy.ByHand

/-!
# What the rendezvous element hears

The requests that go on tell exactly how the entries with a forwarded strategy come and go.
-/

namespace Blackadder

namespace LocalProxy

/-- The requests among what the proxy sends. -/
def requestsOf (outs : List ProxyOutput) : List Request :=
  outs.filterMap fun
    | .toRV _ r => some r
    | _ => none

def kindOf (a : Attr) : Kind := if a.isScope then .scope else .item

def attrAt (s : LocalProxy) (k : Key) : Option Attr := (s.table.entry k).map Prod.fst

/-- The kind of an entry that the rendezvous element should know of. -/
def held (s : LocalProxy) (k : Key) : Option Kind :=
  match s.attrAt k with
  | none => none
  | some a => if forwards k.1 a.strategy then some (kindOf a) else none

/-- A request as a write to what the rendezvous element should know. -/
def registration (r : Request) : Key × Option Kind :=
  (keyOf r, if r.type.enters then some r.type.kind else none)

variable {s s' : LocalProxy} {host : HostId} {k : Key} {r : Request} {a : Attr} {e : Entry}
  {RVFID : Bitvector} {outs outs' : List ProxyOutput} {i : Input} {forward : Bool} {keys : List Key}

/-! ## Small facts -/

theorem attrAt_eq (s : LocalProxy) (k : Key) : s.attrAt k = (s.entryAt k).map Entry.attr := by
  rw [attrAt, table_entry, Option.map_map]
  rfl

theorem held_of_none (h : s.entryAt k = none) : s.held k = none := by
  rw [held, attrAt_eq, h]
  rfl

theorem held_of_some (h : s.entryAt k = some e) :
    s.held k = if forwards k.1 e.attr.strategy then some (kindOf e.attr) else none := by
  rw [held, attrAt_eq, h]
  rfl

theorem held_congr (h : s'.attrAt k = s.attrAt k) : s'.held k = s.held k := by
  rw [held, held, h]

theorem held_of_table (h : s'.table = s.table) : s'.held = s.held := by
  funext k
  exact held_congr (by rw [attrAt, attrAt, h])

theorem attr_without (host : HostId) (e : Entry) : (e.without host).attr = e.attr := by
  cases e <;> rfl

theorem attr_join (host : HostId) (e : Entry) : (e.join host).attr = e.attr := by
  cases e <;> rfl

theorem attr_new (k : Key) (host : HostId) (a : Attr) : (Entry.new k host a).attr = a := by
  obtain ⟨_ | _, X⟩ := k <;> rfl

theorem kindOf_attrOf (r : Request) (RVFID : Bitvector) : kindOf (attrOf r RVFID) = r.type.kind := by
  cases h : r.type.kind <;> simp [kindOf, attrOf, h]

@[simp]
theorem requestsOf_nil : requestsOf [] = [] := rfl

@[simp]
theorem requestsOf_toRV : requestsOf [.toRV RVFID r] = [r] := rfl

theorem mem_requestsOf : r ∈ requestsOf outs ↔ ∃ RVFID, .toRV RVFID r ∈ outs := by
  unfold requestsOf
  rw [List.mem_filterMap]
  constructor
  · rintro ⟨o, ho, heq⟩
    cases o with
    | toRV RVFID r' =>
      obtain rfl := Option.some.inj heq
      exact ⟨RVFID, ho⟩
    | unsetToRV => cases heq
    | notify => cases heq
    | deliver => cases heq
    | publish => cases heq
  · rintro ⟨RVFID, ho⟩
    exact ⟨_, ho, rfl⟩

/-! ## Requests -/

theorem Served.held (hserved : Served s host r RVFID forward s') :
    s'.held = Registers.replay s.held ((if forward then [r] else []).map registration) := by
  have hupdate : ∀ {o : Option Entry} {v : Option Kind},
      s'.entryAt = Function.update s.entryAt (keyOf r) o →
      (s'.entryAt (keyOf r) = o → s'.held (keyOf r) = v) →
      s'.held = Function.update s.held (keyOf r) v := by
    intro o v he hv
    funext k
    by_cases hk : k = keyOf r
    · subst hk
      rw [Function.update_self]
      exact hv (by rw [he, Function.update_self])
    · rw [Function.update_of_ne hk]
      exact held_congr (by rw [attrAt_eq, attrAt_eq, he, Function.update_of_ne hk])
  have hsame : ∀ {e e' : Entry}, s.entryAt (keyOf r) = some e → e'.attr = e.attr →
      s'.entryAt = Function.update s.entryAt (keyOf r) (some e') → s'.held = s.held := by
    intro e e' hsome hattr he
    rw [hupdate he (v := s.held (keyOf r)), Function.update_eq_self]
    intro hs'
    rw [held_of_some hs', held_of_some hsome, hattr]
  unfold Served at hserved
  split at hserved
  · next hent =>
    cases hserved with
    | refused => rfl
    | created hacc hnone he _ =>
      cases hfwd : forwards (keyOf r).1 (attrOf r RVFID).strategy with
      | true =>
        rw [hupdate he (v := some r.type.kind)]
        · simp [registration, hent, Registers.write]
        · intro hs'
          rw [held_of_some hs', attr_new, if_pos hfwd, kindOf_attrOf]
      | false =>
        rw [hupdate he (v := none), ← held_of_none hnone, Function.update_eq_self]
        · rfl
        · intro hs'
          rw [held_of_some hs', attr_new, hfwd]
          rfl
    | joined hsome _ he _ => exact hsame hsome (attr_join host _) he
  · next hent =>
    cases hserved with
    | refused => rfl
    | @last _ e hsome hst _ he _ =>
      rw [hupdate he (v := none) held_of_none]
      cases hfwd : forwards (keyOf r).1 r.strategy with
      | true => simp [registration, hent, Registers.write]
      | false =>
        have hnone : s.held (keyOf r) = none := by
          rw [held_of_some hsome, hst, hfwd]
          rfl
        rw [← hnone, Function.update_eq_self]
        rfl
    | others hsome _ _ he _ => exact hsame hsome (attr_without host _) he

/-! ## Disconnections -/

/-- Only the departure of the last host sends a request, and only over a forwarded strategy. -/
theorem departure_cases (hs : s.Named) (hk : k ∈ s.table.keysOf host) :
    ∃ e, s.entryAt k = some e ∧
      (((s.departure host k).1 = none ∧
        requestsOf (s.departure host k).2 =
          if forwards k.1 e.attr.strategy then [e.withdrawal] else []) ∨
      (∃ e', (s.departure host k).1 = some e' ∧ e'.attr = e.attr ∧
        requestsOf (s.departure host k).2 = [])) := by
  obtain ⟨a, ms, hentry, hmem⟩ := (hs.linked.mem_keysOf host k).mp hk
  rw [table_entry] at hentry
  obtain ⟨e, he, hview⟩ := Option.map_eq_some_iff.mp hentry
  have hhosts : e.hosts = ms := congrArg Prod.snd hview
  have hhost : host ∈ e.hosts := hhosts ▸ hmem
  have hrole := role_of_entryAt he
  have hdep : s.departure host k = e.left host := by rw [departure, he]
  refine ⟨e, rfl.trans he, ?_⟩
  rw [hdep]
  by_cases hlast : (e.without host).hosts = ∅
  · refine Or.inl ?_
    rw [left_of_last (hrole ▸ hs.accepted_of_entryAt he) hlast, hrole,
      notice_eq hs.toSound he (hs.ne_nil_of_entryAt he)]
    refine ⟨rfl, ?_⟩
    split <;> rfl
  · refine Or.inr ?_
    by_cases hp : e.Promotes host
    · obtain ⟨ap, rfl, hscope, hstart⟩ := hp
      have hkeys : (ap.publishers.erase host).keys ≠ [] := fun h => hlast (keys_eq_nil.mp h)
      obtain ⟨first, rest, hcons⟩ := List.exists_cons_of_ne_nil hkeys
      have hkind : Entry.kind (.inl ap) = .item := kind_eq_iff.mpr hscope
      rw [Entry.left, publicationLeft_handed hkeys ⟨hkind, by rw [hstart]; decide⟩,
        startFirst_of_keys { ap with publishers := ap.publishers.erase host } hcons]
      exact ⟨_, rfl, rfl, rfl⟩
    · rw [left_of_kept hhost hlast hp]
      exact ⟨_, rfl, attr_without host e, rfl⟩

theorem mem_requestsOf_departures {r : Request} :
    r ∈ requestsOf (keys.flatMap fun k => (s.departure host k).2) ↔
      ∃ k ∈ keys, r ∈ requestsOf (s.departure host k).2 := by
  simp only [mem_requestsOf, List.mem_flatMap]
  exact ⟨fun ⟨F, k, hk, ho⟩ => ⟨k, hk, F, ho⟩, fun ⟨k, hk, F, ho⟩ => ⟨F, k, hk, ho⟩⟩

theorem departure_request (hs : s.Named) (hk : k ∈ s.table.keysOf host)
    (hr : r ∈ requestsOf (s.departure host k).2) :
    (s.departure host k).1 = none ∧ ∃ e, s.entryAt k = some e ∧ r = e.withdrawal ∧ keyOf r = k ∧
      r.type.enters = false := by
  obtain ⟨e, he, ⟨hnone, hreq⟩ | ⟨e', -, -, hreq⟩⟩ := departure_cases hs hk
  · rw [hreq] at hr
    split at hr
    · obtain rfl := List.mem_singleton.mp hr
      obtain ⟨e', he', hfull, hdvd⟩ := hs.found host k hk
      obtain rfl := Option.some.inj (he.symm.trans he')
      obtain ⟨hkey, hent, -⟩ := keyOf_withdrawal he hfull hdvd
      exact ⟨hnone, e, he, rfl, hkey, hent⟩
    · cases hr
  · rw [hreq] at hr
    cases hr

theorem held_departures (hs : s.Named) (hkeys : ∀ k, k ∈ keys ↔ k ∈ s.table.keysOf host)
    (hin : ∀ k ∈ s.table.keysOf host, s'.entryAt k = (s.departure host k).1)
    (hout : ∀ k, k ∉ s.table.keysOf host → s'.entryAt k = s.entryAt k) :
    s'.held = Registers.replay s.held
      ((requestsOf (keys.flatMap fun k => (s.departure host k).2)).map registration) := by
  have hsent : ∀ w ∈ (requestsOf (keys.flatMap fun k => (s.departure host k).2)).map registration,
      w.1 ∈ s.table.keysOf host ∧ (s.departure host w.1).1 = none ∧ w.2 = none := by
    intro w hw
    obtain ⟨r, hr, rfl⟩ := List.mem_map.mp hw
    obtain ⟨k, hk, hr⟩ := mem_requestsOf_departures.mp hr
    have hknown := (hkeys k).mp hk
    obtain ⟨hnone, e, -, -, hkey, hent⟩ := departure_request hs hknown hr
    have hfst : (registration r).1 = k := hkey
    rw [hfst]
    exact ⟨hknown, hnone, by simp [registration, hent]⟩
  funext k
  symm
  by_cases hk : k ∈ s.table.keysOf host
  · obtain ⟨e, he, ⟨hnone, hreq⟩ | ⟨e', hsome, hattr, hreq⟩⟩ := departure_cases hs hk
    · rw [held_of_none ((hin k hk).trans hnone)]
      refine Registers.replay_of_const (fun w hw _ => (hsent w hw).2.2) ?_
      cases hfwd : forwards k.1 e.attr.strategy with
      | false =>
        refine Or.inl ?_
        rw [held_of_some he, hfwd]
        rfl
      | true =>
        rw [if_pos hfwd] at hreq
        have hr : e.withdrawal ∈ requestsOf (s.departure host k).2 := by simp [hreq]
        obtain ⟨-, e', -, -, hkey, -⟩ := departure_request hs hk hr
        exact Or.inr ⟨registration e.withdrawal, List.mem_map_of_mem
          (mem_requestsOf_departures.mpr ⟨k, (hkeys k).mpr hk, hr⟩), hkey⟩
    · rw [Registers.replay_of_not_mem fun w hw hwk => ?_]
      · rw [held_of_some he, held_of_some ((hin k hk).trans hsome), hattr]
      · have hnone := (hsent w hw).2.1
        rw [hwk, hsome] at hnone
        cases hnone
  · rw [Registers.replay_of_not_mem fun w hw hwk => hk (by rw [← hwk]; exact (hsent w hw).1)]
    exact (held_congr (by rw [attrAt_eq, attrAt_eq, hout k hk])).symm

/-! ## All inputs -/

theorem requestsOf_eq_nil (h : ∀ RVFID r, .toRV RVFID r ∉ outs) : requestsOf outs = [] := by
  refine List.eq_nil_iff_forall_not_mem.mpr fun r hr => ?_
  obtain ⟨RVFID, hr⟩ := mem_requestsOf.mp hr
  exact h RVFID r hr

/-- An output that tells a local host something. -/
def IsNotice (o : ProxyOutput) : Prop := ∃ event host X, o = .notify event host X

theorem startFirst_notices (X : Id) (ap : ActivePublication) :
    ∀ o ∈ (startFirst X ap).2, IsNotice o := by
  intro o ho
  unfold startFirst at ho
  split at ho
  · cases ho
  · exact ⟨_, _, _, List.mem_singleton.mp ho⟩

theorem startNotify_notices (l : List Id) : ∀ o ∈ (startNotify s l).2, IsNotice o := by
  induction l generalizing s with
  | nil => exact fun o ho => nomatch ho
  | cons X l ih =>
    unfold startNotify
    split
    · exact ih
    · split
      · exact ih
      · exact startFirst_notices X _

theorem stopPublishers_notices (X : Id) (p : PublisherHashMap) :
    ∀ o ∈ (stopPublishers X p).2, IsNotice o := by
  unfold stopPublishers
  refine List.foldlRecOn p.keys _ (motive := fun (acc : PublisherHashMap × List ProxyOutput) =>
    ∀ o ∈ acc.2, IsNotice o) (fun o ho => nomatch ho) fun acc hacc host _ => ?_
  split
  · intro o ho
    rcases List.mem_append.mp ho with ho | ho
    · exact hacc o ho
    · exact ⟨_, _, _, List.mem_singleton.mp ho⟩
  · exact hacc

theorem handleRVNotification_notices (n : Notification) :
    ∀ o ∈ (s.handleRVNotification n).2, IsNotice o := by
  have hscopes : ∀ event IDs, ∀ o ∈ s.notifyScopes event IDs, IsNotice o := by
    intro event IDs o ho
    obtain ⟨X, -, ho⟩ := List.mem_flatMap.mp ho
    obtain ⟨host, -, rfl⟩ := List.mem_map.mp ho
    exact ⟨_, _, _, rfl⟩
  cases n with
  | scopePublished IDs => exact hscopes _ IDs
  | scopeUnpublished IDs => exact hscopes _ IDs
  | updateBA RVFID TMFID => exact fun o ho => nomatch ho
  | startPublish IDs FID =>
    change ∀ o ∈ (s.handleStartPublish IDs FID).2, IsNotice o
    unfold handleStartPublish
    split
    · exact fun o ho => nomatch ho
    · exact startNotify_notices IDs
  | stopPublish IDs =>
    change ∀ o ∈ (s.handleStopPublish IDs).2, IsNotice o
    unfold handleStopPublish
    refine List.foldlRecOn IDs _ (motive := fun (acc : LocalProxy × List ProxyOutput) =>
      ∀ o ∈ acc.2, IsNotice o) (fun o ho => nomatch ho) fun acc hacc X _ => ?_
    split
    · exact hacc
    · intro o ho
      exact (List.mem_append.mp ho).elim (hacc o) (stopPublishers_notices X _ o)

theorem requestsOf_notices (h : ∀ o ∈ outs, IsNotice o) : requestsOf outs = [] := by
  refine requestsOf_eq_nil fun RVFID r ho => ?_
  obtain ⟨event, host, X, heq⟩ := h _ ho
  cases heq

theorem requestsOf_data (h : ∀ o ∈ outs, IsData o) : requestsOf outs = [] :=
  requestsOf_eq_nil fun _ _ ho => h _ ho

theorem withdrawal_wellFormed {X : Id} {ty : RequestType} {strategy : Strategy}
    (hlen : pursuitIdLen ≤ X.length) (hdvd : pursuitIdLen ∣ X.length) :
    (withdrawal ty X strategy).WellFormed where
  ID := dvd_of_eq (suffixOf_length hlen).symm
  prefixID := by
    rw [withdrawal, fatherOf, List.length_take, Nat.min_eq_left (Nat.sub_le _ _)]
    exact Nat.dvd_sub hdvd (dvd_refl _)
  single _ _ := suffixOf_length hlen

theorem left_outputs {o : ProxyOutput} (ho : o ∈ (e.left host).2) : o = e.notice ∨ IsNotice o := by
  cases e with
  | inl ap =>
    change o ∈ (publicationLeft _ host ap).2 at ho
    unfold publicationLeft at ho
    dsimp only at ho
    split at ho
    · exact Or.inl (List.mem_singleton.mp ho)
    · split at ho
      · exact Or.inr (startFirst_notices _ _ o ho)
      · cases ho
  | inr sub =>
    change o ∈ (subscriptionLeft _ host sub).2 at ho
    unfold subscriptionLeft at ho
    dsimp only at ho
    split at ho
    · dsimp only at ho
      split at ho
      · cases ho
      · exact Or.inl (List.mem_singleton.mp ho)
    · cases ho

/-- No request that the proxy makes of its own is about the empty id. -/
theorem Step.unset_not_mem {a : Input × List ProxyOutput} (h : s.Step a s') (hs : s.Named)
    (ty : RequestType) (strategy : Strategy) : .unsetToRV RVFID ty strategy ∉ a.2 := by
  obtain ⟨i, outs⟩ := a
  obtain ⟨hi, hrun⟩ := h
  intro hout
  have hnotice : ∀ t n, .unsetToRV RVFID ty strategy ∉ (handleRVNotification t n).2 := by
    intro t n hmem
    obtain ⟨_, _, _, heq⟩ := handleRVNotification_notices n _ hmem
    cases heq
  cases i with
  | request type host r =>
    obtain ⟨forward, t, -, hpush⟩ := pushRequest_spec s type host r
    obtain ⟨-, rfl⟩ := Prod.mk.inj (Except.ok.inj ((congrArg Except.ok hpush).symm.trans hrun))
    cases forward with
    | true => cases List.mem_singleton.mp hout
    | false => cases hout
  | unknown type host =>
    obtain ⟨-, rfl⟩ := Prod.mk.inj (Except.ok.inj hrun)
    cases hout
  | disconnect type host pubOrder subOrder =>
    obtain ⟨t, keys, hdisc, -⟩ := disconnect_met hs.toSound hi type
    obtain ⟨-, rfl⟩ := Prod.mk.inj (Except.ok.inj (hdisc.symm.trans hrun))
    obtain ⟨k, -, hk⟩ := List.mem_flatMap.mp hout
    unfold departure at hk
    split at hk
    · cases hk
    · next e he =>
      rcases left_outputs hk with heq | ⟨_, _, _, heq⟩
      · rw [notice_eq hs.toSound he (hs.ne_nil_of_entryAt he)] at heq
        cases heq
      · cases heq
  | publication type host ID st FID payload =>
    have hsnd : (s.pushData type host ID st FID payload).2 = outs := congrArg Prod.snd (Except.ok.inj hrun)
    exact pushData_data _ (hsnd ▸ hout)
  | network IDs payload =>
    obtain ⟨-, rfl⟩ := Prod.mk.inj (Except.ok.inj hrun)
    exact handleNetworkPublication_data _ hout
  | notification n => exact hnotice s n ((congrArg Prod.snd (Except.ok.inj hrun)).symm ▸ hout)
  | localNotification type host n =>
    exact hnotice _ n ((congrArg Prod.snd (Except.ok.inj hrun)).symm ▸ hout)

/-- What goes on to the rendezvous element tells it exactly what the proxy holds. -/
theorem Step.held {a : Input × List ProxyOutput} (h : s.Step a s') (hs : s.Named)
    (ha : a.1.Accepted) :
    s'.held = Registers.replay s.held ((requestsOf a.2).map registration) ∧
      ∀ r ∈ requestsOf a.2, r.WellFormed := by
  obtain ⟨i, outs⟩ := a
  obtain ⟨hi, hrun⟩ := h
  have hquiet : s'.table = s.table → requestsOf outs = [] →
      s'.held = Registers.replay s.held ((requestsOf outs).map registration) ∧
        ∀ r ∈ requestsOf outs, r.WellFormed := by
    intro ht hnil
    rw [hnil]
    exact ⟨held_of_table ht, fun r hr => nomatch hr⟩
  cases i with
  | request type host r =>
    obtain ⟨forward, t, hserved, hpush⟩ := pushRequest_spec s type host r
    obtain ⟨rfl, rfl⟩ := Prod.mk.inj (Except.ok.inj ((congrArg Except.ok hpush).symm.trans hrun))
    have hheld := hserved.held
    rw [held_of_table (table_getLocalHost type _)] at hheld
    cases forward with
    | true => exact ⟨hheld, fun r' hr' => List.mem_singleton.mp hr' ▸ ha.toWellFormed⟩
    | false => exact ⟨hheld, fun r' hr' => nomatch hr'⟩
  | unknown type host =>
    obtain ⟨rfl, rfl⟩ := Prod.mk.inj (Except.ok.inj hrun)
    exact hquiet (table_getLocalHost type _) rfl
  | disconnect type host pubOrder subOrder =>
    obtain ⟨t, keys, hdisc, -, hkeys, hin, hout, -, -⟩ :=
      disconnect_spec hs.toSound (hs.clear host) hi type
    obtain ⟨rfl, rfl⟩ := Prod.mk.inj (Except.ok.inj (hdisc.symm.trans hrun))
    refine ⟨held_departures hs hkeys hin hout, fun r hr => ?_⟩
    obtain ⟨k, hk, hr⟩ := mem_requestsOf_departures.mp hr
    have hknown := (hkeys k).mp hk
    obtain ⟨-, e, he, rfl, -, -⟩ := departure_request hs hknown hr
    have hentry : s.table.entry k = some (e.attr, e.hosts) := by
      rw [table_entry, he]
      rfl
    have hfull := hs.keyed _ _ _ hentry
    have hlen : pursuitIdLen ≤ k.2.length := hs.named _ _ _ hentry
    have hdvd : pursuitIdLen ∣ k.2.length := hs.whole _ _ _ hentry
    rw [← hfull] at hlen hdvd
    cases e with
    | inl ap => exact withdrawal_wellFormed hlen hdvd
    | inr sub => exact withdrawal_wellFormed hlen hdvd
  | publication type host ID strategy FID payload =>
    have hpush : s.pushData type host ID strategy FID payload = (s', outs) := Except.ok.inj hrun
    have hfst : s' = s.getLocalHost type host := by
      rw [← pushData_fst ID strategy FID payload, hpush]
    have hsnd : (s.pushData type host ID strategy FID payload).2 = outs := congrArg Prod.snd hpush
    exact hquiet (hfst ▸ table_getLocalHost type _) (requestsOf_data (hsnd ▸ pushData_data))
  | network IDs payload =>
    obtain ⟨rfl, rfl⟩ := Prod.mk.inj (Except.ok.inj hrun)
    exact hquiet rfl (requestsOf_data handleNetworkPublication_data)
  | notification n =>
    have hpush : s.handleRVNotification n = (s', outs) := Except.ok.inj hrun
    have htable := table_handleRVNotification (s := s) n
    have hnotices := handleRVNotification_notices (s := s) n
    rw [hpush] at htable hnotices
    exact hquiet htable (requestsOf_notices hnotices)
  | localNotification type host n =>
    have hpush : (s.getLocalHost type host).handleRVNotification n = (s', outs) := Except.ok.inj hrun
    have htable := table_handleRVNotification (s := s.getLocalHost type host) n
    have hnotices := handleRVNotification_notices (s := s.getLocalHost type host) n
    rw [hpush] at htable hnotices
    exact hquiet (htable.trans (table_getLocalHost type _)) (requestsOf_notices hnotices)

end LocalProxy

end Blackadder
