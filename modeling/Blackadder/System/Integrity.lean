import Blackadder.System.Domain

/-!
# What the network brings was sent

The lengths of ids are written as bytes, and the network carries data, requests and notifications alike. A
proxy hears nothing but what another one has sent, with the same ids.
-/

namespace Blackadder

namespace Domain

open Wire
open Bitvector (parse oneHot parse_oneHot)

variable {V Addr : Type*} [DecidableEq V] [DecidableEq Addr]

/-- At most 255 ids of at most 31 fragments each. -/
structure Carried (IDs : List Id) : Prop where
  count : IDs.length ≤ 255
  whole : ∀ ID ∈ IDs, pursuitIdLen ∣ ID.length
  short : ∀ ID ∈ IDs, ID.length < 256

/-- The ids are data for every proxy. -/
structure OfData (IDs : List Id) : Prop extends Carried IDs where
  other : ∀ nodeID, IDs ≠ [GlobalConf.notificationScope ++ nodeID]

/-- What some proxy has sent: the data of a host under the ids of an item, or a request for a rendezvous
element under the scope of the node. -/
inductive Sent (t : Topology V Addr) (D : Domain V Addr) : List Id → List UInt8 → Prop
  | published {u : V} {type : HostType} {host : HostId} {ID : Id} {strategy : Strategy} {F FID : Bitvector}
      {data : List UInt8} {outs : List ProxyOutput} {IDs : List Id}
      (hlog : (u, .publication type host ID strategy F data, outs) ∈ D.log) (hout : .publish IDs FID data ∈ outs) :
      Sent t D IDs data
  | request {u : V} {i : LocalProxy.Input} {outs : List ProxyOutput} {RVFID : Bitvector} {r : Request}
      {rest : List UInt8} (hlog : (u, i, outs) ∈ D.log) (hout : .toRV RVFID r ∈ outs) :
      Sent t D [(t.globalConf u).nodeRVScope] (r.bytes ++ rest)

/-- The ids that a host publishes under are short enough. -/
def Carries (D : Domain V Addr) : Action V Addr → Prop
  | .host v (.publication type host ID strategy F payload) _ => ∀ IDs FID data,
    .publish IDs FID data ∈ ((D.proxy v).pushData type host ID strategy F payload).2 → Carried IDs
  | _ => True

/-- The runs of all nodes in which ids are short enough. -/
def CarriedRun (t : Topology V Addr) (fresh : Nat → UInt8) (D : Domain V Addr) : Prop :=
  Runs.Reachable (Runs.Guarded (Step t fresh) Carries) (init t) D

theorem CarriedRun.reachable {t : Topology V Addr} {fresh : Nat → UInt8} {D : Domain V Addr}
    (h : CarriedRun t fresh D) : Reachable t fresh D := Runs.Reachable.of_guarded h

/-- The frame carries something that was sent. -/
def Loaded (t : Topology V Addr) (D : Domain V Addr) (frame : Frame Addr) : Prop :=
  ∃ IDs data, Carried IDs ∧ Sent t D IDs data ∧ frame.payload = wireBytes IDs ++ data

variable {t : Topology V Addr} {fresh : Nat → UInt8} {D D' : Domain V Addr} {a : Action V Addr} {u v : V}
  {i : LocalProxy.Input} {rest data payload : List UInt8} {frame : Frame Addr} {s s' : LocalProxy}
  {outs : List ProxyOutput} {IDs : List Id} {FID RVFID : Bitvector} {p : Packet} {x : Frame Addr}

/-! ## Data comes from a host -/

omit [DecidableEq V] [DecidableEq Addr] in
theorem publish_mem {c : Prop} [Decidable c] {hosts : List HostId} {ID : Id} {IDs' : List Id} {FID' : Bitvector}
    (h : .publish IDs FID data ∈ (if c then hosts.map (fun g => ProxyOutput.deliver g ID payload)
      else .publish IDs' FID' payload :: hosts.map (fun g => ProxyOutput.deliver g ID payload))) :
    data = payload ∧ IDs = IDs' ∧ FID = FID' := by
  have hnone : .publish IDs FID data ∉ hosts.map (fun g => ProxyOutput.deliver g ID payload) := by simp
  split at h
  · exact absurd h hnone
  · rcases List.mem_cons.mp h with h | h
    · injection h with hIDs hFID hdata
      exact ⟨hdata, hIDs, hFID⟩
    · exact absurd h hnone

omit [DecidableEq V] [DecidableEq Addr] in
theorem publish_pushData {type : HostType} {host : HostId} {ID : Id} {strategy : Strategy} {F : Bitvector}
    (h : .publish IDs FID data ∈ (s.pushData type host ID strategy F payload).2) : data = payload := by
  have hFID : ∀ F', .publish IDs FID data ∈
      (s.getLocalHost type host).handleUserPublicationFID ID F' payload host → data = payload := by
    intro F' h
    unfold LocalProxy.handleUserPublicationFID at h
    dsimp only at h
    rw [← ite_not] at h
    exact (publish_mem h).1
  unfold LocalProxy.pushData at h
  split at h
  · exact hFID F h
  split at h
  · exact hFID _ h
  · unfold LocalProxy.handleUserPublication at h
    dsimp only at h
    split at h
    · exact (publish_mem h).1
    split at h
    · exact (publish_mem h).1
    · cases h

omit [DecidableEq V] [DecidableEq Addr] in
theorem publish_output {ID : Id} {ap : ActivePublication} (hap : s.activePublicationIndex ID = some ap)
    (hzero : ap.FIDToSubscribers ≠ 0) (hself : ap.FIDToSubscribers ≠ s.gc.iLID) :
    .publish ap.allKnownIDs ap.FIDToSubscribers payload ∈ s.handleUserPublication ID payload host := by
  unfold LocalProxy.handleUserPublication
  rw [hap]
  dsimp only
  rw [if_neg (not_or.mpr ⟨hzero, hself⟩)]
  exact List.mem_cons_self

omit [DecidableEq V] [DecidableEq Addr] in
/-- A host that is not known yet makes no difference for its publication. -/
theorem pushData_user (type : HostType) {ID : Id} {strategy : Strategy} (F : Bitvector)
    (h : ¬ (strategy = implicitRendezvous ∨ strategy = linkLocal ∨ strategy = broadcastIf)) :
    (s.pushData type host ID strategy F payload).2 = s.handleUserPublication ID payload host := by
  obtain ⟨h₁, h₂, h₃⟩ : strategy ≠ implicitRendezvous ∧ strategy ≠ linkLocal ∧ strategy ≠ broadcastIf := by
    simpa [not_or] using h
  unfold LocalProxy.pushData
  rw [if_neg (not_or.mpr ⟨h₁, h₂⟩), if_neg h₃]
  unfold LocalProxy.getLocalHost
  split
  · rfl
  · rfl

omit [DecidableEq V] [DecidableEq Addr] in
theorem left_publish {host : HostId} {e : LocalProxy.Entry} : .publish IDs FID data ∉ (e.left host).2 := by
  intro h
  rcases LocalProxy.left_outputs h with heq | ⟨_, _, _, heq⟩
  · unfold LocalProxy.Entry.notice LocalProxy.sendToRV at heq
    split at heq <;> cases heq
  · cases heq

omit [DecidableEq V] [DecidableEq Addr] in
/-- Only a publication of a host makes a packet of data, and the data are the ones that it gave. -/
theorem publish_step (hs : s.Sound) (h : s.Step (i, outs) s') (hout : .publish IDs FID data ∈ outs) :
    ∃ type host ID strategy F, i = .publication type host ID strategy F data := by
  obtain ⟨hallowed, hrun⟩ := h
  cases i with
  | request type host r =>
    obtain ⟨forward, _, -, hpush⟩ := LocalProxy.pushRequest_spec s type host r
    have hsnd : (s.pushRequest type host r).2 = outs := congrArg Prod.snd (Except.ok.inj hrun)
    rw [hpush] at hsnd
    subst hsnd
    cases forward with
    | true => cases List.mem_singleton.mp hout
    | false => cases hout
  | unknown type host =>
    obtain ⟨-, rfl⟩ := Prod.mk.inj (Except.ok.inj hrun)
    cases hout
  | disconnect type host pubOrder subOrder =>
    obtain ⟨_, keys, hrun', -⟩ := LocalProxy.disconnect_met hs hallowed type
    obtain ⟨-, rfl⟩ := Prod.mk.inj (Except.ok.inj (hrun.symm.trans hrun'))
    obtain ⟨k, -, hk⟩ := List.mem_flatMap.mp hout
    unfold LocalProxy.departure at hk
    split at hk
    · cases hk
    · exact absurd hk left_publish
  | publication type host ID strategy F payload =>
    have hsnd : (s.pushData type host ID strategy F payload).2 = outs := congrArg Prod.snd (Except.ok.inj hrun)
    obtain rfl := publish_pushData (hsnd ▸ hout)
    exact ⟨type, host, ID, strategy, F, rfl⟩
  | network IDs payload =>
    obtain ⟨-, rfl⟩ := Prod.mk.inj (Except.ok.inj hrun)
    obtain ⟨_, -, heq⟩ := List.mem_map.mp hout
    cases heq
  | notification n =>
    have hsnd : (s.handleRVNotification n).2 = outs := congrArg Prod.snd (Except.ok.inj hrun)
    obtain ⟨_, _, _, heq⟩ := LocalProxy.handleRVNotification_notices n _ (hsnd ▸ hout)
    cases heq
  | localNotification type host n =>
    have hsnd : ((s.getLocalHost type host).handleRVNotification n).2 = outs :=
      congrArg Prod.snd (Except.ok.inj hrun)
    obtain ⟨_, _, _, heq⟩ := LocalProxy.handleRVNotification_notices n _ (hsnd ▸ hout)
    cases heq

/-! ## Frames -/

omit [DecidableEq V] [DecidableEq Addr] in
theorem carried_nodeRVScope (t : Topology V Addr) (v : V) : Carried [(t.globalConf v).nodeRVScope] := by
  have hlen := length_nodeRVScope (nodeID_of_configured t v)
  refine ⟨by simp, ?_, ?_⟩
  · exact List.forall_mem_singleton.mpr (hlen ▸ by decide)
  · exact List.forall_mem_singleton.mpr (hlen ▸ by decide)

omit [DecidableEq V] [DecidableEq Addr] in
theorem payload_pushLocal {fw : Forwarder Addr} {fs : List (Output Addr)} (h : fs = fw.pushLocal p)
    (hx : x ∈ fs.filterMap Output.frame?) : x.payload = p.payload := by
  subst h
  obtain ⟨o, ho, hframe⟩ := List.mem_filterMap.mp hx
  obtain ⟨fe, -, rfl⟩ := List.mem_map.mp ho
  obtain rfl := Option.some.inj hframe
  rfl

omit [DecidableEq V] in
theorem payload_pushNetwork {fw : Forwarder Addr} (hx : x ∈ (fw.pushNetwork frame).filterMap Output.frame?) :
    x.payload = frame.payload := by
  obtain ⟨o, ho, hframe⟩ := List.mem_filterMap.mp hx
  rcases List.mem_append.mp ho with ho | ho
  · obtain ⟨fe, -, rfl⟩ := List.mem_map.mp ho
    obtain rfl := Option.some.inj hframe
    rfl
  · split at ho
    · obtain rfl := List.mem_singleton.mp ho
      cases hframe
    · cases ho

omit [DecidableEq V] [DecidableEq Addr] in
theorem Sent.mono (h : Sent t D IDs data) (hlog : D.log ≤ D'.log) : Sent t D' IDs data := by
  cases h with
  | published hin hout => exact .published (Multiset.mem_of_le hlog hin) hout
  | request hin hout => exact .request (Multiset.mem_of_le hlog hin) hout

omit [DecidableEq V] [DecidableEq Addr] in
theorem Loaded.mono (h : Loaded t D frame) (hlog : D.log ≤ D'.log) : Loaded t D' frame := by
  obtain ⟨IDs, data, hcarried, hsent, hpayload⟩ := h
  exact ⟨IDs, data, hcarried, hsent.mono hlog, hpayload⟩

omit [DecidableEq V] [DecidableEq Addr] in
/-- The packets that follow from an input. -/
theorem packet_loaded {gc : GlobalConf} {o : ProxyOutput} (hgc : Reconfigured (t.globalConf v) gc)
    (hlog : (v, i, outs) ∈ D.log) (hpub : ∀ IDs FID data, .publish IDs FID data ∈ outs → Carried IDs ∧
      ∃ type host ID strategy F, i = .publication type host ID strategy F data)
    (hset : ∀ RVFID ty strategy, .unsetToRV RVFID ty strategy ∉ outs)
    (ho : o ∈ outs) (hp : LocalProxy.packet fresh gc rest o = some p) :
    ∃ IDs data, Carried IDs ∧ Sent t D IDs data ∧ p.payload = wireBytes IDs ++ data := by
  obtain ⟨hnode, hscope⟩ : gc.nodeID.length = nodeIDLen ∧ gc.nodeRVScope = (t.globalConf v).nodeRVScope := by
    obtain ⟨_, _, rfl⟩ := hgc
    exact ⟨nodeID_of_configured t v, rfl⟩
  cases o with
  | publish IDs FID data =>
    obtain ⟨hcarried, _, _, _, _, _, rfl⟩ := hpub IDs FID data ho
    rw [packet_publish fresh _ rest hcarried.count] at hp
    obtain rfl := Option.some.inj hp
    exact ⟨IDs, data, hcarried, .published hlog ho, rfl⟩
  | toRV RVFID r =>
    rw [packet_toRV hnode, hscope] at hp
    split at hp
    · cases hp
    · obtain rfl := Option.some.inj hp
      exact ⟨_, _, carried_nodeRVScope t v, .request hlog ho, rfl⟩
  | unsetToRV RVFID ty strategy => exact absurd ho (hset RVFID ty strategy)
  | notify => cases hp
  | deliver => cases hp

/-- Whatever is on its way was sent. -/
def AllLoaded (t : Topology V Addr) (D : Domain V Addr) : Prop := ∀ frame ∈ D.net.inFlight, Loaded t D frame

omit [DecidableEq Addr] in
theorem AllLoaded.host (hD : Proxies t D) (hload : AllLoaded t D) (hok : Carries D (.host v i rest))
    (hallowed : (D.proxy v).Allowed i) (h : D.push t fresh v i rest = some D') : AllLoaded t D' := by
  obtain ⟨s', outs, hrun, -, hnet, hlog⟩ := push_cases h
  have hstep : (D.proxy v).Step (i, outs) s' := ⟨hallowed, hrun⟩
  have hle : D.log ≤ D'.log := hlog ▸ Multiset.le_cons_self _ _
  intro x hx
  rw [hnet, Topology.emit_inFlight, List.filterMap_flatMap] at hx
  rcases Multiset.mem_add.mp hx with hx | hx
  · exact (hload x hx).mono hle
  · obtain ⟨p, hp, hx⟩ := List.mem_flatMap.mp hx
    obtain ⟨o, ho, hp⟩ := List.mem_filterMap.mp hp
    have hpub : ∀ IDs FID data, .publish IDs FID data ∈ outs → Carried IDs ∧
        ∃ type host ID strategy F, i = .publication type host ID strategy F data := by
      intro IDs FID data hout
      obtain ⟨type, host, ID, strategy, F, rfl⟩ := publish_step (hD v).1.toSound hstep hout
      have hsnd : ((D.proxy v).pushData type host ID strategy F data).2 = outs :=
        congrArg Prod.snd (Except.ok.inj hrun)
      exact ⟨hok IDs FID data (hsnd ▸ hout), type, host, ID, strategy, F, rfl⟩
    have hin : (v, i, outs) ∈ D'.log := hlog ▸ Multiset.mem_cons_self _ _
    obtain ⟨IDs, data, hcarried, hsent, hpayload⟩ := packet_loaded (hD v).2 hin hpub
      (fun _ ty strategy => hstep.unset_not_mem (hD v).1 ty strategy) ho hp
    exact ⟨IDs, data, hcarried, hsent, (payload_pushLocal rfl hx).trans hpayload⟩

/-- Forwarders copy what they send on. -/
theorem AllLoaded.arrive (hload : AllLoaded t D) (hin : frame ∈ D.net.inFlight)
    (h : D.arrive t fresh frame = some D') : AllLoaded t D' := by
  obtain ⟨hstep, hrest⟩ := arrive_cases hin h
  have hle : D.log ≤ D'.log := by
    rcases hrest with ⟨-, hlog⟩ | ⟨_, _, _, -, -, -, hlog⟩
    · exact le_of_eq hlog.symm
    · exact hlog ▸ Multiset.le_cons_self _ _
  intro x hx
  rw [hstep.2, Topology.emit_inFlight] at hx
  rcases Multiset.mem_add.mp hx with hx | hx
  · exact (hload x (Multiset.mem_of_mem_erase hx)).mono hle
  · obtain ⟨IDs, data, hcarried, hsent, hpayload⟩ := (hload frame hin).mono hle
    exact ⟨IDs, data, hcarried, hsent, (payload_pushNetwork hx).trans hpayload⟩

theorem CarriedRun.invariant (h : CarriedRun t fresh D) : Proxies t D ∧ AllLoaded t D := by
  refine Runs.Reachable.invariant h (I := fun D => Proxies t D ∧ AllLoaded t D)
    ⟨fun _ => ⟨LocalProxy.named_init _, .of_eq rfl⟩, fun x hx => absurd hx (Multiset.notMem_zero x)⟩ ?_
  rintro D a D' - ⟨hD, hload⟩ ⟨hstep, hok⟩
  refine ⟨hD.step hstep, ?_⟩
  cases a with
  | host v i rest => exact hload.host hD hok hstep.1 hstep.2.2.2
  | arrive frame => exact hload.arrive hstep.1 hstep.2

/-! ## The proxies -/

omit [DecidableEq V] [DecidableEq Addr] in
/-- A packet is read as it was written. -/
theorem readNetwork_carried (gc : GlobalConf) (hcarried : Carried IDs) (data : List UInt8) :
    LocalProxy.readNetwork gc (wireBytes IDs ++ data) =
      if IDs = [gc.notificationIID] then (LocalProxy.readNotification data).map (·.map .notification)
      else some (some (.network IDs data)) := by
  have hread : LocalProxy.readHeader (wireBytes IDs ++ data) = some (IDs, data) :=
    (readHeader_iff hcarried.count hcarried.whole).mpr hcarried.short
  rw [readNetwork_eq, hread]
  simp only [Option.bind_eq_bind, Option.bind_some]
  split
  · cases LocalProxy.readNotification data <;> rfl
  · rfl

omit [DecidableEq Addr] in
theorem hear_data (hIDs : OfData IDs) : hear t fresh v D (wireBytes IDs ++ data) = some { D with
    log := (v, .network IDs data, (D.proxy v).handleNetworkPublication IDs data) ::ₘ D.log } := by
  have hread := readNetwork_carried (D.proxy v).gc hIDs.toCarried data
  have hother : IDs ≠ [(D.proxy v).gc.notificationIID] := hIDs.other _
  rw [if_neg hother] at hread
  have hnone : ((D.proxy v).handleNetworkPublication IDs data).filterMap
      (LocalProxy.packet fresh (D.proxy v).gc []) = [] := by
    apply List.filterMap_eq_nil_iff.mpr
    intro o ho
    obtain ⟨_, -, rfl⟩ := List.mem_map.mp ho
    rfl
  unfold hear
  rw [hread]
  simp only [push, LocalProxy.push, pure, Except.pure, hnone, List.flatMap_nil, emit_nil,
    Function.update_eq_self]

/-- A frame with data is never stuck. -/
theorem exists_arrive (hIDs : OfData IDs) (hpayload : frame.payload = wireBytes IDs ++ data)
    (hin : frame ∈ D.net.inFlight) : ∃ D', D.Step t fresh (.arrive frame) D' := by
  suffices ∃ D', D.arrive t fresh frame = some D' by
    obtain ⟨D', h⟩ := this
    exact ⟨D', hin, h⟩
  rw [arrive_eq, hpayload, hear_data hIDs]
  split
  · exact ⟨_, rfl⟩
  · exact ⟨_, rfl⟩

/-- What becomes of a packet that the proxy of `v` hears: subscribers get the data once, and a notification is
one for the node. -/
def Heard (t : Topology V Addr) (v : V) (D D' : Domain V Addr) (IDs : List Id) (data : List UInt8) : Prop :=
  if IDs = [(t.globalConf v).notificationIID] then
    (LocalProxy.readNotification data = some none ∧ D'.proxy = D.proxy ∧ D'.log = D.log) ∨
    ∃ n, LocalProxy.readNotification data = some (some n) ∧
      D'.proxy = Function.update D.proxy v ((D.proxy v).handleRVNotification n).1 ∧
      D'.log = (v, .notification n, ((D.proxy v).handleRVNotification n).2) ::ₘ D.log
  else ∃ outs, (D.proxy v).Delivered none IDs data outs ∧ D'.proxy = D.proxy ∧
    D'.log = (v, .network IDs data, outs) ::ₘ D.log

omit [DecidableEq Addr] in
theorem heard (hgc : Reconfigured (t.globalConf v) (D.proxy v).gc) (hcarried : Carried IDs)
    (h : hear t fresh v D (wireBytes IDs ++ data) = some D') : Heard t v D D' IDs data := by
  have hIID : (D.proxy v).gc.notificationIID = (t.globalConf v).notificationIID := by
    obtain ⟨_, _, hgc⟩ := hgc
    rw [hgc]
    rfl
  have hread := readNetwork_carried (D.proxy v).gc hcarried data
  rw [hIID] at hread
  unfold Heard
  rcases hear_cases h with rfl | ⟨i, s', outs, hi, ⟨-, hrun⟩, rfl⟩
  · -- nothing was read but a type that the proxy does not know
    unfold hear at h
    rw [hread] at h
    split
    · next hnot =>
      rw [if_pos hnot] at h hread
      cases hn : LocalProxy.readNotification data with
      | none =>
        rw [hn] at h
        cases h
      | some n =>
        cases n with
        | none => exact Or.inl ⟨rfl, rfl, rfl⟩
        | some n =>
          rw [hn] at h
          obtain ⟨_, _, -, -, -, hlog⟩ := push_cases h
          exact absurd (congrArg Multiset.card hlog) (by simp)
    · next hdata =>
      rw [if_neg hdata] at h
      obtain ⟨_, _, -, -, -, hlog⟩ := push_cases h
      exact absurd (congrArg Multiset.card hlog) (by simp)
  · rw [hi] at hread
    split
    · next hnot =>
      rw [if_pos hnot] at hread
      obtain ⟨n, hn, hsome⟩ := Option.map_eq_some_iff.mp hread.symm
      obtain ⟨n, rfl, rfl⟩ := Option.map_eq_some_iff.mp hsome
      have hout : (D.proxy v).handleRVNotification n = (s', outs) := Except.ok.inj hrun
      exact Or.inr ⟨n, hn, by rw [hout], by rw [hout]⟩
    · next hdata =>
      rw [if_neg hdata] at hread
      obtain rfl := Option.some.inj (Option.some.inj hread)
      have hout : (D.proxy v, (D.proxy v).handleNetworkPublication IDs data) = (s', outs) := Except.ok.inj hrun
      obtain ⟨rfl, rfl⟩ := Prod.mk.inj hout
      exact ⟨_, LocalProxy.handleNetworkPublication_delivered _ IDs data, Function.update_eq_self v D.proxy, rfl⟩

/-- In every run of all nodes, a proxy hears what another one has sent before, under the same ids and with the
same data, and only if the identifier includes its node. -/
theorem heard_as_sent (h : CarriedRun t fresh D) (hstep : D.Step t fresh (.arrive frame) D') :
    ∃ IDs data, frame.payload = wireBytes IDs ++ data ∧ Sent t D IDs data ∧
      if frame.FID.Includes (parse (t.iLID (t.owner frame.dst))) then
        Heard t (t.owner frame.dst) D D' IDs data
      else D'.proxy = D.proxy ∧ D'.log = D.log := by
  obtain ⟨hD, hload⟩ := h.invariant
  obtain ⟨hin, hrun⟩ := hstep
  obtain ⟨IDs, data, hcarried, hsent, hpayload⟩ := hload frame hin
  refine ⟨IDs, data, hpayload, hsent, ?_⟩
  rw [arrive_eq, Topology.forwarder_iLID] at hrun
  split at hrun
  · next hinc =>
    rw [hpayload] at hrun
    rw [if_pos hinc]
    exact heard (D := D.forward t (t.owner frame.dst) frame) (hD _).2 hcarried hrun
  · next hinc =>
    rw [if_neg hinc, ← Option.some.inj hrun]
    exact ⟨rfl, rfl⟩

theorem item_ofData : OfData [item] where
  count := by decide
  whole := by decide
  short := by decide
  other nodeID h := by
    have hhead : some (0 : UInt8) = some 255 := congrArg List.head? (List.singleton_inj.mp h)
    exact absurd hhead (by decide)

theorem carriedRun_matched (FID : Bitvector) : CarriedRun pair (fun _ => 0) (matched FID) := by
  have hsub : CarriedRun pair (fun _ => 0) (hostDo true subscribing (init pair)) :=
    Runs.Reachable.start.next (a := .host true subscribing [])
      ⟨⟨(by decide : Request.Whole _), (by decide : Request.Accepted _), trivial, push_hostDo rfl⟩,
        trivial⟩
  have hpub : CarriedRun pair (fun _ => 0) registered :=
    Runs.Reachable.next hsub (a := .host false publishing [])
      ⟨⟨(by decide : Request.Whole _), (by decide : Request.Accepted _), trivial, push_hostDo rfl⟩,
        trivial⟩
  exact Runs.Reachable.next hpub (a := .host false (.localNotification .clickElement 1 (.startPublish [item] FID)) [])
    ⟨⟨trivial, trivial, rfl, push_hostDo rfl⟩, trivial⟩

theorem push_sending (FID : Bitvector) : ∃ s', ((matched FID).proxy false).push sending =
    .ok (s', ((matched FID).proxy false).handleUserPublication item [7] 5) := by
  rw [← pushData_user .localProcess 0 (by decide : ¬ (domainLocal = implicitRendezvous ∨ _ ∨ _))]
  exact ⟨_, rfl⟩

theorem carriedRun_sending (FID : Bitvector) : CarriedRun pair (fun _ => 0) (hostDo false sending (matched FID)) := by
  obtain ⟨ap, hap, hids, -⟩ := matched_entry FID
  refine Runs.Reachable.next (carriedRun_matched FID) (a := .host false sending [])
    ⟨⟨trivial, trivial, rfl, push_hostDo rfl⟩, ?_⟩
  intro IDs F data hout
  rw [pushData_user _ _ (by decide), LocalProxy.handleUserPublication, hap] at hout
  obtain ⟨-, rfl, -⟩ := publish_mem hout
  exact hids ▸ item_ofData.toCarried

theorem sending_departs {FID : Bitvector} (hzero : FID ≠ 0) (hself : FID ≠ parse (pair.iLID false))
    (hinc : FID.Includes (parse (Topology.wire pairLID false true).LID)) : (Topology.wire pairLID false true).frame ⟨FID, wireBytes [item] ++ [7]⟩ ∈
      (hostDo false sending (matched FID)).net.inFlight := by
  obtain ⟨s', hrun⟩ := push_sending FID
  obtain ⟨ap, hap, hids, hfid⟩ := matched_entry FID
  have hiLID := (carriedRun_matched FID).invariant.1.iLID false
  have hout : .publish ap.allKnownIDs ap.FIDToSubscribers [7] ∈
      ((matched FID).proxy false).handleUserPublication item [7] 5 :=
    publish_output hap (hfid.symm ▸ hzero) (hfid.symm ▸ hiLID ▸ hself)
  rw [hids, hfid] at hout
  have hlink : Topology.wire pairLID false true ∈ pair.links := List.mem_singleton_self _
  generalize hlast : Topology.wire pairLID false true = e at hlink hinc ⊢
  have hsource : e.source = false := hlast ▸ rfl
  have hsend := Topology.network_mem_pushLocal (p := ⟨FID, wireBytes [item] ++ [7]⟩) hlink hinc
  rw [hsource] at hsend
  exact departs (push_hostDo hrun) hrun hout item_ofData.count hsource hsend

theorem heard_as_sent_pair : ∃ D D' frame, CarriedRun pair (fun _ => 0) D ∧
    D.Step pair (fun _ => 0) (.arrive frame) D' ∧ ∃ IDs data, frame.payload = wireBytes IDs ++ data ∧
      Sent pair D IDs data ∧ if frame.FID.Includes (parse (pair.iLID (pair.owner frame.dst))) then
        Heard pair (pair.owner frame.dst) D D' IDs data
      else D'.proxy = D.proxy ∧ D'.log = D.log := by
  have hself : (6 : Bitvector) ≠ parse (pair.iLID false) := by
    simp only [pair, Topology.ofEdges]
    rw [parse_oneHot (by decide)]
    decide
  have hinc : (6 : Bitvector).Includes (parse (Topology.wire pairLID false true).LID) := by
    simp only [Topology.wire, pairLID]
    rw [parse_oneHot (by decide)]
    decide
  obtain ⟨D', hstep⟩ := exists_arrive item_ofData rfl (sending_departs (by decide) hself hinc)
  exact ⟨_, D', _, carriedRun_sending 6, hstep, heard_as_sent (carriedRun_sending 6) hstep⟩

end Domain

end Blackadder
