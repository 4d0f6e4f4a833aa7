import Blackadder.Api.Pipeline
import Blackadder.Lib.Fairness
import Blackadder.Lipsin.Delivery
import Blackadder.Network.Publications
import Blackadder.Proxy.Forwarding
import Blackadder.Proxy.Publications

/-!
# All nodes of a domain

Every node has a proxy and a forwarder. Hosts push inputs into the proxies at any time, and the frames that
follow from them arrive in any order.
-/

namespace Blackadder

open Wire
open Bitvector (parse oneHot parse_oneHot length_oneHot)

/-- What the forwarder reads of a packet of the proxy. -/
def Packet.ofBytes (b : List UInt8) : Packet := ⟨Bitvector.ofData (b.take fidLen), b.drop fidLen⟩

namespace LocalProxy

/-- The packet that an output makes for the forwarder. `rest` is what stands behind a request. -/
def packet (fresh : Nat → UInt8) (gc : GlobalConf) (rest : List UInt8) : ProxyOutput → Option Packet
  | .publish IDs FID payload => (pushDataToRemoteSubscribers fresh IDs FID payload).map Packet.ofBytes
  | .toRV RVFID r => do
    let sent ← publishReqToRV fresh gc (r.bytes ++ rest) RVFID
    -- output 1 leads to the rendezvous element of the node
    if sent.port = 2 then return Packet.ofBytes sent.packet else none
  | .unsetToRV RVFID type strategy => do
    let sent ← createAndSendPacketToRV fresh gc type.code 1 [] 255 [] RVFID strategy
    if sent.port = 2 then return Packet.ofBytes sent.packet else none
  | _ => none

/-- What comes from a host through its library, and not from the network. -/
def Input.FromHost : Input → Prop
  | .request _ _ r => r.Accepted
  | .network _ _ => False
  | .notification _ => False
  | _ => True

theorem accepted_of_fromHost {i : Input} (hi : i.FromHost) : i.Accepted := by
  cases i with
  | request type host r => exact hi
  | unknown | disconnect | publication | network | notification | localNotification => exact True.intro

/-- What a request of the host may have behind it. -/
def Input.Behind (rest : List UInt8) : Input → Prop
  | .request _ _ _ => True
  | _ => rest = []

end LocalProxy

structure Domain (V Addr : Type*) where
  proxy : V → LocalProxy
  net : NetState V Addr
  /-- What each proxy was given, and what it pushed to its outputs. -/
  log : Multiset (V × LocalProxy.Input × List ProxyOutput)

namespace Domain

variable {V Addr : Type*} [DecidableEq V]

inductive Action (V Addr : Type*)
  | arrive (frame : Frame Addr)
  | host (v : V) (i : LocalProxy.Input) (rest : List UInt8)

def init (t : Topology V Addr) : Domain V Addr := ⟨fun v => LocalProxy.init (t.globalConf v), ⟨0, 0, 0⟩, 0⟩

/-- The proxy of `v` gets an input, and the forwarder the packets that it makes of it. -/
def push (t : Topology V Addr) (fresh : Nat → UInt8) (v : V) (i : LocalProxy.Input) (rest : List UInt8)
    (D : Domain V Addr) : Option (Domain V Addr) :=
  match (D.proxy v).push i with
  | .error _ => none
  | .ok (proxy', outs) => some {
      proxy := Function.update D.proxy v proxy'
      net := Topology.emit v ((outs.filterMap (LocalProxy.packet fresh (D.proxy v).gc rest)).flatMap
        (t.forwarder v).pushLocal) D.net
      log := (v, i, outs) ::ₘ D.log }

/-- Port 2 of the proxy. Nothing follows from a notification of an unknown type. -/
def hear (t : Topology V Addr) (fresh : Nat → UInt8) (v : V) (D : Domain V Addr) (p : List UInt8) :
    Option (Domain V Addr) :=
  match LocalProxy.readNetwork (D.proxy v).gc p with
  | none => none
  | some none => some D
  | some (some i) => D.push t fresh v i []

def payload? : Output Addr → Option (List UInt8)
  | .network _ _ => none
  | .localProxy payload => some payload

variable [DecidableEq Addr]

/-- What the forwarder of `v` sends on of a frame. -/
def forward (t : Topology V Addr) (v : V) (frame : Frame Addr) (D : Domain V Addr) : Domain V Addr :=
  { D with
    net := Topology.emit v ((t.forwarder v).pushNetwork frame)
      { D.net with inFlight := D.net.inFlight.erase frame } }

/-- A frame arrives at the node that has its destination address. -/
def arrive (t : Topology V Addr) (fresh : Nat → UInt8) (frame : Frame Addr) (D : Domain V Addr) :
    Option (Domain V Addr) :=
  let v := t.owner frame.dst
  (((t.forwarder v).pushNetwork frame).filterMap payload?).foldlM (hear t fresh v) (D.forward t v frame)

/-- One step of some node. An access outside a packet makes none. -/
def Step (t : Topology V Addr) (fresh : Nat → UInt8) (D : Domain V Addr) : Action V Addr → Domain V Addr → Prop
  | .arrive frame, D' => frame ∈ D.net.inFlight ∧ D.arrive t fresh frame = some D'
  | .host v i rest, D' => (D.proxy v).Allowed i ∧ i.FromHost ∧ i.Behind rest ∧ D.push t fresh v i rest = some D'

def Reachable (t : Topology V Addr) (fresh : Nat → UInt8) (D : Domain V Addr) : Prop :=
  Runs.Reachable (Step t fresh) (init t) D

variable {t : Topology V Addr} {fresh : Nat → UInt8} {D D' : Domain V Addr} {a : Action V Addr} {u v : V}
  {i : LocalProxy.Input} {rest p : List UInt8} {frame : Frame Addr} {s s' : LocalProxy}
  {outs : List ProxyOutput} {o : ProxyOutput} {IDs : List Id} {FID RVFID : Bitvector} {payload : List UInt8}

/-! ## Packets -/

theorem ofBytes_append (FID : Bitvector) (payload : List UInt8) :
    Packet.ofBytes (FID.data ++ payload) = ⟨FID, payload⟩ := by
  have hlen : FID.data.length = fidLen := by simp [fidLen]
  rw [Packet.ofBytes, List.take_left' hlen, List.drop_left' hlen, Bitvector.ofData_data]

theorem packet_publish (fresh : Nat → UInt8) (gc : GlobalConf) (rest : List UInt8) (hcount : IDs.length ≤ 255) :
    LocalProxy.packet fresh gc rest (.publish IDs FID payload) = some ⟨FID, wireBytes IDs ++ payload⟩ := by
  rw [LocalProxy.packet, pushDataToRemoteSubscribers_cast fresh FID IDs payload hcount, Option.map_some,
    ofBytes_append]

omit [DecidableEq V] [DecidableEq Addr] in
theorem nodeID_of_configured (t : Topology V Addr) (v : V) : (t.globalConf v).nodeID.length = nodeIDLen := by
  obtain ⟨_, _, _, _, h⟩ := t.configured v
  unfold GlobalConf.configure at h
  split at h
  · cases h
  next hlen =>
    split at h
    · cases h
    split at h
    · cases h
    split at h
    · cases h
    rw [← Option.some.inj h]
    exact not_not.mp hlen

theorem packet_toRV {gc : GlobalConf} {r : Request} (hgc : gc.nodeID.length = nodeIDLen) :
    LocalProxy.packet fresh gc rest (.toRV RVFID r) = if RVFID = 0 ∨ RVFID = gc.iLID then none
      else some ⟨RVFID, wireBytes [gc.nodeRVScope] ++ (r.bytes ++ rest)⟩ := by
  have hlen := length_nodeRVScope hgc
  have hwire : wireBytes [gc.nodeRVScope] = [1] ++ idBytes gc.nodeRVScope := by
    simp [wireBytes, castBytes, idBytes, fragments, hlen]
  simp only [LocalProxy.packet, publishReqToRV_eq hgc, Option.bind_eq_bind, Option.bind_some, rvPort, rvHeader]
  split
  · rfl
  · rw [if_pos rfl, hwire, List.append_assoc, ofBytes_append]
    rfl

/-! ## What the proxies keep -/

/-- A notification may replace two forwarding identifiers, but nothing else of the configuration. -/
def Reconfigured (gc gc' : GlobalConf) : Prop :=
  ∃ RVFID TMFID, gc' = { gc with defaultRVdl := RVFID, TMFID := TMFID }

theorem Reconfigured.of_eq {gc gc' : GlobalConf} (h : gc' = gc) : Reconfigured gc gc' :=
  ⟨gc.defaultRVdl, gc.TMFID, h⟩

theorem Reconfigured.trans {gc gc' gc'' : GlobalConf} (h : Reconfigured gc gc')
    (h' : Reconfigured gc' gc'') : Reconfigured gc gc'' := by
  obtain ⟨_, _, rfl⟩ := h
  obtain ⟨RVFID, TMFID, rfl⟩ := h'
  exact ⟨RVFID, TMFID, rfl⟩

theorem gc_handleRVNotification (s : LocalProxy) (n : Notification) :
    Reconfigured s.gc (s.handleRVNotification n).1.gc := by
  cases n with
  | scopePublished IDs => exact .of_eq rfl
  | scopeUnpublished IDs => exact .of_eq rfl
  | startPublish IDs FID =>
    have hcheck : (LocalProxy.startCheck IDs FID s IDs).2.gc = s.gc := LocalProxy.gc_startCheck
    apply Reconfigured.of_eq
    simp only [LocalProxy.handleRVNotification]
    unfold LocalProxy.handleStartPublish
    split
    · next s' hs' =>
      rw [hs'] at hcheck
      exact hcheck
    · next s' hs' =>
      rw [hs'] at hcheck
      exact LocalProxy.gc_startNotify.trans hcheck
  | stopPublish IDs => exact .of_eq LocalProxy.gc_handleStopPublish
  | updateBA RVFID TMFID => exact ⟨RVFID, some TMFID, rfl⟩

theorem gc_step (h : s.Step (i, outs) s') (hs : s.Sound) : Reconfigured s.gc s'.gc := by
  obtain ⟨hallowed, hrun⟩ := h
  cases i with
  | request type host r =>
    have hfst : (s.pushRequest type host r).1 = s' := congrArg Prod.fst (Except.ok.inj hrun)
    exact .of_eq (hfst ▸ LocalProxy.gc_pushRequest)
  | unknown type host =>
    have hfst : s.getLocalHost type host = s' := congrArg Prod.fst (Except.ok.inj hrun)
    exact .of_eq (hfst ▸ LocalProxy.getLocalHost_gc ..)
  | disconnect type host pubOrder subOrder =>
    obtain ⟨s'', _, hrun', -, -, -, -, -, hgc⟩ := LocalProxy.disconnect_met hs hallowed type
    obtain ⟨rfl, -⟩ := Prod.mk.inj (Except.ok.inj (hrun.symm.trans hrun'))
    exact .of_eq hgc
  | publication type host ID strategy FID payload =>
    have hfst : (s.pushData type host ID strategy FID payload).1 = s' :=
      congrArg Prod.fst (Except.ok.inj hrun)
    rw [LocalProxy.pushData_fst] at hfst
    exact .of_eq (hfst ▸ LocalProxy.getLocalHost_gc ..)
  | network IDs payload =>
    have hfst : s = s' := congrArg Prod.fst (Except.ok.inj hrun)
    exact .of_eq (congrArg LocalProxy.gc hfst.symm)
  | notification n =>
    have hfst : (s.handleRVNotification n).1 = s' := congrArg Prod.fst (Except.ok.inj hrun)
    exact hfst ▸ gc_handleRVNotification s n
  | localNotification type host n =>
    have hfst : ((s.getLocalHost type host).handleRVNotification n).1 = s' :=
      congrArg Prod.fst (Except.ok.inj hrun)
    have hgc := gc_handleRVNotification (s.getLocalHost type host) n
    rw [LocalProxy.getLocalHost_gc] at hgc
    exact hfst ▸ hgc

/-- The proxies are those of the nodes that the topology was configured for. -/
def Proxies (t : Topology V Addr) (D : Domain V Addr) : Prop :=
  ∀ v, (D.proxy v).Named ∧ Reconfigured (t.globalConf v) (D.proxy v).gc

omit [DecidableEq Addr] in
theorem Proxies.iLID (hD : Proxies t D) (v : V) : (D.proxy v).gc.iLID = parse (t.iLID v) := by
  obtain ⟨_, _, hgc⟩ := (hD v).2
  rw [hgc]
  exact Topology.forwarder_iLID t v

/-! ## Steps -/

omit [DecidableEq Addr] in
theorem push_cases (h : D.push t fresh v i rest = some D') : ∃ s' outs,
    (D.proxy v).push i = .ok (s', outs) ∧ D'.proxy = Function.update D.proxy v s' ∧
      D'.net = Topology.emit v ((outs.filterMap (LocalProxy.packet fresh (D.proxy v).gc rest)).flatMap
        (t.forwarder v).pushLocal) D.net ∧
      D'.log = (v, i, outs) ::ₘ D.log := by
  unfold push at h
  split at h
  · cases h
  · next s' outs hrun =>
    obtain rfl := Option.some.inj h
    exact ⟨s', outs, hrun, rfl, rfl, rfl⟩

omit [DecidableEq Addr] in
theorem Proxies.push (hD : Proxies t D) (hallowed : (D.proxy v).Allowed i) (ha : i.Accepted)
    (h : D.push t fresh v i rest = some D') : Proxies t D' := by
  obtain ⟨s', outs, hrun, hproxy, -, -⟩ := push_cases h
  have hstep : (D.proxy v).Step (i, outs) s' := ⟨hallowed, hrun⟩
  intro u
  rw [hproxy]
  by_cases hu : u = v
  · subst hu
    rw [Function.update_self]
    exact ⟨hstep.named (hD u).1 ha, (hD u).2.trans (gc_step hstep (hD u).1.toSound)⟩
  · rw [Function.update_of_ne hu]
    exact hD u

omit [DecidableEq V] [DecidableEq Addr] in
/-- What the network brings is data or a notification, and makes no packets. -/
theorem quiet_input (hread : LocalProxy.readNetwork (D.proxy v).gc p = some (some i)) :
    (∃ IDs payload, i = .network IDs payload) ∨ ∃ n, i = .notification n := by
  rw [readNetwork_eq] at hread
  obtain ⟨⟨IDs, payload⟩, -, hread⟩ := Option.bind_eq_some_iff.mp hread
  dsimp only at hread
  split at hread
  · obtain ⟨n, -, hn⟩ := Option.bind_eq_some_iff.mp hread
    obtain ⟨n, -, rfl⟩ := Option.map_eq_some_iff.mp (Option.some.inj hn)
    exact Or.inr ⟨n, rfl⟩
  · exact Or.inl ⟨IDs, payload, (Option.some.inj (Option.some.inj hread)).symm⟩

omit [DecidableEq V] [DecidableEq Addr] in
theorem quiet_accepted (hread : LocalProxy.readNetwork (D.proxy v).gc p = some (some i)) : i.Accepted := by
  rcases quiet_input hread with ⟨IDs, payload, rfl⟩ | ⟨n, rfl⟩ <;> exact True.intro

omit [DecidableEq V] [DecidableEq Addr] in
theorem emit_nil (σ : NetState V Addr) : Topology.emit v [] σ = σ := by simp [Topology.emit]

omit [DecidableEq Addr] in
/-- The proxy hears a packet of the network. -/
theorem hear_cases (h : hear t fresh v D p = some D') : D' = D ∨
    ∃ i s' outs, LocalProxy.readNetwork (D.proxy v).gc p = some (some i) ∧ (D.proxy v).Step (i, outs) s' ∧
      D' = { D with proxy := Function.update D.proxy v s', log := (v, i, outs) ::ₘ D.log } := by
  unfold hear at h
  split at h
  · cases h
  · exact Or.inl (Option.some.inj h).symm
  · next i hread =>
    obtain ⟨s', outs, hrun, hproxy, hnet, hlog⟩ := push_cases h
    have hnone : outs.filterMap (LocalProxy.packet fresh (D.proxy v).gc []) = [] := by
      apply List.filterMap_eq_nil_iff.mpr
      rcases quiet_input hread with ⟨IDs, payload, rfl⟩ | ⟨n, rfl⟩
      · obtain ⟨-, rfl⟩ := Prod.mk.inj (Except.ok.inj hrun)
        intro o ho
        obtain ⟨_, -, rfl⟩ := List.mem_map.mp ho
        rfl
      · obtain ⟨-, rfl⟩ := Prod.mk.inj (Except.ok.inj hrun)
        intro o ho
        obtain ⟨_, _, _, rfl⟩ := LocalProxy.handleRVNotification_notices n o ho
        rfl
    have hallowed : (D.proxy v).Allowed i := by
      rcases quiet_input hread with ⟨IDs, payload, rfl⟩ | ⟨n, rfl⟩ <;> exact True.intro
    refine Or.inr ⟨i, s', outs, hread, ⟨hallowed, hrun⟩, ?_⟩
    rw [hnone, List.flatMap_nil, emit_nil] at hnet
    cases D'
    simp only at hproxy hnet hlog
    rw [hproxy, hnet, hlog]

theorem payloads_pushNetwork (fw : Forwarder Addr) (frame : Frame Addr) :
    (fw.pushNetwork frame).filterMap payload? =
      if frame.FID.Includes fw.gc.iLID then [frame.payload] else [] := by
  have hnone : ∀ fes : List (ForwardingEntry Addr),
      (fes.map fun fe => Forwarder.send fe frame.FID frame.payload).filterMap payload? = [] := by
    intro fes
    apply List.filterMap_eq_nil_iff.mpr
    intro o ho
    obtain ⟨fe, -, rfl⟩ := List.mem_map.mp ho
    rfl
  rw [Forwarder.pushNetwork, List.filterMap_append, hnone, List.nil_append]
  split <;> rfl

/-- The forwarder works on the frame, and the proxy hears the packet if the identifier includes its node. -/
theorem arrive_eq (t : Topology V Addr) (fresh : Nat → UInt8) (frame : Frame Addr) (D : Domain V Addr) :
    D.arrive t fresh frame =
      if frame.FID.Includes (t.forwarder (t.owner frame.dst)).gc.iLID then
        hear t fresh (t.owner frame.dst) (D.forward t (t.owner frame.dst) frame) frame.payload
      else some (D.forward t (t.owner frame.dst) frame) := by
  unfold arrive
  dsimp only
  rw [payloads_pushNetwork]
  split
  · simp
  · rfl

/-- For the network an arrival is a step of its own. -/
theorem arrive_cases (hin : frame ∈ D.net.inFlight) (h : D.arrive t fresh frame = some D') :
    t.Step D.net frame D'.net ∧ (D'.proxy = D.proxy ∧ D'.log = D.log ∨
      ∃ i s' outs, LocalProxy.readNetwork (D.proxy (t.owner frame.dst)).gc frame.payload = some (some i) ∧
        (D.proxy (t.owner frame.dst)).Step (i, outs) s' ∧
        D'.proxy = Function.update D.proxy (t.owner frame.dst) s' ∧
        D'.log = (t.owner frame.dst, i, outs) ::ₘ D.log) := by
  rw [arrive_eq] at h
  split at h
  · rcases hear_cases h with rfl | ⟨i, s', outs, hread, hstep, rfl⟩
    · exact ⟨⟨hin, rfl⟩, Or.inl ⟨rfl, rfl⟩⟩
    · exact ⟨⟨hin, rfl⟩, Or.inr ⟨i, s', outs, hread, hstep, rfl, rfl⟩⟩
  · obtain rfl := Option.some.inj h
    exact ⟨⟨hin, rfl⟩, Or.inl ⟨rfl, rfl⟩⟩

theorem Proxies.step (hD : Proxies t D) (h : D.Step t fresh a D') : Proxies t D' := by
  cases a with
  | host v i rest => exact hD.push h.1 (LocalProxy.accepted_of_fromHost h.2.1) h.2.2.2
  | arrive frame =>
    obtain ⟨-, ⟨hproxy, -⟩ | ⟨i, s', outs, hread, hstep, hproxy, -⟩⟩ := arrive_cases h.1 h.2
    · intro u
      rw [hproxy]
      exact hD u
    · intro u
      rw [hproxy]
      by_cases hu : u = t.owner frame.dst
      · subst hu
        rw [Function.update_self]
        exact ⟨hstep.named (hD _).1 (quiet_accepted hread),
          (hD _).2.trans (gc_step hstep (hD _).1.toSound)⟩
      · rw [Function.update_of_ne hu]
        exact hD u

theorem Reachable.proxies (h : Reachable t fresh D) : Proxies t D :=
  Runs.Reachable.invariant h (I := Proxies t)
    (fun _ => ⟨LocalProxy.named_init _, .of_eq rfl⟩) fun _ _ _ _ hD hs => hD.step hs

omit [DecidableEq Addr] in
/-- Data are on their way over each link of the node that the identifier includes. -/
theorem departs {e : Link V Addr} (h : D.push t fresh v i rest = some D') (hrun : (D.proxy v).push i = .ok (s', outs))
    (hout : .publish IDs FID payload ∈ outs) (hcount : IDs.length ≤ 255) (hsource : e.source = v)
    (hsend : .network e.port (e.frame ⟨FID, wireBytes IDs ++ payload⟩) ∈
      (t.forwarder v).pushLocal ⟨FID, wireBytes IDs ++ payload⟩) :
    e.frame ⟨FID, wireBytes IDs ++ payload⟩ ∈ D'.net.inFlight := by
  obtain ⟨_, _, hrun', -, hnet, -⟩ := push_cases h
  obtain ⟨-, rfl⟩ := Prod.mk.inj (Except.ok.inj (hrun'.symm.trans hrun))
  have hpacket := List.mem_filterMap.mpr ⟨_, hout, packet_publish fresh (D.proxy v).gc rest hcount⟩
  rw [hnet]
  exact (Topology.emit_network (List.mem_flatMap.mpr ⟨_, hpacket, hsend⟩) hsource).1

/-! ## Two nodes -/

def pairLID (_ _ : Bool) : List Char := oneHot 2

theorem length_pairLID (u v : Bool) : (pairLID u v).length = fidBits := length_oneHot (by decide)

theorem pair_bit (v : Bool) : v.toNat < fidBits := by
  revert v
  decide

/-- Node `false` has a link to node `true`. -/
def pair : Topology Bool Bool :=
  Topology.ofEdges [(false, true)] (by decide) pairLID (fun v => oneHot v.toNat) length_pairLID
    fun v => length_oneHot (pair_bit v)

def item : Id := frag 1 ++ frag 2

def hostDo (v : Bool) (i : LocalProxy.Input) (D : Domain Bool Bool) : Domain Bool Bool :=
  (D.push pair (fun _ => 0) v i []).getD D

def subscribing : LocalProxy.Input :=
  .request .localProcess 1 ⟨.subscribeInfo, frag 2, frag 1, domainLocal⟩

def publishing : LocalProxy.Input :=
  .request .localProcess 5 ⟨.publishInfo, frag 2, frag 1, domainLocal⟩

/-- An application at node `true` is subscribed to an item of one at node `false`. -/
def registered : Domain Bool Bool := hostDo false publishing (hostDo true subscribing (init pair))

/-- The proxy of node `false` was told to start. -/
def matched (FID : Bitvector) : Domain Bool Bool :=
  hostDo false (.localNotification .clickElement 1 (.startPublish [item] FID)) registered

theorem push_hostDo {D : Domain Bool Bool} {v : Bool} {x : LocalProxy × List ProxyOutput}
    (h : (D.proxy v).push i = .ok x) : D.push pair (fun _ => 0) v i [] = some (hostDo v i D) := by
  simp only [hostDo, push, h, Option.getD_some]

theorem parse_zeros : parse (List.replicate fidBits '0') = 0 := by
  apply BitVec.eq_of_getLsbD_eq
  intro i hi
  rw [Bitvector.getLsbD_parse List.length_replicate hi, List.getElem?_replicate]
  split <;> simp

theorem pair_defaultRVdl (v : Bool) : (pair.globalConf v).defaultRVdl = 0 := by
  simp only [pair, Topology.ofEdges]
  exact parse_zeros

/-- Nothing goes out when no output makes a packet. -/
theorem idle_hostDo {D : Domain Bool Bool} {v : Bool} {s' : LocalProxy}
    (hrun : (D.proxy v).push i = .ok (s', outs))
    (hnone : ∀ o ∈ outs, LocalProxy.packet (fun _ => 0) (D.proxy v).gc [] o = none) :
    (hostDo v i D).net = D.net := by
  obtain ⟨_, _, hrun', -, hnet, -⟩ := push_cases (push_hostDo hrun)
  obtain ⟨rfl, rfl⟩ := Prod.mk.inj (Except.ok.inj (hrun'.symm.trans hrun))
  rw [hnet, List.filterMap_eq_nil_iff.mpr hnone]
  exact emit_nil D.net

theorem idle_request {D : Domain Bool Bool} {v : Bool} {type : HostType} {r : Request}
    (hgc : (D.proxy v).gc = pair.globalConf v) : (hostDo v (.request type host r) D).net = D.net := by
  obtain ⟨forward, s', -, hpush⟩ := LocalProxy.pushRequest_spec (D.proxy v) type host r
  have hrun : (D.proxy v).push (.request type host r) = .ok (s', if forward then
      [.toRV (LocalProxy.rendezvousFID (D.proxy v).gc r.strategy) r] else []) := congrArg Except.ok hpush
  apply idle_hostDo hrun
  have hzero : LocalProxy.rendezvousFID (D.proxy v).gc r.strategy = 0 := by
    unfold LocalProxy.rendezvousFID
    split
    · rw [hgc, pair_defaultRVdl]
    · rfl
  have hnode : (D.proxy v).gc.nodeID.length = nodeIDLen := hgc ▸ nodeID_of_configured pair v
  intro o ho
  cases forward with
  | true =>
    rw [List.mem_singleton.mp ho, packet_toRV hnode, if_pos (Or.inl hzero)]
  | false => cases ho

theorem idle_matched (FID : Bitvector) : (matched FID).net.inFlight = 0 := by
  have hregistered : registered.net.inFlight = 0 := by
    unfold registered publishing subscribing
    rw [idle_request rfl, idle_request rfl]
    rfl
  have hnotices := LocalProxy.handleRVNotification_notices (s := (registered.proxy false).getLocalHost .clickElement 1)
    (.startPublish [item] FID)
  have hrun : (registered.proxy false).push (.localNotification .clickElement 1 (.startPublish [item] FID)) =
      .ok (((registered.proxy false).getLocalHost .clickElement 1).handleRVNotification (.startPublish [item] FID)) := rfl
  generalize ((registered.proxy false).getLocalHost .clickElement 1).handleRVNotification (.startPublish [item] FID) =
    x at hnotices hrun
  unfold matched
  rw [idle_hostDo hrun, hregistered]
  intro o ho
  obtain ⟨_, _, _, rfl⟩ := hnotices o ho
  rfl

theorem matched_entry (FID : Bitvector) : ∃ ap, ((matched FID).proxy false).activePublicationIndex item = some ap ∧
    ap.allKnownIDs = [item] ∧ ap.FIDToSubscribers = FID := ⟨_, rfl, rfl, rfl⟩

theorem matched_subscribed (FID : Bitvector) : ((matched FID).proxy true).Subscribed 1 item :=
  Or.inl ⟨_, rfl, by decide⟩

def sending : LocalProxy.Input := .publication .localProcess 5 item domainLocal 0 [7]

end Domain

end Blackadder
