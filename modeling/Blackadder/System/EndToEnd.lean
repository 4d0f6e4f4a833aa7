import Blackadder.Lipsin.Assignment
import Blackadder.System.Integrity

/-!
# From a publisher to all subscribers

The rendezvous of the topology manager gives publishers their forwarding identifiers. With them every
publication reaches the subscribers on all nodes, whatever else happens in the domain.
-/

namespace Blackadder

namespace Domain

open Wire
open Bitvector (parse oneHot parse_oneHot)

variable {V Addr : Type*} [DecidableEq V] [DecidableEq Addr]

/-- Frames arrive in the end. Hosts do what they like. -/
def Urgent : Action V Addr → Prop
  | .arrive _ => True
  | .host _ _ _ => False

/-- Step `k` is a publication of `host` at `P`. The proxy knows the item under `IDs`, and has an identifier for
its subscribers. -/
structure Publishes (r : Nat → Domain V Addr) (act : Nat → Option (Action V Addr)) (k : Nat) (P : V)
    (host : HostId) (IDs : List Id) (FID : Bitvector) (payload : List UInt8) : Prop where
  taken : ∃ type ID strategy F rest ap,
    act k = some (.host P (.publication type host ID strategy F payload) rest) ∧
      ¬ (strategy = implicitRendezvous ∨ strategy = linkLocal ∨ strategy = broadcastIf) ∧
      ((r k).proxy P).activePublicationIndex ID = some ap ∧ ap.allKnownIDs = IDs ∧ ap.FIDToSubscribers = FID

/-- At some step from `k` on the proxy of `S` hands the data to `g`. -/
def GetsAfter (r : Nat → Domain V Addr) (k : Nat) (S : V) (g : HostId) (payload : List UInt8) : Prop :=
  ∃ k', k ≤ k' ∧ ∃ i outs K, (r (k' + 1)).log = (S, i, outs) ::ₘ (r k').log ∧ .deliver g K payload ∈ outs

variable {t : Topology V Addr} {fresh : Nat → UInt8} {D D' : Domain V Addr} {P S u v : V} {g host : HostId}
  {i : LocalProxy.Input} {data payload : List UInt8} {frame : Frame Addr} {s : LocalProxy}
  {outs : List ProxyOutput} {IDs : List Id} {FID : Bitvector} {p : Packet} {e e' : Link V Addr}
  {es : List (Link V Addr)} {r : Nat → Domain V Addr} {act : Nat → Option (Action V Addr)} {k : Nat}
  {getShortestPath : V → V → List V} {getEid : V → V → Link V Addr}

/-! ## Arrivals -/

theorem arrive_net (h : D.Step t fresh (.arrive frame) D') : t.Step D.net frame D'.net :=
  (arrive_cases h.1 h.2).1

/-- The arrival at the end of a link makes the arrival at the end of the next one possible. -/
theorem hop_enabled (hIDs : OfData IDs) (hp : p.payload = wireBytes IDs ++ data) (he : e ∈ t.links)
    (hhop : t.Hop p e e') (h : D.Step t fresh (.arrive (e.frame p)) D') :
    ∃ D'', D'.Step t fresh (.arrive (e'.frame p)) D'' := by
  obtain ⟨-, hnet⟩ := arrive_net h
  have howner : t.owner (e.frame p).dst = e.target := t.dst_owner e he
  rw [howner] at hnet
  apply exists_arrive hIDs (show (e'.frame p).payload = _ from hp)
  rw [hnet]
  exact (Topology.emit_network hhop.2 hhop.1).1

/-- A packet of data that is on its first link comes to the subscribers at the end of its way. -/
theorem eventually_handed (hr : Runs.FairFor Urgent (Step t fresh) r act) (hIDs : OfData IDs)
    (hp : p.payload = wireBytes IDs ++ data) (hes : ∀ e' ∈ e :: es, e' ∈ t.links)
    (hfollows : t.Follows P S p (e :: es)) (hfly : e.frame p ∈ (r k).net.inFlight)
    (hsub : ∀ k', k ≤ k' → ∃ K ∈ IDs, ((r k').proxy S).Subscribed g K) : GetsAfter r k S g data := by
  obtain ⟨k', hk, e', he', hact⟩ := hr.chain (f := fun e => Action.arrive (V := V) (Link.frame e p)) (fun _ => True.intro)
    (fun m b hb c hact hhop => hop_enabled hIDs hp (hes b hb) hhop (hr.next m _ hact)) hfollows.hops
    (exists_arrive hIDs hp hfly)
  obtain ⟨htarget, hlocal⟩ := hfollows.last e' he'
  obtain ⟨hin, hrun⟩ := hr.next k' _ hact
  have howner : t.owner (e'.frame p).dst = S :=
    (t.dst_owner e' (hes e' (List.mem_of_getLast? he'))).trans htarget
  have hinc : (e'.frame p).FID.Includes (t.forwarder S).gc.iLID := by
    by_contra hno
    have hmem := List.mem_filterMap.mpr ⟨_, hlocal, (rfl : payload? (.localProxy p.payload) = some p.payload)⟩
    rw [payloads_pushNetwork, if_neg hno] at hmem
    cases hmem
  rw [arrive_eq, howner, if_pos hinc, show (e'.frame p).payload = _ from hp, hear_data hIDs] at hrun
  obtain ⟨K, hK, hg⟩ := hsub k' hk
  have hdel := LocalProxy.handleNetworkPublication_delivered ((r k').proxy S) IDs data
  have hrec := (hdel.receivers g).mpr ⟨by simp, K, hK, hg⟩
  obtain ⟨o, ho, hreceiver⟩ := List.mem_filterMap.mp hrec
  cases o with
  | deliver host K' payload =>
    obtain rfl : host = g := Option.some.inj hreceiver
    obtain ⟨rfl, -, -⟩ := hdel.names host K' payload ho
    exact ⟨k', hk, _, _, K', by rw [← Option.some.inj hrun]; rfl, ho⟩
  | toRV => cases hreceiver
  | unsetToRV => cases hreceiver
  | notify => cases hreceiver
  | publish => cases hreceiver

/-! ## Publications -/

omit [DecidableEq V] [DecidableEq Addr] in
theorem deliver_output {ID : Id} {ap : ActivePublication} (hap : s.activePublicationIndex ID = some ap)
    (hne : g ≠ host) (hsub : ∃ K ∈ ap.allKnownIDs, s.Subscribed g K) :
    .deliver g ID payload ∈ s.handleUserPublication ID payload host := by
  have hmem : .deliver g ID payload ∈ ((s.findLocalSubscribers ap.allKnownIDs).erase host).keys.map
      fun g => ProxyOutput.deliver g ID payload :=
    List.mem_map_of_mem ((LocalProxy.mem_keys_erase host g).mpr ⟨hne, hsub⟩)
  unfold LocalProxy.handleUserPublication
  rw [hap]
  dsimp only
  split
  · exact hmem
  · exact List.mem_cons_of_mem _ hmem

omit [DecidableEq V] [DecidableEq Addr] in
theorem payload_output {ID : Id} {ap : ActivePublication} {o : ProxyOutput} {gc : GlobalConf}
    {rest : List UInt8} (hap : s.activePublicationIndex ID = some ap) (hcount : ap.allKnownIDs.length ≤ 255)
    (ho : o ∈ s.handleUserPublication ID payload host) (hp : LocalProxy.packet fresh gc rest o = some p) :
    p.payload = wireBytes ap.allKnownIDs ++ payload := by
  unfold LocalProxy.handleUserPublication at ho
  rw [hap] at ho
  dsimp only at ho
  have hlocal : o ∉ ((s.findLocalSubscribers ap.allKnownIDs).erase host).keys.map
      fun g => ProxyOutput.deliver g ID payload := by
    intro ho
    obtain ⟨g, -, rfl⟩ := List.mem_map.mp ho
    cases hp
  split at ho
  · exact absurd ho hlocal
  · rcases List.mem_cons.mp ho with rfl | ho
    · rw [packet_publish fresh gc rest hcount] at hp
      rw [← Option.some.inj hp]
    · exact absurd ho hlocal

/-- The step of a publication, with what the proxy makes of it. -/
theorem Publishes.step (h : Publishes r act k P host IDs FID payload)
    (hr : Runs.FairFor Urgent (Step t fresh) r act) : ∃ i rest ID ap s',
    ((r k).proxy P).activePublicationIndex ID = some ap ∧ ap.allKnownIDs = IDs ∧ ap.FIDToSubscribers = FID ∧
      (r k).push t fresh P i rest = some (r (k + 1)) ∧
      ((r k).proxy P).push i = .ok (s', ((r k).proxy P).handleUserPublication ID payload host) := by
  obtain ⟨type, ID, strategy, F, rest, ap, hact, hstrategy, hap, hIDs, hFID⟩ := h.taken
  obtain ⟨-, -, -, hpush⟩ := hr.next k _ hact
  refine ⟨_, rest, ID, ap, ((r k).proxy P).getLocalHost type host, hap, hIDs, hFID, hpush, ?_⟩
  rw [← pushData_user type F hstrategy, ← LocalProxy.pushData_fst ID strategy F payload]
  rfl

theorem Publishes.locally (h : Publishes r act k P host IDs FID payload)
    (hr : Runs.FairFor Urgent (Step t fresh) r act) (hne : g ≠ host)
    (hsub : ∃ K ∈ IDs, ((r k).proxy P).Subscribed g K) : GetsAfter r k P g payload := by
  obtain ⟨i, rest, ID, ap, s', hap, rfl, -, hpush, hrun⟩ := h.step hr
  obtain ⟨_, outs, hrun', -, -, hlog⟩ := push_cases hpush
  obtain ⟨-, rfl⟩ := Prod.mk.inj (Except.ok.inj (hrun.symm.trans hrun'))
  exact ⟨k, le_rfl, i, _, ID, hlog, deliver_output hap hne hsub⟩

/-! ## Subscribers on other nodes -/

omit [DecidableEq V] [DecidableEq Addr] in
/-- An identifier that leads to another node is none of those that a proxy keeps its data for. -/
theorem leads_away (hiLID : ∀ u v, u ≠ v → ¬ (parse (t.iLID u)).Includes (parse (t.iLID v))) (hne : P ≠ S)
    (hinc : FID.Includes (parse (t.iLID S))) : FID ≠ 0 ∧ FID ≠ parse (t.iLID P) := by
  constructor
  · rintro rfl
    have hzero : parse (t.iLID S) = 0 := by simpa [Bitvector.Includes, eq_comm] using hinc
    exact hiLID P S hne (by simp [Bitvector.Includes, hzero])
  · rintro rfl
    exact hiLID P S hne hinc

omit [DecidableEq V] [DecidableEq Addr] in
theorem route_includes (g : TMIgraph V (Link V Addr)) (s d : V) :
    (g.route s d).FID.Includes (parse (g.iLID d)) ∧
      ∀ e ∈ g.pathEdges (g.getShortestPath s d), (g.route s d).FID.Includes (parse (g.LID e)) := by
  unfold TMIgraph.route
  refine ⟨Bitvector.includes_or_right _ _, fun e he => ?_⟩
  exact (Bitvector.includes_or_left _ _).trans
    ((TMIgraph.foldl_or_includes (fun e => parse (g.LID e)) _ 0).2 e he)

theorem Publishes.remotely (h : Publishes r act k P host IDs FID payload)
    (hr : Runs.FairFor Urgent (Step t fresh) r act) (hproxies : Proxies t (r k)) (hIDs : OfData IDs)
    (hE : (t.igraph getShortestPath getEid).ReturnsEdges Link.source Link.target t.links)
    (hpath : Walks.IsShortest t.Adj P S (getShortestPath P S)) (hne : P ≠ S)
    (hiLID : ∀ u v, u ≠ v → ¬ (parse (t.iLID u)).Includes (parse (t.iLID v)))
    (hinc : FID.Includes ((t.igraph getShortestPath getEid).route P S).FID)
    (hones : FID = BitVec.allOnes fidBits → (getShortestPath P S).length = 2)
    (hsub : ∀ k', k ≤ k' → ∃ K ∈ IDs, ((r k').proxy S).Subscribed g K) : GetsAfter r k S g payload := by
  obtain ⟨hnode, hlinks⟩ := route_includes (t.igraph getShortestPath getEid) P S
  obtain ⟨hzero, hself⟩ := leads_away hiLID hne (hinc.trans hnode)
  have hmem := Topology.mem_links_of_mem_pathEdges hE hpath.chain
  have hfollows := Topology.follows (p := ⟨FID, wireBytes IDs ++ payload⟩) hE hpath
    (fun e he => hinc.trans (hlinks e he)) (hinc.trans hnode) hones
  cases hes : (t.igraph getShortestPath getEid).pathEdges (getShortestPath P S) with
  | nil =>
    -- a path without links does not leave its node
    obtain ⟨rest, hrest⟩ := List.head?_eq_some_iff.mp hpath.head
    have hends := (Topology.pathEdges_ends hE (hrest ▸ hpath.chain)).1
    have hlast := hpath.last
    rw [hrest, ← hends, ← hrest, hes] at hlast
    exact absurd (Option.some.inj hlast) hne
  | cons e es =>
    rw [hes] at hmem hfollows
    obtain ⟨hsource, hsend⟩ := hfollows.first e rfl
    obtain ⟨i, rest, ID, ap, s', hap, rfl, rfl, hpush, hrun⟩ := h.step hr
    have hfly := departs hpush hrun (publish_output hap hzero (hproxies.iLID P ▸ hself)) hIDs.count hsource hsend
    obtain ⟨k', hk', hgets⟩ := eventually_handed hr hIDs rfl hmem hfollows hfly
      fun m hm => hsub m (by omega)
    exact ⟨k', by omega, hgets⟩

variable (fresh) in
/-- Where every subscriber is reached by some publisher, each gets one by the rendezvous of the topology
manager, and then each publication of a host there comes to all its hosts that stay subscribed. -/
theorem delivered_to_subscribers [Fintype V]
    (hE : (t.igraph getShortestPath getEid).ReturnsEdges Link.source Link.target t.links)
    (hP : (t.igraph getShortestPath getEid).FindsPaths t.Adj) (hids : Fintype.card V < 2 ^ 31)
    (hiLID : ∀ u v, u ≠ v → ¬ (parse (t.iLID u)).Includes (parse (t.iLID v)))
    {publishers subscribers : List V}
    (hreach : ∀ S ∈ subscribers, ∃ P ∈ publishers, Relation.ReflTransGen t.Adj P S) :
    ∃ m, TMIgraph.calculateFIDs (t.igraph getShortestPath getEid).route publishers subscribers = some m ∧
      ∀ S ∈ subscribers, ∃ P ∈ publishers, ∃ FID, (P, some FID) ∈ m.result ∧
        ∀ r act k host IDs payload g, Runs.FairFor Urgent (Step t fresh) r act → Reachable t fresh (r 0) →
          OfData IDs → Publishes r act k P host IDs FID payload → (S = P → g ≠ host) →
          (FID = BitVec.allOnes fidBits → P ≠ S → (getShortestPath P S).length = 2) →
          (∀ k', k ≤ k' → ∃ K ∈ IDs, ((r k').proxy S).Subscribed g K) → GetsAfter r k S g payload := by
  obtain ⟨m, hm, hserved⟩ := TMIgraph.served_calculateFIDs (t.igraph getShortestPath getEid).route publishers
    subscribers fun S hS => by
      obtain ⟨P, hpubl, hPS⟩ := hreach S hS
      exact ⟨P, hpubl, (TMIgraph.found_iff hP hids).mpr hPS⟩
  refine ⟨m, hm, fun S hS => ?_⟩
  obtain ⟨P, hpubl, hassigned⟩ := hserved.all S hS
  obtain ⟨FID, hFID, hinc⟩ := hassigned.FID
  refine ⟨P, hpubl, FID, hFID, fun r act k host IDs payload g hr h0 hIDs hpublishes hne hones hsub => ?_⟩
  by_cases hPS : P = S
  · subst hPS
    exact hpublishes.locally hr (hne rfl) (hsub k le_rfl)
  · have hpath := (hP P S).1 ((TMIgraph.found_iff hP hids).mp hassigned.found)
    have hproxies : Proxies t (r k) := Reachable.proxies (hr.reachable h0 k)
    exact hpublishes.remotely hr hproxies hIDs hE hpath hPS hiLID hinc (fun h => hones h hPS) hsub

/-! ## Fair runs -/

theorem proxy_arrive (hIDs : OfData IDs) (hpayload : frame.payload = wireBytes IDs ++ data)
    (h : D.Step t fresh (.arrive frame) D') : D'.proxy = D.proxy := by
  obtain ⟨-, hrun⟩ := h
  rw [arrive_eq, hpayload, hear_data hIDs] at hrun
  split at hrun
  · rw [← Option.some.inj hrun]
    rfl
  · rw [← Option.some.inj hrun]
    rfl

/-- Frames with data may be served in the order in which they were sent, and the proxies stay as they are. -/
theorem exists_fairRun (hIDs : OfData IDs)
    (hdata : ∀ frame ∈ D.net.inFlight, frame.payload = wireBytes IDs ++ data) : ∃ r act,
      Runs.FairFor Urgent (Step t fresh) r act ∧ r 0 = D ∧ ∀ k, (r k).proxy = D.proxy := by
  let Busy : Domain V Addr → Prop := fun D' => D'.proxy = D.proxy ∧
    ∀ frame ∈ D'.net.inFlight, frame.payload = wireBytes IDs ++ data
  have hkeep : ∀ D₁ frame D₂, Busy D₁ → Step t fresh D₁ (.arrive frame) D₂ → Busy D₂ := by
    rintro D₁ frame D₂ ⟨hproxy, hall⟩ hstep
    refine ⟨(proxy_arrive hIDs (hall frame hstep.1) hstep).trans hproxy, fun x hx => ?_⟩
    rw [(arrive_net hstep).2, Topology.emit_inFlight] at hx
    rcases Multiset.mem_add.mp hx with hx | hx
    · exact hall x (Multiset.mem_of_mem_erase hx)
    · exact (payload_pushNetwork hx).trans (hall frame hstep.1)
  let Serve : Subtype Busy → Frame Addr → Subtype Busy → Prop := fun D₁ frame D₂ =>
    Step t fresh D₁ (.arrive frame) D₂
  let waiting : Subtype Busy → Multiset (Frame Addr) := fun D₁ => D₁.1.net.inFlight
  have hmem : ∀ D₁ frame D₂, Serve D₁ frame D₂ → frame ∈ waiting D₁ := fun _ _ _ h => h.1
  have hgo : ∀ D₁ frame, frame ∈ waiting D₁ → ∃ D₂ new, Serve D₁ frame D₂ ∧
      waiting D₂ = (waiting D₁).erase frame + (new : List (Frame Addr)) := by
    intro D₁ frame hin
    obtain ⟨D₂, hstep⟩ : ∃ D₂, Step t fresh D₁ (.arrive frame) D₂ := exists_arrive hIDs (D₁.2.2 frame hin) hin
    exact ⟨⟨D₂, hkeep D₁ frame D₂ D₁.2 hstep⟩, _, hstep, congrArg NetState.inFlight (arrive_net hstep).2⟩
  obtain ⟨r, act, hr, h0⟩ := Runs.exists_fairRun hmem hgo ⟨D, rfl, hdata⟩
  refine ⟨_, _, hr.fairFor (f := Action.arrive) (fun a ha => ?_) hkeep, congrArg Subtype.val h0,
    fun k => (r k).2.1⟩
  cases a with
  | arrive frame => exact ⟨frame, rfl⟩
  | host v i rest => exact ha.elim

/-! ## Two nodes -/

def pairPath (u v : Bool) : List Bool := if u = v then [u] else if u < v then [u, v] else []

theorem pair_adj {u v : Bool} : pair.Adj u v ↔ u < v := by
  constructor
  · rintro ⟨e, he, rfl, rfl⟩
    obtain rfl : e = Topology.wire pairLID false true := List.mem_singleton.mp he
    decide
  · intro h
    obtain ⟨rfl, rfl⟩ := Bool.lt_iff.mp h
    exact ⟨_, List.mem_singleton_self _, rfl, rfl⟩

theorem pair_reach {u v : Bool} : Relation.ReflTransGen pair.Adj u v ↔ u ≤ v := by
  constructor
  · intro h
    induction h with
    | refl => exact le_rfl
    | tail _ hadj ih => exact ih.trans (pair_adj.mp hadj).le
  · intro h
    rcases h.eq_or_lt with rfl | h
    · exact .refl
    · exact .single (pair_adj.mpr h)

theorem pair_paths : (pair.igraph pairPath (Topology.wire pairLID)).FindsPaths pair.Adj := by
  intro u v
  rw [pair_reach]
  change (u ≤ v → Walks.IsShortest pair.Adj u v (pairPath u v)) ∧ (¬ u ≤ v → pairPath u v = [])
  unfold pairPath
  constructor
  · intro h
    rcases h.eq_or_lt with rfl | h
    · rw [if_pos rfl]
      refine ⟨⟨rfl, rfl, .singleton _⟩, fun l hl => ?_⟩
      exact List.length_pos_of_mem (List.mem_of_mem_head? hl.head)
    · rw [if_neg h.ne, if_pos h]
      refine ⟨⟨rfl, rfl, List.isChain_pair.mpr (pair_adj.mpr h)⟩, fun l hl => ?_⟩
      match l, hl with
      | [], hl => cases hl.head
      | [w], hl => exact absurd ((Option.some.inj hl.head).symm.trans (Option.some.inj hl.last)) h.ne
      | _ :: _ :: l, _ => simp
  · intro h
    rw [if_neg (fun heq => h heq.le), if_neg (fun hlt => h hlt.le)]

theorem pair_edges : (pair.igraph pairPath (Topology.wire pairLID)).ReturnsEdges Link.source Link.target
    pair.links := by
  intro e he
  obtain rfl : e = Topology.wire pairLID false true := List.mem_singleton.mp he
  exact ⟨he, rfl, rfl⟩

theorem pair_iLID : ∀ u v : Bool, u ≠ v → ¬ (parse (pair.iLID u)).Includes (parse (pair.iLID v)) := by
  intro u v hne
  change ¬ (parse (oneHot u.toNat)).Includes (parse (oneHot v.toNat))
  rw [parse_oneHot (pair_bit u), parse_oneHot (pair_bit v)]
  revert u v
  decide

/-- The frames of the publication, and who is there to get it. -/
theorem sending_spec (FID : Bitvector) :
    (∀ frame ∈ (hostDo false sending (matched FID)).net.inFlight, frame.payload = wireBytes [item] ++ [7]) ∧
      ((hostDo false sending (matched FID)).proxy true).Subscribed 1 item := by
  obtain ⟨ap, hap, hids, -⟩ := matched_entry FID
  obtain ⟨_, hrun⟩ := push_sending FID
  obtain ⟨s', outs, hrun', hproxy, hnet, -⟩ := push_cases (push_hostDo hrun)
  obtain ⟨-, rfl⟩ := Prod.mk.inj (Except.ok.inj (hrun.symm.trans hrun'))
  constructor
  · intro x hx
    rw [hnet, Topology.emit_inFlight, idle_matched, zero_add, Multiset.mem_coe, List.filterMap_flatMap] at hx
    obtain ⟨p, hp, hx⟩ := List.mem_flatMap.mp hx
    obtain ⟨o, ho, hp⟩ := List.mem_filterMap.mp hp
    rw [payload_pushLocal rfl hx, ← hids]
    exact payload_output hap (by rw [hids]; decide) ho hp
  · rw [hproxy, Function.update_of_ne (by decide)]
    exact matched_subscribed FID

theorem delivered_to_subscribers_pair : ∃ m FID, TMIgraph.calculateFIDs
      (pair.igraph pairPath (Topology.wire pairLID)).route [false] [true] = some m ∧ (false, some FID) ∈ m.result ∧
    ∃ r act, Runs.FairFor Urgent (Step pair fun _ => 0) r act ∧ Publishes r act 0 false 5 [item] FID [7] ∧
      GetsAfter r 0 true 1 [7] := by
  have hreach : ∀ S ∈ [true], ∃ P ∈ [false], Relation.ReflTransGen pair.Adj P S :=
    List.forall_mem_singleton.mpr ⟨false, List.mem_singleton_self _, pair_reach.mpr (by decide)⟩
  obtain ⟨m, hm, hall⟩ := delivered_to_subscribers (fun _ => 0) pair_edges pair_paths (by decide) pair_iLID hreach
  obtain ⟨P, hP, FID, hFID, hgets⟩ := hall true (List.mem_singleton_self _)
  obtain rfl := List.mem_singleton.mp hP
  refine ⟨m, FID, hm, hFID, ?_⟩
  obtain ⟨hdata, hsub⟩ := sending_spec FID
  obtain ⟨r, act, hr, h0, hsame⟩ := exists_fairRun (t := pair) item_ofData hdata
  have hstep : (matched FID).Step pair (fun _ => 0) (.host false sending []) (r 0) :=
    h0 ▸ ⟨trivial, trivial, rfl, push_hostDo rfl⟩
  have hidle : ∀ b D', Urgent b → ¬ (matched FID).Step pair (fun _ => 0) b D' := by
    intro b D' hb hs
    cases b with
    | arrive frame => exact Multiset.notMem_zero frame (idle_matched FID ▸ hs.1)
    | host => exact hb
  have hrun := hr.cons hstep hidle
  have hpublishes : Publishes (fun k => Nat.casesOn k (matched FID) r)
      (fun k => Nat.casesOn k (some (.host false sending [])) act) 0 false 5 [item] FID [7] := by
    obtain ⟨ap, hap, hids, hfid⟩ := matched_entry FID
    exact ⟨_, _, _, _, _, ap, rfl, by decide, hap, hids, hfid⟩
  refine ⟨_, _, hrun, hpublishes, hgets _ _ 0 5 [item] [7] 1 hrun (carriedRun_matched FID).reachable
    item_ofData hpublishes (by decide) (fun _ _ => rfl) ?_⟩
  intro k' _
  refine ⟨item, List.mem_singleton_self _, ?_⟩
  cases k' with
  | zero => exact matched_subscribed FID
  | succ k' =>
    change ((r k').proxy true).Subscribed 1 item
    rw [hsame]
    exact hsub

end Domain

end Blackadder
