import Blackadder.Api.ClickRequests
import Blackadder.Lib.Delimited
import Blackadder.Qos.ClassSelection
import Blackadder.Qos.LinkWeights
import Blackadder.Qos.LongReports
import Mathlib.Algebra.Group.Action.Defs
import Mathlib.Algebra.Order.BigOperators.Group.List

/-!
# Monitored links

`LinkMon` polls the elements behind the ports of the forwarder and reports what they say. The topology
manager weights its links by the priorities of the reports.
-/

namespace Blackadder

open Wire LSMPacket

/-! ## A link -/

def qosCapacityM : UInt8 := 1
def qosQueueLen : UInt8 := 4
def qosNetType : UInt8 := 10
def qosInRateK : UInt8 := 13
def qosOutRateK : UInt8 := 14
def qosBsLimK : UInt8 := 16
def qosBsLimM : UInt8 := 17

/-- `NT_ETH`. -/
def ntEth : UInt16 := 1

/-- The unit in the answer of a bandwidth shaper. -/
inductive RateUnit
  | MBps
  | Gbps
  | Mbps
  | kbps
  | other

/-- The answers of a link's handlers, after `atoi` and `atof`. -/
structure LinkReadings where
  length : Int
  inRate : Int
  bwval : Rat
  unit : RateUnit
  outRate : Int

/-- The limit of the shaper in kbps. -/
def LinkReadings.limit (r : LinkReadings) : Rat :=
  match r.unit with
  | .MBps => r.bwval * (8 * 1000)
  | .Gbps => r.bwval * (1000 * 1000)
  | .Mbps => r.bwval * 1000
  | .kbps | .other => r.bwval

/-- A `double` as a `uint16_t`. Outside the type the conversion is undefined. -/
def rateWord (x : Rat) : Option UInt16 :=
  if -1 < x ∧ x < 65536 then some (UInt16.ofNat x.floor.toNat) else none

def LinkReadings.update (r : LinkReadings) (status : QoSList) : Option QoSList := do
  let status := Registers.write status (qosQueueLen, some (UInt16.ofInt r.length))
  let status := Registers.write status (qosInRateK, some (UInt16.ofInt (r.inRate.tdiv 1000)))
  let status ← if r.limit < 65536 then do
      let v ← rateWord r.limit
      pure (Registers.write (Registers.write status (qosBsLimK, some v)) (qosBsLimM, none))
    else do
      let v ← rateWord (r.limit / 1000)
      pure (Registers.write (Registers.write status (qosBsLimM, some v)) (qosBsLimK, none))
  return Registers.write status (qosOutRateK, some (UInt16.ofInt (r.outRate.tdiv 1000)))

/-! ## The element -/

/-- `LinkMon`. -/
structure LinkMon where
  gc : GlobalConf
  active : Bool
  links : List Entry

/-- The identifier of a link as the topology file has it. -/
abbrev LSMPacket.Entry.name (e : Entry) : List Char := Bitvector.toString e.lid

def LinkMon.names (m : LinkMon) : List (List Char) := m.links.map Entry.name

/-- `bapi_publish_data`. -/
def bapiPublishData (fresh : Nat → UInt8) (prefixID id : Id) (strategy : Strategy)
    (data : List UInt8) : Option (List UInt8) := do
  let datalen := data.length % 2 ^ 16
  let id_len := UInt8.ofNat ((prefixID.length + id.length) / pursuitIdLen)
  let id := prefixID ++ id
  let p := LocalProxy.room fresh (1 + 1 + id.length + 1 + datalen) []
  let p ← store p 0 Code.publishData
  let p ← store p 1 id_len
  let p ← blit p (1 + 1) id
  let p ← store p (1 + 1 + id.length) strategy
  if 0 < datalen then blit p (1 + 1 + id.length + 1) (data.take datalen) else return p

namespace LinkMon

/-- `LSM_SCOPE`. -/
def lsmScope : Id := List.replicate (pursuitIdLen - 1) 0xff ++ [0xfb]

/-- The link of an entry of the forwarding table. -/
def newLink (lid : Bitvector) (prio : Int) : Entry where
  lid := lid
  status := Registers.write (Registers.write (Registers.write QoSList.empty (qosNetType, some ntEth))
    (qosCapacityM, some 100)) (qosPrio, some (UInt16.ofInt prio))

/-- `initialize`. `monitored` tells which ports have all the elements with their handlers behind them. -/
def new {Addr : Type*} (gc : GlobalConf) (fw : Forwarder Addr) (monitored : Nat → Bool)
    (confPrio : List Int) : Option LinkMon := do
  let links ← (fw.fwTable.zipIdx.filter fun fe => monitored fe.1.port).mapM fun fe => do
    let prio ← confPrio[fe.2]?
    return newLink fe.1.LID prio
  return ⟨gc, false, links⟩

/-- The packets at the end of `initialize`. -/
def publish (fresh : Nat → UInt8) (m : LinkMon) : Option (List (List UInt8)) := do
  let p1 ← bapiPublishScope fresh [] lsmScope domainLocal
  let p2 ← bapiPublishInfo fresh m.gc.nodeID lsmScope domainLocal
  return [p1, p2]

def push (m : LinkMon) (p : List UInt8) : Option LinkMon := do
  let type ← p[0]?
  if type = Code.startPublish then return { m with active := true }
  else if type = Code.stopPublish then return { m with active := false }
  else return m

def report (fresh : Nat → UInt8) (m : LinkMon) : Option (List (List UInt8)) := do
  if m.active then
    if m.links.isEmpty then return []
    else
      -- the id goes through a C string
      let pkt ← LSMPacket.report fresh (m.gc.nodeID.takeWhile (· ≠ 0)) m.links
      let p ← bapiPublishData fresh lsmScope m.gc.nodeID domainLocal pkt
      return [p]
  else
    let p0 ← bapiUnpublishInfo fresh m.gc.nodeID lsmScope domainLocal
    let ps ← m.publish fresh
    return p0 :: ps

def poll (m : LinkMon) (readings : Nat → LinkReadings) : Option LinkMon := do
  let links ← m.links.zipIdx.mapM fun l => do
    let status ← (readings l.2).update l.1.status
    return { l.1 with status := status }
  return { m with links := links }

end LinkMon

/-! ## The topology manager -/

/-- `handleLSMUpdate`. -/
def handleLSMUpdate {V : Type} (nan fresh : Nat → UInt8) (freshWeight : Nat → Int)
    (g : LinkGraph V (List Char)) (data : List UInt8) : Option (LinkGraph V (List Char)) := do
  let pkt ← setData fresh data
  let len ← getLinksLen pkt
  (List.range len.toNat).foldlM (fun g i => do
    let lid ← getLidStr pkt i
    let status ← getLinkStatus pkt i
    g.updateLinkState nan freshWeight lid status) g

/-- What the proxy makes of a packet of the element, when it is a publication under the scope. -/
def LinkMon.payload? (gc : GlobalConf) (host : HostId) (p : List UInt8) : Option (List UInt8) :=
  match LocalProxy.readLocal gc .clickElement host [] [] p with
  | some (some (.publication _ _ ID _ _ data)) =>
    if ID.take pursuitIdLen = LinkMon.lsmScope then some data else none
  | _ => none

/-! ## The monitors and the topology manager -/

structure Monitoring (N V : Type) where
  monitors : N → LinkMon
  /-- What the elements have pushed. -/
  pushed : List (N × List UInt8)
  graph : LinkGraph V (List Char)
  /-- The nodes with a report that was handled. -/
  heard : List N

inductive MonitoringStep (N : Type)
  | publish (n : N)
  | push (n : N) (p : List UInt8)
  | poll (n : N) (readings : Nat → LinkReadings)
  | report (n : N)
  | deliver (n : N) (p : List UInt8)

namespace Monitoring

variable {N V : Type} [DecidableEq N] (nan fresh : Nat → UInt8) (freshWeight : Nat → Int) (host : HostId)

def init (monitors : N → LinkMon) (edges : List (LinkEdge V (List Char))) : Monitoring N V :=
  ⟨monitors, [], .new edges, []⟩

/-- The network may lose reports, repeat them and change their order. -/
def step (x : Monitoring N V) : MonitoringStep N → Option (Monitoring N V)
  | .publish n => do
    let ps ← (x.monitors n).publish fresh
    return { x with pushed := x.pushed ++ ps.map (n, ·) }
  | .push n p => do
    let m ← (x.monitors n).push p
    return { x with monitors := Function.update x.monitors n m }
  | .poll n readings => do
    let m ← (x.monitors n).poll readings
    return { x with monitors := Function.update x.monitors n m }
  | .report n => do
    let ps ← (x.monitors n).report fresh
    return { x with pushed := x.pushed ++ ps.map (n, ·) }
  | .deliver n p =>
    if (n, p) ∈ x.pushed then do
      let data ← LinkMon.payload? (x.monitors n).gc host p
      let graph ← handleLSMUpdate nan fresh freshWeight x.graph data
      return { x with graph := graph, heard := n :: x.heard }
    else none

def Step (x : Monitoring N V) (a : MonitoringStep N) (x' : Monitoring N V) : Prop :=
  x.step nan fresh freshWeight host a = some x'

end Monitoring

/-! ## The packets of a monitor -/

namespace LinkMon

variable {fresh : Nat → UInt8} {gc : GlobalConf} {host : HostId} {m m' : LinkMon} {p data : List UInt8}
  {ID prefixID : Id} {strategy : Strategy}

theorem bapiPublishData_eq (hsize : data.length < 2 ^ 16) :
    bapiPublishData fresh prefixID ID strategy data =
      some ([Code.publishData] ++ idBytes (prefixID ++ ID) ++ [strategy] ++ data) := by
  unfold bapiPublishData
  simp only [Nat.mod_eq_of_lt hsize, List.take_length]
  generalize hid : prefixID ++ ID = id
  generalize hroom : 1 + 1 + id.length + 1 + data.length = size
  have hcount : UInt8.ofNat ((prefixID.length + ID.length) / pursuitIdLen) = fragments id := by
    rw [← List.length_append, hid, fragments]
  obtain ⟨p1, hrun1, h1⟩ := (front_room fresh size []).store (a := Code.publishData) (k := 0) rfl (by omega)
  obtain ⟨p2, hrun2, h2⟩ := h1.store (a := fragments id) (k := 1) rfl (by omega)
  obtain ⟨p3, hrun3, h3⟩ := h2.blit (x := id) (k := 1 + 1) rfl (by omega)
  obtain ⟨p4, hrun4, h4⟩ := h3.store (a := strategy) (k := 1 + 1 + id.length) (by simp; omega) (by omega)
  simp only [hcount, hrun1, hrun2, hrun3, hrun4, Option.bind_eq_bind, Option.bind_some]
  split
  · obtain ⟨p5, hrun5, h5⟩ := h4.blit (x := data) (k := 1 + 1 + id.length + 1) (by simp; omega) (by omega)
    rw [hrun5, h5.eq (by simp; omega)]
    simp [idBytes]
  · next hempty =>
    have hnil : data = [] := List.length_eq_zero_iff.mp (by omega)
    rw [h4.eq (by subst hnil; simp at hroom ⊢; omega)]
    simp [idBytes, hnil]

theorem readLocal_publishData (hID : Sendable ID) (hstrategy : strategy ≠ implicitRendezvous)
    (hlink : strategy ≠ linkLocal) :
    LocalProxy.readLocal gc .clickElement host [] []
      ([Code.publishData] ++ idBytes ID ++ [strategy] ++ data) =
      some (some (.publication .clickElement host ID strategy 0 data)) := by
  generalize hp : [Code.publishData] ++ idBytes ID ++ [strategy] ++ data = p
  have h : p.drop 0 = [Code.publishData] ++ (idBytes ID ++ ([strategy] ++ data)) := by
    rw [← hp]
    simp
  have h1 := drop_next (m := 1) h rfl
  have h2 := drop_next (m := ID.length + 1) h1 rfl
  have h3 := drop_next (m := 1) h2 rfl
  have hcode : p[0]? = some Code.publishData := load_drop h
  have hstrat : p[2 + ID.length]? = some strategy := by
    rw [show 2 + ID.length = 0 + 1 + (ID.length + 1) by omega]
    exact load_drop h2
  have hdata : p.drop (2 + ID.length + 1) = data := by
    rw [show 2 + ID.length + 1 = 0 + 1 + (ID.length + 1) + 1 by omega]
    exact h3
  have hcodes : Code.publishData ≠ Code.disconnect := by decide
  simp only [LocalProxy.readLocal, LocalProxy.readPublication, hcode, readId_eq hID h1, hstrat, hdata,
    if_neg hcodes, if_neg hstrategy, if_neg hlink, if_true, Option.bind_eq_bind, Option.bind_some]
  rfl

theorem sendable_lsmScope : Sendable lsmScope := ⟨by decide, by decide⟩

theorem payload?_data (hid : gc.nodeID.length = 8) :
    payload? gc host ([Code.publishData] ++ idBytes (lsmScope ++ gc.nodeID) ++ [domainLocal] ++ data) =
      some data := by
  have hlen : (lsmScope ++ gc.nodeID).length = 16 := by
    rw [List.length_append, hid]
    rfl
  have hsendable : Sendable (lsmScope ++ gc.nodeID) := ⟨hlen ▸ by decide, hlen ▸ by decide⟩
  have hscope : (lsmScope ++ gc.nodeID).take pursuitIdLen = lsmScope := List.take_left' rfl
  rw [payload?, readLocal_publishData hsendable (by decide) (by decide)]
  simp only [hscope, if_true]

theorem payload?_request {type : RequestType} {ID prefixID : Id} (hID : Sendable ID)
    (hpre : Sendable prefixID) (hp : bapiMakepacket fresh type.code prefixID ID strategy = some p) :
    payload? gc host p = none := by
  rw [bapiMakepacket_eq hpre] at hp
  obtain rfl := Option.some.inj hp
  have hids : Sendable (swapped prefixID ID).1 ∧ Sendable (swapped prefixID ID).2 := by
    unfold swapped
    split
    · next hnil => exact ⟨hID, hnil ▸ hpre⟩
    · exact ⟨hpre, hID⟩
  unfold payload?
  rw [readLocal_requestBytes hids.1 hids.2 ⟨type, ID, prefixID, strategy⟩]

/-! ## What a monitor keeps -/

variable {q q' : QoSList} {e : Entry} {prio : List Char → UInt16} {r : LinkReadings}
  {readings : Nat → LinkReadings} {entries : List Entry} {k : UInt8} {v : Option UInt16}

def monitorKeys : List UInt8 :=
  [qosCapacityM, qosQueueLen, qosNetType, qosInRateK, qosOutRateK, qosPrio, qosBsLimK, qosBsLimM]

/-- The link has its priority, and nothing but what the monitor enters. -/
structure Monitored (prio : List Char → UInt16) (e : Entry) : Prop where
  prio : e.status qosPrio = some (prio e.name)
  keys : ∀ k, e.status k ≠ none → k ∈ monitorKeys

theorem size_le (h : ∀ k, q k ≠ none → k ∈ monitorKeys) : q.size ≤ 8 := by
  unfold QoSList.size QoSList.entries
  rw [List.length_filterMap_eq_countP]
  calc
    _ ≤ (List.range 256).countP fun k => UInt8.ofNat k ∈ monitorKeys := by
      refine List.countP_mono_left fun k _ hk => decide_eq_true (h _ fun hnone => ?_)
      simp [hnone] at hk
    _ = 8 := by decide +kernel

/-- The priority stays, and nothing new comes in but keys of the monitor. -/
structure Refreshed (q q' : QoSList) : Prop where
  prio : q' qosPrio = q qosPrio
  keys : ∀ k, q' k ≠ none → q k ≠ none ∨ k ∈ monitorKeys

theorem Refreshed.write (h : Refreshed q q') (hk : k ∈ monitorKeys) (hprio : qosPrio ≠ k) :
    Refreshed q (Registers.write q' (k, v)) where
  prio := (Function.update_of_ne hprio _ _).trans h.prio
  keys k' hk' := by
    by_cases hsame : k' = k
    · exact Or.inr (hsame ▸ hk)
    · rw [Registers.write, Function.update_of_ne hsame] at hk'
      exact h.keys k' hk'

theorem update_refreshed (h : r.update q = some q') : Refreshed q q' := by
  have hq : Refreshed q q := ⟨rfl, fun _ hk => Or.inl hk⟩
  have h2 := (hq.write (k := qosQueueLen) (v := some (UInt16.ofInt r.length)) (by decide) (by decide)).write
    (k := qosInRateK) (v := some (UInt16.ofInt (r.inRate.tdiv 1000))) (by decide) (by decide)
  unfold LinkReadings.update at h
  dsimp only at h
  split at h
  all_goals
    obtain ⟨w, -, h⟩ := Option.bind_eq_some_iff.mp h
    obtain rfl := Option.some.inj h
    exact ((h2.write (by decide) (by decide)).write (by decide) (by decide)).write (by decide) (by decide)

/-- A node with an id of its own and as many links as a report can count. -/
structure Ready (prio : List Char → UInt16) (m : LinkMon) : Prop where
  nodeID : m.gc.nodeID.length = 8
  text : 0 ∉ m.gc.nodeID
  count : m.links.length ≤ 255
  links : ∀ e ∈ m.links, Monitored prio e

theorem Ready.sendable (hm : Ready prio m) : Sendable m.gc.nodeID :=
  ⟨hm.nodeID ▸ by decide, hm.nodeID ▸ by decide⟩

/-- The same node with the same links. -/
structure SameLinks (m m' : LinkMon) : Prop where
  gc : m'.gc = m.gc
  lids : m'.links.map Entry.lid = m.links.map Entry.lid

theorem SameLinks.trans {m'' : LinkMon} (h : SameLinks m m') (h' : SameLinks m' m'') : SameLinks m m'' :=
  ⟨h'.gc.trans h.gc, h'.lids.trans h.lids⟩

theorem forall₂_of_mapM {α β : Type*} {f : α → Option β} {l : List α} {bs : List β} (h : l.mapM f = some bs) :
    List.Forall₂ (fun c b => f c = some b) l bs := by
  obtain ⟨bs', hbs', hall⟩ := Wire.mapM_all (R := fun c b => f c = some b) fun c hc => by
    obtain ⟨b, hb⟩ := Wire.exists_of_mapM h c hc
    exact ⟨b, hb, hb⟩
  obtain rfl := Option.some.inj (h.symm.trans hbs')
  exact hall

theorem SameLinks.names (h : SameLinks m m') : m'.names = m.names := by
  have hnames := congrArg (List.map Bitvector.toString) h.lids
  rwa [List.map_map, List.map_map] at hnames

theorem new_keys {Addr : Type*} {fw : Forwarder Addr} {monitored : Nat → Bool} {confPrio : List Int}
    (h : LinkMon.new gc fw monitored confPrio = some m) :
    ∀ e ∈ m.links, ∀ k, e.status k ≠ none → k ∈ monitorKeys := by
  obtain ⟨links, hlinks, h⟩ := Option.bind_eq_some_iff.mp h
  obtain rfl := Option.some.inj h
  intro e he k hk
  obtain ⟨c, -, hc⟩ := (Wire.mem_mapM hlinks).mp he
  obtain ⟨v, -, hc⟩ := Option.bind_eq_some_iff.mp hc
  obtain rfl := Option.some.inj hc
  by_contra hno
  have hne : ∀ k' ∈ monitorKeys, k ≠ k' := fun k' hk' heq => hno (heq ▸ hk')
  refine hk ?_
  simp only [newLink, Registers.write]
  rw [Function.update_of_ne (hne _ (by decide)), Function.update_of_ne (hne _ (by decide)),
    Function.update_of_ne (hne _ (by decide))]
  rfl

theorem push_eq (h : m.push p = some m') : ∃ active, m' = { m with active := active } := by
  obtain ⟨type, -, h⟩ := Option.bind_eq_some_iff.mp h
  split at h
  · exact ⟨true, (Option.some.inj h).symm⟩
  · split at h
    · exact ⟨false, (Option.some.inj h).symm⟩
    · exact ⟨m.active, (Option.some.inj h).symm⟩

theorem push_spec (h : m.push p = some m') (hm : Ready prio m) : Ready prio m' ∧ SameLinks m m' := by
  obtain ⟨active, rfl⟩ := push_eq h
  exact ⟨⟨hm.nodeID, hm.text, hm.count, hm.links⟩, rfl, rfl⟩

theorem poll_spec (h : m.poll readings = some m') (hm : Ready prio m) : Ready prio m' ∧ SameLinks m m' := by
  obtain ⟨links, hlinks, h⟩ := Option.bind_eq_some_iff.mp h
  obtain rfl := Option.some.inj h
  have hturns := forall₂_of_mapM hlinks
  have hturn : ∀ {c : Entry × Nat} {e : Entry}, (do
      let status ← (readings c.2).update c.1.status
      return { c.1 with status := status }) = some e →
      e.lid = c.1.lid ∧ Refreshed c.1.status e.status := by
    intro c e he
    obtain ⟨status, hstatus, he⟩ := Option.bind_eq_some_iff.mp he
    obtain rfl := Option.some.inj he
    exact ⟨rfl, update_refreshed hstatus⟩
  have hlids : links.map Entry.lid = m.links.map Entry.lid := by
    have hall : List.Forall₂ (fun c e => Entry.lid (Prod.fst c) = Entry.lid e) m.links.zipIdx links :=
      hturns.imp fun c e he => (hturn he).1.symm
    have heq := List.forall₂_eq_eq_eq ▸ List.forall₂_map_left_iff.mpr (List.forall₂_map_right_iff.mpr hall)
    have hfst := congrArg (List.map Entry.lid) (List.zipIdx_map_fst 0 m.links)
    rw [List.map_map] at hfst
    exact heq.symm.trans hfst
  refine ⟨⟨hm.nodeID, hm.text, ?_, fun e he => ?_⟩, rfl, hlids⟩
  · have hlen := congrArg List.length hlids
    rw [List.length_map, List.length_map] at hlen
    exact hlen ▸ hm.count
  · obtain ⟨c, hc, he⟩ := Wire.exists_of_forall₂ hturns he
    obtain ⟨hlid, hstatus⟩ := hturn he
    have hold := hm.links c.1 (List.fst_mem_of_mem_zipIdx hc)
    refine ⟨?_, fun k hk => ?_⟩
    · have hname : e.name = c.1.name := congrArg Bitvector.toString hlid
      rw [hstatus.prio, hname]
      exact hold.prio
    · rcases hstatus.keys k hk with hk | hk
      · exact hold.keys k hk
      · exact hk

/-! ## Reports -/

theorem offset_lt (hcount : entries.length ≤ 255) (hmon : ∀ e ∈ entries, Monitored prio e) (i : Nat) :
    LSMPacket.offset (sizes entries) i < 2 ^ 16 := by
  have hsum := List.sum_le_card_nsmul (((sizes entries).take i).map fun k => fidLen + 1 + k * qosItemSize) 57
    fun x hx => by
      obtain ⟨k, hk, rfl⟩ := List.mem_map.mp hx
      obtain ⟨e, he, rfl⟩ := List.mem_map.mp (List.mem_of_mem_take hk)
      have := size_le (hmon e he).keys
      simp
      omega
  have hlen : (((sizes entries).take i).map fun k => fidLen + 1 + k * qosItemSize).length ≤ 255 := by
    simp [sizes]
    omega
  have hle := Nat.mul_le_mul_right 57 hlen
  rw [smul_eq_mul] at hsum
  unfold LSMPacket.offset
  simp at hsum hle ⊢
  omega

theorem length_packet (hid : p.length = 8) :
    (packet p entries).length = LSMPacket.offset (sizes entries) entries.length := by
  have hall : (sizes entries).take entries.length = sizes entries :=
    List.take_of_length_le (by simp [sizes])
  unfold packet LSMPacket.offset
  rw [hall, ← length_links, List.length_append, List.length_cons, List.length_cons, hid]
  simp
  omega

theorem report_active (fresh : Nat → UInt8) (host : HostId) (hm : Ready prio m) (hactive : m.active = true)
    (hne : m.links ≠ []) : ∃ p, m.report fresh = some [p] ∧
      payload? m.gc host p = some (packet m.gc.nodeID m.links) := by
  have hsize := offset_lt hm.count hm.links m.links.length
  rw [← length_packet hm.nodeID] at hsize
  refine ⟨_, ?_, payload?_data hm.nodeID⟩
  have hempty : m.links.isEmpty = false := by simpa using hne
  simp only [report, hactive, hempty, if_true, Bool.false_eq_true, if_false, Delimited.takeWhile_self hm.text,
    report_eq fresh hm.nodeID, bapiPublishData_eq hsize, Option.bind_eq_bind, Option.bind_some]
  rfl

/-- The item that is announced is the one that the reports are published under. -/
theorem publish_eq (fresh : Nat → UInt8) (hm : Ready prio m) : ∃ p1 p2, m.publish fresh = some [p1, p2] ∧
    ∀ gc host pubOrder subOrder,
      LocalProxy.readLocal gc .clickElement host pubOrder subOrder p1 =
        some (some (.request .clickElement host ⟨.publishScope, lsmScope, [], domainLocal⟩)) ∧
      LocalProxy.readLocal gc .clickElement host pubOrder subOrder p2 =
        some (some (.request .clickElement host ⟨.publishInfo, m.gc.nodeID, lsmScope, domainLocal⟩)) := by
  have hnil : Sendable [] := ⟨Nat.dvd_zero _, Nat.zero_le _⟩
  have hne : m.gc.nodeID ≠ [] := List.ne_nil_of_length_pos (hm.nodeID ▸ by decide)
  -- the packet has its ids the other way round, and so has the call
  have hids : swapped m.gc.nodeID lsmScope = (m.gc.nodeID, lsmScope) := if_neg hne
  refine ⟨requestBytes RequestType.publishScope.code lsmScope [] domainLocal,
    requestBytes RequestType.publishInfo.code m.gc.nodeID lsmScope domainLocal, ?_,
    fun gc host pubOrder subOrder => ⟨?_, ?_⟩⟩
  · simp only [publish, bapiPublishScope, bapiPublishInfo, bapiMakepacket_eq hnil, bapiMakepacket_eq hm.sendable,
      hids, Option.bind_eq_bind, Option.bind_some]
    rfl
  · exact readLocal_requestBytes sendable_lsmScope hnil ⟨.publishScope, [], [], domainLocal⟩
  · exact readLocal_requestBytes hm.sendable sendable_lsmScope ⟨.publishInfo, [], [], domainLocal⟩

theorem publish_spec {ps : List (List UInt8)} (hm : Ready prio m) (h : m.publish fresh = some ps) :
    ∀ p ∈ ps, payload? m.gc host p = none := by
  obtain ⟨p1, p2, hrun, hread⟩ := publish_eq fresh hm
  obtain rfl := Option.some.inj (hrun.symm.trans h)
  obtain ⟨h1, h2⟩ := hread m.gc host [] []
  simp only [List.forall_mem_cons, List.not_mem_nil, false_implies, implies_true, and_true]
  unfold payload?
  rw [h1, h2]
  exact ⟨rfl, rfl⟩

/-- A monitor that may not send reports asks for its scope and its item once more. -/
theorem report_inactive {ps : List (List UInt8)} (hm : Ready prio m) (hactive : m.active = false)
    (h : m.report fresh = some ps) : ∀ p ∈ ps, payload? m.gc host p = none := by
  unfold report at h
  rw [if_neg (by simp [hactive])] at h
  obtain ⟨p0, hp0, h⟩ := Option.bind_eq_some_iff.mp h
  obtain ⟨ps', hps, h⟩ := Option.bind_eq_some_iff.mp h
  obtain rfl := Option.some.inj h
  exact List.forall_mem_cons.mpr ⟨payload?_request sendable_lsmScope hm.sendable hp0, publish_spec hm hps⟩

theorem report_spec {ps : List (List UInt8)} (h : m.report fresh = some ps) (hm : Ready prio m) (hp : p ∈ ps)
    (hdata : payload? m.gc host p = some data) : data = packet m.gc.nodeID m.links := by
  cases hactive : m.active with
  | false =>
    rw [report_inactive hm hactive h p hp] at hdata
    cases hdata
  | true =>
    by_cases hne : m.links = []
    · simp only [report, hactive, hne, List.isEmpty_nil, if_true] at h
      obtain rfl := Option.some.inj h
      cases hp
    · obtain ⟨p', hrun, hp'⟩ := report_active fresh host hm hactive hne
      obtain rfl := Option.some.inj (hrun.symm.trans h)
      obtain rfl := List.mem_singleton.mp hp
      exact Option.some.inj (hdata.symm.trans hp')

end LinkMon

/-! ## What the topology manager knows -/

namespace LinkGraph

variable {V : Type} {nan fresh : Nat → UInt8} {freshWeight : Nat → Int} {g g' : LinkGraph V (List Char)}
  {prio : List Char → UInt16} {names : List Char → Prop} {last : List Char → Option UInt16}
  {l : List Char} {status : QoSList} {eid : Nat} {entries : List Entry} {nodeID : List UInt8}
  {ok : List Char → UInt8 → UInt16 → Prop}

/-- Every report so far had the priority of its link, these links have reported, and the numbers of an edge
are such that may be reported of it. -/
structure Knows (prio : List Char → UInt16) (ok : List Char → UInt8 → UInt16 → Prop)
    (names : List Char → Prop) (g : LinkGraph V (List Char)) (last : List Char → Option UInt16) : Prop where
  kept : Kept g last
  numbers : ∀ e ∈ g.edges, ∀ k v, e.qos k = some v → ok e.LID k v
  told : ∀ l, names l → last l = some (prio l)
  plane : ∀ l, names l → ∃ vec, g.qlwm (UInt8.ofNat (prio l).toNat) = some vec

theorem Knows.mono {names' : List Char → Prop} (h : Knows prio ok names g last)
    (hsub : ∀ l, names' l → names l) : Knows prio ok names' g last :=
  ⟨h.kept, h.numbers, fun l hl => h.told l (hsub l hl), fun l hl => h.plane l (hsub l hl)⟩

theorem Knows.allow {ok' : List Char → UInt8 → UInt16 → Prop} (h : Knows prio ok names g last)
    (hsub : ∀ l k v, ok l k v → ok' l k v) : Knows prio ok' names g last :=
  ⟨h.kept, fun e he k v hv => hsub _ _ _ (h.numbers e he k v hv), h.told, h.plane⟩

theorem numbers_setStatus (h : ∀ e ∈ g.edges, ∀ k v, e.qos k = some v → ok e.LID k v)
    (hcur : g.Current l eid) (hok : ∀ k v, status k = some v → ok l k v) :
    ∀ e ∈ (g.setStatus eid status).edges, ∀ k v, e.qos k = some v → ok e.LID k v := by
  intro e he k v hv
  obtain ⟨i, hi⟩ := List.getElem?_of_mem he
  by_cases hplace : i = eid
  · subst hplace
    obtain ⟨e₁, he₁, hlid⟩ := hcur.there
    rw [getElem?_setStatus, he₁, Option.map_some, if_pos rfl] at hi
    obtain rfl := Option.some.inj hi
    dsimp only at hv ⊢
    rw [Option.or_eq_some_iff] at hv
    rcases hv with hv | ⟨-, hv⟩
    · rw [hlid]
      exact hok k v hv
    · exact h e₁ (List.mem_of_getElem? he₁) k v hv
  · rw [setStatus_other hplace] at hi
    exact h e (List.mem_of_getElem? hi) k v hv

theorem Current.congr (h : g.Current l eid) (hlids : g'.edges.map LinkEdge.LID = g.edges.map LinkEdge.LID) :
    g'.Current l eid := by
  have hplace : ∀ i : Nat, (g'.edges[i]?).map LinkEdge.LID = (g.edges[i]?).map LinkEdge.LID := by
    intro i
    rw [← List.getElem?_map, hlids, List.getElem?_map]
  obtain ⟨e, he, hlid⟩ := h.there
  refine ⟨?_, fun i e' he' hlid' => ?_⟩
  · have hthere := hplace eid
    rw [he, Option.map_some] at hthere
    obtain ⟨e', he', hsame⟩ := Option.map_eq_some_iff.mp hthere
    exact ⟨e', he', hsame.trans hlid⟩
  · have hthere := hplace i
    rw [he', Option.map_some] at hthere
    obtain ⟨e₀, he₀, hsame⟩ := Option.map_eq_some_iff.mp hthere.symm
    exact h.only i e₀ he₀ (hsame.trans hlid')

theorem Knows.report (nan : Nat → UInt8) (freshWeight : Nat → Int) (h : Knows prio ok names g last)
    (hcur : g.Current l eid) (hstatus : status qosPrio = some (prio l)) (hlow : (prio l).toNat < maxPrio.toNat)
    (hok : ∀ k v, status k = some v → ok l k v) :
    ∃ g' last', g.updateLinkState nan freshWeight l status = some g' ∧
      Knows prio ok (fun l' => names l' ∨ l' = l) g' last' ∧
      g'.edges.map LinkEdge.LID = g.edges.map LinkEdge.LID := by
  obtain ⟨g', hrun, hkept⟩ := h.kept.report nan freshWeight hcur hstatus hlow
  have hsize : g.Sized := fun p vec hvec => (h.kept.agrees p vec hvec).length
  obtain ⟨planes, hplanes, hrun'⟩ := updateLinkState_eq nan freshWeight h.kept.indexed hcur hsize hstatus rfl
  obtain rfl := Option.some.inj (hrun'.symm.trans hrun)
  refine ⟨_, _, hrun, ⟨hkept, numbers_setStatus h.numbers hcur hok, fun l' hl' => ?_, fun l' hl' => ?_⟩,
    map_LID_setStatus⟩
  · by_cases hsame : l' = l
    · subst hsame
      exact Function.update_self _ _ _
    · rw [Function.update_of_ne hsame]
      exact h.told l' (hl'.resolve_right hsame)
  · have hplane : ∃ vec, planes (UInt8.ofNat (prio l').toNat) = some vec := by
      rcases hl' with hl' | rfl
      · obtain ⟨vec, hvec⟩ := h.plane l' hl'
        exact ⟨vec, hplanes.old _ _ hvec⟩
      · exact hplanes.level
    obtain ⟨vec, hvec⟩ := hplane
    exact ⟨_, congrArg (Option.map _) hvec⟩

/-- All the links of a report are told. -/
theorem Knows.handle (nan fresh : Nat → UInt8) (freshWeight : Nat → Int) (h : Knows prio ok names g last)
    (hid : nodeID.length = 8) (hcount : entries.length ≤ 255)
    (hmon : ∀ e ∈ entries, LinkMon.Monitored prio e)
    (hlow : ∀ e ∈ entries, (prio e.name).toNat < maxPrio.toNat)
    (hcur : ∀ e ∈ entries, ∃ eid, g.Current e.name eid)
    (hok : ∀ e ∈ entries, ∀ k v, e.status k = some v → ok e.name k v) :
    ∃ g' last', handleLSMUpdate nan fresh freshWeight g (packet nodeID entries) = some g' ∧
      Knows prio ok (fun l => names l ∨ l ∈ entries.map Entry.name) g' last' ∧
      g'.edges.map LinkEdge.LID = g.edges.map LinkEdge.LID := by
  have hc : Countable entries :=
    ⟨hcount, fun e he => (LinkMon.size_le (hmon e he).keys).trans (by decide)⟩
  have hfits := LinkMon.offset_lt hcount hmon
  -- after `i` turns the first `i` links are told
  obtain ⟨g', hrun, last', hknows, hlids⟩ := Wire.foldlM_range (n := entries.length) (s := g)
    (f := fun g i => do
      let lid ← getLidStr (packet nodeID entries) i
      let status ← getLinkStatus (packet nodeID entries) i
      g.updateLinkState nan freshWeight lid status)
    (I := fun i g' => ∃ last', Knows prio ok
      (fun l => names l ∨ l ∈ (entries.take i).map Entry.name) g' last' ∧
      g'.edges.map LinkEdge.LID = g.edges.map LinkEdge.LID)
    ⟨last, h.mono fun l hl => hl.resolve_right (by simp), rfl⟩ fun i g₁ hi ⟨last₁, h₁, hlids₁⟩ => by
      have hget : entries[i]? = some entries[i] := List.getElem?_eq_getElem hi
      have hmem := List.getElem_mem hi
      obtain ⟨eid, hcur⟩ := hcur _ hmem
      obtain ⟨g₂, last₂, hrun₂, h₂, hlids₂⟩ := h₁.report nan freshWeight (hcur.congr hlids₁)
        (hmon _ hmem).prio (hlow _ hmem) (hok _ hmem)
      refine ⟨g₂, ?_, last₂, h₂.mono fun l hl => ?_, hlids₂.trans hlids₁⟩
      · simp only [getLidStr_packet hid hc hget (hfits i), getLinkStatus_packet hid hc hget (hfits i),
          Option.bind_eq_bind, Option.bind_some, hrun₂]
      · rw [List.take_succ_eq_append_getElem hi, List.map_append, List.mem_append] at hl
        rcases hl with hl | hl | hl
        · exact Or.inl (Or.inl hl)
        · exact Or.inl (Or.inr hl)
        · exact Or.inr (List.mem_singleton.mp hl)
  rw [List.take_length] at hknows
  refine ⟨g', last', ?_, hknows, hlids⟩
  simp only [handleLSMUpdate, setData_eq, getLinksLen_packet hid, Option.bind_eq_bind, Option.bind_some,
    hc.toNat]
  exact hrun

end LinkGraph

/-! ## Every run -/

namespace Monitoring

open LinkGraph

variable {N V Addr : Type} [DecidableEq N] {nan fresh : Nat → UInt8} {freshWeight : Nat → Int} {host : HostId}
  {prio : List Char → UInt16} {monitors : N → LinkMon} {edges : List (LinkEdge V (List Char))}
  {x x' : Monitoring N V} {a : MonitoringStep N} {n : N}

/-- The monitors as their elements start, with links that are edges of the topology. -/
structure Installed (Addr : Type) (prio : List Char → UInt16) (monitors : N → LinkMon)
    (edges : List (LinkEdge V (List Char))) : Prop where
  new : ∀ n, ∃ (gc : GlobalConf) (fw : Forwarder Addr) (monitored : Nat → Bool) (confPrio : List Int),
    LinkMon.new gc fw monitored confPrio = some (monitors n)
  nodeID : ∀ n, (monitors n).gc.nodeID.length = nodeIDLen
  text : ∀ n, 0 ∉ (monitors n).gc.nodeID
  count : ∀ n, (monitors n).links.length ≤ 255
  status : ∀ n, ∀ e ∈ (monitors n).links, e.status qosPrio = some (prio e.name)
  low : ∀ n, ∀ l ∈ (monitors n).names, (prio l).toNat < maxPrio.toNat
  edge : ∀ n, ∀ l ∈ (monitors n).names, ∃ eid, (LinkGraph.new edges).Current l eid

omit [DecidableEq N] in
theorem Installed.ready (h : Installed Addr prio monitors edges) (n : N) : (monitors n).Ready prio := by
  obtain ⟨gc, fw, monitored, confPrio, hnew⟩ := h.new n
  exact ⟨h.nodeID n, h.text n, h.count n, fun e he => ⟨h.status n e he, LinkMon.new_keys hnew e he⟩⟩

/-- The number is on the edge in the topology file, or a report has it for the link. -/
def Reported (host : HostId) (monitors : N → LinkMon) (edges : List (LinkEdge V (List Char)))
    (pushed : List (N × List UInt8)) (l : List Char) (k : UInt8) (v : UInt16) : Prop :=
  (∃ e ∈ edges, e.LID = l ∧ e.qos k = some v) ∨
    ∃ n p links, (n, p) ∈ pushed ∧ LinkMon.payload? (monitors n).gc host p =
      some (packet (monitors n).gc.nodeID links) ∧ ∃ e ∈ links, e.name = l ∧ e.status k = some v

omit [DecidableEq N] in
theorem Reported.mono {pushed pushed' : List (N × List UInt8)} {l : List Char} {k : UInt8} {v : UInt16}
    (h : Reported host monitors edges pushed l k v) (hsub : pushed ⊆ pushed') :
    Reported host monitors edges pushed' l k v :=
  h.imp_right fun ⟨n, p, links, hp, hrest⟩ => ⟨n, p, links, hsub hp, hrest⟩

/-- What holds after every step. The reports on their way are of the same links. -/
structure Inv (host : HostId) (prio : List Char → UInt16) (monitors : N → LinkMon)
    (edges : List (LinkEdge V (List Char))) (x : Monitoring N V) : Prop where
  ready : ∀ n, (x.monitors n).Ready prio
  same : ∀ n, (monitors n).SameLinks (x.monitors n)
  reports : ∀ n p data, (n, p) ∈ x.pushed → LinkMon.payload? (monitors n).gc host p = some data →
    ∃ m : LinkMon, m.Ready prio ∧ (monitors n).SameLinks m ∧ data = packet m.gc.nodeID m.links
  knows : ∃ last, Knows prio (Reported host monitors edges x.pushed)
    (fun l => ∃ n ∈ x.heard, l ∈ (monitors n).names) x.graph last
  lids : x.graph.edges.map LinkEdge.LID = edges.map LinkEdge.LID

theorem Inv.monitor {m : LinkMon} (h : Inv host prio monitors edges x)
    (hm : m.Ready prio ∧ (x.monitors n).SameLinks m) :
    Inv host prio monitors edges { x with monitors := Function.update x.monitors n m } := by
  refine ⟨fun n' => ?_, fun n' => ?_, h.reports, h.knows, h.lids⟩
  all_goals
    dsimp only
    by_cases hn : n' = n
  · rw [hn, Function.update_self]
    exact hm.1
  · rw [Function.update_of_ne hn]
    exact h.ready n'
  · rw [hn, Function.update_self]
    exact (h.same n).trans hm.2
  · rw [Function.update_of_ne hn]
    exact h.same n'

omit [DecidableEq N] in
theorem Inv.emit {ps : List (List UInt8)} (h : Inv host prio monitors edges x)
    (hps : ∀ p ∈ ps, ∀ data, LinkMon.payload? (x.monitors n).gc host p = some data →
      data = packet (x.monitors n).gc.nodeID (x.monitors n).links) :
    Inv host prio monitors edges { x with pushed := x.pushed ++ ps.map (n, ·) } := by
  obtain ⟨last, hknows⟩ := h.knows
  refine ⟨h.ready, h.same, fun n' p data hp hdata => ?_,
    ⟨last, hknows.allow fun l k v hv => hv.mono (List.subset_append_left _ _)⟩, h.lids⟩
  rcases List.mem_append.mp hp with hp | hp
  · exact h.reports n' p data hp hdata
  · obtain ⟨p', hp', heq⟩ := List.mem_map.mp hp
    obtain ⟨rfl, rfl⟩ := Prod.mk.inj heq
    rw [← (h.same n).gc] at hdata
    exact ⟨x.monitors n, h.ready n, h.same n, hps p' hp' data hdata⟩

omit [DecidableEq N] in
/-- Every report on its way can be handled. -/
theorem Inv.deliver {p data : List UInt8} (nan fresh : Nat → UInt8) (freshWeight : Nat → Int)
    (hin : Installed Addr prio monitors edges) (h : Inv host prio monitors edges x)
    (hp : (n, p) ∈ x.pushed) (hdata : LinkMon.payload? (x.monitors n).gc host p = some data) :
    ∃ g, handleLSMUpdate nan fresh freshWeight x.graph data = some g ∧
      Inv host prio monitors edges { x with graph := g, heard := n :: x.heard } := by
  rw [(h.same n).gc] at hdata
  obtain ⟨m, hm, hsame, rfl⟩ := h.reports n p data hp hdata
  obtain ⟨last, hknows⟩ := h.knows
  have hname : ∀ e ∈ m.links, e.name ∈ (monitors n).names := fun e he =>
    hsame.names ▸ List.mem_map_of_mem he
  obtain ⟨g, last', hrun, hknows', hlids⟩ := hknows.handle nan fresh freshWeight hm.nodeID hm.count hm.links
    (fun e he => hin.low n _ (hname e he))
    (fun e he => by
      obtain ⟨eid, hcur⟩ := hin.edge n _ (hname e he)
      exact ⟨eid, hcur.congr h.lids⟩)
    fun e he k v hv => Or.inr ⟨n, p, m.links, hp, hsame.gc ▸ hdata, e, he, rfl, hv⟩
  refine ⟨g, hrun, h.ready, h.same, h.reports, ⟨last', hknows'.mono ?_⟩, hlids.trans h.lids⟩
  rintro l ⟨n', hn', hl⟩
  rcases List.mem_cons.mp hn' with rfl | hn'
  · refine Or.inr ?_
    rw [← hsame.names] at hl
    exact hl
  · exact Or.inl ⟨n', hn', hl⟩

theorem Inv.step (hin : Installed Addr prio monitors edges) (h : Inv host prio monitors edges x)
    (hs : Step nan fresh freshWeight host x a x') : Inv host prio monitors edges x' := by
  unfold Step Monitoring.step at hs
  cases a with
  | publish n =>
    obtain ⟨ps, hps, hs⟩ := Option.bind_eq_some_iff.mp hs
    obtain rfl := Option.some.inj hs
    refine h.emit fun p hp data hdata => ?_
    rw [LinkMon.publish_spec (h.ready n) hps p hp] at hdata
    cases hdata
  | push n p =>
    obtain ⟨m, hm, hs⟩ := Option.bind_eq_some_iff.mp hs
    obtain rfl := Option.some.inj hs
    exact h.monitor (LinkMon.push_spec hm (h.ready n))
  | poll n readings =>
    obtain ⟨m, hm, hs⟩ := Option.bind_eq_some_iff.mp hs
    obtain rfl := Option.some.inj hs
    exact h.monitor (LinkMon.poll_spec hm (h.ready n))
  | report n =>
    obtain ⟨ps, hps, hs⟩ := Option.bind_eq_some_iff.mp hs
    obtain rfl := Option.some.inj hs
    exact h.emit fun p hp data hdata => LinkMon.report_spec hps (h.ready n) hp hdata
  | deliver n p =>
    dsimp only at hs
    split at hs
    · next hp =>
      obtain ⟨data, hdata, hs⟩ := Option.bind_eq_some_iff.mp hs
      obtain ⟨g, hg, hs⟩ := Option.bind_eq_some_iff.mp hs
      obtain rfl := Option.some.inj hs
      obtain ⟨g', hrun, hinv⟩ := h.deliver nan fresh freshWeight hin hp hdata
      obtain rfl := Option.some.inj (hg.symm.trans hrun)
      exact hinv
    · cases hs

omit [DecidableEq N] in
theorem inv_init (hin : Installed Addr prio monitors edges) :
    Inv host prio monitors edges (init monitors edges) where
  ready := hin.ready
  same _ := ⟨rfl, rfl⟩
  reports _ _ _ := nofun
  knows := ⟨fun _ => none, ⟨indexed_reindex _, fun _ _ => rfl, nofun, nofun, nofun, nofun⟩,
    fun e he k v hv => Or.inl ⟨e, he, rfl, hv⟩, by simp [init], by simp [init]⟩
  lids := rfl

omit [DecidableEq N] in
/-- The planes of the links that were heard of. -/
theorem Inv.weights (h : Inv host prio monitors edges x) :
    (∀ n ∈ x.heard, ∀ l ∈ (x.monitors n).names, ∃ vec,
      x.graph.qlwm (UInt8.ofNat (prio l).toNat) = some vec) ∧
    ∀ p vec, x.graph.qlwm p = some vec → vec.length = edges.length ∧ (∀ w ∈ vec, 0 < w) ∧
      ∀ n ∈ x.heard, ∀ l ∈ (x.monitors n).names, ∀ (i : Nat) e, edges[i]? = some e → e.LID = l →
        vec[i]? = some (dueWeight p (prio l)) := by
  obtain ⟨last, hknows⟩ := h.knows
  have hlength : x.graph.edges.length = edges.length := by
    rw [← List.length_map LinkEdge.LID, h.lids, List.length_map]
  refine ⟨fun n hn l hl => ?_, fun p vec hvec => ?_⟩
  · rw [(h.same n).names] at hl
    exact hknows.plane l ⟨n, hn, hl⟩
  · have hagrees := hknows.kept.agrees p vec hvec
    refine ⟨hagrees.length.trans hlength, hagrees.positive, fun n hn l hl i e he hlid => ?_⟩
    rw [(h.same n).names] at hl
    have hplace := congrArg (fun lids => lids[i]?) h.lids
    rw [List.getElem?_map, List.getElem?_map, he] at hplace
    obtain ⟨e', he', hsame⟩ := Option.map_eq_some_iff.mp hplace
    refine hagrees.weight i e' _ he' ?_
    rw [hsame, hlid]
    exact hknows.told l ⟨n, hn, hl⟩

theorem inv_reachable (hin : Installed Addr prio monitors edges)
    (hrun : Runs.Reachable (Step nan fresh freshWeight host) (init monitors edges) x) :
    Inv host prio monitors edges x :=
  hrun.invariant (inv_init hin) fun _ _ _ _ h hs => h.step hin hs

/-- In every run, whatever the network does with the reports, an active monitor can report its links, every
report can be handled, the numbers on an edge were reported of its link, and every plane has the weights of
the links that were heard of. -/
theorem reported_weights (hin : Installed Addr prio monitors edges)
    (hrun : Runs.Reachable (Step nan fresh freshWeight host) (init monitors edges) x) :
    (∀ n, (x.monitors n).active = true → (x.monitors n).links ≠ [] →
      ∃ p, (x.monitors n).report fresh = some [p] ∧ LinkMon.payload? (x.monitors n).gc host p =
        some (packet (x.monitors n).gc.nodeID (x.monitors n).links)) ∧
    (∀ n p data, (n, p) ∈ x.pushed → LinkMon.payload? (x.monitors n).gc host p = some data →
      ∃ g, handleLSMUpdate nan fresh freshWeight x.graph data = some g) ∧
    (∀ e ∈ x.graph.edges, ∀ k v, e.qos k = some v → Reported host monitors edges x.pushed e.LID k v) ∧
    (∀ n ∈ x.heard, ∀ l ∈ (x.monitors n).names, ∃ vec,
      x.graph.qlwm (UInt8.ofNat (prio l).toNat) = some vec) ∧
    ∀ p vec, x.graph.qlwm p = some vec → vec.length = edges.length ∧ (∀ w ∈ vec, 0 < w) ∧
      ∀ n ∈ x.heard, ∀ l ∈ (x.monitors n).names, ∀ (i : Nat) e, edges[i]? = some e → e.LID = l →
        vec[i]? = some (dueWeight p (prio l)) := by
  have hinv := inv_reachable hin hrun
  obtain ⟨last, hknows⟩ := hinv.knows
  refine ⟨fun n hactive hne => LinkMon.report_active fresh host (hinv.ready n) hactive hne,
    fun n p data hp hdata => ?_, hknows.numbers, hinv.weights⟩
  obtain ⟨g, hg, -⟩ := hinv.deliver nan fresh freshWeight hin hp hdata
  exact ⟨g, hg⟩

/-- Some run hears of a node that has links. -/
theorem exists_heard (nan fresh : Nat → UInt8) (freshWeight : Nat → Int) (host : HostId)
    (hin : Installed Addr prio monitors edges) (n : N) (hne : (monitors n).links ≠ []) :
    ∃ x, Runs.Reachable (Step nan fresh freshWeight host) (init monitors edges) x ∧ x.heard = [n] ∧
      (x.monitors n).names = (monitors n).names := by
  obtain ⟨x₁, hx₁, hactive, hlinks, hheard⟩ : ∃ x₁ : Monitoring N V,
      Step nan fresh freshWeight host (init monitors edges) (.push n [Code.startPublish]) x₁ ∧
      (x₁.monitors n).active = true ∧ (x₁.monitors n).links ≠ [] ∧ x₁.heard = [] := by
    refine ⟨_, rfl, ?_, ?_, rfl⟩
    · simp
    · simpa [init] using hne
  have h₁ := Runs.Reachable.start.next hx₁
  obtain ⟨p, hp, hdata⟩ := LinkMon.report_active fresh host ((inv_reachable hin h₁).ready n) hactive hlinks
  have hx₂ : Step nan fresh freshWeight host x₁ (.report n) { x₁ with pushed := x₁.pushed ++ [p].map (n, ·) } := by
    simp [Step, Monitoring.step, hp]
  have h₂ := h₁.next hx₂
  have hmem : (n, p) ∈ x₁.pushed ++ [p].map (n, ·) := by simp
  obtain ⟨g, hg, -⟩ := (inv_reachable hin h₂).deliver nan fresh freshWeight hin hmem hdata
  have hx₃ : Step nan fresh freshWeight host { x₁ with pushed := x₁.pushed ++ [p].map (n, ·) } (.deliver n p)
      { x₁ with pushed := x₁.pushed ++ [p].map (n, ·), graph := g, heard := n :: x₁.heard } := by
    have hread : LinkMon.payload? (x₁.monitors n).gc host p = _ := hdata
    simp only [Step, Monitoring.step, if_pos hmem, hread, hg, Option.bind_eq_bind, Option.bind_some]
    rfl
  exact ⟨_, h₂.next hx₃, by rw [hheard], ((inv_reachable hin h₁).same n).names⟩

/-- A node with one link. -/
def singleMonitor (prio : Int) : LinkMon :=
  ⟨⟨true, List.replicate 8 49, 1, 1, none⟩, false, [LinkMon.newLink 1 prio]⟩

def singleEdge : List (LinkEdge Nat (List Char)) := [⟨1, 2, Bitvector.toString 1, QoSList.empty⟩]

theorem installed_single (confPrio : Int) (v : UInt16) (hprio : UInt16.ofInt confPrio = v)
    (hlow : v.toNat < maxPrio.toNat) :
    Installed Unit (fun _ => v) (fun _ : Unit => singleMonitor confPrio) singleEdge where
  new _ := ⟨_, ⟨⟨true, [], 1, 1, none⟩, [⟨(), (), 1, 1⟩]⟩, fun _ => true, [confPrio], rfl⟩
  nodeID _ := rfl
  text _ := show (0 : UInt8) ∉ List.replicate 8 49 by decide
  count _ := show 1 ≤ 255 by decide
  status _ e he := by
    obtain rfl := List.mem_singleton.mp he
    exact congrArg some hprio
  low _ _ _ := hlow
  edge _ l hl := by
    obtain rfl := List.mem_singleton.mp hl
    refine ⟨0, ⟨_, rfl, rfl⟩, fun i e he _ => ?_⟩
    have hlt := (List.getElem?_eq_some_iff.mp he).1
    exact Nat.lt_one_iff.mp hlt

/-- The node may send, reports, and is heard of. -/
theorem reported_weights_single : ∃ (x : Monitoring Unit Nat) (vec : List Int), x.heard = [()] ∧
    x.graph.qlwm 30 = some vec ∧ vec[0]? = some 70 := by
  have hin := installed_single 30 30 (by decide) (by decide)
  obtain ⟨x, hrun, hheard, hnames⟩ := exists_heard (fun _ => 0) (fun _ => 0) (fun _ => 0) 3 hin () nofun
  have hname : Bitvector.toString 1 ∈ (x.monitors ()).names := hnames ▸ List.mem_cons_self
  obtain ⟨-, -, -, hplane, hweights⟩ := reported_weights hin hrun
  have hmem : () ∈ x.heard := hheard ▸ List.mem_cons_self
  obtain ⟨vec, hvec⟩ := hplane () hmem _ hname
  exact ⟨x, vec, hheard, hvec, (hweights _ vec hvec).2.2 () hmem _ hname 0 _ rfl rfl⟩

/-! ## The weights of a request -/

/-- An item is matched over weights that avoid just the links whose priority is above its own, among those
that were heard of. -/
theorem item_weights (hin : Installed Addr prio monitors edges)
    (hrun : Runs.Reachable (Step nan fresh freshWeight host) (init monitors edges) x)
    (hok : x.graph.isQoSMapOk = true) (getQoSID : Id → Id) {s : IIMetaCache} {ii : Id} {t u : Readings}
    (hstays : Stays s ii t u) (hsmall : (s.priority ii t.first).toNat < 256) :
    ∃ netprio weights cache calls, handleRequest getQoSID true x.graph s ii t u =
        some ⟨.weighted netprio weights, x.graph, cache, calls⟩ ∧
      weights.length = edges.length ∧ (∀ w ∈ weights, 0 < w) ∧
      ∀ n ∈ x.heard, ∀ l ∈ (x.monitors n).names, ∀ (i : Nat) e, edges[i]? = some e → e.LID = l →
        weights[i]? = some (if (prio l).toNat ≤ (s.priority ii t.first).toNat then
          (maxPrio.toNat : Int) - (prio l).toNat else ucharMax.toNat) := by
  have hinv := inv_reachable hin hrun
  have hcases : (¬ Stays s ii t u ∧ handleRequest getQoSID true x.graph s ii t u = none) ∨ _ :=
    handleRequest_eq hok
  obtain ⟨hno, -⟩ | ⟨-, weights, cache, calls, hweights, hhandle⟩ := hcases
  · exact absurd hstays hno
  generalize s.priority ii t.first = v at hsmall hweights hhandle ⊢
  have hbest := isGreatest_getWeightKeyForIIPrio hok v.toUInt8
  have hv : v.toUInt8.toNat = v.toNat := Nat.mod_eq_of_lt hsmall
  generalize x.graph.getWeightKeyForIIPrio v.toUInt8 = key at hbest hweights hhandle
  have hkey : key.toNat ≤ v.toNat := by
    obtain ⟨p, -, -, hle⟩ := hbest.1
    rwa [hv] at hle
  have hbyte : key.toUInt8.toNat = key.toNat := Nat.mod_eq_of_lt (by omega)
  obtain ⟨hlength, hpos, hdue⟩ := hinv.weights.2 _ weights hweights
  refine ⟨key, weights, cache, calls, hhandle, hlength, hpos, fun n hn l hl i e he hlid => ?_⟩
  rw [hdue n hn l hl i e he hlid, dueWeight, hbyte]
  congr 1
  by_cases hle : (prio l).toNat ≤ v.toNat
  · -- the class of the link is one of those that the item may use
    obtain ⟨vec, hvec⟩ := hinv.weights.1 n hn l hl
    have hlow := hin.low n l ((hinv.same n).names ▸ hl)
    have hclass : (prio l).toNat ∈ x.graph.classesUpTo v.toUInt8.toNat :=
      ⟨_, by rw [hvec]; rfl, toNat_low hlow, hv ▸ hle⟩
    have hbelow := hbest.2 hclass
    rw [if_pos hle, if_neg (by omega)]
  · rw [if_neg hle, if_pos (by omega)]

/-- An item of the priority 60, in a network with a link of the priority 0. -/
theorem item_weights_single : ∃ (x : Monitoring Unit Nat) (netprio : UInt16) (weights : List Int)
    (cache : IIMetaCache) (calls : List InfoCall), x.heard = [()] ∧
    handleRequest id true x.graph (knownItem 60) [] (.once 1) (.once 1) =
      some ⟨.weighted netprio weights, x.graph, cache, calls⟩ ∧ weights[0]? = some 100 := by
  have hin := installed_single 0 0 (by decide) (by decide)
  obtain ⟨x, hrun, hheard, hnames⟩ := exists_heard (fun _ => 0) (fun _ => 0) (fun _ => 0) 3 hin () nofun
  have hname : Bitvector.toString 1 ∈ (x.monitors ()).names := hnames ▸ List.mem_cons_self
  have hmem : () ∈ x.heard := hheard ▸ List.mem_cons_self
  have hok : x.graph.isQoSMapOk = true := by
    obtain ⟨vec, hvec⟩ := (inv_reachable hin hrun).weights.1 () hmem _ hname
    exact Option.isSome_iff_exists.mpr ⟨vec, hvec⟩
  have hcached : (knownItem 60).ii_meta.lookup [] = some
    ⟨Function.update QoSList.empty qosPrio (some 60), false, 0, 1⟩ := rfl
  have hstays : Stays (knownItem 60) [] (.once 1) (.once 1) := by
    intro c hc
    rw [IIMetaCache.current_some hcached] at hc
    cases hc
    decide
  have hprio : (knownItem 60).priority [] (Readings.once 1).first = 60 := by decide
  obtain ⟨netprio, weights, cache, calls, hhandle, -, -, hweights⟩ :=
    item_weights hin hrun hok id hstays (by rw [hprio]; decide)
  refine ⟨x, netprio, weights, cache, calls, hheard, hhandle, ?_⟩
  rw [hweights () hmem _ hname 0 _ rfl rfl, hprio]
  rfl

end Monitoring

end Blackadder
