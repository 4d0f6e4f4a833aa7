import Mathlib.Data.Multiset.Filter
import Blackadder.Lib.Runs
import Blackadder.Lipsin.Forwarder

/-!
# Nodes and links

The topology is what both the topology manager and the configurations of all nodes are
written from. The network carries frames without loss and in any order.
-/

namespace Blackadder

/-- A directed link, with the configuration of its start. -/
structure Link (V Addr : Type*) extends LinkConf Addr where
  source : V
  target : V
deriving DecidableEq

/-- Every interface address belongs to one node. -/
structure Topology (V Addr : Type*) where
  links : List (Link V Addr)
  nodup : links.Nodup
  iLID : V → List Char
  globalConf : V → GlobalConf
  owner : Addr → V
  LID_length : ∀ e ∈ links, e.LID.length = fidBits
  configured : ∀ v, ∃ mode nodeID defRVFID TMFIDstr,
    GlobalConf.configure mode nodeID defRVFID (iLID v) TMFIDstr = some (globalConf v)
  src_owner : ∀ e ∈ links, owner e.src = e.source
  dst_owner : ∀ e ∈ links, owner e.dst = e.target

/-- One frame that was sent. -/
structure Transmission (V Addr : Type*) where
  node : V
  port : Nat
  src : Addr
  dst : Addr
deriving DecidableEq

structure NetState (V Addr : Type*) where
  inFlight : Multiset (Frame Addr)
  sent : Multiset (Transmission V Addr)
  /-- What was pushed to output 0, and where. -/
  delivered : Multiset (V × List UInt8)

namespace Link

variable {V Addr : Type*}

def transmission (e : Link V Addr) : Transmission V Addr := ⟨e.source, e.port, e.src, e.dst⟩

/-- A packet on its way over the link. -/
def frame (e : Link V Addr) (p : Packet) : Frame Addr := ⟨e.dst, e.src, p.FID, p.payload⟩

end Link

namespace Output

variable {V Addr : Type*}

def frame? : Output Addr → Option (Frame Addr)
  | .network _ frame => some frame
  | .localProxy _ => none

def transmission? (v : V) : Output Addr → Option (Transmission V Addr)
  | .network port frame => some ⟨v, port, frame.src, frame.dst⟩
  | .localProxy _ => none

def delivery? (v : V) : Output Addr → Option (V × List UInt8)
  | .network _ _ => none
  | .localProxy payload => some (v, payload)

end Output

namespace Topology

variable {V Addr : Type*} [DecidableEq V]

/-- The forwarder of a node, configured from the topology. -/
def forwarder (t : Topology V Addr) (v : V) : Forwarder Addr :=
  Forwarder.configure (t.globalConf v)
    ((t.links.filter (fun e => e.source = v)).map Link.toLinkConf)

/-- The outputs of the forwarder of `v` go out on the network. -/
@[simps]
def emit (v : V) (outs : List (Output Addr)) (σ : NetState V Addr) : NetState V Addr where
  inFlight := σ.inFlight + (outs.filterMap Output.frame? : List (Frame Addr))
  sent := σ.sent + (outs.filterMap (Output.transmission? v) : List (Transmission V Addr))
  delivered := σ.delivered + (outs.filterMap (Output.delivery? v) : List (V × List UInt8))

/-- The local proxy of `v` pushes a packet into an idle network. -/
def inject (t : Topology V Addr) (v : V) (p : Packet) : NetState V Addr :=
  emit v ((t.forwarder v).pushLocal p) ⟨0, 0, 0⟩

variable [DecidableEq Addr]

/-- Some frame in flight arrives at the node that has its destination address. -/
def Step (t : Topology V Addr) (σ : NetState V Addr) (frame : Frame Addr) (σ' : NetState V Addr) :
    Prop :=
  frame ∈ σ.inFlight ∧
    σ' = emit (t.owner frame.dst) ((t.forwarder (t.owner frame.dst)).pushNetwork frame)
      { σ with inFlight := σ.inFlight.erase frame }

variable {t : Topology V Addr} {e : Link V Addr} {v : V} {p : Packet}

omit [DecidableEq Addr] in
theorem mem_fwTable : ∀ fe, fe ∈ (t.forwarder v).fwTable ↔
    ∃ e ∈ t.links, e.source = v ∧ e.toLinkConf.entry = fe := by
  intro fe
  simp [forwarder, Forwarder.configure, and_assoc]

omit [DecidableEq V] [DecidableEq Addr] in
theorem iLID_length (t : Topology V Addr) (v : V) : (t.iLID v).length = fidBits := by
  obtain ⟨_, _, _, _, h⟩ := t.configured v
  exact (GlobalConf.iLID_of_configure h).1

omit [DecidableEq Addr] in
theorem forwarder_iLID (t : Topology V Addr) (v : V) :
    (t.forwarder v).gc.iLID = Bitvector.parse (t.iLID v) := by
  obtain ⟨_, _, _, _, h⟩ := t.configured v
  exact (GlobalConf.iLID_of_configure h).2

omit [DecidableEq Addr] in
theorem entry_mem (he : e ∈ t.links) : e.toLinkConf.entry ∈ (t.forwarder e.source).fwTable :=
  (mem_fwTable _).mpr ⟨e, he, rfl, rfl⟩

/-! ## Nodes with one address each -/

def wire (LID : V → V → List Char) (u v : V) : Link V V where
  port := 1
  src := u
  dst := v
  LID := LID u v
  source := u
  target := v

/-- The topology of some edges, in `ip` mode. -/
def ofEdges (edges : List (V × V)) (hedges : edges.Nodup) (LID : V → V → List Char)
    (iLID : V → List Char) (hLID : ∀ u v, (LID u v).length = fidBits)
    (hiLID : ∀ v, (iLID v).length = fidBits) : Topology V V where
  links := edges.map (fun x => wire LID x.1 x.2)
  nodup := by
    refine hedges.map fun x y h => ?_
    exact Prod.ext (congrArg Link.source h) (congrArg Link.target h)
  iLID := iLID
  globalConf v := ⟨false, List.replicate nodeIDLen 0, Bitvector.parse (List.replicate fidBits '0'),
    Bitvector.parse (iLID v), none⟩
  owner := id
  LID_length := by
    simp only [List.mem_map]
    rintro _ ⟨x, -, rfl⟩
    exact hLID _ _
  configured v := by
    refine ⟨.ip, List.replicate nodeIDLen 0, List.replicate fidBits '0', [], ?_⟩
    simp [GlobalConf.configure, hiLID]
  src_owner := by
    simp only [List.mem_map]
    rintro _ ⟨x, -, rfl⟩
    rfl
  dst_owner := by
    simp only [List.mem_map]
    rintro _ ⟨x, -, rfl⟩
    rfl

end Topology

end Blackadder
