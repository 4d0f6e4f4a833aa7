import Blackadder.Lipsin.BitVector

/-!
# The forwarder of a node

`mac` and `ip` mode differ in their headers only, so addresses are of any type. Of a header
the two addresses are kept: the other fields are constants that `push` does not read.
-/

namespace Blackadder

/-! ## Configuration -/

inductive Mode
  | mac
  | macMl
  | macQos
  | ip
deriving DecidableEq, Repr

/-- What the other elements read from `GlobalConf`. -/
structure GlobalConf where
  useMac : Bool
  nodeID : List UInt8
  defaultRVdl : Bitvector
  iLID : Bitvector
  TMFID : Option Bitvector
deriving DecidableEq

/-- `NODEID_LEN`. -/
def nodeIDLen : Nat := 8

/-- `GlobalConf::configure`. The string of `TMFID` may be empty. -/
def GlobalConf.configure (mode : Mode) (nodeID : List UInt8) (defRVFID internalLID TMFIDstr : List Char) :
    Option GlobalConf :=
  if nodeID.length ≠ nodeIDLen then none
  else if defRVFID.length ≠ fidBits then none
  else if internalLID.length ≠ fidBits then none
  else if TMFIDstr.length ≠ 0 ∧ TMFIDstr.length ≠ fidBits then none
  else some {
    useMac := mode ≠ .ip
    nodeID := nodeID
    defaultRVdl := Bitvector.parse defRVFID
    iLID := Bitvector.parse internalLID
    TMFID := if TMFIDstr.length = 0 then none else some (Bitvector.parse TMFIDstr) }

/-- A configuration that is accepted has read the string of the internal link. -/
theorem GlobalConf.iLID_of_configure {mode : Mode} {nodeID : List UInt8}
    {defRVFID internalLID TMFIDstr : List Char} {gc : GlobalConf}
    (h : GlobalConf.configure mode nodeID defRVFID internalLID TMFIDstr = some gc) :
    internalLID.length = fidBits ∧ gc.iLID = Bitvector.parse internalLID := by
  unfold GlobalConf.configure at h
  split at h
  · cases h
  split at h
  · cases h
  split at h
  · cases h
  next hlen =>
    split at h
    · cases h
    · cases h
      exact ⟨not_not.mp hlen, rfl⟩

variable {Addr : Type*}

/-- One link in the configuration of `Forwarder`, with its identifier as a string. -/
structure LinkConf (Addr : Type*) where
  port : Nat
  src : Addr
  dst : Addr
  LID : List Char
deriving DecidableEq

structure ForwardingEntry (Addr : Type*) where
  src : Addr
  dst : Addr
  port : Nat
  LID : Bitvector
deriving DecidableEq

def LinkConf.entry (conf : LinkConf Addr) : ForwardingEntry Addr where
  src := conf.src
  dst := conf.dst
  port := conf.port
  LID := Bitvector.parse conf.LID

structure Forwarder (Addr : Type*) where
  gc : GlobalConf
  fwTable : List (ForwardingEntry Addr)

/-- `Forwarder::configure`. -/
def Forwarder.configure (gc : GlobalConf) (links : List (LinkConf Addr)) : Forwarder Addr where
  gc := gc
  fwTable := links.map LinkConf.entry

/-! ## Packets -/

/-- A packet of the local proxy: the identifier and what follows it. -/
structure Packet where
  FID : Bitvector
  payload : List UInt8
deriving DecidableEq

/-- A packet on the network: the header before the identifier. -/
structure Frame (Addr : Type*) where
  dst : Addr
  src : Addr
  FID : Bitvector
  payload : List UInt8
deriving DecidableEq

/-- What `push` hands over, and to which output. -/
inductive Output (Addr : Type*)
  | network (port : Nat) (frame : Frame Addr)
  /-- Output 0 gets the packet without header and identifier. -/
  | localProxy (payload : List UInt8)
deriving DecidableEq

namespace Forwarder

def send (fe : ForwardingEntry Addr) (FID : Bitvector) (payload : List UInt8) : Output Addr :=
  .network fe.port ⟨fe.dst, fe.src, FID, payload⟩

/-- `push(0, p)`. The packet is killed when no entry matches. -/
def pushLocal (fw : Forwarder Addr) (p : Packet) : List (Output Addr) :=
  (fw.fwTable.filter (fun fe => p.FID.Includes fe.LID)).map (fun fe => send fe p.FID p.payload)

theorem network_mem_pushLocal {fw : Forwarder Addr} {p : Packet} {fe : ForwardingEntry Addr}
    (hfe : fe ∈ fw.fwTable) (hinc : p.FID.Includes fe.LID) :
    send fe p.FID p.payload ∈ fw.pushLocal p :=
  List.mem_map_of_mem (List.mem_filter.mpr ⟨hfe, decide_eq_true hinc⟩)

variable [DecidableEq Addr]

/-- The entry leads back to the interface that the frame came from. -/
def Reverse (fe : ForwardingEntry Addr) (frame : Frame Addr) : Prop :=
  frame.src = fe.dst ∧ frame.dst = fe.src

instance (fe : ForwardingEntry Addr) (frame : Frame Addr) : Decidable (Reverse fe frame) :=
  inferInstanceAs (Decidable (_ ∧ _))

/-- `push(in_port, p)` with `in_port >= 1`. All bits 1 is for one hop only. -/
def pushNetwork (fw : Forwarder Addr) (frame : Frame Addr) : List (Output Addr) :=
  let outLinks :=
    if frame.FID = BitVec.allOnes fidBits then []
    else fw.fwTable.filter (fun fe => frame.FID.Includes fe.LID ∧ ¬ Reverse fe frame)
  outLinks.map (fun fe => send fe frame.FID frame.payload) ++
    if frame.FID.Includes fw.gc.iLID then [.localProxy frame.payload] else []

theorem network_mem_pushNetwork {fw : Forwarder Addr} {frame : Frame Addr}
    {fe : ForwardingEntry Addr} (hfe : fe ∈ fw.fwTable) (hinc : frame.FID.Includes fe.LID)
    (hones : frame.FID ≠ BitVec.allOnes fidBits) (hrev : ¬ Reverse fe frame) :
    send fe frame.FID frame.payload ∈ fw.pushNetwork frame := by
  refine List.mem_append_left _ (List.mem_map_of_mem ?_)
  rw [if_neg hones]
  exact List.mem_filter.mpr ⟨hfe, decide_eq_true ⟨hinc, hrev⟩⟩

theorem pushNetwork_allOnes {fw : Forwarder Addr} {frame : Frame Addr}
    (h : frame.FID = BitVec.allOnes fidBits) :
    fw.pushNetwork frame = [.localProxy frame.payload] := by
  have hlocal : frame.FID.Includes fw.gc.iLID := by
    rw [h]
    exact Bitvector.allOnes_includes _
  rw [pushNetwork, if_pos h, if_pos hlocal]
  rfl

theorem localProxy_mem_pushNetwork {fw : Forwarder Addr} {frame : Frame Addr}
    (hinc : frame.FID.Includes fw.gc.iLID) : .localProxy frame.payload ∈ fw.pushNetwork frame := by
  refine List.mem_append_right _ ?_
  rw [if_pos hinc]
  exact List.mem_singleton_self _

end Forwarder

end Blackadder
