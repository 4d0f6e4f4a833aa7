import Mathlib.Data.BitVec
import Mathlib.Data.List.Basic

/-!
# The domain that the deployment tool builds

Nodes and connections keep what is read while identifiers, interfaces and forwarding tables are
given out. Where files go and how nodes are reached is left out.
-/

namespace Blackadder.Deployment

/-- `Bitvector` has its length with it: one that no length was given to has none. -/
structure Bitvector where
  size : Nat
  bits : BitVec size
deriving DecidableEq

namespace Bitvector

/-- `Bitvector()`. -/
def empty : Bitvector := ⟨0, 0⟩

/-- `Bitvector(n)`. -/
def ofSize (n : Nat) : Bitvector := ⟨n, 0⟩

/-- `(*v)[i] = true`. -/
def setBit (v : Bitvector) (i : Nat) : Bitvector := ⟨v.size, v.bits ||| BitVec.twoPow v.size i⟩

/-- `Bitvector::zero`. -/
def zero (v : Bitvector) : Prop := v.bits = 0

instance (v : Bitvector) : Decidable v.zero := inferInstanceAs (Decidable (_ = _))

/-- `Bitvector::to_string`, the highest bit first. -/
def to_string (v : Bitvector) : List Char :=
  (List.range v.size).map fun j => if v.bits.getLsbD (v.size - j - 1) then '1' else '0'

@[simp] theorem size_ofSize (n : Nat) : (ofSize n).size = n := rfl

@[simp] theorem size_setBit (v : Bitvector) (i : Nat) : (v.setBit i).size = v.size := rfl

theorem not_zero_setBit {v : Bitvector} {i : Nat} (hi : i < v.size) : ¬ (v.setBit i).zero := by
  intro h
  have hbit := congrArg (BitVec.getLsbD · i) h
  simp [setBit, hi] at hbit

theorem nonzero_setBit {v : Bitvector} {i : Nat} (h : ¬ v.zero) : ¬ (v.setBit i).zero := by
  intro hz
  exact h (BitVec.or_eq_zero_iff.mp hz).1

theorem zero_ofSize (n : Nat) : (ofSize n).zero := rfl

end Bitvector

structure NetworkConnection where
  src_label : String
  dst_label : String
  src_if : String
  dst_if : String
  src_ip : String
  dst_ip : String
  src_mac : String
  dst_mac : String
  in_pt : String
  out_pt : String
  lnk_type : String
  LID : Bitvector
  mtu : Int
  rate : String
  delay : String
  priority : Int
  rate_lim : Int
deriving DecidableEq

/-- `new NetworkConnection()`. -/
def NetworkConnection.new : NetworkConnection where
  src_label := ""
  dst_label := ""
  src_if := ""
  dst_if := ""
  src_ip := ""
  dst_ip := ""
  src_mac := ""
  dst_mac := ""
  in_pt := ""
  out_pt := ""
  lnk_type := ""
  LID := .empty
  mtu := 0
  rate := ""
  delay := ""
  priority := 0
  rate_lim := 0

structure NetworkNode where
  testbed_ip : String
  label : String
  running_mode : String
  operating_system : String
  type : String
  isRV : Bool
  isTM : Bool
  iLid : Bitvector
  connections : List NetworkConnection
  deviceOffset : Nat
deriving DecidableEq

/-- `new NetworkNode()`. -/
def NetworkNode.new : NetworkNode where
  testbed_ip := ""
  label := ""
  running_mode := ""
  operating_system := ""
  type := ""
  isRV := false
  isTM := false
  iLid := .empty
  connections := []
  deviceOffset := 0

/-- `TM_node` and `RV_node` are kept as labels. `id` is what the memory held when the domain was
made: no constructor sets it. -/
structure Domain where
  network_nodes : List NetworkNode
  TM_node : Option String
  RV_node : Option String
  number_of_nodes : Nat
  number_of_pl_nodes : Nat
  number_of_connections : Nat
  number_of_p_connections : Nat
  ba_id_len : Nat
  fid_len : Nat
  overlay_mode : String
  id : BitVec 64
deriving DecidableEq

/-- `Domain::Domain`. -/
def Domain.new (id : BitVec 64) : Domain where
  network_nodes := []
  TM_node := none
  RV_node := none
  number_of_nodes := 0
  number_of_pl_nodes := 0
  number_of_connections := 0
  number_of_p_connections := 0
  ba_id_len := 0
  fid_len := 0
  overlay_mode := ""
  id := id

/-- All connections, as the nodes list them. -/
def Domain.connections (dm : Domain) : List NetworkConnection :=
  dm.network_nodes.flatMap (·.connections)

end Blackadder.Deployment
