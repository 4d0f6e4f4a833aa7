import Blackadder.Api.Packets
import Blackadder.Lib.Pool

/-!
# Frames on the wire

The forwarder at the level of bytes: the headers of the two modes, and the packet objects that `push`
clones, changes and hands over.
-/

namespace Blackadder

open Wire

/-- The checksums of Click, as they lie in memory. -/
structure Checksums where
  in_cksum : List UInt8 → UInt8 × UInt8
  in_cksum_pseudohdr : UInt8 × UInt8 → List UInt8 → Nat → UInt8 × UInt8

/-- `MAC_LEN`, or the length of an IP address. -/
def addrLen (useMac : Bool) : Nat := if useMac then 6 else 4

/-- `14`, or `sizeof (click_ip) + sizeof (click_udp)`. -/
def headerLen (useMac : Bool) : Nat := if useMac then 14 else 20 + 8

def dstOffset (useMac : Bool) : Nat := if useMac then 0 else 16

def srcOffset (useMac : Bool) : Nat := if useMac then 6 else 12

/-- A forwarder with addresses of its mode. -/
structure WireForwarder extends Forwarder (List UInt8) where
  src_length : ∀ fe ∈ fwTable, fe.src.length = addrLen gc.useMac
  dst_length : ∀ fe ∈ fwTable, fe.dst.length = addrLen gc.useMac

/-- The packets of `push`, and what the outputs got. -/
abbrev Packets := Pool (List UInt8) (Nat × List UInt8)

/-- `htons`. -/
def htons (n : Nat) : List UInt8 := [UInt8.ofNat (n / 256 % 256), UInt8.ofNat (n % 256)]

namespace WireForwarder

variable (fresh : Nat → UInt8) (cs : Checksums)

/-! ## Headers -/

/-- Destination and source. -/
def writeMac (fe : ForwardingEntry (List UInt8)) (p : List UInt8) : Option (List UInt8) := do
  let p ← blit p 0 fe.dst
  blit p 6 fe.src

/-- With the protocol type `0x080a`. -/
def newMac (fe : ForwardingEntry (List UInt8)) (p : List UInt8) : Option (List UInt8) := do
  let p ← writeMac fe p
  blit p (6 + 6) (htons 0x080a)

/-- The fields of an IP header that are set for every packet, with `ip_sum`. -/
def writeIp (fe : ForwardingEntry (List UInt8)) (p : List UInt8) : Option (List UInt8) := do
  let p ← blit p 12 fe.src
  let p ← blit p 16 fe.dst
  let p ← store p 1 0
  let p ← blit p 6 [0, 0]
  let p ← store p 8 250
  let p ← blit p 10 [0, 0]
  let ip ← slice p 0 20
  blit p 10 [(cs.in_cksum ip).1, (cs.in_cksum ip).2]

/-- `uh_sum`. The length is a `uint16_t`. -/
def writeUdpSum (p : List UInt8) : Option (List UInt8) := do
  let len := (p.length - 20) % 2 ^ 16
  let p ← blit p (20 + 6) [0, 0]
  let udp ← slice p 20 len
  let ip ← slice p 0 20
  let sum := cs.in_cksum_pseudohdr (cs.in_cksum udp) ip len
  blit p (20 + 6) [sum.1, sum.2]

/-- The headers of a new packet. -/
def newIp (_id : Nat) (fe : ForwardingEntry (List UInt8)) (p : List UInt8) : Option (List UInt8) := do
  let p ← store p 0 0x45
  let p ← blit p 2 (htons p.length)
  let p ← blit p 4 (htons _id)
  let p ← store p 9 17
  let p ← writeIp cs fe p
  let p ← blit p 20 (htons 55555)
  let p ← blit p (20 + 2) (htons 55555)
  let p ← blit p (20 + 4) (htons (p.length - 20))
  writeUdpSum cs p

/-- The headers of a packet that came from the network. -/
def changeIp (fe : ForwardingEntry (List UInt8)) (p : List UInt8) : Option (List UInt8) := do
  let p ← writeIp cs fe p
  writeUdpSum cs p

/-! ## Packets -/

/-- `pull`. -/
def pull (n : Nat) (p : List UInt8) : Option (List UInt8) :=
  if n ≤ p.length then some (p.drop n) else none

/-- `p->uniqueify()` for the last one, and `p->clone()->uniqueify()` before. -/
def payloadOf (x : Packets) (p : Nat) (last : Bool) : Option (Nat × Packets) :=
  if last then x.renew p some
  else do
    let (q, x) ← x.clone p
    x.renew q some

/-- A packet from above gets a header. -/
def sendNew (n : WireForwarder) (_id : Nat) (fe : ForwardingEntry (List UInt8)) (x : Packets)
    (payload : Nat) : Option Packets := do
  let (newPacket, x) ← x.renew payload fun p =>
    some (LocalProxy.room fresh (headerLen n.gc.useMac) p)
  let x ← x.modify newPacket (if n.gc.useMac then newMac fe else newIp cs _id fe)
  x.send newPacket fun p => (fe.port, p)

/-- A packet from the network has one. -/
def sendOn (n : WireForwarder) (fe : ForwardingEntry (List UInt8)) (x : Packets) (payload : Nat) :
    Option Packets := do
  let x ← x.modify payload (if n.gc.useMac then writeMac fe else changeIp cs fe)
  x.send payload fun p => (fe.port, p)

/-- One turn of the loop over `out_links`. -/
def newTurn (n : WireForwarder) (p : Nat) (out_links : List (ForwardingEntry (List UInt8))) :
    Packets × Nat × Nat → ForwardingEntry (List UInt8) → Option (Packets × Nat × Nat)
  | (x, counter, _id), fe => do
    let (payload, x) ← payloadOf x p (counter = out_links.length)
    let x ← sendNew fresh cs n _id fe x payload
    return (x, counter + 1, if n.gc.useMac then _id else _id + 1)

def onTurn (n : WireForwarder) (p : Nat) (out_links : List (ForwardingEntry (List UInt8)))
    (pushLocally : Bool) : Packets × Nat → ForwardingEntry (List UInt8) → Option (Packets × Nat)
  | (x, counter), fe => do
    let (payload, x) ← payloadOf x p (counter = out_links.length ∧ pushLocally = false)
    let x ← sendOn cs n fe x payload
    return (x, counter + 1)

/-- `push(0, p)`. `_id` numbers the IP packets. -/
def pushLocal (n : WireForwarder) (_id : Nat) (x : Packets) (p : Nat) : Option (Packets × Nat) := do
  let data ← x.read p
  let FID ← readFID data 0
  let out_links := n.fwTable.filter fun fe => FID.Includes fe.LID
  let x ← if out_links.length = 0 then x.kill p else some x
  let (x, _, _id) ← out_links.foldlM (newTurn fresh cs n p out_links) (x, 1, _id)
  return (x, _id)

/-- After the loop. -/
def finish (n : WireForwarder) (out_links : List (ForwardingEntry (List UInt8))) (pushLocally : Bool)
    (x : Packets) (p : Nat) : Option Packets := do
  let x ← if pushLocally then do
      let x ← x.modify p (pull (headerLen n.gc.useMac + fidLen))
      x.send p fun p => (0, p)
    else some x
  if out_links.length = 0 ∧ pushLocally = false then x.kill p else some x

/-- `push(in_port, p)` with `in_port >= 1`. -/
def pushNetwork (n : WireForwarder) (x : Packets) (p : Nat) : Option Packets := do
  let data ← x.read p
  let FID ← readFID data (headerLen n.gc.useMac)
  let src ← slice data (srcOffset n.gc.useMac) (addrLen n.gc.useMac)
  let dst ← slice data (dstOffset n.gc.useMac) (addrLen n.gc.useMac)
  let testFID := ~~~FID
  let out_links := if testFID ≠ 0 then
      n.fwTable.filter fun fe => FID.Includes fe.LID ∧ ¬ (src = fe.dst ∧ dst = fe.src)
    else []
  let pushLocally : Bool := FID.Includes n.gc.iLID
  let (x, _) ← if testFID ≠ 0 then out_links.foldlM (onTurn cs n p out_links pushLocally) (x, 1)
    else some (x, 1)
  n.finish out_links pushLocally x p

/-- `Forwarder::push`. -/
def push (n : WireForwarder) (_id : Nat) (in_port : Nat) (x : Packets) (p : Nat) : Option (Packets × Nat) :=
  if in_port = 0 then pushLocal fresh cs n _id x p
  else (pushNetwork cs n x p).map fun x => (x, _id)

end WireForwarder

/-! ## What is handed over -/

/-- A packet on an input, read. -/
inductive Received
  | fromProxy (packet : Packet)
  | fromNetwork (frame : Frame (List UInt8))

/-- A frame as bytes. Fields of the header that nobody reads are left open. -/
def Encodes (useMac : Bool) (frame : Frame (List UInt8)) (b : List UInt8) : Prop :=
  slice b (dstOffset useMac) (addrLen useMac) = some frame.dst ∧
    slice b (srcOffset useMac) (addrLen useMac) = some frame.src ∧
    b.drop (headerLen useMac) = frame.FID.data ++ frame.payload

namespace Received

def FID : Received → Bitvector
  | .fromProxy packet => packet.FID
  | .fromNetwork frame => frame.FID

def payload : Received → List UInt8
  | .fromProxy packet => packet.payload
  | .fromNetwork frame => frame.payload

def Reads (useMac : Bool) (in_port : Nat) (b : List UInt8) : Received → Prop
  | .fromProxy packet => in_port = 0 ∧ b = packet.FID.data ++ packet.payload
  | .fromNetwork frame => 1 ≤ in_port ∧ Encodes useMac frame b

/-- The entries that a packet is for. -/
def Due : Received → ForwardingEntry (List UInt8) → Prop
  | .fromProxy packet, fe => packet.FID.Includes fe.LID
  | .fromNetwork frame, fe => frame.FID ≠ BitVec.allOnes fidBits ∧ frame.FID.Includes fe.LID ∧
      ¬ Forwarder.Reverse fe frame

/-- The packet goes to the local proxy too. -/
def Local (gc : GlobalConf) : Received → Prop
  | .fromProxy _ => False
  | .fromNetwork frame => frame.FID.Includes gc.iLID

instance (r : Received) (fe : ForwardingEntry (List UInt8)) : Decidable (r.Due fe) :=
  match r with
  | .fromProxy packet => inferInstanceAs (Decidable (packet.FID.Includes fe.LID))
  | .fromNetwork _ => inferInstanceAs (Decidable (_ ∧ _ ∧ ¬ _))

instance (r : Received) (gc : GlobalConf) : Decidable (r.Local gc) :=
  match r with
  | .fromProxy _ => inferInstanceAs (Decidable False)
  | .fromNetwork frame => inferInstanceAs (Decidable (frame.FID.Includes gc.iLID))

/-- What the model without bytes hands over. -/
def outputs (fw : Forwarder (List UInt8)) : Received → List (Output (List UInt8))
  | .fromProxy packet => fw.pushLocal packet
  | .fromNetwork frame => fw.pushNetwork frame

theorem outputs_eq (fw : Forwarder (List UInt8)) (r : Received) :
    r.outputs fw = (fw.fwTable.filter fun fe => r.Due fe).map (Forwarder.send · r.FID r.payload) ++
      if r.Local fw.gc then [.localProxy r.payload] else [] := by
  cases r with
  | fromProxy packet => exact (List.append_nil _).symm
  | fromNetwork frame =>
    by_cases hones : frame.FID = BitVec.allOnes fidBits
    · simp [outputs, Forwarder.pushNetwork, Due, Local, FID, payload, hones]
    · rw [outputs, Forwarder.pushNetwork, if_neg hones]
      simp only [Due, Local, FID, payload, hones, ne_eq, not_false_eq_true, true_and]
      rfl

end Received

/-- An output with its port and its bytes. -/
def Represents (useMac : Bool) : Output (List UInt8) → Nat × List UInt8 → Prop
  | .network port frame, o => o.1 = port ∧ Encodes useMac frame o.2
  | .localProxy payload, o => o = (0, payload)

end Blackadder
