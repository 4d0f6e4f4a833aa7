import Blackadder.Pla.Rejected
import Blackadder.Network.Push

/-!
# The authenticated forwarder

`PLA::push` on the ports of the network, beside `Forwarder::push`: the header is looked for by its
type, and the packet goes to the links that its identifier names.
-/

namespace Blackadder.Pla

open Gnb Ec
open Wire (slice slice_drop slice_some drop_next)
open WireForwarder (Framed pull)

/-- The element, with the forwarder whose table it reads. They have one configuration. -/
structure PlaForwarder extends WireForwarder where
  verProb : UInt32
  lightVerProb : UInt32
  crypto : Crypto

def PlaForwarder.element (n : PlaForwarder) : PlaElement :=
  ⟨n.gc, n.verProb, n.lightVerProb, n.crypto⟩

section Model

variable (ops : Ops) (ripemd160 : List UInt8 → Octets 20) (cs : Checksums)

/-- One turn of the loop over `out_links`. `p->uniqueify()` is `p` for a packet of its own. -/
def PlaForwarder.turn (n : PlaForwarder) (p : Nat) (x : Packets)
    (fe : ForwardingEntry (List UInt8)) : Option Packets :=
  n.sendOn cs fe x p

/-- Up to the forwarder, without the header. -/
def PlaForwarder.pushLocally (n : PlaForwarder) (data : List UInt8) (plaLen : Nat) (x : Packets)
    (p : Nat) : Option Packets := do
  if plaLen > 0 then
    let lower ← slice data 0 (headerLen n.gc.useMac)
    let (newPacket, x) := x.make (lower ++ data.drop (headerLen n.gc.useMac + plaLen))
    x.send newPacket fun p => (0, p)
  else x.send p fun p => (0, p)

/-- `push(in_port, p)` with `in_port >= 1`, and the connections afterwards. -/
def PlaForwarder.pushNetwork (n : PlaForwarder) (now roll lightRoll : UInt32)
    (conns : ConnectionList) (x : Packets) (p : Nat) : Option (Packets × ConnectionList) := do
  let data ← x.read p
  if hlen : data.length < 2 ^ 32 then
    let (verdict, conns) ←
      n.element.verify ops ripemd160 now roll lightRoll conns ⟨data, hlen⟩
    match verdict with
    | .killed _ => return (← x.kill p, conns)
    | .accepted _ plaLen =>
      let FID ← readFID data (headerLen n.gc.useMac + plaLen)
      let testFID := ~~~FID
      let out_links := if testFID ≠ 0 then n.fwTable.filter fun fe => FID.Includes fe.LID else []
      let x ← if FID.Includes n.gc.iLID then n.pushLocally data plaLen x p else some x
      let x ← if testFID ≠ 0 then out_links.foldlM (n.turn cs p) x else some x
      return (x, conns)
  else none

/-- What becomes of a packet with a header. -/
def PlaElement.judge (el : PlaElement) (now roll lightRoll : UInt32) (conns : ConnectionList)
    (header : PlaHdr) (data : List UInt8) : Option (Verdict × ConnectionList) := do
  if roll &&& verifyingMask < el.verProb then
    let (ret, conns) ← libplaPlaFullVerify ops ripemd160 el.crypto now conns header data
    if ret &&& plaSigOk = 0 then return (.killed ret, conns)
    return (.accepted ret plaLen, conns)
  else if lightRoll &&& verifyingMask < el.lightVerProb then
    let (ret, conns) ← libplaPlaLightweightVerify now conns header
    if (ret &&& plaTtpHighPriorityOk) >>> 1 = 0 then return (.killed ret, conns)
    return (.accepted ret plaLen, conns)
  else return (.accepted 0xFF plaLen, conns)

end Model

variable {ops : Ops} {ripemd160 : List UInt8 → Octets 20} {cs : Checksums} {n : PlaForwarder}
  {el : PlaElement} {now roll lightRoll : UInt32} {conns conns' : ConnectionList} {p : Packet}
  {pla : Option PlaHdr} {frame : Frame (List UInt8)} {header : PlaHdr} {verdict : Verdict}
  {data payload : List UInt8} {FID : Bitvector}

/-! ## Which packets have a header -/

/-- The type that is read in the place of a header. -/
def typeAt (data : List UInt8) : UInt32 := UInt32.ofNat (fromLittleEndian (data.take 4))

theorem length_test_iff (p : Packet) (useMac : Bool) :
    UInt32.ofNat p.data.length - UInt32.ofNat (headerLen useMac) - UInt32.ofNat fidLen -
      UInt32.ofNat plaLen > 0 ↔ p.data.length ≠ headerLen useMac + fidLen + plaLen := by
  have hlt := p.length_lt
  have hpos : ∀ v : UInt32, v > 0 ↔ v.toNat ≠ 0 := fun v => by
    rw [gt_iff_lt, UInt32.lt_iff_toNat_lt, UInt32.toNat_zero]
    omega
  rw [hpos, UInt32.toNat_sub, UInt32.toNat_sub, UInt32.toNat_sub]
  simp only [UInt32.toNat_ofNat', plaLen, fidLen] at *
  cases useMac <;> simp only [headerLen] at * <;> simp at * <;> omega

theorem bind_octets {β : Type} {k : Nat} {f : Octets k × List UInt8 → Option β}
    (h : k ≤ data.length) :
    (octets k data >>= f) = f (⟨data.take k, by simp [h]⟩, data.drop k) := by
  rw [octets, dif_pos]
  rfl

theorem octets_some {k : Nat} {a : Octets k} {rest : List UInt8}
    (h : octets k data = some (a, rest)) : data.length = k + rest.length := by
  unfold octets at h
  split at h
  next htake =>
    obtain ⟨-, rfl⟩ := Prod.mk.inj (Option.some.inj h)
    rw [List.length_take] at htake
    rw [List.length_drop]
    omega
  · cases h

theorem bind_octets_some {β : Type} {k : Nat} {f : Octets k × List UInt8 → Option β} {v : β}
    (h : (octets k data >>= f) = some v) :
    ∃ a rest, data.length = k + rest.length ∧ f (a, rest) = some v := by
  obtain ⟨⟨a, rest⟩, hread, hf⟩ := Option.bind_eq_some_iff.mp h
  exact ⟨a, rest, octets_some hread, hf⟩

theorem ofBytes_eq (hlen : plaLen ≤ data.length) :
    ∃ header, PlaHdr.ofBytes data = some header ∧ header.headerType = typeAt data := by
  have hroom : 4 + 21 + 21 + 41 + 4 + 4 + 4 + 1 + 1 + 4 + 8 ≤ data.length := hlen
  unfold PlaHdr.ofBytes
  rw [bind_octets (by omega)]
  dsimp only
  iterate 10
    rw [bind_octets (by simp only [List.length_drop]; omega)]
    dsimp only
  exact ⟨_, rfl, rfl⟩

theorem ofBytes_short (hlen : data.length < plaLen) : PlaHdr.ofBytes data = none := by
  by_contra hsome
  obtain ⟨header, h⟩ := Option.ne_none_iff_exists'.mp hsome
  unfold PlaHdr.ofBytes at h
  iterate 11
    obtain ⟨_, _, hread, h⟩ := bind_octets_some h
  rw [plaLen] at hlen
  omega
theorem verify_eq : el.verify ops ripemd160 now roll lightRoll conns p =
    if p.data.length ≠ headerLen el.gc.useMac + fidLen + plaLen then
      (PlaHdr.ofBytes (p.data.drop (headerLen el.gc.useMac))).bind fun header =>
        if header.headerType = plaHeaderType ∨ header.headerType = plaRidHeaderType then
          el.judge ops ripemd160 now roll lightRoll conns header
            (p.data.drop (headerLen el.gc.useMac))
        else some (.accepted 0 0, conns)
    else some (.accepted 0 0, conns) := by
  simp only [← length_test_iff p el.gc.useMac]
  rfl

theorem typeAt_append : typeAt (FID.data ++ payload) = typeAt FID.data := by
  rw [typeAt, List.take_append_of_le_length (by rw [Bitvector.length_data]; decide), typeAt]

theorem judge_cases
    (h : el.judge ops ripemd160 now roll lightRoll conns header data = some (verdict, conns')) :
    (∃ ret, verdict = .killed ret) ∨ ∃ ret, verdict = .accepted ret plaLen := by
  unfold PlaElement.judge at h
  split at h
  · obtain ⟨⟨ret, conns₁⟩, -, h⟩ := Option.bind_eq_some_iff.mp h
    dsimp only at h
    split at h <;> obtain ⟨rfl, -⟩ := Prod.mk.inj (Option.some.inj h)
    · exact Or.inl ⟨ret, rfl⟩
    · exact Or.inr ⟨ret, rfl⟩
  · split at h
    · obtain ⟨⟨ret, conns₁⟩, -, h⟩ := Option.bind_eq_some_iff.mp h
      dsimp only at h
      split at h <;> obtain ⟨rfl, -⟩ := Prod.mk.inj (Option.some.inj h)
      · exact Or.inl ⟨ret, rfl⟩
      · exact Or.inr ⟨ret, rfl⟩
    · obtain ⟨rfl, -⟩ := Prod.mk.inj (Option.some.inj h)
      exact Or.inr ⟨_, rfl⟩

/-! ## A packet and what is to become of it -/

def plaBytes (pla : Option PlaHdr) : List UInt8 := (pla.map PlaHdr.bytes).getD []

/-- A packet from the network: the addresses of the frame, with or without a header, the identifier
and the payload. -/
structure Carries (useMac : Bool) (pla : Option PlaHdr) (frame : Frame (List UInt8))
    (b : List UInt8) : Prop where
  dst : slice b (dstOffset useMac) (addrLen useMac) = some frame.dst
  src : slice b (srcOffset useMac) (addrLen useMac) = some frame.src
  rest : b.drop (headerLen useMac) = plaBytes pla ++ (frame.FID.data ++ frame.payload)
  type : ∀ header ∈ pla, header.headerType = plaHeaderType ∨ header.headerType = plaRidHeaderType

/-- A copy of a packet for an output of `Forwarder::push`: a link gets the header with it, and the
output to the forwarder gets none. -/
def CopyFor (useMac : Bool) (pla lower : List UInt8) (FID : Bitvector) :
    Output (List UInt8) → Nat × List UInt8 → Prop
  | .network port frame, o => o.1 = port ∧
      slice o.2 (dstOffset useMac) (addrLen useMac) = some frame.dst ∧
      slice o.2 (srcOffset useMac) (addrLen useMac) = some frame.src ∧
      o.2.drop (headerLen useMac) = pla ++ (frame.FID.data ++ frame.payload)
  | .localProxy payload, o => o = (0, lower ++ (FID.data ++ payload))

/-- `PLA::push` does with the packet what `Forwarder::push` does with the one without header. -/
def ForwardsAlike (ops : Ops) (ripemd160 : List UInt8 → Octets 20) (cs : Checksums)
    (n : PlaForwarder) (now roll lightRoll : UInt32) (conns : ConnectionList)
    (pla : Option PlaHdr) (frame : Frame (List UInt8)) (p : Packet) : Prop :=
  ∃ verdict conns' x',
    n.element.verify ops ripemd160 now roll lightRoll conns p = some (verdict, conns') ∧
    n.pushNetwork ops ripemd160 cs now roll lightRoll conns (Pool.single p.data) 0 =
      some (x', conns') ∧
    x'.Owns [] ∧
    match verdict with
    | .killed _ => pla.isSome ∧ x'.out = []
    | .accepted _ skipped => skipped = (plaBytes pla).length ∧
        ∃ outs, outs.Perm x'.out ∧ List.Forall₂ (CopyFor n.gc.useMac (plaBytes pla)
          (p.data.take (headerLen n.gc.useMac)) frame.FID) (n.toForwarder.pushNetwork frame) outs

/-- The header is found where there is one. -/
def Recognised (pla : Option PlaHdr) (frame : Frame (List UInt8)) : Prop :=
  match pla with
  | some _ => frame.payload ≠ []
  | none => frame.payload.length = plaLen ∨ plaLen ≤ fidLen + frame.payload.length ∧
      typeAt frame.FID.data ≠ plaHeaderType ∧ typeAt frame.FID.data ≠ plaRidHeaderType

/-- The entries that the identifier names. -/
def PlaForwarder.links (n : PlaForwarder) (FID : Bitvector) : List (ForwardingEntry (List UInt8)) :=
  if FID = BitVec.allOnes fidBits then [] else n.fwTable.filter fun fe => FID.Includes fe.LID

/-- How many outputs get the packet object itself. -/
def PlaForwarder.takers (n : PlaForwarder) (pla : Option PlaHdr) (FID : Bitvector) : Nat :=
  (n.links FID).length + if pla = none ∧ FID.Includes n.gc.iLID then 1 else 0

/-- One output takes the packet, and none leads back to where it came from. -/
def PlaForwarder.OneTaker (n : PlaForwarder) (pla : Option PlaHdr)
    (frame : Frame (List UInt8)) : Prop :=
  n.takers pla frame.FID = 1 ∧ ∀ fe ∈ n.links frame.FID, ¬ Forwarder.Reverse fe frame

/-- The header that the packet carries does not pass the verification. -/
def Refused (ops : Ops) (ripemd160 : List UInt8 → Octets 20) (n : PlaForwarder)
    (now roll lightRoll : UInt32) (conns : ConnectionList) (pla : Option PlaHdr) (p : Packet) : Prop :=
  ∃ header ∈ pla, ∃ ret conns',
    n.element.judge ops ripemd160 now roll lightRoll conns header
      (p.data.drop (headerLen n.gc.useMac)) = some (.killed ret, conns')

/-! ## Recognised and judged -/

section Carried

variable (hp : Carries n.gc.useMac pla frame p.data)
include hp

theorem Carries.length :
    p.data.length = headerLen n.gc.useMac + ((plaBytes pla).length + (fidLen + frame.payload.length)) := by
  have hlength := congrArg List.length hp.rest
  have hfid : fidLen = 32 := rfl
  simp only [List.length_drop, List.length_append, Bitvector.length_data] at hlength
  omega

/-- A header that is carried is judged, and one that is not is none. -/
theorem verify_recognised (h : Recognised pla frame) :
    n.element.verify ops ripemd160 now roll lightRoll conns p =
      match pla with
      | some header => n.element.judge ops ripemd160 now roll lightRoll conns header
          (p.data.drop (headerLen n.gc.useMac))
      | none => some (.accepted 0 0, conns) := by
  have hlen := hp.length
  have hrest : p.data.drop (headerLen n.element.gc.useMac) = _ := hp.rest
  rw [verify_eq]
  cases pla with
  | some header =>
    have hbytes : (plaBytes (some header)).length = plaLen := header.length_bytes
    have hpos := List.length_pos_of_ne_nil h
    have htest : p.data.length ≠ headerLen n.element.gc.useMac + fidLen + plaLen := by
      have hsame : n.element.gc.useMac = n.gc.useMac := rfl
      rw [hsame]
      omega
    have hread : PlaHdr.ofBytes (p.data.drop (headerLen n.element.gc.useMac)) = some header := by
      rw [hrest]
      exact PlaHdr.ofBytes_bytes header
    rw [if_pos htest, hread, Option.bind_some, if_pos (hp.type header rfl)]
    rfl
  | none =>
    rcases h with hpayload | ⟨hroom, hno⟩
    · rw [if_neg]
      rw [not_not, hlen, hpayload]
      exact (Nat.add_assoc _ _ _).symm
    · have hcopied : plaLen ≤ (p.data.drop (headerLen n.element.gc.useMac)).length := by
        rw [hrest]
        simpa [plaBytes] using hroom
      obtain ⟨header, hread, htype⟩ := ofBytes_eq hcopied
      have hsame : header.headerType = typeAt frame.FID.data := by
        rw [htype, hrest]
        exact typeAt_append
      rw [hread, Option.bind_some, hsame, if_neg (not_or.mpr hno), ite_self]

/-- What a verdict says of a packet whose header was found if there is one. -/
theorem verdict_cases (h : Recognised pla frame)
    (hverify : n.element.verify ops ripemd160 now roll lightRoll conns p = some (verdict, conns')) :
    (∃ ret, verdict = .killed ret ∧ pla.isSome ∧
      Refused ops ripemd160 n now roll lightRoll conns pla p) ∨
    ∃ ret, verdict = .accepted ret (plaBytes pla).length ∧
      ¬ Refused ops ripemd160 n now roll lightRoll conns pla p := by
  rw [verify_recognised hp h] at hverify
  cases pla with
  | none =>
    obtain ⟨rfl, -⟩ := Prod.mk.inj (Option.some.inj hverify)
    exact Or.inr ⟨0, rfl, by simp [Refused]⟩
  | some header =>
    have hjudge : n.element.judge ops ripemd160 now roll lightRoll conns header
      (p.data.drop (headerLen n.gc.useMac)) = some (verdict, conns') := hverify
    rcases judge_cases hjudge with ⟨ret, rfl⟩ | ⟨ret, rfl⟩
    · exact Or.inl ⟨ret, rfl, rfl, header, rfl, ret, conns', hjudge⟩
    · have hbytes : (plaBytes (some header)).length = plaLen := header.length_bytes
      exact Or.inr ⟨ret, by rw [hbytes], by simp [Refused, hjudge]⟩

theorem verify_unrecognised (h : ¬ Recognised pla frame)
    (hverify : n.element.verify ops ripemd160 now roll lightRoll conns p = some (verdict, conns')) :
    (∃ ret, verdict = .killed ret ∧ pla = none) ∨
      ∃ ret skipped, verdict = .accepted ret skipped ∧ skipped ≠ (plaBytes pla).length := by
  have hlen := hp.length
  have hrest : p.data.drop (headerLen n.element.gc.useMac) = _ := hp.rest
  rw [verify_eq] at hverify
  cases pla with
  | some header =>
    have hbytes : (plaBytes (some header)).length = plaLen := header.length_bytes
    have hpayload : frame.payload = [] := not_not.mp h
    rw [if_neg] at hverify
    · obtain ⟨rfl, -⟩ := Prod.mk.inj (Option.some.inj hverify)
      exact Or.inr ⟨_, _, rfl, by rw [hbytes]; decide⟩
    · rw [not_not, hlen, hbytes, hpayload, List.length_nil, Nat.add_zero, Nat.add_comm plaLen]
      exact (Nat.add_assoc _ _ _).symm
  | none =>
    have hbytes : (plaBytes none).length = 0 := rfl
    obtain ⟨hother, hshort⟩ := not_or.mp h
    have htest : p.data.length ≠ headerLen n.element.gc.useMac + fidLen + plaLen := by
      have hsame : n.element.gc.useMac = n.gc.useMac := rfl
      rw [hsame]
      omega
    rw [if_pos htest] at hverify
    obtain ⟨header, hread, hverify⟩ := Option.bind_eq_some_iff.mp hverify
    have hroom : plaLen ≤ (p.data.drop (headerLen n.element.gc.useMac)).length := by
      by_contra hless
      rw [ofBytes_short (not_le.mp hless)] at hread
      cases hread
    obtain ⟨header', hread', htype⟩ := ofBytes_eq hroom
    obtain rfl := Option.some.inj (hread.symm.trans hread')
    rw [hrest] at htype hroom
    have hlooks : header.headerType = plaHeaderType ∨ header.headerType = plaRidHeaderType := by
      have hsame : header.headerType = typeAt frame.FID.data := htype.trans typeAt_append
      by_contra hno
      rw [hsame] at hno
      exact hshort ⟨by simpa [plaBytes] using hroom, not_or.mp hno⟩
    rw [if_pos hlooks] at hverify
    rcases judge_cases hverify with ⟨ret, rfl⟩ | ⟨ret, rfl⟩
    · exact Or.inl ⟨ret, rfl, rfl⟩
    · exact Or.inr ⟨_, _, rfl, by rw [hbytes]; decide⟩

end Carried

/-! ## The loop over the links -/

variable {x x' : Packets} {out_links : List (ForwardingEntry (List UInt8))} {h : Nat}

/-- A packet that is gone can be used no more. -/
theorem turn_gone {fe : ForwardingEntry (List UInt8)} (hx : x.Owns []) :
    n.turn cs h x fe = none := by
  rw [PlaForwarder.turn, WireForwarder.sendOn, hx.modify_nil]
  rfl

theorem loop_gone (hx : x.Owns []) (hne : out_links ≠ []) :
    out_links.foldlM (n.turn cs h) x = none := by
  obtain ⟨fe, rest, rfl⟩ := List.exists_cons_of_ne_nil hne
  rw [List.foldlM_cons, turn_gone hx]
  rfl

section Loop

variable {fe : ForwardingEntry (List UInt8)} {rest : List (ForwardingEntry (List UInt8))}
  (hfe : fe ∈ n.fwTable) (hlen : headerLen n.gc.useMac ≤ data.length) (hx : x.Owns [(h, data)])
include hfe hlen hx

theorem loop_single : ∃ x' b, [fe].foldlM (n.turn cs h) x = some x' ∧ x'.Owns [] ∧
    x'.out = x.out ++ [(fe.port, b)] ∧
    Framed n.gc.useMac fe (data.drop (headerLen n.gc.useMac)) b := by
  obtain ⟨x', b, hrun, hx', hout, hframed⟩ := WireForwarder.sendOn_spec cs hfe hlen hx
  refine ⟨x', b, ?_, hx', hout, hframed⟩
  rw [List.foldlM_cons, PlaForwarder.turn, hrun]
  rfl

theorem loop_many (hne : rest ≠ []) : (fe :: rest).foldlM (n.turn cs h) x = none := by
  obtain ⟨x', b, hrun, hx', hout, hframed⟩ := WireForwarder.sendOn_spec cs hfe hlen hx
  rw [List.foldlM_cons, PlaForwarder.turn, hrun]
  exact loop_gone hx' hne

end Loop

/-- What goes up to the forwarder: a packet without header itself, and a copy of one with a header. -/
theorem pushLocally_spec {skipped : Nat} (hlen : headerLen n.gc.useMac ≤ data.length)
    (hx : x.Owns [(h, data)]) : ∃ x', n.pushLocally data skipped x h = some x' ∧
      x'.Owns (if skipped > 0 then [(h, data)] else []) ∧
      x'.out = x.out ++ [(0, data.take (headerLen n.gc.useMac) ++
        data.drop (headerLen n.gc.useMac + skipped))] := by
  unfold PlaForwarder.pushLocally
  split_ifs with hskipped
  · have hlower : slice data 0 (headerLen n.gc.useMac) = some (data.take (headerLen n.gc.useMac)) :=
      slice_some (by omega)
    rw [hlower]
    obtain ⟨x', hrun, hx', hout⟩ := (hx.make (data.take (headerLen n.gc.useMac) ++
      data.drop (headerLen n.gc.useMac + skipped))).send fun p => ((0 : Nat), p)
    exact ⟨x', hrun, hx', hout⟩
  · obtain ⟨x', hrun, hx', hout⟩ := hx.send fun p => ((0 : Nat), p)
    have hzero : skipped = 0 := by omega
    refine ⟨x', hrun, hx', ?_⟩
    rw [hout, hzero, Nat.add_zero, List.take_append_drop]

/-! ## One packet -/

/-- The forwarder's outputs, by the entries that the identifier names. -/
theorem pushNetwork_links : n.toForwarder.pushNetwork frame =
    ((n.links frame.FID).filter fun fe => ¬ Forwarder.Reverse fe frame).map
        (fun fe => Forwarder.send fe frame.FID frame.payload) ++
      if frame.FID.Includes n.gc.iLID then [.localProxy frame.payload] else [] := by
  simp only [Forwarder.pushNetwork, PlaForwarder.links]
  split_ifs <;> simp [List.filter_filter, Bool.and_comm]

theorem pushed_locally (hp : Carries n.gc.useMac pla frame p.data) :
    ∃ x, (if frame.FID.Includes n.gc.iLID then
        n.pushLocally p.data (plaBytes pla).length (Pool.single p.data) 0
      else some (Pool.single p.data)) = some x ∧
      x.Owns (if pla = none ∧ frame.FID.Includes n.gc.iLID then [] else [(0, p.data)]) ∧
      x.out = if frame.FID.Includes n.gc.iLID then [(0, p.data.take (headerLen n.gc.useMac) ++
        (frame.FID.data ++ frame.payload))] else [] := by
  have howns := Pool.owns_single (O := Nat × List UInt8) p.data
  have hlen := hp.length
  by_cases hlocal : frame.FID.Includes n.gc.iLID
  · obtain ⟨x, hrun, hx, hout⟩ := pushLocally_spec (n := n) (by omega) howns
    refine ⟨x, by rw [if_pos hlocal, hrun], ?_, ?_⟩
    · cases pla with
      | none =>
        rw [if_pos ⟨rfl, hlocal⟩]
        exact hx
      | some header =>
        have hbytes : (plaBytes (some header)).length = plaLen := header.length_bytes
        rw [hbytes, if_pos (by decide)] at hx
        rw [if_neg (by simp)]
        exact hx
    · rw [if_pos hlocal, hout, drop_next hp.rest rfl]
      rfl
  · refine ⟨_, if_neg hlocal, ?_, ?_⟩
    · rw [if_neg (fun h => hlocal h.2)]
      exact howns
    · rw [if_neg hlocal]
      rfl

section Accepted

variable {ret : UInt8} (hp : Carries n.gc.useMac pla frame p.data)
  (hverify : n.element.verify ops ripemd160 now roll lightRoll conns p =
    some (.accepted ret (plaBytes pla).length, conns'))
include hp hverify

theorem pushNetwork_accepted :
    n.pushNetwork ops ripemd160 cs now roll lightRoll conns (Pool.single p.data) 0 =
      ((if frame.FID.Includes n.gc.iLID then
          n.pushLocally p.data (plaBytes pla).length (Pool.single p.data) 0
        else some (Pool.single p.data)).bind fun x =>
          (n.links frame.FID).foldlM (n.turn cs 0) x).map fun x => (x, conns') := by
  have hread := (Pool.owns_single (O := Nat × List UInt8) p.data).read
  have hFID : readFID p.data (headerLen n.gc.useMac + (plaBytes pla).length) = some frame.FID :=
    readFID_eq (drop_next hp.rest rfl)
  rw [PlaForwarder.pushNetwork]
  simp only [hread, Option.bind_eq_bind, Option.bind_some, dif_pos p.length_lt, hverify, hFID,
    WireForwarder.complement_ne_zero, PlaForwarder.links]
  have hloop : ∀ x : Packets, (if ¬ frame.FID = BitVec.allOnes fidBits then
      ((if ¬ frame.FID = BitVec.allOnes fidBits then
        n.fwTable.filter fun fe => frame.FID.Includes fe.LID else []).foldlM (n.turn cs 0) x).bind
          fun x => some (x, conns')
      else some (x, conns')) = ((if frame.FID = BitVec.allOnes fidBits then [] else
        n.fwTable.filter fun fe => frame.FID.Includes fe.LID).foldlM (n.turn cs 0) x).bind
          fun x => some (x, conns') := by
    intro x
    by_cases hones : frame.FID = BitVec.allOnes fidBits
    · simp only [if_pos hones, if_neg (not_not.mpr hones)]
      rfl
    · simp only [if_neg hones, if_pos hones]
  by_cases hlocal : frame.FID.Includes n.gc.iLID
  · simp only [if_pos hlocal, hloop, Option.map_eq_bind, Option.bind_assoc, Option.pure_def,
      Function.comp_def]
  · simp only [if_neg hlocal, hloop, Option.map_eq_bind, Option.bind_some, Option.pure_def,
      Function.comp_def]

theorem accepted_iff (cs : Checksums) :
    (∃ x', n.pushNetwork ops ripemd160 cs now roll lightRoll conns (Pool.single p.data) 0 =
        some (x', conns') ∧ x'.Owns [] ∧
      ∃ outs, outs.Perm x'.out ∧ List.Forall₂ (CopyFor n.gc.useMac (plaBytes pla)
        (p.data.take (headerLen n.gc.useMac)) frame.FID) (n.toForwarder.pushNetwork frame) outs) ↔
      n.OneTaker pla frame := by
  obtain ⟨x, hlocally, hx, hout⟩ := pushed_locally hp
  have hlen := hp.length
  have hin : ∀ fe ∈ n.links frame.FID, fe ∈ n.fwTable := by
    intro fe hfe
    unfold PlaForwarder.links at hfe
    split_ifs at hfe
    · cases hfe
    · exact (List.mem_filter.mp hfe).1
  rw [pushNetwork_accepted hp hverify, hlocally, Option.bind_some]
  simp only [pushNetwork_links, PlaForwarder.OneTaker, PlaForwarder.takers]
  by_cases htaken : pla = none ∧ frame.FID.Includes n.gc.iLID
  · rw [if_pos htaken] at hx ⊢
    rw [if_pos htaken.2] at hout ⊢
    cases hlinks : n.links frame.FID with
    | nil =>
      refine iff_of_true ⟨x, rfl, hx, x.out, .rfl, ?_⟩ ⟨rfl, by simp⟩
      rw [hout]
      exact .cons rfl .nil
    | cons fe rest =>
      rw [loop_gone hx (List.cons_ne_nil _ _)]
      refine iff_of_false (by simp) fun h => ?_
      simp at h
  · rw [if_neg htaken] at hx ⊢
    match hlinks : n.links frame.FID with
    | [] =>
      refine iff_of_false ?_ (by simp)
      rintro ⟨x', hrun, hx', -⟩
      obtain ⟨rfl, -⟩ := Prod.mk.inj (Option.some.inj hrun)
      exact hx'.nil_unique hx
    | [fe] =>
      obtain ⟨x', b, hrun, hx', hout', hframed⟩ : ∃ x' b,
          [fe].foldlM (n.turn cs 0) x = some x' ∧ x'.Owns [] ∧ x'.out = x.out ++ [(fe.port, b)] ∧
            Framed n.gc.useMac fe (p.data.drop (headerLen n.gc.useMac)) b :=
        loop_single (hin fe (by simp [hlinks])) (by omega) hx
      rw [hrun]
      by_cases hback : Forwarder.Reverse fe frame
      · refine iff_of_false ?_ fun h => h.2 fe List.mem_cons_self hback
        rintro ⟨x'', heq, -, outs, hperm, hall⟩
        obtain ⟨rfl, -⟩ := Prod.mk.inj (Option.some.inj heq)
        -- The forwarder has no copy for the entry.
        have hcount := hall.length_eq.trans hperm.length_eq
        rw [hout', hout] at hcount
        by_cases hlocal : frame.FID.Includes n.gc.iLID <;> simp [hback, hlocal] at hcount
      · refine iff_of_true ⟨x', rfl, hx', (fe.port, b) :: x.out, ?_, ?_⟩ ⟨rfl, by simpa using hback⟩
        · rw [hout']
          exact (List.perm_append_singleton _ _).symm
        · rw [hout, List.filter_cons_of_pos (by simpa using hback)]
          refine .cons ⟨rfl, hframed.dst, hframed.src, hframed.rest.trans hp.rest⟩ ?_
          by_cases hlocal : frame.FID.Includes n.gc.iLID
          · rw [if_pos hlocal, if_pos hlocal]
            exact .cons rfl .nil
          · rw [if_neg hlocal, if_neg hlocal]
            exact .nil
    | fe :: fe' :: rest =>
      have hrun : (fe :: fe' :: rest).foldlM (n.turn cs 0) x = none :=
        loop_many (hin fe (by simp [hlinks])) (by omega) hx (List.cons_ne_nil fe' rest)
      rw [hrun]
      exact iff_of_false (by simp) (by simp)

/-- A packet that passes goes where it goes without a header, when one output takes it. -/
theorem forwardsAlike_accepted (cs : Checksums) :
    ForwardsAlike ops ripemd160 cs n now roll lightRoll conns pla frame p ↔
      n.OneTaker pla frame := by
  rw [← accepted_iff hp hverify cs]
  constructor
  · rintro ⟨verdict, conns₁, x', hverify', hrun, hx', hverdict⟩
    obtain ⟨rfl, rfl⟩ := Prod.mk.inj (Option.some.inj (hverify.symm.trans hverify'))
    exact ⟨x', hrun, hx', hverdict.2⟩
  · rintro ⟨x', hrun, hx', houts⟩
    exact ⟨_, conns', x', hverify, hrun, hx', rfl, houts⟩

end Accepted

theorem pushNetwork_killed {ret : UInt8} (cs : Checksums)
    (hverify : n.element.verify ops ripemd160 now roll lightRoll conns p =
      some (.killed ret, conns')) :
    ∃ x', n.pushNetwork ops ripemd160 cs now roll lightRoll conns (Pool.single p.data) 0 =
      some (x', conns') ∧ x'.Owns [] ∧ x'.out = [] := by
  have howns := Pool.owns_single (O := Nat × List UInt8) p.data
  obtain ⟨x', hrun, hx', hout⟩ := howns.kill
  refine ⟨x', ?_, hx', hout⟩
  rw [PlaForwarder.pushNetwork]
  simp only [howns.read, Option.bind_eq_bind, Option.bind_some, dif_pos p.length_lt, hverify, hrun,
    Option.pure_def]

/-- Where `PLA::push` does what `Forwarder::push` does: the header is found if there is one, and a
packet that is not killed has one taker, which it did not come from. -/
theorem forwardsAlike_iff (hp : Carries n.gc.useMac pla frame p.data)
    (hjudged : ∀ header ∈ pla, (n.element.judge ops ripemd160 now roll lightRoll conns header
      (p.data.drop (headerLen n.gc.useMac))).isSome) :
    ForwardsAlike ops ripemd160 cs n now roll lightRoll conns pla frame p ↔
      Recognised pla frame ∧
        (Refused ops ripemd160 n now roll lightRoll conns pla p ∨ n.OneTaker pla frame) := by
  by_cases hrec : Recognised pla frame
  · obtain ⟨verdict, conns', hverify⟩ : ∃ verdict conns',
        n.element.verify ops ripemd160 now roll lightRoll conns p = some (verdict, conns') := by
      rw [verify_recognised hp hrec]
      cases pla with
      | none => exact ⟨_, _, rfl⟩
      | some header =>
        obtain ⟨⟨verdict, conns'⟩, hjudge⟩ := Option.isSome_iff_exists.mp (hjudged header rfl)
        exact ⟨verdict, conns', hjudge⟩
    simp only [hrec, true_and]
    rcases verdict_cases hp hrec hverify with ⟨ret, rfl, hsome, hrefused⟩ | ⟨ret, rfl, hno⟩
    · obtain ⟨x', hrun, hx', hout⟩ := pushNetwork_killed cs hverify
      exact iff_of_true ⟨_, conns', x', hverify, hrun, hx', hsome, hout⟩ (Or.inl hrefused)
    · rw [forwardsAlike_accepted hp hverify cs]
      simp only [hno, false_or]
  · refine iff_of_false ?_ fun h => hrec h.1
    rintro ⟨verdict, conns', x', hverify, -, -, hverdict⟩
    rcases verify_unrecognised hp hrec hverify with ⟨ret, rfl, rfl⟩ | ⟨ret, skipped, rfl, hne⟩
    · exact absurd hverdict.1 (by simp)
    · exact hne hverdict.1

/-- The node with two links, which verifies no packet. -/
def twoLinks : PlaForwarder where
  toWireForwarder := WireForwarder.twoLinks
  verProb := 0
  lightVerProb := 0
  crypto := .null

def noChecksums : Checksums := ⟨fun _ => (0, 0), fun _ _ _ => (0, 0)⟩

/-- From a third neighbour. -/
def framed (FID : Bitvector) (payload : List UInt8) : Frame (List UInt8) :=
  ⟨[0, 0, 0, 0, 0, 1], [0, 0, 0, 0, 0, 9], FID, payload⟩

def bytesOf (pla : Option PlaHdr) (FID : Bitvector) (payload : List UInt8) : List UInt8 :=
  [0, 0, 0, 0, 0, 1, 0, 0, 0, 0, 0, 9, 8, 10] ++ (plaBytes pla ++ (FID.data ++ payload))

theorem carries_bytesOf {pla : Option PlaHdr} (FID : Bitvector) (payload : List UInt8)
    (htype : ∀ header ∈ pla, header.headerType = plaHeaderType ∨
      header.headerType = plaRidHeaderType) :
    Carries true pla (framed FID payload) (bytesOf pla FID payload) where
  dst := by
    rw [slice, if_pos (by simp [bytesOf, dstOffset, addrLen])]
    rfl
  src := by
    rw [slice, if_pos (by simp [bytesOf, srcOffset, addrLen])]
    rfl
  rest := rfl
  type := htype

theorem length_bytesOf {pla : Option PlaHdr} (FID : Bitvector) (payload : List UInt8) :
    (bytesOf pla FID payload).length =
      14 + ((plaBytes pla).length + (32 + payload.length)) := by
  simp [bytesOf]
  omega

/-- A packet with a header goes to the one link that it names. -/
theorem forwardsAlike_single :
    ForwardsAlike chordTangent zeroHash noChecksums twoLinks 0 0 0 [] (some (exampleHeader 6))
      (framed 4 [7]) ⟨bytesOf (some (exampleHeader 6)) 4 [7], by
        rw [length_bytesOf]; decide⟩ := by
  refine (forwardsAlike_iff (carries_bytesOf 4 [7] ?_) ?_).mpr ⟨List.cons_ne_nil _ _, Or.inr ?_⟩
  · rintro header ⟨⟩
    exact Or.inl rfl
  · rintro header ⟨⟩
    rfl
  · constructor <;> decide

/-- A packet without a header for both links: the second copy is made of a packet that is gone. -/
theorem not_forwardsAlike :
    ¬ ForwardsAlike chordTangent zeroHash noChecksums twoLinks 0 0 0 [] none
      (framed 12 (List.replicate 100 0)) ⟨bytesOf none 12 (List.replicate 100 0), by
        rw [length_bytesOf]; decide⟩ := by
  have hcarries : Carries twoLinks.gc.useMac none (framed 12 (List.replicate 100 0))
    (bytesOf none 12 (List.replicate 100 0)) := carries_bytesOf 12 _ nofun
  have hrec : Recognised none (framed 12 (List.replicate 100 0)) :=
    Or.inr ⟨by decide, by decide, by decide⟩
  rw [forwardsAlike_accepted hcarries (verify_recognised hcarries hrec)]
  rintro ⟨htakers, -⟩
  have htwo : twoLinks.takers none 12 = 2 := by decide
  rw [show (framed 12 (List.replicate 100 0)).FID = 12 from rfl, htwo] at htakers
  cases htakers

end Blackadder.Pla
