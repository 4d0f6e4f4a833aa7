import Blackadder.Pla.Header
import Blackadder.Pla.Group

/-!
# From the signer to the next hop

A header that was signed with a certificate is found good at the next hop, where the certificate is
not tied to a rendezvous id and the payload is not just as long as a forwarding identifier.
-/

namespace Blackadder.Pla

open Gnb Ec

variable {ops : Ops} {ripemd160 : List UInt8 → Octets 20} {pt : Int → Point} {k kT kv ttp : Int}
  {ci : CertInfo} {crypto : Crypto} {now then' roll lightRoll : UInt32} {payload lower : List UInt8}
  {header : PlaHdr} {cert : PlaCertificate} {sig : SelfSig} {conns : ConnectionList}
  {checked : Checked} {el : PlaElement} {p : Packet} {seq : UInt64}

/-! ## The bytes under the hashes -/

theorem take_bytes : (header.bytes ++ payload).take 46 = header.front := by
  rw [PlaHdr.bytes, List.append_assoc, List.append_assoc, List.append_assoc,
    List.take_left' header.length_front]

theorem drop_bytes : (header.bytes ++ payload).drop (46 + 41) =
    header.idBytes ++ header.back ++ payload := by
  have hlen : (header.front ++ header.signature.val).length = 46 + 41 := by
    rw [List.length_append, header.length_front, header.signature.property]
  simp only [PlaHdr.bytes, List.append_assoc]
  rw [← List.append_assoc header.front, List.drop_left' hlen]

/-- The certificate, after some packets. -/
def PlaCertificate.after (cert : PlaCertificate) (seq : UInt64) : PlaCertificate :=
  { cert with plaHeader := { cert.plaHeader with sequenceNumber := seq } }

theorem publicKeyField_append {e : Elem} {b : Bool} {rest : List UInt8} :
    binToPublicKey ((publicKeyField e b).val ++ rest) = (e, b) := binToPublicKey_publicKeyToBin

/-- The hash that the signer signs. -/
def signedHash (ripemd160 : List UInt8 → Octets 20) (header : PlaHdr) (payload : List UInt8) :
    Octets 20 :=
  ripemd160 (header.front ++ (header.idBytes ++ header.back ++ payload))

theorem headerSign_eq : (libplaPlaHeaderSign ops ripemd160 crypto now kv cert payload).1 =
    { cert.plaHeader with
      sequenceNumber := cert.plaHeader.sequenceNumber + 1
      timestamp := now
      signature :=
        let sig := libplaSign ops ripemd160 crypto kv
          (signedHash ripemd160 { cert.plaHeader with
            sequenceNumber := cert.plaHeader.sequenceNumber + 1
            timestamp := now } payload) cert.privateKey
        ⟨sigToBin sig, length_sigToBin sig⟩ } := by
  simp only [libplaPlaHeaderSign, take_bytes, drop_bytes, signedHash]

theorem signature_range (h : ∃ s, sig.s = s % order) : 0 ≤ sig.s ∧ sig.s < order := by
  obtain ⟨s, hs⟩ := h
  rw [hs]
  exact ⟨Int.emod_nonneg _ order_pos.ne', Int.emod_lt_of_pos _ order_pos⟩

/-- Every signature below the order of the group fits its field. -/
theorem binToSig_below (hpos : 0 ≤ sig.s) (hlt : sig.s < order) :
    binToSig ⟨sigToBin sig, length_sigToBin sig⟩ = sig := by
  refine binToSig_sigToBin sig hpos (hlt.trans_le ?_)
  rw [order_eq]
  decide

theorem sign_range {m : Octets 20} {sigma : Int} :
    0 ≤ (libplaSign ops ripemd160 crypto kv m sigma).s ∧
      (libplaSign ops ripemd160 crypto kv m sigma).s < order := by
  cases crypto with
  | sw => exact signature_range ⟨_, rfl⟩
  | null => exact ⟨le_refl _, order_pos⟩

/-! ## The signature at the next hop -/

section Certified

variable (h : ops.Correct pt)
include h

/-- What the next hop makes of the header: only the hash over the identity may differ. -/
theorem signatureOk_sign :
    let cert := (libplaCreateCertificate ops ripemd160 k kT ttp ci).after seq
    let header := (libplaPlaHeaderSign ops ripemd160 crypto now kv cert payload).1
    let key := ecCreateKey ops k kT (libplaCertCalculateIdHash ripemd160 ci) ttp
    signatureOk ops ripemd160 crypto header (header.bytes ++ payload) =
      match crypto with
      | .null => true
      | .sw => ecVerifySelf ops ripemd160 (pt ttp) key.implCert key.implCertB
          (ecSignSelf ops ripemd160 kv (signedHash ripemd160 header payload) key.privateKey)
          (signedHash ripemd160 header payload)
          (ripemd160 (idFields ci.identity ci.notBefore ci.notAfter ci.rights ci.deleg)) := by
  intro cert header key
  have hheader : header = _ := headerSign_eq
  have hkey : binToPublicKey (header.implicitCertificate.val ++ header.ttpPublicKey.val) =
      (key.implCert, key.implCertB) := by
    rw [hheader]
    exact publicKeyField_append
  have hY : binToPublicKey (header.ttpPublicKey.val ++ header.signature.val) =
      ((pt ttp).x, ecCompressPoint (pt ttp)) := by
    rw [hheader, ← h.base]
    exact publicKeyField_append
  have hid : header.idBytes =
      idFields ci.identity ci.notBefore ci.notAfter ci.rights ci.deleg := by
    rw [hheader]
    rfl
  have hsig : binToSig header.signature =
      libplaSign ops ripemd160 crypto kv (signedHash ripemd160 header payload) key.privateKey := by
    have hfield : header.signature = ⟨_, length_sigToBin (libplaSign ops ripemd160 crypto kv
        (signedHash ripemd160 header payload) key.privateKey)⟩ := by
      rw [hheader]
      rfl
    rw [hfield]
    exact binToSig_below sign_range.1 sign_range.2
  simp only [signatureOk, hkey, hY, take_bytes, drop_bytes, hid, hsig, h.decompress]
  cases crypto with
  | sw => rfl
  | null => rfl

end Certified

/-! ## The packet at the next hop -/

/-- The test of the length lets every packet with a header pass but one: the subtraction is
unsigned. -/
theorem length_test (hlen : p.data.length = headerLen el.gc.useMac + (plaLen + payload.length)) :
    UInt32.ofNat p.data.length - UInt32.ofNat (headerLen el.gc.useMac) - UInt32.ofNat fidLen -
      UInt32.ofNat plaLen > 0 ↔ payload.length ≠ fidLen := by
  have hlt := p.length_lt
  have hpos : ∀ v : UInt32, v > 0 ↔ v.toNat ≠ 0 := fun v => by
    rw [gt_iff_lt, UInt32.lt_iff_toNat_lt, UInt32.toNat_zero]
    omega
  rw [hpos, UInt32.toNat_sub, UInt32.toNat_sub, UInt32.toNat_sub]
  simp only [UInt32.toNat_ofNat', hlen, plaLen, fidLen] at *
  cases hmac : el.gc.useMac <;> simp only [hmac, headerLen] at * <;> simp at * <;> omega

/-- Passed checks have set all flags but that of the signature. -/
theorem plaChecks_passed (hchecks : plaChecks now conns header = some checked)
    (hpassed : checked.passed = true) : checked.ret = 0x3E := by
  unfold plaChecks at hchecks
  split at hchecks
  · obtain rfl := Option.some.inj hchecks
    simp at hpassed
  · cases hseq : libplaCheckSequenceNumber conns header.implicitCertificate
        header.sequenceNumber with
    | none => simp [hseq] at hchecks
    | some answer =>
      simp only [hseq, Option.bind_eq_bind, Option.bind_some] at hchecks
      split at hchecks
      · obtain rfl := Option.some.inj hchecks
        simp at hpassed
      · split at hchecks
        · obtain rfl := Option.some.inj hchecks
          simp at hpassed
        · split at hchecks
          · obtain rfl := Option.some.inj hchecks
            simp at hpassed
          · split at hchecks
            · obtain rfl := Option.some.inj hchecks
              simp at hpassed
            · obtain rfl := Option.some.inj hchecks
              rfl

section Received

variable (hp : p.data = lower ++ (header.bytes ++ payload))
  (hlower : lower.length = headerLen el.gc.useMac)
include hp hlower

theorem length_received :
    p.data.length = headerLen el.gc.useMac + (plaLen + payload.length) := by
  rw [hp, List.length_append, List.length_append, header.length_bytes, hlower]

/-- A payload of the length of an identifier, and the header is not looked at. -/
theorem verify_identifier (hlen : payload.length = fidLen) :
    el.verify ops ripemd160 now roll lightRoll conns p = some (.accepted 0 0, conns) := by
  have htest := length_test (length_received hp hlower)
  unfold PlaElement.verify
  rw [if_neg (by rw [htest]; exact not_not.mpr hlen)]
  rfl

theorem verify_header (hlen : payload.length ≠ fidLen)
    (htype : header.headerType = plaHeaderType ∨ header.headerType = plaRidHeaderType)
    (hroll : roll &&& verifyingMask < el.verProb)
    (hchecks : plaChecks now conns header = some checked) (hpassed : checked.passed = true) :
    el.verify ops ripemd160 now roll lightRoll conns p =
      if signatureOk ops ripemd160 el.crypto header (header.bytes ++ payload) then
        some (.accepted 0x3F plaLen, checked.conns)
      else some (.killed 0x3E, checked.conns) := by
  have htest := (length_test (length_received hp hlower)).mpr hlen
  have hret := plaChecks_passed hchecks hpassed
  have hdrop : p.data.drop (headerLen el.gc.useMac) = header.bytes ++ payload := by
    rw [hp, List.drop_left' hlower]
  unfold PlaElement.verify
  simp only [htest, if_true, hdrop, PlaHdr.ofBytes_bytes, Option.bind_eq_bind, Option.bind_some,
    htype, hroll, libplaPlaFullVerify, hchecks, hpassed, not_true_eq_false, if_false, hret]
  split
  · have hset : ¬ (62 ||| plaSigOk) &&& plaSigOk = 0 := by decide
    simp only [Option.pure_def, Option.bind_some]
    rw [if_neg hset]
    rfl
  · have hclear : 62 &&& plaSigOk = 0 := by decide
    simp only [Option.pure_def, Option.bind_some]
    rw [if_pos hclear]

end Received

theorem certificate_type (ops : Ops) (ripemd160 : List UInt8 → Octets 20) (k kT ttp : Int)
    (ci : CertInfo) :
    (libplaCreateCertificate ops ripemd160 k kT ttp ci).plaHeader.headerType = plaHeaderType ∨
      (libplaCreateCertificate ops ripemd160 k kT ttp ci).plaHeader.headerType =
        plaRidHeaderType := by
  cases hrid : ci.rid with
  | none => exact Or.inl (by simp [libplaCreateCertificate, hrid])
  | some rid => exact Or.inr (by simp [libplaCreateCertificate, hrid])

/-- Without a rendezvous id both sides hash the same identity. -/
theorem signatureOk_plain (h : ops.Correct pt) (hplain : ci.rid = none ∨ crypto = .null) :
    let cert := (libplaCreateCertificate ops ripemd160 k kT ttp ci).after seq
    let header := (libplaPlaHeaderSign ops ripemd160 crypto now kv cert payload).1
    signatureOk ops ripemd160 crypto header (header.bytes ++ payload) = true := by
  intro cert header
  rw [signatureOk_sign h]
  cases crypto with
  | null => rfl
  | sw =>
    have hrid : ci.rid = none := hplain.resolve_right (by simp)
    have hid : libplaCertCalculateIdHash ripemd160 ci =
        ripemd160 (idFields ci.identity ci.notBefore ci.notAfter ci.rights ci.deleg) := by
      simp [libplaCertCalculateIdHash, hrid]
    rw [hid]
    exact verify_own h

/-- A certificate without a rendezvous id: what it signs is found good at the next hop, unless the
payload is as long as an identifier. Packing loses nothing. -/
theorem next_hop_accepts (h : ops.Correct pt)
    (hheader : header = (libplaPlaHeaderSign ops ripemd160 el.crypto then' kv
      ((libplaCreateCertificate ops ripemd160 k kT ttp ci).after seq) payload).1)
    (hp : p.data = lower ++ (header.bytes ++ payload))
    (hlower : lower.length = headerLen el.gc.useMac)
    (hroll : roll &&& verifyingMask < el.verProb)
    (hchecks : plaChecks now conns header = some checked) (hpassed : checked.passed = true) :
    (ci.rid = none ∨ el.crypto = .null →
      (el.verify ops ripemd160 now roll lightRoll conns p =
        some (.accepted 0x3F plaLen, checked.conns) ↔ payload.length ≠ fidLen)) ∧
    (payload.length = fidLen →
      el.verify ops ripemd160 now roll lightRoll conns p = some (.accepted 0 0, conns)) ∧
    (∀ sig : SelfSig, 0 ≤ sig.s → sig.s < order →
      binToSig ⟨sigToBin sig, length_sigToBin sig⟩ = sig) ∧
    ∀ (e : Elem) (b : Bool) (rest : List UInt8),
      binToPublicKey (publicKeyToBin e b ++ rest) = (e, b) := by
  refine ⟨fun hplain => ⟨fun haccepted hlen => ?_, fun hlen => ?_⟩,
    verify_identifier hp hlower, fun sig => binToSig_below,
    fun e b rest => binToPublicKey_publicKeyToBin⟩
  · rw [verify_identifier hp hlower hlen] at haccepted
    exact absurd haccepted (by simp [plaLen])
  · have htype : header.headerType = plaHeaderType ∨ header.headerType = plaRidHeaderType := by
      rw [hheader]
      exact certificate_type ops ripemd160 k kT ttp ci
    rw [verify_header hp hlower hlen htype hroll hchecks hpassed, if_pos]
    rw [hheader]
    exact signatureOk_plain h hplain

/-! ## A first packet between two hops -/

/-- A hop that verifies every packet. -/
def firstHop : PlaElement where
  gc := ⟨true, [], 0, 0, none⟩
  verProb := 2 ^ 28
  lightVerProb := 0
  crypto := .sw

/-- The first number of a sender: its window is all clear. -/
theorem slideWindow_first (key : Octets 21) :
    slideWindow ⟨0, 0, List.replicate plaWindowSize 0, key⟩ 1 =
      some (true, ⟨0, 0, (List.replicate plaWindowSize 0).set 1 1, key⟩) := by
  have hindex : (((0 : UInt16).toUInt64 + (1 - 0 : UInt64)) % 128).toNat = 1 := by decide
  have hseen : (List.replicate plaWindowSize (0 : UInt8))[1]? = some 0 := by decide
  have hstore : Wire.store (List.replicate plaWindowSize (0 : UInt8)) 1 1 =
      some ((List.replicate plaWindowSize 0).set 1 1) := by
    refine Wire.store_set ?_
    rw [List.length_replicate]
    decide
  unfold slideWindow
  simp only [hindex, hseen, hstore, Option.bind_eq_bind, Option.bind_some]
  rw [if_neg (by decide), if_pos (by decide)]
  rfl

theorem plaChecks_first (now : UInt32) (header : PlaHdr) (htime : header.timestamp = now)
    (hseq : header.sequenceNumber = 1) (hrights : header.ttpRights = 6) :
    ∃ checked, plaChecks now [] header = some checked ∧ checked.passed = true := by
  have hts : timestampOk now header = true := by
    rw [timestampOk, htime, UInt32.sub_self]
    decide
  have hvalid : validityOk now header = true := by
    simp [validityOk]
  have hwindow : libplaCheckSequenceNumber [] header.implicitCertificate header.sequenceNumber =
      some (true, [⟨0, 0, (List.replicate plaWindowSize 0).set 1 1, header.implicitCertificate⟩]) := by
    simp only [hseq, libplaCheckSequenceNumber, libplaConnectionFind, List.findIdx?_nil,
      List.getD_cons_zero, slideWindow_first, Option.map_some, List.set_cons_zero]
  refine ⟨⟨0x3E, true, [⟨0, 0, (List.replicate plaWindowSize 0).set 1 1,
    header.implicitCertificate⟩]⟩, ?_, rfl⟩
  simp only [plaChecks, hts, hwindow, hvalid, hrights, Option.bind_eq_bind, Option.bind_some]
  rfl

/-- A packet of a header and a payload, below an Ethernet header. -/
def firstPacket (header : PlaHdr) (payload : List UInt8) (h : payload.length < 2 ^ 16) : Packet where
  data := List.replicate (headerLen true) 0 ++ (header.bytes ++ payload)
  length_lt := by
    rw [List.length_append, List.length_append, List.length_replicate, header.length_bytes]
    simp only [headerLen, plaLen, if_true]
    omega

def plainInfo : CertInfo := ⟨none, 7, 0, 100, 6, 0⟩

def zeroHash (_ : List UInt8) : Octets 20 := zeroOctets 20

theorem next_hop_accepts_plain : ∃ header p,
    header = (libplaPlaHeaderSign chordTangent zeroHash .sw 50 1
      ((libplaCreateCertificate chordTangent zeroHash 1 1 1 plainInfo).after 0)
      (List.replicate 33 1)).1 ∧
    p = firstPacket header (List.replicate 33 1) (by decide) ∧
    ∃ checked, plaChecks 50 [] header = some checked ∧
      firstHop.verify chordTangent zeroHash 50 0 0 [] p =
        some (.accepted 0x3F plaLen, checked.conns) := by
  obtain ⟨checked, hchecks, hpassed⟩ := plaChecks_first 50
    (libplaPlaHeaderSign chordTangent zeroHash .sw 50 1
      ((libplaCreateCertificate chordTangent zeroHash 1 1 1 plainInfo).after 0)
      (List.replicate 33 1)).1 rfl rfl rfl
  have hroll : 0 &&& verifyingMask < firstHop.verProb := by decide
  refine ⟨_, _, rfl, rfl, checked, hchecks, ?_⟩
  exact ((next_hop_accepts chordTangent_correct rfl rfl List.length_replicate hroll hchecks
    hpassed).1 (Or.inl rfl)).mpr (by decide)


/-! ## A certificate that is tied to a rendezvous id -/

def ridInfo : CertInfo := ⟨some (zeroOctets 32), 7, 0, 100, 6, 0⟩

def hashEnding (b : UInt8) : Octets 20 := ⟨List.replicate 19 0 ++ [b], by simp⟩

/-- A hash that tells apart what the two hops hash. The one of the identity without the id is the
first coordinate of eight times the base point, so that the next hop comes to infinity. -/
def tableHash (data : List UInt8) : Octets 20 :=
  if data.length = 14 then
    ⟨[73, 92, 227, 73, 9, 5, 4, 41, 69, 244, 0, 199, 11, 20, 182, 99, 244, 7, 49, 243], by decide⟩
  else if data.length = 46 then hashEnding 0
  else if data.length = 44 then
    if data.drop 20 = elemBytes infinity.x then hashEnding 3 else hashEnding 1
  else hashEnding 2

theorem length_idFields (identity notBefore notAfter : UInt32) (rights deleg : UInt8) :
    (idFields identity notBefore notAfter rights deleg).length = 14 := by
  simp [idFields]

theorem length_elemBytes (e : Elem) : (elemBytes e).length = 24 := by
  simp [elemBytes, List.range_succ]

theorem tableHash_point (m : Octets 20) (e : Elem) : tableHash (m.val ++ elemBytes e) =
    if elemBytes e = elemBytes infinity.x then hashEnding 3 else hashEnding 1 := by
  have hlen : (m.val ++ elemBytes e).length = 44 := by
    rw [List.length_append, m.property, length_elemBytes]
  have hdrop : (m.val ++ elemBytes e).drop 20 = elemBytes e := List.drop_left' m.property
  simp [tableHash, hlen, hdrop]

theorem base_doublings : basePoint.x ≠ gnbZero ∧ (doubled basePoint).x ≠ gnbZero ∧
    (doubled (doubled basePoint)).x ≠ gnbZero ∧ (doubled (doubled (doubled basePoint))).x ≠ gnbZero ∧
    hashElem (tableHash (List.replicate 14 0)) = (doubled (doubled (doubled basePoint))).x ∧
    elemBytes (doubled (doubled (doubled basePoint))).x ≠ elemBytes infinity.x := by
  decide +kernel

theorem multiple_eight : multiple 8 = doubled (doubled (doubled basePoint)) := by
  obtain ⟨hbase, hdoubled, htwice, -⟩ := base_doublings
  have hone : (pointOf G).x ≠ 0 := hbase
  have htwo : pointOf (G + G) = doubled basePoint := pointOf_double hone
  have hfour : pointOf (G + G + (G + G)) = doubled (doubled basePoint) := by
    rw [pointOf_double, htwo]
    rw [htwo]
    exact hdoubled
  have height : (8 : Int) • G = G + G + (G + G) + (G + G + (G + G)) := by
    generalize G = P
    abel
  rw [multiple, height, pointOf_double, hfour]
  rw [hfour]
  exact htwice

theorem x_eight_ne_zero : (multiple 8).x ≠ 0 := by
  rw [multiple_eight]
  exact base_doublings.2.2.2.1

theorem hashElem_identity {data : List UInt8} (h : data.length = 14) :
    hashElem (tableHash data) = (multiple 8).x := by
  have hsame : tableHash data = tableHash (List.replicate 14 0) := by
    rw [tableHash, tableHash, if_pos h, if_pos List.length_replicate]
  rw [multiple_eight, hsame]
  exact base_doublings.2.2.2.2.1

theorem tableHash_signer (m : Octets 20) :
    tableHash (m.val ++ elemBytes (multiple 8).x) = hashEnding 1 := by
  have hne : elemBytes (multiple 8).x ≠ elemBytes infinity.x := by
    rw [multiple_eight]
    exact base_doublings.2.2.2.2.2
  rw [tableHash_point, if_neg hne]

/-- The header of the sender with the id, before it is signed over the payload. -/
noncomputable def ridCertificate : PlaCertificate :=
  (libplaCreateCertificate chordTangent tableHash 4 4 1 ridInfo).after 0

theorem signatureOk_rid :
    let header := (libplaPlaHeaderSign chordTangent tableHash .sw 50 8 ridCertificate payload).1
    signatureOk chordTangent tableHash .sw header (header.bytes ++ payload) = false := by
  intro header
  have hcorrect := chordTangent_correct
  have hidentity := hashElem_identity (length_idFields 7 0 100 6 0)
  have hcert : hashElem (libplaCertCalculateIdHash tableHash ridInfo) = 0 := by decide +kernel
  have hinfinity : ∀ b, ecDecompressPoint 0 b = infinity := by
    have hzero : ∀ b, ecDecompressPoint gnbZero b = infinity := by decide +kernel
    exact hzero
  have hj : ∀ b, ecDecompressPoint (gnbAdd
      (ecCreateKey chordTangent 4 4 (libplaCertCalculateIdHash tableHash ridInfo) 1).implCert
      (hashElem (tableHash (idFields 7 0 100 6 0)))) b = multiple 0 := by
    intro b
    rw [hidentity, hcorrect.zero]
    simp only [ecCreateKey, createKey_point hcorrect, hcert, add_eq, zero_add]
    rw [show (4 : Int) + 4 = 8 by rfl, double, hinfinity]
  have hone : (fromBigEndian (hashEnding 1).val : Int) % order = 1 := by
    rw [order_eq]
    decide
  refine (signatureOk_sign hcorrect).trans ?_
  simp only [ridInfo] at *
  rw [verify_sign hcorrect (hj _)]
  simp only [tableHash_signer, hone]
  rw [show (8 : Int) + 1 * (0 - (4 + 4)) = 0 by rfl, hcorrect.zero, tableHash_point, if_pos rfl]
  decide

theorem signedHash_table : signedHash tableHash header payload = hashEnding 2 := by
  have hlen : 60 ≤ (header.front ++ (header.idBytes ++ header.back ++ payload)).length := by
    simp only [List.length_append, header.length_front, header.length_idBytes]
    omega
  rw [signedHash, tableHash, if_neg (by omega), if_neg (by omega), if_neg (by omega)]

/-- The hashes of the identity with and without the id, of the packet, and of the points of the
sender and of the next hop. -/
noncomputable def ridHashes (header : PlaHdr) (payload : List UInt8) : List (Octets 20) :=
  let m := signedHash tableHash header payload
  [libplaCertCalculateIdHash tableHash ridInfo, tableHash (idFields 7 0 100 6 0), m,
    tableHash (m.val ++ elemBytes (multiple 8).x), tableHash (m.val ++ elemBytes infinity.x)]

theorem next_hop_refuses_rid : ∃ header p checked,
    header = (libplaPlaHeaderSign chordTangent tableHash .sw 50 8 ridCertificate
      (List.replicate 33 1)).1 ∧
    p = firstPacket header (List.replicate 33 1) (by decide) ∧
    chordTangent.Correct multiple ∧ multiple (4 + 4) ≠ infinity ∧ (multiple (4 + 4)).x ≠ 0 ∧
    (ridHashes header (List.replicate 33 1)).Nodup ∧
    plaChecks 50 [] header = some checked ∧ checked.passed = true ∧
    firstHop.verify chordTangent tableHash 50 0 0 [] p = some (.killed 0x3E, checked.conns) := by
  obtain ⟨checked, hchecks, hpassed⟩ := plaChecks_first 50
    (libplaPlaHeaderSign chordTangent tableHash .sw 50 8 ridCertificate
      (List.replicate 33 1)).1 rfl rfl rfl
  have hroll : 0 &&& verifyingMask < firstHop.verProb := by decide
  have hx : (multiple (4 + 4)).x ≠ 0 := x_eight_ne_zero
  refine ⟨_, _, checked, rfl, rfl, chordTangent_correct, fun hinf => hx ?_, hx, ?_, hchecks,
    hpassed, ?_⟩
  · rw [hinf]
    rfl
  · simp only [ridHashes, tableHash_signer]
    simp only [signedHash_table, tableHash_point, if_true]
    decide +kernel
  · rw [verify_header rfl List.length_replicate (by decide) (Or.inr rfl) hroll hchecks hpassed,
      if_neg]
    exact ne_true_of_eq_false signatureOk_rid

end Blackadder.Pla
