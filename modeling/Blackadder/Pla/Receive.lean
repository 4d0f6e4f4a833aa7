import Blackadder.Pla.Rejected

/-!
# The checks of a receiver

`libpla_pla_receive` repeats the checks of the forwarder. It compares the times of the certificate with
the clock where the forwarder subtracts them.
-/

namespace Blackadder.Pla

open Ec

variable {ops : Ops} {ripemd160 : List UInt8 → Octets 20} {crypto : Crypto} {now : Int64}
  {header : PlaHdr} {data : List UInt8} {conns conns' : ConnectionList} {ret mask : UInt8}

/-- `PLA_TTP_PK_HASH_SID_OK`. -/
def plaTtpPkHashSidOk : UInt8 := 0x80

/-- `(uint32_t)tv.tv_sec`. -/
def seconds (now : Int64) : UInt32 := now.toUInt64.toUInt32

/-- The times of the certificate, compared with `time(NULL)`. -/
def certificateOk (now : Int64) (header : PlaHdr) : Bool :=
  (header.ttpNotBeforeTime.toNat : Int) ≤ now.toInt && (header.ttpNotAfterTime.toNat : Int) ≥ now.toInt

/-- The signature over a packet whose header starts at `offset`. -/
def signatureOkAt (ops : Ops) (ripemd160 : List UInt8 → Octets 20) (crypto : Crypto) (header : PlaHdr)
    (data : List UInt8) (offset : Nat) (rid : Option (Octets 32)) : Bool :=
  let (rho, b) := binToPublicKey (header.implicitCertificate.val ++ header.ttpPublicKey.val)
  let (elem, bY) := binToPublicKey (header.ttpPublicKey.val ++ header.signature.val)
  let hash := ripemd160 (data.take (offset + 46) ++ data.drop (offset + 46 + 41))
  let idHash := ripemd160 ((match rid with | some rid => rid.val | none => []) ++
    (data.drop (offset + (4 + 2 * 21 + 41))).take 14)
  libplaVerify ops ripemd160 crypto (ecDecompressPoint elem bY) rho b (binToSig header.signature)
    hash idHash

/-- `libpla_pla_receive`. The clock does not go on in between. -/
def libplaPlaReceive (ops : Ops) (ripemd160 : List UInt8 → Octets 20) (crypto : Crypto) (now : Int64)
    (conns : ConnectionList) (data : List UInt8) (offset : Nat) (sid rid : Option (Octets 32))
    (exitMask : UInt8) : Option (UInt8 × ConnectionList) := do
  let header ← PlaHdr.ofBytes (data.drop offset)
  let mut ret : UInt8 := 0
  if timestampOk (seconds now) header then ret := ret ||| plaTimestampOk
  else if exitMask &&& plaTimestampOk ≠ 0 then return (ret, conns)
  let (ok, conns) ←
    libplaCheckSequenceNumber conns header.implicitCertificate header.sequenceNumber
  if ok then ret := ret ||| plaSeqNumOk
  else if exitMask &&& plaSeqNumOk ≠ 0 then return (ret, conns)
  if certificateOk now header then ret := ret ||| plaTtpCertOk
  else if exitMask &&& plaTtpCertOk ≠ 0 then return (ret, conns)
  if header.ttpRights &&& plaTtpControlRight ≠ 0 then ret := ret ||| plaTtpLowPriorityOk
  else if exitMask &&& plaTtpLowPriorityOk ≠ 0 then return (ret, conns)
  if header.ttpRights &&& plaTtpTrafficRight ≠ 0 then ret := ret ||| plaTtpHighPriorityOk
  else if exitMask &&& plaTtpHighPriorityOk ≠ 0 then return (ret, conns)
  if let some sid := sid then
    if (ripemd160 header.ttpPublicKey.val).val = sid.val.take 20 then ret := ret ||| plaTtpPkHashSidOk
    else if exitMask &&& plaTtpPkHashSidOk ≠ 0 then return (ret, conns)
  if signatureOkAt ops ripemd160 crypto header data offset rid then ret := ret ||| plaSigOk
  return (ret, conns)

/-- All flags but the one of the scope. -/
def AllFlags (mask : UInt8) : Prop := ∀ flag ∈ [plaTimestampOk, plaSeqNumOk, plaTtpCertOk,
  plaTtpLowPriorityOk, plaTtpHighPriorityOk, plaSigOk], mask &&& flag ≠ 0

/-- The flags after the answer about the sequence number. -/
def receivedFlags (ops : Ops) (ripemd160 : List UInt8 → Octets 20) (crypto : Crypto) (now : Int64)
    (header : PlaHdr) (data : List UInt8) (ok : Bool) : UInt8 :=
  if ¬ ok then 0x20
  else if ¬ certificateOk now header then 0x30
  else if header.ttpRights &&& plaTtpControlRight = 0 then 0x38
  else if header.ttpRights &&& plaTtpTrafficRight = 0 then 0x3C
  else if signatureOk ops ripemd160 crypto header data then 0x3F
  else 0x3E

theorem signatureOkAt_zero : signatureOkAt ops ripemd160 crypto header data 0 none =
    signatureOk ops ripemd160 crypto header data := by
  simp only [signatureOkAt, signatureOk, Nat.zero_add, List.nil_append]

theorem libplaPlaReceive_eq (hmask : AllFlags mask) (hdata : PlaHdr.ofBytes data = some header) :
    libplaPlaReceive ops ripemd160 crypto now conns data 0 none none mask =
      if timestampOk (seconds now) header then
        (libplaCheckSequenceNumber conns header.implicitCertificate header.sequenceNumber).map
          fun (ok, conns) => (receivedFlags ops ripemd160 crypto now header data ok, conns)
      else some (0, conns) := by
  have hts := hmask plaTimestampOk (by simp)
  have hseq := hmask plaSeqNumOk (by simp)
  have hcert := hmask plaTtpCertOk (by simp)
  have hlow := hmask plaTtpLowPriorityOk (by simp)
  have hhigh := hmask plaTtpHighPriorityOk (by simp)
  unfold libplaPlaReceive
  rw [List.drop_zero, hdata]
  simp only [Option.bind_eq_bind, Option.bind_some, signatureOkAt_zero, hts, hseq, hcert, hlow, hhigh,
    ne_eq, not_false_eq_true, if_true]
  by_cases htime : timestampOk (seconds now) header = true
  · rw [if_pos htime, if_pos htime]
    cases libplaCheckSequenceNumber conns header.implicitCertificate header.sequenceNumber with
    | none => rfl
    | some r =>
      obtain ⟨ok, conns'⟩ := r
      simp only [Option.bind_some, Option.map_some, receivedFlags]
      cases ok with
      | false => rfl
      | true =>
        by_cases hcertified : certificateOk now header = true
        · by_cases hcontrol : header.ttpRights &&& plaTtpControlRight = 0
          · simp only [hcertified, hcontrol, not_true_eq_false, if_true, if_false]
            rfl
          · by_cases htraffic : header.ttpRights &&& plaTtpTrafficRight = 0
            · simp only [hcertified, hcontrol, htraffic, not_true_eq_false, not_false_eq_true, if_true,
                if_false]
              rfl
            · simp only [hcertified, hcontrol, htraffic, not_true_eq_false, not_false_eq_true, if_true,
                if_false]
              split <;> rfl
        · simp only [hcertified, if_true]
          rfl
  · rw [if_neg htime, if_neg htime]
    rfl

/-! ## Both routines -/

/-- The clock is in the validity time of the certificate. -/
def InTime (now : Int64) (header : PlaHdr) : Prop :=
  (header.ttpNotBeforeTime.toNat : Int) ≤ now.toInt ∧ now.toInt ≤ header.ttpNotAfterTime.toNat

theorem certificateOk_iff : certificateOk now header = true ↔ InTime now header := by
  simp [certificateOk, InTime]

/-- The forwarder lets every validity time pass. -/
theorem afterSequence_eq (h : InTime now header) (ok : Bool) :
    afterSequence ops ripemd160 crypto (seconds now) header data ok =
      receivedFlags ops ripemd160 crypto now header data ok := by
  have hvalid : validityOk (seconds now) header = true := by simp [validityOk]
  rw [afterSequence, receivedFlags, hvalid, certificateOk_iff.mpr h]

theorem afterSequence_certified :
    afterSequence ops ripemd160 crypto (seconds now) header data true &&& plaTtpCertOk ≠ 0 := by
  have hvalid : validityOk (seconds now) header = true := by simp [validityOk]
  simp only [afterSequence, hvalid, not_true_eq_false, if_false]
  split
  · decide
  split
  · decide
  split <;> decide

/-- The routines return the same flags and leave the same list, and neither has the flag of the
certificate outside of its time. -/
def Agree (ops : Ops) (ripemd160 : List UInt8 → Octets 20) (crypto : Crypto) (now : Int64)
    (conns : ConnectionList) (header : PlaHdr) (data : List UInt8) (mask : UInt8) : Prop :=
  libplaPlaFullVerify ops ripemd160 crypto (seconds now) conns header data =
      libplaPlaReceive ops ripemd160 crypto now conns data 0 none none mask ∧
    ∀ ret conns', libplaPlaFullVerify ops ripemd160 crypto (seconds now) conns header data =
      some (ret, conns') → ret &&& plaTtpCertOk ≠ 0 → InTime now header

theorem agree_iff (hmask : AllFlags mask) (hdata : PlaHdr.ofBytes data = some header) :
    Agree ops ripemd160 crypto now conns header data mask ↔ timestampOk (seconds now) header = false ∨
      answer conns header.implicitCertificate header.sequenceNumber ≠ some true ∨ InTime now header := by
  unfold Agree
  rw [libplaPlaFullVerify_eq, libplaPlaReceive_eq hmask hdata]
  by_cases htime : timestampOk (seconds now) header = true
  · rw [if_pos htime, if_pos htime, answer]
    cases libplaCheckSequenceNumber conns header.implicitCertificate header.sequenceNumber with
    | none =>
      refine iff_of_true ⟨rfl, fun ret conns' h => ?_⟩ (.inr (.inl fun h => ?_)) <;> cases h
    | some r =>
      obtain ⟨ok, conns'⟩ := r
      simp only [Option.map_some, htime, Bool.true_eq_false, false_or]
      cases ok with
      | false =>
        refine iff_of_true ⟨rfl, fun ret conns'' h hcert => ?_⟩ (.inl (by simp))
        cases h
        exact absurd (show (0x20 &&& plaTtpCertOk : UInt8) = 0 by decide) hcert
      | true =>
        constructor
        · rintro ⟨-, hall⟩
          exact .inr (hall _ _ rfl afterSequence_certified)
        · intro h
          have hin : InTime now header := h.resolve_left (by simp)
          exact ⟨by rw [afterSequence_eq hin], fun _ _ _ _ => hin⟩
  · rw [if_neg htime, if_neg htime]
    refine iff_of_true ⟨rfl, fun ret conns' h hcert => ?_⟩ (.inl (by simpa using htime))
    cases h
    exact absurd (by decide) hcert

/-- A certificate that is valid from 0 to 100. -/
def headerAt (timestamp : UInt32) : PlaHdr := { exampleHeader 6 with timestamp := timestamp }

theorem ofBytes_headerAt (timestamp : UInt32) :
    PlaHdr.ofBytes (headerAt timestamp).bytes = some (headerAt timestamp) := by
  rw [← List.append_nil (headerAt timestamp).bytes]
  exact PlaHdr.ofBytes_bytes _

theorem allFlags_max : AllFlags 0x3F := by
  unfold AllFlags
  decide +kernel

theorem agree_fifty : AllFlags 0x3F ∧ PlaHdr.ofBytes (headerAt 50).bytes = some (headerAt 50) ∧
    Agree chordTangent zeroHash .null 50 [] (headerAt 50) (headerAt 50).bytes 0x3F :=
  ⟨allFlags_max, ofBytes_headerAt 50,
    (agree_iff allFlags_max (ofBytes_headerAt 50)).mpr (.inr (.inr ⟨by decide, by decide⟩))⟩

/-- At 150 the certificate is over, and the forwarder lets the packet pass. -/
theorem not_agree : ¬ ∀ now conns header data mask, AllFlags mask → PlaHdr.ofBytes data = some header →
    Agree chordTangent zeroHash .null now conns header data mask := by
  intro h
  have hagree := h 150 [] (headerAt 150) (headerAt 150).bytes 0x3F allFlags_max (ofBytes_headerAt 150)
  have htime : timestampOk (seconds 150) (headerAt 150) = true := by decide
  have hfirst : answer [] WindowSession.exampleKey 1 = some true := by decide +kernel
  obtain ⟨⟨ok, conns'⟩, hcheck, rfl⟩ := Option.map_eq_some_iff.mp hfirst
  have hrun : libplaPlaFullVerify chordTangent zeroHash .null (seconds 150) [] (headerAt 150)
      (headerAt 150).bytes = some (afterSequence chordTangent zeroHash .null (seconds 150) (headerAt 150)
        (headerAt 150).bytes true, conns') := by
    rw [libplaPlaFullVerify_eq, if_pos htime]
    exact congrArg _ hcheck
  have hin := hagree.2 _ _ hrun afterSequence_certified
  exact absurd hin.2 (by decide)

end Blackadder.Pla
