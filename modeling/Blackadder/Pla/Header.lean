import Blackadder.Pla.Signature
import Blackadder.Network.Frames
import Mathlib.Data.UInt

/-!
# Signed packets

`libpla.c` and the verification of `PLA::push`: certificates, signed headers, the window of sequence
numbers and the checks at the next hop.
-/

namespace Blackadder.Pla

open Gnb Ec
open Wire (store)

variable {n v : Nat} {rest l : List UInt8}

/-! ## The header in memory -/

/-- `struct pla_hdr`. -/
structure PlaHdr where
  headerType : UInt32
  implicitCertificate : Octets 21
  ttpPublicKey : Octets 21
  signature : Octets 41
  ttpIdentity : UInt32
  ttpNotBeforeTime : UInt32
  ttpNotAfterTime : UInt32
  ttpRights : UInt8
  ttpDelegRights : UInt8
  timestamp : UInt32
  sequenceNumber : UInt64
deriving DecidableEq

/-- The fields that `PLA_HEADER_ID_HASH_OFFSET` and `PLA_ID_HASH_LEN` mark. -/
def idFields (identity notBefore notAfter : UInt32) (rights deleg : UInt8) : List UInt8 :=
  littleEndian 4 identity.toNat ++ littleEndian 4 notBefore.toNat ++
    littleEndian 4 notAfter.toNat ++ [rights] ++ [deleg]

def PlaHdr.idBytes (h : PlaHdr) : List UInt8 :=
  idFields h.ttpIdentity h.ttpNotBeforeTime h.ttpNotAfterTime h.ttpRights h.ttpDelegRights

/-- `PLA_HEADER_SIG_OFFSET` bytes. -/
def PlaHdr.front (h : PlaHdr) : List UInt8 :=
  littleEndian 4 h.headerType.toNat ++ h.implicitCertificate.val ++ h.ttpPublicKey.val

def PlaHdr.back (h : PlaHdr) : List UInt8 :=
  littleEndian 4 h.timestamp.toNat ++ littleEndian 8 h.sequenceNumber.toNat

def PlaHdr.bytes (h : PlaHdr) : List UInt8 := h.front ++ h.signature.val ++ h.idBytes ++ h.back

/-- `sizeof(struct pla_hdr)`. -/
def plaLen : Nat := 4 + 21 + 21 + 41 + 4 + 4 + 4 + 1 + 1 + 4 + 8

/-- The next `n` bytes, and what is behind them. -/
def octets (n : Nat) (l : List UInt8) : Option (Octets n × List UInt8) :=
  if h : (l.take n).length = n then some (⟨l.take n, h⟩, l.drop n) else none

/-- `memcpy` into a header. -/
def PlaHdr.ofBytes (l : List UInt8) : Option PlaHdr := do
  let (headerType, l) ← octets 4 l
  let (implicitCertificate, l) ← octets 21 l
  let (ttpPublicKey, l) ← octets 21 l
  let (signature, l) ← octets 41 l
  let (identity, l) ← octets 4 l
  let (notBefore, l) ← octets 4 l
  let (notAfter, l) ← octets 4 l
  let (rights, l) ← octets 1 l
  let (deleg, l) ← octets 1 l
  let (timestamp, l) ← octets 4 l
  let (sequenceNumber, _) ← octets 8 l
  pure {
    headerType := UInt32.ofNat (fromLittleEndian headerType.val)
    implicitCertificate, ttpPublicKey, signature
    ttpIdentity := UInt32.ofNat (fromLittleEndian identity.val)
    ttpNotBeforeTime := UInt32.ofNat (fromLittleEndian notBefore.val)
    ttpNotAfterTime := UInt32.ofNat (fromLittleEndian notAfter.val)
    ttpRights := UInt8.ofNat (fromLittleEndian rights.val)
    ttpDelegRights := UInt8.ofNat (fromLittleEndian deleg.val)
    timestamp := UInt32.ofNat (fromLittleEndian timestamp.val)
    sequenceNumber := UInt64.ofNat (fromLittleEndian sequenceNumber.val) }

theorem octets_append (h : l.length = n) : octets n (l ++ rest) = some (⟨l, h⟩, rest) := by
  subst h
  simp [octets]

theorem octets_single {a : UInt8} : octets 1 ([a] ++ rest) = some (⟨[a], rfl⟩, rest) :=
  octets_append (l := [a]) rfl

theorem ofNat_littleEndian32 (v : UInt32) :
    UInt32.ofNat (fromLittleEndian (littleEndian 4 v.toNat)) = v := by
  have hlt := v.toNat_lt
  rw [fromLittleEndian_eq, Nat.mod_eq_of_lt (by omega), UInt32.ofNat_toNat]

theorem ofNat_littleEndian64 (v : UInt64) :
    UInt64.ofNat (fromLittleEndian (littleEndian 8 v.toNat)) = v := by
  have hlt := v.toNat_lt
  rw [fromLittleEndian_eq, Nat.mod_eq_of_lt (by omega), UInt64.ofNat_toNat]

theorem ofNat_single (v : UInt8) : UInt8.ofNat (fromLittleEndian [v]) = v := by
  simp [fromLittleEndian]

/-- What was written into a packet is read out of it. -/
theorem PlaHdr.ofBytes_bytes (h : PlaHdr) : ofBytes (h.bytes ++ rest) = some h := by
  simp only [bytes, front, idBytes, idFields, back, List.append_assoc, ofBytes,
    octets_append (length_littleEndian _ _), octets_append h.implicitCertificate.property,
    octets_append h.ttpPublicKey.property, octets_append h.signature.property,
    octets_single, Option.bind_eq_bind, Option.bind_some, ofNat_littleEndian32,
    ofNat_littleEndian64, ofNat_single]
  rfl

theorem PlaHdr.length_front (h : PlaHdr) : h.front.length = 46 := by
  simp [front, h.implicitCertificate.property, h.ttpPublicKey.property]

theorem PlaHdr.length_idBytes (h : PlaHdr) : h.idBytes.length = 14 := by
  simp [idBytes, idFields]

theorem PlaHdr.length_bytes (h : PlaHdr) : h.bytes.length = plaLen := by
  simp [bytes, h.length_front, h.length_idBytes, h.signature.property, back, plaLen]

/-! ## Certificates -/

/-- The crypto types that `libpla_init` lets pass. -/
inductive Crypto where
  | null
  | sw
deriving DecidableEq

/-- `pla_certificate_list_item_t`. -/
structure PlaCertificate where
  plaHeader : PlaHdr
  privateKey : Int
  rid : Option (Octets 32)

def plaHeaderType : UInt32 := 0xFF
def plaRidHeaderType : UInt32 := 0xFE

def publicKeyField (e : Elem) (b : Bool) : Octets 21 := ⟨publicKeyToBin e b, length_publicKeyToBin⟩

/-- What the user asks for, and the identity that is drawn. -/
structure CertInfo where
  rid : Option (Octets 32)
  identity : UInt32
  notBefore : UInt32
  notAfter : UInt32
  rights : UInt8
  deleg : UInt8

variable (ops : Ops) (ripemd160 : List UInt8 → Octets 20)

def libplaCertCalculateIdHash (ci : CertInfo) : Octets 20 :=
  ripemd160 ((match ci.rid with | some rid => rid.val | none => []) ++
    idFields ci.identity ci.notBefore ci.notAfter ci.rights ci.deleg)

/-- The certificate for the packets, made with the private key of the trusted third party. -/
def libplaCreateCertificate (k kT ttpSigma : Int) (ci : CertInfo) : PlaCertificate :=
  let idHash := libplaCertCalculateIdHash ripemd160 ci
  let key := ecCreateKey ops k kT idHash ttpSigma
  let eY := ops.ecMultiply basePoint ttpSigma
  { plaHeader :=
      { headerType := if ci.rid.isSome then plaRidHeaderType else plaHeaderType
        implicitCertificate := publicKeyField key.implCert key.implCertB
        ttpPublicKey := publicKeyField eY.x (ecCompressPoint eY)
        signature := zeroOctets 41
        ttpIdentity := ci.identity
        ttpNotBeforeTime := ci.notBefore
        ttpNotAfterTime := ci.notAfter
        ttpRights := ci.rights
        ttpDelegRights := ci.deleg
        timestamp := 0
        sequenceNumber := 0 }
    privateKey := key.privateKey
    rid := ci.rid }

def libplaSign (crypto : Crypto) (k : Int) (m : Octets 20) (sigma : Int) : SelfSig :=
  match crypto with
  | .sw => ecSignSelf ops ripemd160 k m sigma
  | .null => ⟨zeroOctets 20, 0⟩

/-- The header, and the certificate with its next sequence number. -/
def libplaPlaHeaderSign (crypto : Crypto) (now : UInt32) (k : Int) (cert : PlaCertificate)
    (payload : List UInt8) : PlaHdr × PlaCertificate :=
  let header := { cert.plaHeader with sequenceNumber := cert.plaHeader.sequenceNumber + 1 }
  let cert := { cert with plaHeader := header }
  let header := { header with timestamp := now }
  let data := header.bytes ++ payload
  let hash := ripemd160 (data.take 46 ++ data.drop (46 + 41))
  let sig := libplaSign ops ripemd160 crypto k hash cert.privateKey
  ({ header with signature := ⟨sigToBin sig, length_sigToBin sig⟩ }, cert)

/-! ## The window of sequence numbers -/

/-- `PLA_WINDOW_SIZE`. -/
def plaWindowSize : Nat := 128

/-- `struct pla_connection`. -/
structure PlaConnection where
  windowLow : UInt64
  lowIndex : UInt16
  window : List UInt8
  key : Octets 21

/-- The last entry that was added is the first. -/
abbrev ConnectionList := List PlaConnection

def libplaConnectionFind (conns : ConnectionList) (key : Octets 21) : Option Nat :=
  conns.findIdx? fun entry => entry.key = key

/-- `entry->window[(entry->low_index + i) % PLA_WINDOW_SIZE] = 0`, from the last `i` on. -/
def clearWindow (lowIndex : Nat) (window : List UInt8) : Nat → Option (List UInt8)
  | 0 => some window
  | i + 1 => do
    let window ← store window ((lowIndex + i) % plaWindowSize) 0
    clearWindow lowIndex window i

/-- The number is looked up in the window of its sender, which moves up for a greater one. `none`
stands for an index outside of the window, for the loop over a negative count, which has such
indices and does not end, and for a sum that is no `int`. -/
def slideWindow (entry : PlaConnection) (seqnum : UInt64) : Option (Bool × PlaConnection) :=
  if seqnum < entry.windowLow then some (false, entry)
  else
    let windowHigh : Int32 := (entry.windowLow + 127).toUInt32.toInt32
    if seqnum ≤ windowHigh.toInt64.toUInt64 then do
      let entryIndex :=
        ((entry.lowIndex.toUInt64 + (seqnum - entry.windowLow)) % 128).toNat
      let seen ← entry.window[entryIndex]?
      if seen ≠ 0 then return (false, entry)
      else
        let window ← store entry.window entryIndex 1
        return (true, { entry with window := window })
    else
      let advance : Int32 := (seqnum - windowHigh.toInt64.toUInt64).toUInt32.toInt32
      if advance < 0 ∨ 2 ^ 31 ≤ entry.lowIndex.toNat + advance.toInt.toNat then none
      else do
        let nulled := min plaWindowSize advance.toInt.toNat
        let window ← clearWindow entry.lowIndex.toNat entry.window nulled
        let lowIndex := UInt16.ofNat ((entry.lowIndex.toNat + advance.toInt.toNat) % plaWindowSize)
        let windowLow := entry.windowLow + advance.toInt64.toUInt64
        let index := ((lowIndex.toUInt64 + (seqnum - windowLow)) % 128).toNat
        let window ← store window index 1
        return (true, { entry with
          windowLow := windowLow, lowIndex := lowIndex, window := window })

def libplaCheckSequenceNumber (conns : ConnectionList) (implCert : Octets 21) (seqnum : UInt64) :
    Option (Bool × ConnectionList) :=
  let fresh : PlaConnection := ⟨0, 0, List.replicate plaWindowSize 0, implCert⟩
  let (conns, i) := match libplaConnectionFind conns implCert with
    | some i => (conns, i)
    | none => (fresh :: conns, 0)
  (slideWindow (conns.getD i fresh) seqnum).map fun (ok, entry) => (ok, conns.set i entry)

/-! ## Verification -/

def plaTimestampOk : UInt8 := 0x20
def plaSeqNumOk : UInt8 := 0x10
def plaTtpCertOk : UInt8 := 0x8
def plaTtpLowPriorityOk : UInt8 := 0x4
def plaTtpHighPriorityOk : UInt8 := 0x2
def plaSigOk : UInt8 := 0x1
def plaTtpTrafficRight : UInt8 := 0x2
def plaTtpControlRight : UInt8 := 0x4

/-- What the checks before the signature come to: the flags, and whether all of them passed. -/
structure Checked where
  ret : UInt8
  passed : Bool
  conns : ConnectionList

/-- `abs((uint32_t)tv.tv_sec - pla_header->timestamp) <= PLA_TIMESTAMP_DIFF`. -/
def timestampOk (now : UInt32) (header : PlaHdr) : Bool :=
  (now - header.timestamp).toInt32.abs ≤ 5

/-- The differences are unsigned, so that they are never below zero. -/
def validityOk (now : UInt32) (header : PlaHdr) : Bool :=
  now - header.ttpNotBeforeTime ≥ 0 && header.ttpNotAfterTime - now ≥ 0

/-- The part that `libpla_pla_full_verify` and `libpla_pla_lightweight_verify` have in common. -/
def plaChecks (now : UInt32) (conns : ConnectionList) (header : PlaHdr) : Option Checked := do
  if ¬ timestampOk now header then return ⟨0, false, conns⟩
  let (ok, conns) ←
    libplaCheckSequenceNumber conns header.implicitCertificate header.sequenceNumber
  if ¬ ok then return ⟨plaTimestampOk, false, conns⟩
  let ret := plaTimestampOk ||| plaSeqNumOk
  if ¬ validityOk now header then return ⟨ret, false, conns⟩
  let ret := ret ||| plaTtpCertOk
  if header.ttpRights &&& plaTtpControlRight = 0 then return ⟨ret, false, conns⟩
  let ret := ret ||| plaTtpLowPriorityOk
  if header.ttpRights &&& plaTtpTrafficRight = 0 then return ⟨ret, false, conns⟩
  return ⟨ret ||| plaTtpHighPriorityOk, true, conns⟩

def libplaVerify (crypto : Crypto) (eY : Point) (rho : Elem) (b : Bool) (sig : SelfSig)
    (m id : Octets 20) : Bool :=
  match crypto with
  | .sw => ecVerifySelf ops ripemd160 eY rho b sig m id
  | .null => true

/-- The check of the signature, with the hashes over the packet and over its identity. -/
def signatureOk (crypto : Crypto) (header : PlaHdr) (data : List UInt8) : Bool :=
  let (rho, b) := binToPublicKey (header.implicitCertificate.val ++ header.ttpPublicKey.val)
  let (elem, bY) := binToPublicKey (header.ttpPublicKey.val ++ header.signature.val)
  let hash := ripemd160 (data.take 46 ++ data.drop (46 + 41))
  let idHash := ripemd160 ((data.drop (4 + 2 * 21 + 41)).take 14)
  libplaVerify ops ripemd160 crypto (ecDecompressPoint elem bY) rho b (binToSig header.signature)
    hash idHash

/-- The flags, and the list of the connections. -/
def libplaPlaFullVerify (crypto : Crypto) (now : UInt32) (conns : ConnectionList)
    (header : PlaHdr) (data : List UInt8) : Option (UInt8 × ConnectionList) := do
  let checked ← plaChecks now conns header
  if ¬ checked.passed then return (checked.ret, checked.conns)
  if signatureOk ops ripemd160 crypto header data then
    return (checked.ret ||| plaSigOk, checked.conns)
  return (checked.ret, checked.conns)

def libplaPlaLightweightVerify (now : UInt32) (conns : ConnectionList) (header : PlaHdr) :
    Option (UInt8 × ConnectionList) :=
  (plaChecks now conns header).map fun checked => (checked.ret, checked.conns)

/-! ## The next hop -/

/-- The element, as far as it verifies. -/
structure PlaElement where
  gc : GlobalConf
  verProb : UInt32
  lightVerProb : UInt32
  crypto : Crypto

/-- `VERIFYING_MASK` and `LIGHT_VERIFYING_MASK`. -/
def verifyingMask : UInt32 := 2 ^ 28 - 1

/-- A packet is killed, or goes on with the flags and the header that is to be skipped. -/
inductive Verdict where
  | killed (ret : UInt8)
  | accepted (ret : UInt8) (plaLen : Nat)
deriving DecidableEq

/-- A packet of Click: its length is an unsigned 32-bit number. -/
structure Packet where
  data : List UInt8
  length_lt : data.length < 2 ^ 32

/-- What `PLA::push` does with a packet of the network before it looks for links. The two numbers are
what `click_random` answers. -/
def PlaElement.verify (el : PlaElement) (now roll lightRoll : UInt32) (conns : ConnectionList)
    (p : Packet) : Option (Verdict × ConnectionList) := do
  let hdLen := headerLen el.gc.useMac
  let len := UInt32.ofNat p.data.length
  if len - UInt32.ofNat hdLen - UInt32.ofNat fidLen - UInt32.ofNat plaLen > 0 then
    let header ← PlaHdr.ofBytes (p.data.drop hdLen)
    if header.headerType = plaHeaderType ∨ header.headerType = plaRidHeaderType then
      if roll &&& verifyingMask < el.verProb then
        let (ret, conns) ←
          libplaPlaFullVerify ops ripemd160 el.crypto now conns header (p.data.drop hdLen)
        if ret &&& plaSigOk = 0 then return (.killed ret, conns)
        return (.accepted ret plaLen, conns)
      else if lightRoll &&& verifyingMask < el.lightVerProb then
        let (ret, conns) ← libplaPlaLightweightVerify now conns header
        if (ret &&& plaTtpHighPriorityOk) >>> 1 = 0 then return (.killed ret, conns)
        return (.accepted ret plaLen, conns)
      else return (.accepted 0xFF plaLen, conns)
    else return (.accepted 0 0, conns)
  else return (.accepted 0 0, conns)

end Blackadder.Pla
