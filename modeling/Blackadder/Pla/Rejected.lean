import Blackadder.Pla.RoundTrip
import Blackadder.Pla.Window

/-!
# Packets that are refused

The sequence number of a packet is put into the window of the sender that the header names, before
the certificate and the signature are looked at.
-/

namespace Blackadder.Pla

open Ec SlidingWindow
open Wire (store store_set)

variable {ops : Ops} {ripemd160 : List UInt8 → Octets 20} {crypto : Crypto} {now : UInt32}
  {header : PlaHdr} {data : List UInt8} {conns conns' conns₁ conns₁' : ConnectionList} {ret : UInt8}
  {entry entry' : PlaConnection} {key : Octets 21} {seqnum : UInt64} {ok : Bool}

/-! ## What the checks come to -/

/-- The flags after the answer about the sequence number. -/
def afterSequence (ops : Ops) (ripemd160 : List UInt8 → Octets 20) (crypto : Crypto) (now : UInt32)
    (header : PlaHdr) (data : List UInt8) (ok : Bool) : UInt8 :=
  if ¬ ok then 0x20
  else if ¬ validityOk now header then 0x30
  else if header.ttpRights &&& plaTtpControlRight = 0 then 0x38
  else if header.ttpRights &&& plaTtpTrafficRight = 0 then 0x3C
  else if signatureOk ops ripemd160 crypto header data then 0x3F
  else 0x3E

/-- The list of the connections is touched by the check of the sequence number only. -/
theorem libplaPlaFullVerify_eq : libplaPlaFullVerify ops ripemd160 crypto now conns header data =
    if timestampOk now header then
      (libplaCheckSequenceNumber conns header.implicitCertificate header.sequenceNumber).map
        fun (ok, conns) => (afterSequence ops ripemd160 crypto now header data ok, conns)
    else some (0, conns) := by
  unfold libplaPlaFullVerify plaChecks
  by_cases htime : timestampOk now header = true
  · rw [if_pos htime, if_neg (not_not.mpr htime)]
    cases libplaCheckSequenceNumber conns header.implicitCertificate header.sequenceNumber with
    | none => rfl
    | some r =>
      obtain ⟨ok, conns'⟩ := r
      simp only [Option.bind_eq_bind, Option.bind_some, Option.map_some, afterSequence]
      cases ok with
      | false => rfl
      | true =>
        simp only [not_true_eq_false, if_false]
        split
        · rfl
        split
        · rfl
        split
        · rfl
        · dsimp only [pure, Option.bind_some]
          rw [if_neg (not_not.mpr rfl)]
          split <;> rfl
  · rw [if_neg htime, if_pos htime]
    rfl

/-! ## Two lists with the same windows -/

/-- Every sender has the same window. -/
def SameWindows (conns conns' : ConnectionList) : Prop := ∀ key, entryOf conns' key = entryOf conns key

theorem SameWindows.check (h : SameWindows conns conns')
    (hrun : libplaCheckSequenceNumber conns key seqnum = some (ok, conns₁)) :
    ∃ conns₁', libplaCheckSequenceNumber conns' key seqnum = some (ok, conns₁') ∧
      SameWindows conns₁ conns₁' := by
  obtain ⟨entry, hslide, rfl⟩ := libplaCheckSequenceNumber_some.mp hrun
  have hkey := (key_slideWindow hslide).trans (key_entryOf conns key)
  refine ⟨withEntry conns' entry, libplaCheckSequenceNumber_some.mpr ⟨entry, ?_, rfl⟩, fun key' => ?_⟩
  · rw [h key]
    exact hslide
  · rw [entryOf_withEntry hkey, entryOf_withEntry hkey, h key']

theorem SameWindows.symm (h : SameWindows conns conns') : SameWindows conns' conns :=
  fun key => (h key).symm

/-- A packet: the clock when it comes, its header and its bytes. -/
structure Arrival where
  now : UInt32
  header : PlaHdr
  data : List UInt8

/-- The packets one after the other, with what is returned for each. -/
def verifyAll (ops : Ops) (ripemd160 : List UInt8 → Octets 20) (crypto : Crypto) :
    ConnectionList → List Arrival → Option (List UInt8)
  | _, [] => some []
  | conns, a :: as => do
    let (ret, conns) ← libplaPlaFullVerify ops ripemd160 crypto a.now conns a.header a.data
    let rets ← verifyAll ops ripemd160 crypto conns as
    return ret :: rets

theorem SameWindows.fullVerify (h : SameWindows conns conns')
    (hrun : libplaPlaFullVerify ops ripemd160 crypto now conns header data = some (ret, conns₁)) :
    ∃ conns₁', libplaPlaFullVerify ops ripemd160 crypto now conns' header data = some (ret, conns₁') ∧
      SameWindows conns₁ conns₁' := by
  rw [libplaPlaFullVerify_eq] at hrun ⊢
  split at hrun
  · next htime =>
    obtain ⟨⟨ok, conns₂⟩, hcheck, heq⟩ := Option.map_eq_some_iff.mp hrun
    cases heq
    obtain ⟨conns₂', hcheck', hsame⟩ := h.check hcheck
    exact ⟨conns₂', by rw [if_pos htime, hcheck']; rfl, hsame⟩
  · next htime =>
    cases hrun
    exact ⟨conns', if_neg htime, h⟩

theorem SameWindows.verifyAll (h : SameWindows conns conns') (as : List Arrival) :
    verifyAll ops ripemd160 crypto conns' as = verifyAll ops ripemd160 crypto conns as := by
  induction as generalizing conns conns' with
  | nil => rfl
  | cons a as ih =>
    rw [Pla.verifyAll, Pla.verifyAll]
    cases hrun : libplaPlaFullVerify ops ripemd160 crypto a.now conns a.header a.data with
    | some r =>
      obtain ⟨conns₁', hrun', hsame⟩ := h.fullVerify hrun
      rw [hrun']
      dsimp only [Option.bind_eq_bind, Option.bind_some]
      rw [ih hsame]
    | none =>
      cases hrun' : libplaPlaFullVerify ops ripemd160 crypto a.now conns' a.header a.data with
      | none => rfl
      | some r =>
        obtain ⟨conns₁, hrun₁, -⟩ := h.symm.fullVerify hrun'
        rw [hrun] at hrun₁
        cases hrun₁

/-! ## The window of the sender -/

/-- A number that leaves the window as it is: it is below, it is marked, or it is above by a multiple
of 2 ^ 32, which is no advance at all, and its slot is set. -/
def Unmoved (entry : PlaConnection) (seqnum : UInt64) : Prop :=
  seqnum < entry.windowLow ∨
    seqnum ≤ entry.windowHigh ∧ Taken entry.window (entry.slot seqnum) ∨
    entry.windowHigh < seqnum ∧ entry.advance seqnum = 0 ∧ entry.lowIndex < 128 ∧
      entry.window[entry.slot seqnum]? = some 1

theorem moved_zero {window : List UInt8} (hadvance : entry.advance seqnum = 0)
    (hindex : entry.lowIndex < 128) : entry.moved seqnum window = { entry with window := window } := by
  have hlow : entry.windowLow + (0 : Int32).toInt64.toUInt64 = entry.windowLow := UInt64.add_zero _
  have hindex' : UInt16.ofNat ((entry.lowIndex.toNat + (0 : Int32).toInt.toNat) % plaWindowSize) =
      entry.lowIndex := by
    have hlt : entry.lowIndex.toNat < plaWindowSize := hindex
    rw [show (0 : Int32).toInt.toNat = 0 from rfl, Nat.add_zero, Nat.mod_eq_of_lt hlt, UInt16.ofNat_toNat]
  rw [PlaConnection.moved, hadvance, hlow, hindex']

theorem advance_of_moved {window : List UInt8} (h : entry.moved seqnum window = entry) :
    entry.advance seqnum = 0 ∧ entry.lowIndex < 128 := by
  have hlow : entry.windowLow + (entry.advance seqnum).toInt64.toUInt64 = entry.windowLow :=
    congrArg PlaConnection.windowLow h
  have hzero : (entry.advance seqnum).toInt64.toUInt64 = 0 := by simpa using hlow
  have hadvance : entry.advance seqnum = 0 := by
    have hint : (entry.advance seqnum).toInt64 = 0 :=
      Int64.toBitVec_inj.mp (congrArg UInt64.toBitVec hzero)
    apply Int32.toInt_inj.mp
    rw [← Int32.toInt_toInt64, hint]
    rfl
  have hindex : UInt16.ofNat ((entry.lowIndex.toNat + (entry.advance seqnum).toInt.toNat) % plaWindowSize) =
      entry.lowIndex := congrArg PlaConnection.lowIndex h
  refine ⟨hadvance, ?_⟩
  have hlt := Nat.mod_lt (entry.lowIndex.toNat + (entry.advance seqnum).toInt.toNat)
    (show plaWindowSize > 0 by decide)
  rw [← hindex, UInt16.lt_iff_toNat_lt, UInt16.toNat_ofNat']
  exact Nat.lt_of_le_of_lt (Nat.mod_le _ _) hlt

theorem Slid.unmoved_iff (h : Slid entry seqnum ok entry') : entry' = entry ↔ Unmoved entry seqnum := by
  cases h with
  | below hlow => exact iff_of_true rfl (.inl hlow)
  | seen hlow hhigh htaken => exact iff_of_true rfl (.inr (.inl ⟨hhigh, htaken⟩))
  | marked hlow hhigh hslot hfree =>
    refine iff_of_false (fun heq => ?_) ?_
    · have hset : entry.window.set (entry.slot seqnum) 1 = entry.window :=
        congrArg PlaConnection.window heq
      have htaken := (taken_set (b := 1) (r := entry.slot seqnum) hslot).mpr (.inl ⟨rfl, by decide⟩)
      exact hfree (hset ▸ htaken)
    · rintro (hbelow | ⟨-, htaken⟩ | ⟨habove, -⟩)
      · exact hlow hbelow
      · exact hfree htaken
      · exact UInt64.not_lt.mpr hhigh habove
  | @advanced hlow hhigh hadvance window hclear hslot =>
    have hkeep : entry.advance seqnum = 0 → window = entry.window := by
      intro hzero
      rw [hzero] at hclear
      exact (Option.some.inj hclear).symm
    constructor
    · intro heq
      obtain ⟨hzero, hindex⟩ := advance_of_moved heq
      have hwindow : window.set ((entry.moved seqnum window).slot seqnum) 1 = entry.window :=
        congrArg PlaConnection.window heq
      rw [moved_zero hzero hindex] at hwindow hslot
      refine .inr (.inr ⟨UInt64.not_le.mp hhigh, hzero, hindex, ?_⟩)
      rw [← hwindow]
      exact List.getElem?_set_self hslot
    · rintro (hbelow | ⟨hwithin, -⟩ | ⟨-, hzero, hindex, hone⟩)
      · exact absurd hbelow hlow
      · exact absurd hwithin hhigh
      · rw [moved_zero hzero hindex, moved_zero hzero hindex, hkeep hzero]
        have hset : entry.window.set (entry.slot seqnum) 1 = entry.window := by
          obtain ⟨hlt, hget⟩ := List.getElem?_eq_some_iff.mp hone
          rw [← hget, List.set_getElem_self]
        exact congrArg (fun window => { entry with window := window }) hset

/-! ## Later packets -/

/-- The windows are as before, and so is what is returned for all packets that come later. -/
def Undisturbed (ops : Ops) (ripemd160 : List UInt8 → Octets 20) (crypto : Crypto)
    (conns conns' : ConnectionList) : Prop :=
  SameWindows conns conns' ∧
    ∀ as, verifyAll ops ripemd160 crypto conns' as = verifyAll ops ripemd160 crypto conns as

theorem SameWindows.undisturbed (h : SameWindows conns conns') :
    Undisturbed ops ripemd160 crypto conns conns' := ⟨h, h.verifyAll⟩

theorem sameWindows_iff (hrun : libplaCheckSequenceNumber conns key seqnum = some (ok, conns')) :
    SameWindows conns conns' ↔ Unmoved (entryOf conns key) seqnum := by
  obtain ⟨entry, hslide, rfl⟩ := libplaCheckSequenceNumber_some.mp hrun
  have hkey := (key_slideWindow hslide).trans (key_entryOf conns key)
  rw [← (slid hslide).unmoved_iff]
  constructor
  · intro h
    have hsame := h key
    rwa [entryOf_withEntry hkey, if_pos rfl] at hsame
  · intro h key'
    rw [entryOf_withEntry hkey]
    split
    · next heq => rw [heq, h]
    · rfl

/-- A packet disturbs no sender exactly when its time is refused or its number moves nothing, whether
or not it is accepted. -/
theorem undisturbed_iff
    (h : libplaPlaFullVerify ops ripemd160 crypto now conns header data = some (ret, conns')) :
    Undisturbed ops ripemd160 crypto conns conns' ↔ timestampOk now header = false ∨
      Unmoved (entryOf conns header.implicitCertificate) header.sequenceNumber := by
  rw [libplaPlaFullVerify_eq] at h
  split at h
  · next htime =>
    obtain ⟨⟨ok, conns₁⟩, hcheck, heq⟩ := Option.map_eq_some_iff.mp h
    cases heq
    rw [← sameWindows_iff hcheck]
    exact ⟨fun hun => .inr hun.1, fun hor => (hor.resolve_left (by simp [htime])).undisturbed⟩
  · next htime =>
    cases h
    refine iff_of_true ?_ (.inl (by simpa using htime))
    exact SameWindows.undisturbed fun _ => rfl

/-- A header that anybody can write. -/
def exampleHeader (rights : UInt8) : PlaHdr where
  headerType := plaHeaderType
  implicitCertificate := WindowSession.exampleKey
  ttpPublicKey := WindowSession.exampleKey
  signature := zeroOctets 41
  ttpIdentity := 7
  ttpNotBeforeTime := 0
  ttpNotAfterTime := 100
  ttpRights := rights
  ttpDelegRights := 0
  timestamp := 50
  sequenceNumber := 1

/-- An old packet. -/
theorem undisturbed_late : ∃ ret conns', libplaPlaFullVerify chordTangent zeroHash .sw 90 []
    (exampleHeader 6) (exampleHeader 6).bytes = some (ret, conns') ∧ ret &&& plaSigOk = 0 ∧
      Undisturbed chordTangent zeroHash .sw [] conns' := by
  have hlate : timestampOk 90 (exampleHeader 6) = false := by decide
  have hrun : libplaPlaFullVerify chordTangent zeroHash .sw 90 [] (exampleHeader 6) (exampleHeader 6).bytes =
      some (0, []) := by
    rw [libplaPlaFullVerify_eq, hlate]
    rfl
  exact ⟨0, [], hrun, by decide, (undisturbed_iff hrun).mpr (.inl hlate)⟩

/-- A packet without rights is refused, and the packet of the sender with its number is refused after
it. -/
theorem refused_disturbs : ∃ ret conns',
    libplaPlaFullVerify chordTangent zeroHash .null 50 [] (exampleHeader 0) (exampleHeader 0).bytes =
      some (ret, conns') ∧
      ret &&& plaSigOk = 0 ∧
      verifyAll chordTangent zeroHash .null [] [⟨50, exampleHeader 6, (exampleHeader 6).bytes⟩] = some [0x3F] ∧
      verifyAll chordTangent zeroHash .null conns' [⟨50, exampleHeader 6, (exampleHeader 6).bytes⟩] = some [0x20] := by
  have htwice : ((libplaCheckSequenceNumber [] WindowSession.exampleKey 1).bind fun x =>
      (answer x.2 WindowSession.exampleKey 1).map fun ok => (x.1, ok)) = some (true, false) := by
    decide +kernel
  obtain ⟨⟨ok, conns'⟩, hfirst, hsecond⟩ := Option.bind_eq_some_iff.mp htwice
  obtain ⟨ok', hanswer, hpair⟩ := Option.map_eq_some_iff.mp hsecond
  obtain ⟨rfl, rfl⟩ := Prod.mk.inj hpair
  obtain ⟨⟨ok', conns''⟩, hcheck, rfl⟩ := Option.map_eq_some_iff.mp hanswer
  have htime : ∀ rights, timestampOk 50 (exampleHeader rights) = true := by
    intro rights
    show decide ((50 - 50 : UInt32).toInt32.abs ≤ 5) = true
    decide
  have hfull : ∀ (rights : UInt8) (conns₁ conns₂ : ConnectionList) (ok : Bool),
      libplaCheckSequenceNumber conns₁ WindowSession.exampleKey 1 = some (ok, conns₂) →
      libplaPlaFullVerify chordTangent zeroHash .null 50 conns₁ (exampleHeader rights) (exampleHeader rights).bytes =
        some (afterSequence chordTangent zeroHash .null 50 (exampleHeader rights)
          (exampleHeader rights).bytes ok, conns₂) := by
    intro rights conns₁ conns₂ ok hrun
    rw [libplaPlaFullVerify_eq, if_pos (htime rights)]
    exact congrArg _ hrun
  have hpassed : afterSequence chordTangent zeroHash .null 50 (exampleHeader 6)
      (exampleHeader 6).bytes true = 0x3F := by
    have hsig : signatureOk chordTangent zeroHash .null (exampleHeader 6) (exampleHeader 6).bytes =
      true := rfl
    rw [afterSequence, hsig]
    rfl
  refine ⟨_, _, hfull 0 _ _ _ hfirst, by decide, ?_, ?_⟩
  · rw [verifyAll, hfull 6 _ _ _ hfirst, hpassed]
    rfl
  · rw [verifyAll, hfull 6 _ _ _ hcheck]
    rfl

end Blackadder.Pla
