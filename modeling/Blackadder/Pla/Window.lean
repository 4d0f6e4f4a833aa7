import Mathlib.Order.Bounds.Basic
import Blackadder.Lib.Runs
import Blackadder.Lib.SlidingWindow
import Blackadder.Pla.Header

/-!
# The window of a sender

A sequence number of 64 bits goes through numbers of 32 bits on its way to the window. The windows
are right as long as nothing is lost there.
-/

namespace Blackadder.Pla

open SlidingWindow
open Wire (store store_set store_inside)

variable {entry entry' : PlaConnection} {conns conns' : ConnectionList} {key key' : Octets 21}
  {seqnum : UInt64} {A : Set Nat} {ok : Bool} {n low : Nat} {window window' : List UInt8}

/-! ## Numbers of 32 bits -/

/-- An `int` that is compared with a `uint64_t` again. -/
theorem toNat_narrow {v : UInt64} (h : v.toNat < 2 ^ 32) : v.toUInt32.toInt32.toInt64.toUInt64.toNat =
    v.toNat + if v.toNat < 2 ^ 31 then 0 else 2 ^ 64 - 2 ^ 32 := by
  have hbits : v.toUInt32.toInt32.toInt64.toUInt64.toNat =
      ((v.toBitVec.setWidth 32).signExtend 64).toNat := rfl
  have hmsb : (v.toBitVec.setWidth 32).msb = decide (2 ^ 31 ≤ v.toNat) := by
    rw [BitVec.msb_eq_decide, BitVec.toNat_setWidth, UInt64.toNat_toBitVec, Nat.mod_eq_of_lt h]
  rw [hbits, BitVec.toNat_signExtend, hmsb]
  simp only [BitVec.toNat_setWidth, UInt64.toNat_toBitVec]
  rw [Nat.mod_eq_of_lt h, Nat.mod_eq_of_lt (by omega)]
  by_cases hsmall : v.toNat < 2 ^ 31
  · rw [if_pos hsmall, if_neg (by simpa using hsmall)]
  · rw [if_neg hsmall, if_pos (by simpa using hsmall)]

theorem narrow_eq {v : UInt64} (h : v.toNat < 2 ^ 31) : v.toUInt32.toInt32.toInt64.toUInt64 = v := by
  apply UInt64.toNat_inj.mp
  rw [toNat_narrow (by omega), if_pos h, Nat.add_zero]

theorem toInt_narrow {v : UInt64} (h : v.toNat < 2 ^ 31) : v.toUInt32.toInt32.toInt = v.toNat := by
  have hbits : v.toUInt32.toInt32.toInt = (v.toBitVec.setWidth 32).toInt := rfl
  have hnat : (v.toBitVec.setWidth 32).toNat = v.toNat := by
    rw [BitVec.toNat_setWidth, UInt64.toNat_toBitVec, Nat.mod_eq_of_lt (by omega)]
  rw [hbits, BitVec.toInt_eq_toNat_of_lt (by omega), hnat]

/-! ## The slots -/

/-- A slot that is set. -/
def Taken (window : List UInt8) (r : Nat) : Prop := window.getD r 0 ≠ 0

instance (window : List UInt8) (r : Nat) : Decidable (Taken window r) :=
  inferInstanceAs (Decidable (_ ≠ _))

theorem taken_set {r k : Nat} {b : UInt8} (hk : k < window.length) :
    Taken (window.set k b) r ↔ (r = k ∧ b ≠ 0) ∨ (r ≠ k ∧ Taken window r) := by
  unfold Taken
  simp only [List.getD_eq_getElem?_getD, List.getElem?_set, hk, if_true]
  by_cases h : k = r
  · simp [h]
  · simp [h, Ne.symm h]

theorem not_taken_replicate (r : Nat) : ¬ Taken (List.replicate plaWindowSize 0) r := by
  unfold Taken
  rw [List.getD_eq_getElem?_getD, List.getElem?_replicate]
  split <;> simp

theorem clearWindow_spec (lowIndex m : Nat) (h : window.length = plaWindowSize) :
    ∃ window', clearWindow lowIndex window m = some window' ∧ window'.length = plaWindowSize ∧
      ∀ r, Taken window' r ↔ Taken window r ∧ ∀ i < m, (lowIndex + i) % plaWindowSize ≠ r := by
  induction m generalizing window with
  | zero => exact ⟨window, rfl, h, fun r => by simp⟩
  | succ m ih =>
    have hk : (lowIndex + m) % plaWindowSize < window.length := by
      rw [h]
      exact Nat.mod_lt _ (by decide)
    have hset : (window.set ((lowIndex + m) % plaWindowSize) 0).length = plaWindowSize :=
      (List.length_set ..).trans h
    obtain ⟨window', hrun, hlen, htaken⟩ := ih hset
    refine ⟨window', ?_, hlen, fun r => ?_⟩
    · rw [clearWindow, store_set hk]
      exact hrun
    · rw [htaken, taken_set hk, Nat.forall_lt_succ_right]
      simp only [ne_eq, not_true_eq_false, and_false, false_or]
      rw [and_comm (a := ¬ r = _), and_assoc, and_comm (a := ¬ r = _), eq_comm (a := r)]

/-- The entry of a sender whose numbers were these. -/
structure Shows (entry : PlaConnection) (A : Set Nat) : Prop where
  length : entry.window.length = plaWindowSize
  small : entry.windowLow.toNat + 127 < 2 ^ 32
  index : entry.lowIndex.toNat = entry.windowLow.toNat % plaWindowSize
  tracks : Tracks plaWindowSize entry.windowLow.toNat (Taken entry.window) A

theorem shows_fresh (key : Octets 21) : Shows ⟨0, 0, List.replicate plaWindowSize 0, key⟩ ∅ where
  length := List.length_replicate
  small := (by decide : 0 + 127 < 2 ^ 32)
  index := rfl
  tracks := tracks_empty not_taken_replicate

theorem Shows.isGreatest (h : Shows entry A) : IsGreatest (insert 127 A) (entry.windowLow.toNat + 127) := by
  constructor
  · rcases h.tracks.top with hzero | ⟨m, hm, htop⟩
    · exact .inl (by omega)
    · have heq : entry.windowLow.toNat + 127 = m := by
        simp only [plaWindowSize] at htop
        omega
      exact .inr (heq ▸ hm)
  · rintro m (rfl | hm)
    · omega
    · have hlt := h.tracks.below m hm
      simp only [plaWindowSize] at hlt
      omega

theorem index_eq {lowIndex : UInt16} {windowLow : UInt64}
    (hindex : lowIndex.toNat = windowLow.toNat % plaWindowSize) (hlow : windowLow.toNat ≤ seqnum.toNat) :
    ((lowIndex.toUInt64 + (seqnum - windowLow)) % 128).toNat = seqnum.toNat % plaWindowSize := by
  have hs := seqnum.toNat_lt
  have hsub : (seqnum - windowLow).toNat = seqnum.toNat - windowLow.toNat :=
    UInt64.toNat_sub_of_le _ _ (UInt64.le_iff_toNat_le.mpr hlow)
  rw [UInt64.toNat_mod, UInt64.toNat_add, UInt16.toNat_toUInt64, hsub, hindex]
  simp only [plaWindowSize]
  rw [show (128 : UInt64).toNat = 128 from rfl]
  omega

/-! ## One call -/

/-- The number does not go above the window, or neither the top of the window nor the advance is
lost in an `int`. -/
def Careful (A : Set Nat) (n : Nat) : Prop :=
  ∀ high, IsGreatest (insert 127 A) high →
    n ≤ high ∨ high < 2 ^ 31 ∧ n - high + (high + 1) % plaWindowSize < 2 ^ 31

theorem careful_of_lt (hA : ∀ m ∈ A, m < 2 ^ 31) (hn : n < 2 ^ 31) : Careful A n := by
  rintro high ⟨hmem, hgreatest⟩
  have hlow : 127 ≤ high := hgreatest (.inl rfl)
  have hhigh : high < 2 ^ 31 := by
    rcases hmem with rfl | hmem
    · decide
    · exact hA high hmem
  have hmod : (high + 1) % plaWindowSize ≤ high - 127 := by
    simp only [plaWindowSize]
    omega
  by_cases hle : n ≤ high
  · exact .inl hle
  · exact .inr ⟨hhigh, by omega⟩

theorem slideWindow_below (h : seqnum < entry.windowLow) : slideWindow entry seqnum = some (false, entry) := by
  rw [slideWindow, if_pos h]

theorem toNat_windowHigh (h : Shows entry A) :
    (entry.windowLow + 127).toUInt32.toInt32.toInt64.toUInt64.toNat = entry.windowLow.toNat + 127 +
      if entry.windowLow.toNat + 127 < 2 ^ 31 then 0 else 2 ^ 64 - 2 ^ 32 := by
  have hsmall := h.small
  have hadd : (entry.windowLow + 127).toNat = entry.windowLow.toNat + 127 := by
    rw [UInt64.toNat_add, show (127 : UInt64).toNat = 127 from rfl, Nat.mod_eq_of_lt (by omega)]
  rw [toNat_narrow (by omega), hadd]

theorem slideWindow_within (h : Shows entry A) (hlow : entry.windowLow.toNat ≤ seqnum.toNat)
    (hhigh : seqnum.toNat ≤ entry.windowLow.toNat + 127) :
    slideWindow entry seqnum = if Taken entry.window (seqnum.toNat % plaWindowSize) then some (false, entry)
      else some (true, { entry with window := entry.window.set (seqnum.toNat % plaWindowSize) 1 }) := by
  have hwindow : seqnum ≤ (entry.windowLow + 127).toUInt32.toInt32.toInt64.toUInt64 := by
    rw [UInt64.le_iff_toNat_le, toNat_windowHigh h]
    omega
  have hk : seqnum.toNat % plaWindowSize < entry.window.length := by
    rw [h.length]
    exact Nat.mod_lt _ (by decide)
  have hnot : ¬ seqnum < entry.windowLow := by
    rw [UInt64.lt_iff_toNat_lt]
    omega
  have hseen : entry.window[seqnum.toNat % plaWindowSize]? =
      some (entry.window.getD (seqnum.toNat % plaWindowSize) 0) := by
    rw [List.getD_eq_getElem?_getD, List.getElem?_eq_getElem hk, Option.getD_some]
  rw [slideWindow, if_neg hnot]
  dsimp only
  rw [if_pos hwindow, index_eq h.index hlow, hseen, store_set hk]
  dsimp only [Option.bind_eq_bind, Option.bind_some]
  rfl

theorem slideWindow_above (h : Shows entry A) (hhigh : entry.windowLow.toNat + 127 < seqnum.toNat)
    (hint : entry.windowLow.toNat + 127 < 2 ^ 31)
    (hadvance : seqnum.toNat - (entry.windowLow.toNat + 127) + entry.lowIndex.toNat < 2 ^ 31) :
    ∃ entry', slideWindow entry seqnum = some (true, entry') ∧ entry'.key = entry.key ∧
      Shows entry' (insert seqnum.toNat A) := by
  have hhigh' : (entry.windowLow + 127).toUInt32.toInt32.toInt64.toUInt64.toNat =
      entry.windowLow.toNat + 127 := by
    rw [toNat_windowHigh h, if_pos hint, Nat.add_zero]
  generalize hwindowHigh : (entry.windowLow + 127).toUInt32.toInt32.toInt64.toUInt64 = windowHigh at hhigh'
  have hsub : (seqnum - windowHigh).toNat = seqnum.toNat - (entry.windowLow.toNat + 127) := by
    rw [UInt64.toNat_sub_of_le _ _ (UInt64.le_iff_toNat_le.mpr (by omega)), hhigh']
  have hsmall : (seqnum - windowHigh).toNat < 2 ^ 31 := by omega
  have hint' : (seqnum - windowHigh).toUInt32.toInt32.toInt = ((seqnum - windowHigh).toNat : Int) :=
    toInt_narrow hsmall
  have hnot : ¬ seqnum < entry.windowLow := by
    rw [UInt64.lt_iff_toNat_lt]
    omega
  have habove : ¬ seqnum ≤ windowHigh := by
    rw [UInt64.le_iff_toNat_le]
    omega
  have hfits : ¬ ((seqnum - windowHigh).toUInt32.toInt32 < 0 ∨
      2 ^ 31 ≤ entry.lowIndex.toNat + (seqnum - windowHigh).toUInt32.toInt32.toInt.toNat) := by
    rw [Int32.lt_iff_toInt_lt, hint', Int.toNat_natCast]
    simp only [Int32.toInt_zero]
    omega
  obtain ⟨window, hclear, hlen, htaken⟩ := clearWindow_spec entry.lowIndex.toNat
    (min plaWindowSize (seqnum - windowHigh).toNat) h.length
  have hsize : plaWindowSize = 128 := rfl
  have hlow : (entry.windowLow + (seqnum - windowHigh)).toNat = seqnum.toNat + 1 - plaWindowSize := by
    have hs := seqnum.toNat_lt
    rw [UInt64.toNat_add, hsub, Nat.mod_eq_of_lt (by omega)]
    omega
  have hlowIndex : (UInt16.ofNat ((entry.lowIndex.toNat + (seqnum - windowHigh).toNat) %
      plaWindowSize)).toNat = (entry.windowLow + (seqnum - windowHigh)).toNat % plaWindowSize := by
    have hlt := Nat.mod_lt (entry.lowIndex.toNat + (seqnum - windowHigh).toNat)
      (show plaWindowSize > 0 by decide)
    have hindex := h.index
    rw [UInt16.toNat_ofNat', hlow, hsub]
    simp only [plaWindowSize] at *
    omega
  have hk : seqnum.toNat % plaWindowSize < window.length := by
    rw [hlen]
    exact Nat.mod_lt _ (by decide)
  refine ⟨{ entry with
    windowLow := entry.windowLow + (seqnum - windowHigh)
    lowIndex := UInt16.ofNat ((entry.lowIndex.toNat + (seqnum - windowHigh).toNat) % plaWindowSize)
    window := window.set (seqnum.toNat % plaWindowSize) 1 }, ?_, rfl, ?_⟩
  · rw [slideWindow, if_neg hnot]
    dsimp only
    rw [hwindowHigh, if_neg habove, if_neg hfits, hint', Int.toNat_natCast, narrow_eq hsmall, hclear]
    dsimp only [Option.bind_eq_bind, Option.bind_some]
    rw [index_eq hlowIndex (by omega), store_set hk]
    rfl
  · refine ⟨(List.length_set ..).trans hlen, ?_, hlowIndex, ?_⟩
    · dsimp only
      omega
    · dsimp only
      rw [hlow]
      refine h.tracks.advance (by decide) (by omega) fun r _ => ?_
      have hcleared : ∀ i, (entry.lowIndex.toNat + i) % plaWindowSize =
          (entry.windowLow.toNat + i) % plaWindowSize := fun i => by rw [h.index, Nat.mod_add_mod]
      have hadv : seqnum.toNat + 1 - (entry.windowLow.toNat + plaWindowSize) = (seqnum - windowHigh).toNat := by
        omega
      rw [taken_set hk, htaken, hadv]
      simp only [hcleared]
      by_cases hr : r = seqnum.toNat % plaWindowSize <;> simp [hr]

/-- A careful call returns, takes the number exactly when it may, and the window shows it. -/
theorem slideWindow_spec (h : Shows entry A) (hcare : Careful A seqnum.toNat) :
    ∃ ok entry', slideWindow entry seqnum = some (ok, entry') ∧ entry'.key = entry.key ∧
      (ok = true ↔ Fresh plaWindowSize A seqnum.toNat) ∧
      Shows entry' (if ok then insert seqnum.toNat A else A) := by
  by_cases hbelow : seqnum < entry.windowLow
  · refine ⟨false, entry, slideWindow_below hbelow, rfl, ?_, h⟩
    exact iff_of_false Bool.false_ne_true (h.tracks.not_fresh_below (UInt64.lt_iff_toNat_lt.mp hbelow))
  have hlow : entry.windowLow.toNat ≤ seqnum.toNat := by
    rw [UInt64.lt_iff_toNat_lt] at hbelow
    omega
  by_cases hhigh : seqnum.toNat ≤ entry.windowLow.toNat + 127
  · have hfresh := h.tracks.fresh_within hlow (by simp only [plaWindowSize]; omega)
    have hrun := slideWindow_within h hlow hhigh
    split at hrun
    · next htaken => exact ⟨false, entry, hrun, rfl, by simp [hfresh, htaken], h⟩
    · next htaken =>
      refine ⟨true, _, hrun, rfl, by simp [hfresh, htaken], (List.length_set ..).trans h.length, h.small,
        h.index, ?_⟩
      refine h.tracks.mark hlow (by simp only [plaWindowSize]; omega) fun r _ => ?_
      have hk : seqnum.toNat % plaWindowSize < entry.window.length := by
        rw [h.length]
        exact Nat.mod_lt _ (by decide)
      rw [taken_set hk]
      by_cases hr : r = seqnum.toNat % plaWindowSize <;> simp [hr]
  · rcases hcare _ h.isGreatest with hle | ⟨hint, hadvance⟩
    · exact absurd hle hhigh
    · have hindex := h.index
      have hadvance' : seqnum.toNat - (entry.windowLow.toNat + 127) + entry.lowIndex.toNat < 2 ^ 31 := by
        simp only [plaWindowSize] at hindex hadvance
        omega
      obtain ⟨entry', hrun, hkey, hshows⟩ := slideWindow_above h (by omega) hint hadvance'
      exact ⟨true, entry', hrun, hkey,
        by simpa using h.tracks.fresh_above (by simp only [plaWindowSize]; omega), hshows⟩

/-- `window_high`, as it is compared with a number. -/
def PlaConnection.windowHigh (entry : PlaConnection) : UInt64 :=
  (entry.windowLow + 127).toUInt32.toInt32.toInt64.toUInt64

/-- `advance`. -/
def PlaConnection.advance (entry : PlaConnection) (seqnum : UInt64) : Int32 :=
  (seqnum - entry.windowHigh).toUInt32.toInt32

/-- The index of a number in the window. -/
def PlaConnection.slot (entry : PlaConnection) (seqnum : UInt64) : Nat :=
  ((entry.lowIndex.toUInt64 + (seqnum - entry.windowLow)) % 128).toNat

/-- The entry with its base moved up to a number above the window. -/
def PlaConnection.moved (entry : PlaConnection) (seqnum : UInt64) (window : List UInt8) : PlaConnection :=
  { entry with
    windowLow := entry.windowLow + (entry.advance seqnum).toInt64.toUInt64
    lowIndex := UInt16.ofNat ((entry.lowIndex.toNat + (entry.advance seqnum).toInt.toNat) % plaWindowSize)
    window := window }

/-- What a call that returns did. -/
inductive Slid (entry : PlaConnection) (seqnum : UInt64) : Bool → PlaConnection → Prop
  | below (h : seqnum < entry.windowLow) : Slid entry seqnum false entry
  | seen (hlow : ¬ seqnum < entry.windowLow) (hhigh : seqnum ≤ entry.windowHigh)
      (htaken : Taken entry.window (entry.slot seqnum)) : Slid entry seqnum false entry
  | marked (hlow : ¬ seqnum < entry.windowLow) (hhigh : seqnum ≤ entry.windowHigh)
      (hslot : entry.slot seqnum < entry.window.length)
      (hfree : ¬ Taken entry.window (entry.slot seqnum)) :
      Slid entry seqnum true { entry with window := entry.window.set (entry.slot seqnum) 1 }
  | advanced (hlow : ¬ seqnum < entry.windowLow) (hhigh : ¬ seqnum ≤ entry.windowHigh)
      (hadvance : ¬ entry.advance seqnum < 0) {window : List UInt8}
      (hclear : clearWindow entry.lowIndex.toNat entry.window
        (min plaWindowSize (entry.advance seqnum).toInt.toNat) = some window)
      (hslot : (entry.moved seqnum window).slot seqnum < window.length) :
      Slid entry seqnum true
        (entry.moved seqnum (window.set ((entry.moved seqnum window).slot seqnum) 1))

theorem slid (h : slideWindow entry seqnum = some (ok, entry')) : Slid entry seqnum ok entry' := by
  unfold slideWindow at h
  split at h
  · next hlow =>
    cases h
    exact .below hlow
  next hlow =>
  dsimp only at h
  split at h
  · next hhigh =>
    obtain ⟨seen, hseen, h⟩ := Option.bind_eq_some_iff.mp h
    have htaken : Taken entry.window (entry.slot seqnum) ↔ seen ≠ 0 := by
      have hget : entry.window[entry.slot seqnum]? = some seen := hseen
      rw [Taken, List.getD_eq_getElem?_getD, hget, Option.getD_some]
    split at h
    · next hset =>
      cases h
      exact .seen hlow hhigh (htaken.mpr hset)
    · next hset =>
      have hslot := (List.getElem?_eq_some_iff.mp hseen).1
      rw [store_set hslot] at h
      cases h
      exact .marked hlow hhigh hslot fun h => hset (htaken.mp h)
  · next hhigh =>
    split at h
    · cases h
    next hfits =>
    obtain ⟨window, hclear, h⟩ := Option.bind_eq_some_iff.mp h
    obtain ⟨window', hstore, h⟩ := Option.bind_eq_some_iff.mp h
    have hslot := store_inside hstore
    rw [store_set hslot] at hstore
    cases hstore
    cases h
    exact .advanced hlow hhigh (fun hneg => hfits (.inl hneg)) hclear hslot

theorem key_slideWindow (h : slideWindow entry seqnum = some (ok, entry')) : entry'.key = entry.key := by
  cases slid h <;> rfl

/-! ## The list of the connections -/

/-- The entry that a call looks at. -/
def entryOf (conns : ConnectionList) (key : Octets 21) : PlaConnection :=
  (conns.find? fun entry => entry.key = key).getD ⟨0, 0, List.replicate plaWindowSize 0, key⟩

theorem key_entryOf (conns : ConnectionList) (key : Octets 21) : (entryOf conns key).key = key := by
  unfold entryOf
  cases hfind : conns.find? fun entry => entry.key = key with
  | none => rfl
  | some entry => simpa using List.find?_some hfind

theorem find?_set_key {i : Nat} (hkey : entry.key = key)
    (h : libplaConnectionFind conns key = some i) :
    (conns.set i entry).find? (fun e => e.key = key') =
      if key' = key then some entry else conns.find? (fun e => e.key = key') := by
  unfold libplaConnectionFind at h
  induction conns generalizing i with
  | nil => cases h
  | cons e conns ih =>
    rw [List.findIdx?_cons] at h
    split at h
    · next he =>
      cases h
      rw [List.set_cons_zero, List.find?_cons, List.find?_cons, hkey, of_decide_eq_true he]
      by_cases hkey' : key = key'
      · simp [hkey']
      · simp [hkey', Ne.symm hkey']
    · next he =>
      obtain ⟨j, hj, rfl⟩ := Option.map_eq_some_iff.mp h
      rw [List.set_cons_succ, List.find?_cons, List.find?_cons, ih hj]
      by_cases hkey' : key' = key
      · have hne : e.key ≠ key' := by
          rw [hkey']
          simpa using he
        simp [hkey', hkey' ▸ hne]
      · simp [hkey']

/-- The list with the entry of a key. -/
def withEntry (conns : ConnectionList) (entry : PlaConnection) : ConnectionList :=
  match libplaConnectionFind conns entry.key with
  | some i => conns.set i entry
  | none => entry :: conns

theorem entryOf_withEntry (hkey : entry.key = key) : entryOf (withEntry conns entry) key' =
    if key' = key then entry else entryOf conns key' := by
  unfold withEntry entryOf
  rw [hkey]
  cases hfind : libplaConnectionFind conns key with
  | some i =>
    dsimp only
    rw [find?_set_key hkey hfind]
    split <;> rfl
  | none =>
    dsimp only
    rw [List.find?_cons, hkey]
    by_cases hkey' : key = key'
    · simp [hkey']
    · simp [hkey', Ne.symm hkey']

theorem libplaCheckSequenceNumber_eq (conns : ConnectionList) (key : Octets 21) (seqnum : UInt64) :
    libplaCheckSequenceNumber conns key seqnum = (slideWindow (entryOf conns key) seqnum).map
      fun (ok, entry) => (ok, withEntry conns entry) := by
  have hfind : conns.find? (fun e => e.key = key) =
      (libplaConnectionFind conns key).bind fun i => conns[i]? := List.find?_eq_bind_findIdx?_getElem?
  have hput : ∀ ok entry, slideWindow (entryOf conns key) seqnum = some (ok, entry) →
      withEntry conns entry = match libplaConnectionFind conns key with
        | some i => conns.set i entry
        | none => entry :: conns := by
    intro ok entry hrun
    rw [withEntry, key_slideWindow hrun, key_entryOf]
  unfold libplaCheckSequenceNumber
  cases hidx : libplaConnectionFind conns key with
  | some i =>
    rw [hidx] at hfind hput
    dsimp only [Option.bind_some] at hfind hput ⊢
    have hentry : conns.getD i ⟨0, 0, List.replicate plaWindowSize 0, key⟩ = entryOf conns key := by
      rw [entryOf, hfind, List.getD_eq_getElem?_getD]
    rw [hentry]
    cases hrun : slideWindow (entryOf conns key) seqnum with
    | none => rfl
    | some r => rw [Option.map_some, Option.map_some, hput r.1 r.2 hrun]
  | none =>
    rw [hidx] at hfind hput
    dsimp only [Option.bind_none] at hfind hput ⊢
    have hentry : entryOf conns key = ⟨0, 0, List.replicate plaWindowSize 0, key⟩ := by
      rw [entryOf, hfind, Option.getD_none]
    rw [List.getD_cons_zero, ← hentry]
    cases hrun : slideWindow (entryOf conns key) seqnum with
    | none => rfl
    | some r => rw [Option.map_some, Option.map_some, hput r.1 r.2 hrun, List.set_cons_zero]

theorem libplaCheckSequenceNumber_some :
    libplaCheckSequenceNumber conns key seqnum = some (ok, conns') ↔
      ∃ entry, slideWindow (entryOf conns key) seqnum = some (ok, entry) ∧
        withEntry conns entry = conns' := by
  rw [libplaCheckSequenceNumber_eq, Option.map_eq_some_iff]
  constructor
  · rintro ⟨⟨ok', entry⟩, hrun, h⟩
    cases h
    exact ⟨entry, hrun, rfl⟩
  · rintro ⟨entry, hrun, rfl⟩
    exact ⟨(ok, entry), hrun, rfl⟩

/-- What a call with a number would answer. -/
def answer (conns : ConnectionList) (key : Octets 21) (seqnum : UInt64) : Option Bool :=
  (libplaCheckSequenceNumber conns key seqnum).map (·.1)

theorem answer_eq (conns : ConnectionList) (key : Octets 21) (seqnum : UInt64) :
    answer conns key seqnum = (slideWindow (entryOf conns key) seqnum).map (·.1) := by
  rw [answer, libplaCheckSequenceNumber_eq, Option.map_map]
  rfl

theorem answer_other (h : libplaCheckSequenceNumber conns key seqnum = some (ok, conns'))
    (hne : key' ≠ key) (seqnum' : UInt64) : answer conns' key' seqnum' = answer conns key' seqnum' := by
  obtain ⟨entry, hrun, rfl⟩ := libplaCheckSequenceNumber_some.mp h
  have hkey : entry.key = key := (key_slideWindow hrun).trans (key_entryOf conns key)
  rw [answer_eq, answer_eq, entryOf_withEntry hkey, if_neg hne]

/-! ## Runs -/

/-- The connections, with the numbers that were accepted so far, the last one first. -/
structure WindowSession where
  conns : ConnectionList
  accepted : List (Octets 21 × UInt64)

namespace WindowSession

/-- After `libpla_connections_init`. -/
def new : WindowSession := ⟨[], []⟩

def next (x : WindowSession) (a : Octets 21 × UInt64) : Option WindowSession := do
  let (ok, conns) ← libplaCheckSequenceNumber x.conns a.1 a.2
  return ⟨conns, if ok then a :: x.accepted else x.accepted⟩

def Step (x : WindowSession) (a : Octets 21 × UInt64) (x' : WindowSession) : Prop := x.next a = some x'

/-- The numbers that were accepted for a key. -/
def numbers (x : WindowSession) (key : Octets 21) : Set Nat :=
  {n | ∃ s : UInt64, (key, s) ∈ x.accepted ∧ s.toNat = n}

variable {x x' : WindowSession}

theorem mem_numbers : seqnum.toNat ∈ x.numbers key ↔ (key, seqnum) ∈ x.accepted :=
  ⟨fun ⟨_, hs, heq⟩ => UInt64.toNat_inj.mp heq ▸ hs, fun h => ⟨seqnum, h, rfl⟩⟩

theorem numbers_cons (conns : ConnectionList) (key key' : Octets 21) (seqnum : UInt64) :
    (⟨conns, (key, seqnum) :: x.accepted⟩ : WindowSession).numbers key' =
      if key' = key then insert seqnum.toNat (x.numbers key') else x.numbers key' := by
  ext n
  simp only [numbers, List.mem_cons, Prod.mk.injEq]
  split
  · next h => 
    subst h
    constructor
    · rintro ⟨s, ⟨-, rfl⟩ | hs, rfl⟩
      · exact .inl rfl
      · exact .inr ⟨s, hs, rfl⟩
    · rintro (rfl | ⟨s, hs, rfl⟩)
      · exact ⟨seqnum, .inl ⟨rfl, rfl⟩, rfl⟩
      · exact ⟨s, .inr hs, rfl⟩
  · next h => simp [h]

/-- Every window shows the numbers of its key, and no number was accepted twice. -/
structure Shown (x : WindowSession) : Prop where
  shows : ∀ key, Shows (entryOf x.conns key) (x.numbers key)
  nodup : x.accepted.Nodup

theorem shown_new : Shown new where
  shows key := by
    have hempty : new.numbers key = ∅ := by
      ext n
      simp [numbers, new]
    rw [hempty]
    exact shows_fresh key
  nodup := List.nodup_nil

/-- A careful call returns and accepts a number exactly when it is new and not too old. -/
theorem Shown.call (h : x.Shown) (hcare : Careful (x.numbers key) seqnum.toNat) :
    ∃ ok conns, libplaCheckSequenceNumber x.conns key seqnum = some (ok, conns) ∧
      (ok = true ↔ Fresh plaWindowSize (x.numbers key) seqnum.toNat) ∧
      Shown ⟨conns, if ok then (key, seqnum) :: x.accepted else x.accepted⟩ := by
  obtain ⟨ok, entry, hrun, hkey, hfresh, hshows⟩ := slideWindow_spec (h.shows key) hcare
  rw [key_entryOf] at hkey
  refine ⟨ok, withEntry x.conns entry, libplaCheckSequenceNumber_some.mpr ⟨entry, hrun, rfl⟩, hfresh, ?_, ?_⟩
  · intro key'
    dsimp only
    rw [entryOf_withEntry hkey]
    cases ok with
    | false =>
      simp only [Bool.false_eq_true, if_false] at hshows ⊢
      split
      · next heq => exact heq ▸ hshows
      · exact h.shows key'
    | true =>
      simp only [if_true] at hshows ⊢
      rw [numbers_cons]
      split
      · next heq => exact heq ▸ hshows
      · exact h.shows key'
  · cases ok with
    | false => exact h.nodup
    | true => exact List.nodup_cons.mpr ⟨fun hmem => (hfresh.mp rfl).1 (mem_numbers.mpr hmem), h.nodup⟩

theorem Shown.step (h : x.Shown) (hstep : Runs.Guarded Step (fun x a => Careful (x.numbers a.1) a.2.toNat)
    x (key, seqnum) x') : x'.Shown := by
  obtain ⟨ok, conns, hrun, -, hshown⟩ := h.call hstep.2
  have hnext : x.next (key, seqnum) = some x' := hstep.1
  simp only [next, hrun, Option.bind_eq_bind, Option.bind_some] at hnext
  obtain rfl := Option.some.inj hnext
  exact hshown

/-- In a run of careful calls no number is accepted twice, and a careful call returns, accepts a
number exactly when it is new and not too old, and changes no answer for another key. -/
theorem careful_window
    (h : Runs.Reachable (Runs.Guarded Step fun x a => Careful (x.numbers a.1) a.2.toNat) new x) :
    x.accepted.Nodup ∧ ∀ key seqnum, Careful (x.numbers key) seqnum.toNat →
      ∃ ok conns, libplaCheckSequenceNumber x.conns key seqnum = some (ok, conns) ∧
        (ok = true ↔ seqnum.toNat ∉ x.numbers key ∧ ∀ M ∈ x.numbers key, M < seqnum.toNat + 128) ∧
        ∀ key' ≠ key, ∀ seqnum', answer conns key' seqnum' = answer x.conns key' seqnum' := by
  have hshown : x.Shown := h.invariant shown_new fun x a x' _ hx hs => hx.step hs
  refine ⟨hshown.nodup, fun key seqnum hcare => ?_⟩
  obtain ⟨ok, conns, hrun, hfresh, -⟩ := hshown.call hcare
  exact ⟨ok, conns, hrun, hfresh, fun key' hne seqnum' => answer_other hrun hne seqnum'⟩

def exampleKey : Octets 21 := ⟨List.replicate 21 7, List.length_replicate⟩

theorem careful_window_second : ∃ x : WindowSession, x.accepted = [(exampleKey, 300)] ∧
    x.accepted.Nodup ∧ ∃ ok conns, libplaCheckSequenceNumber x.conns exampleKey 299 = some (ok, conns) ∧
      (ok = true ↔ 299 ∉ x.numbers exampleKey ∧ ∀ M ∈ x.numbers exampleKey, M < 299 + 128) := by
  have hfirst : Careful (new.numbers exampleKey) (300 : UInt64).toNat :=
    careful_of_lt (by simp [numbers, new]) (by decide)
  obtain ⟨ok, conns, hrun, hfresh, -⟩ := shown_new.call hfirst
  obtain rfl : ok = true := hfresh.mpr ⟨by simp [numbers, new], by simp [numbers, new]⟩
  have hnext : new.next (exampleKey, 300) = some ⟨conns, [(exampleKey, 300)]⟩ := by
    simp only [next, hrun, Option.bind_eq_bind, Option.bind_some]
    rfl
  have hsecond : Careful ((⟨conns, [(exampleKey, 300)]⟩ : WindowSession).numbers exampleKey)
      (299 : UInt64).toNat := by
    refine careful_of_lt ?_ (by decide)
    rintro m ⟨s, hs, rfl⟩
    cases List.mem_singleton.mp hs
    decide
  obtain ⟨hnodup, hcall⟩ := careful_window (Runs.Reachable.start.next ⟨hnext, hfirst⟩)
  obtain ⟨ok, conns', hrun', hiff, -⟩ := hcall exampleKey 299 hsecond
  exact ⟨_, rfl, hnodup, ok, conns', hrun', hiff⟩

/-- After 2 ^ 31 the top of the window is a negative `int`, and a greater number is taken for one that
came before. -/
theorem window_refuses_new : ∃ x, Runs.Reachable Step new x ∧ ∃ conns,
    libplaCheckSequenceNumber x.conns exampleKey (2 ^ 31 + 128) = some (false, conns) ∧
      2 ^ 31 + 128 ∉ x.numbers exampleKey ∧ ∀ M ∈ x.numbers exampleKey, M < 2 ^ 31 + 128 + 128 := by
  have hrun : ((new.next (exampleKey, 2 ^ 31)).bind fun x =>
      (answer x.conns exampleKey (2 ^ 31 + 128)).map fun ok => (ok, x.accepted)) =
      some (false, [(exampleKey, 2 ^ 31)]) := by decide +kernel
  obtain ⟨x, hnext, hanswer⟩ := Option.bind_eq_some_iff.mp hrun
  obtain ⟨ok, hok, hpair⟩ := Option.map_eq_some_iff.mp hanswer
  obtain ⟨rfl, hacc⟩ := Prod.mk.inj hpair
  obtain ⟨⟨ok, conns⟩, hcheck, rfl⟩ := Option.map_eq_some_iff.mp hok
  refine ⟨x, Runs.Reachable.start.next hnext, conns, hcheck, ?_, ?_⟩
  · rintro ⟨s, hs, heq⟩
    rw [hacc, List.mem_singleton] at hs
    cases hs
    exact absurd heq (by decide)
  · rintro M ⟨s, hs, rfl⟩
    rw [hacc, List.mem_singleton] at hs
    cases hs
    decide

end WindowSession

end Blackadder.Pla
