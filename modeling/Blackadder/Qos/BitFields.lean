import Mathlib.Data.BitVec
import Mathlib.Data.List.Basic
import Mathlib.Tactic.Common
import Blackadder.Qos.ByteArray

/-!
# Bit fields

The bits of an array are counted from the highest bit of its first byte. A field is known by the bits that it holds.
-/

namespace Blackadder

namespace ByteArray

open Wire (store store_set)

def bitAt (data : Bytes) (k : Nat) : Bool := (data.getD (k / 8) 0).toBitVec.getMsbD (k % 8)

/-- `data'` is `data` with `m` bits from `p` on replaced by those of `v`. -/
structure Written (data data' : Bytes) (p m : Nat) (v : Nat → Bool) : Prop where
  length : data'.length = data.length
  bits : ∀ k, bitAt data' k = if p ≤ k ∧ k < p + m then v (k - p) else bitAt data k

section

variable {data data' data₁ : Bytes} {b d old next : UInt8} {p m m' n off o j k : Nat} {v v' : Nat → Bool}

/-! ## One byte -/

theorem toBitVec_shl : (shl b k).toBitVec = b.toBitVec <<< k := by
  apply BitVec.eq_of_toNat_eq
  simp [Nat.shiftLeft_eq]

theorem toBitVec_shr : (shr b k).toBitVec = b.toBitVec >>> k := by
  apply BitVec.eq_of_toNat_eq
  simp [Nat.shiftRight_eq_div_pow]

theorem bitAt_set (hd : off < data.length) : bitAt (data.set off d) k =
    if k / 8 = off then d.toBitVec.getMsbD (k % 8) else bitAt data k := by
  unfold bitAt
  split
  · next h =>
    subst h
    simp [List.getD_eq_getElem?_getD, hd]
  · next h => simp [List.getD_eq_getElem?_getD, Ne.symm h]

theorem bitAt_get (hd : data[off]? = some d) (hk : k / 8 = off) :
    bitAt data k = d.toBitVec.getMsbD (k % 8) := by
  simp [bitAt, List.getD_eq_getElem?_getD, hk, hd]

theorem getLowMask_bit : ∀ n ≤ 8, ∀ i < 8,
    (getLowMask n).toUInt8.toBitVec.getLsbD i = decide (i < n) := by decide

theorem short_bit (h : m + o ≤ 8) (hj : j < 8) : (shr (shl b (8 - m)) o).toBitVec.getMsbD j =
    (decide (o ≤ j ∧ j < o + m) && b.toBitVec.getLsbD (m - 1 - (j - o))) := by
  simp only [BitVec.getMsbD_eq_getLsbD, toBitVec_shl, toBitVec_shr, BitVec.getLsbD_ushiftRight,
    BitVec.getLsbD_shiftLeft, hj, decide_true, Bool.true_and]
  by_cases hin : o ≤ j ∧ j < o + m
  · have hi : o + (8 - 1 - j) - (8 - m) = m - 1 - (j - o) := by omega
    have hplace : o + (8 - 1 - j) < 8 ∧ ¬ o + (8 - 1 - j) < 8 - m := by omega
    simp [hin, hi, hplace]
  · have hout : o + (8 - 1 - j) < 8 - m ∨ ¬ o + (8 - 1 - j) < 8 := by omega
    rcases hout with hout | hout <;> simp [hin, hout]

theorem word_bit (hm : m ≤ 8) (ho : o ≤ 8) (hj : j < 16) :
    (((shl b (8 - m)).toUInt16 <<< 8) >>> UInt16.ofNat o).toBitVec.getMsbD j =
      (decide (o ≤ j ∧ j < o + m) && b.toBitVec.getLsbD (m - 1 - (j - o))) := by
  have hmod : ((UInt16.ofNat o).toBitVec % 16).toNat = o := by
    simp
    omega
  have hword : (((shl b (8 - m)).toUInt16 <<< 8) >>> UInt16.ofNat o).toBitVec =
      ((b.toBitVec <<< (8 - m)).setWidth 16 <<< 8) >>> o := by
    rw [UInt16.toBitVec_shiftRight, UInt16.toBitVec_shiftLeft, BitVec.ushiftRight_eq', hmod]
    simp [toBitVec_shl]
  simp only [hword, BitVec.getMsbD_eq_getLsbD, BitVec.getLsbD_ushiftRight, BitVec.getLsbD_shiftLeft,
    BitVec.getLsbD_setWidth, hj, decide_true, Bool.true_and]
  by_cases hin : o ≤ j ∧ j < o + m
  · have hi : o + (16 - 1 - j) - 8 - (8 - m) = m - 1 - (j - o) := by omega
    have hplace : o + (16 - 1 - j) < 16 ∧ ¬ o + (16 - 1 - j) < 8 ∧ o + (16 - 1 - j) - 8 < 16 ∧
        o + (16 - 1 - j) - 8 < 8 ∧ ¬ o + (16 - 1 - j) - 8 < 8 - m := by omega
    simp [hin, hi, hplace]
  · have hout : ¬ o + (16 - 1 - j) < 16 ∨ o + (16 - 1 - j) < 8 ∨ o + (16 - 1 - j) - 8 < 8 - m := by
      omega
    rcases hout with hout | hout | hout <;> simp [hin, hout]

theorem highHalf_bit {w : UInt16} (hj : j < 8) :
    (w >>> 8).toUInt8.toBitVec.getMsbD j = w.toBitVec.getMsbD j := by
  have hplace : 8 + (7 - j) = 15 - j := by omega
  have hlt : 8 + (7 - j) < 16 ∧ j < 16 ∧ 7 - j < 8 := by omega
  simp [BitVec.getMsbD_eq_getLsbD, hj, hplace, hlt]

theorem lowHalf_bit {w : UInt16} (hj : j < 8) :
    w.toUInt8.toBitVec.getMsbD j = w.toBitVec.getMsbD (8 + j) := by
  have hplace : 15 - (8 + j) = 7 - j := by omega
  have hlt : 8 + j < 16 := by omega
  simp [BitVec.getMsbD_eq_getLsbD, hj, hplace, hlt]
  omega

theorem mask_bit (hpos : 0 < m) (hm : m ≤ 8) :
    (getLowMask m).toUInt8.toBitVec.getLsbD (m - 1 - k) = true := by
  rw [getLowMask_bit m hm _ (by omega)]
  exact decide_eq_true (by omega)

theorem masked_bit (hpos : 0 < m) (hm : m ≤ 8) :
    (b &&& (getLowMask m).toUInt8).toBitVec.getLsbD (m - 1 - k) = b.toBitVec.getLsbD (m - 1 - k) := by
  rw [UInt8.toBitVec_and, BitVec.getLsbD_and, mask_bit hpos hm, Bool.and_true]

/-! ## Fields of a byte -/

/-- Zero these bits, set them back: the byte at `i` is part of the field of `m` bits at `o`. -/
theorem merge_bit {keep c : UInt8} {i t : Nat} (hd : data[i]? = some old) (hi : k / 8 = i)
    (ht : k = 8 * off + t) (hkeep : keep.toBitVec.getMsbD (k % 8) = !decide (o ≤ t ∧ t < o + m))
    (hc : c.toBitVec.getMsbD (k % 8) = (decide (o ≤ t ∧ t < o + m) && v (t - o))) :
    ((old &&& keep) ||| c).toBitVec.getMsbD (k % 8) =
      if 8 * off + o ≤ k ∧ k < 8 * off + o + m then v (k - (8 * off + o)) else bitAt data k := by
  have hin : (8 * off + o ≤ k ∧ k < 8 * off + o + m) ↔ o ≤ t ∧ t < o + m := by omega
  have hplace : k - (8 * off + o) = t - o := by omega
  rw [UInt8.toBitVec_or, UInt8.toBitVec_and, BitVec.getMsbD_or, BitVec.getMsbD_and, hkeep, hc,
    bitAt_get hd hi, hplace]
  by_cases h : o ≤ t ∧ t < o + m <;> simp [hin, h]

theorem setByteBits_written (data : Bytes) (b : UInt8) (off : Nat) (hpos : 0 < m) (hm : m ≤ 8) (ho : o ≤ 8)
    (h : 8 * off + o + m ≤ 8 * data.length) : ∃ data', setByteBits data b m off o = some data' ∧
      Written data data' (8 * off + o) m fun x => b.toBitVec.getLsbD (m - 1 - x) := by
  have hoff : off < data.length := by omega
  have hmod : ∀ k, k % 8 < 8 := fun k => Nat.mod_lt _ (by decide)
  unfold setByteBits
  rw [if_neg (by omega), if_neg (by omega), if_neg (by omega)]
  dsimp only
  split
  · next hshort =>
    simp only [store_set, hoff, List.getElem?_eq_getElem, Option.bind_eq_bind, Option.bind_some]
    refine ⟨_, rfl, by simp, fun k => ?_⟩
    rw [bitAt_set hoff]
    by_cases hk : k / 8 = off
    · rw [if_pos hk]
      apply merge_bit (v := fun x => b.toBitVec.getLsbD (m - 1 - x)) (t := k % 8) (List.getElem?_eq_getElem hoff) hk
        (by omega)
      · rw [UInt8.toBitVec_not, BitVec.getMsbD_not, short_bit hshort (hmod k), mask_bit hpos hm]
        simp [hmod]
      · rw [short_bit hshort (hmod k), masked_bit hpos hm]
    · rw [if_neg hk, if_neg (by omega)]
  · next hlong =>
    have hnext : off + 1 < data.length := by omega
    simp only [store_set, hoff, hnext, List.getElem?_eq_getElem, Option.bind_eq_bind, Option.bind_some,
      List.length_set]
    refine ⟨_, rfl, by simp, fun k => ?_⟩
    rw [bitAt_set (by simpa using hnext), bitAt_set hoff]
    by_cases hk' : k / 8 = off + 1
    · rw [if_pos hk']
      apply merge_bit (v := fun x => b.toBitVec.getLsbD (m - 1 - x)) (t := 8 + k % 8)
        (List.getElem?_eq_getElem hnext) hk'
        (by omega)
      · rw [lowHalf_bit (hmod k), UInt16.toBitVec_not, BitVec.getMsbD_not,
          word_bit hm ho (Nat.add_lt_add_left (hmod k) 8), mask_bit hpos hm]
        simp
        omega
      · rw [lowHalf_bit (hmod k), word_bit hm ho (Nat.add_lt_add_left (hmod k) 8), masked_bit hpos hm]
    by_cases hk : k / 8 = off
    · rw [if_neg hk', if_pos hk]
      apply merge_bit (v := fun x => b.toBitVec.getLsbD (m - 1 - x)) (t := k % 8) (List.getElem?_eq_getElem hoff) hk
        (by omega)
      · rw [highHalf_bit (hmod k), UInt16.toBitVec_not, BitVec.getMsbD_not,
          word_bit hm ho (Nat.lt_of_lt_of_le (hmod k) (by decide)), mask_bit hpos hm]
        simp
        omega
      · rw [highHalf_bit (hmod k), word_bit hm ho (Nat.lt_of_lt_of_le (hmod k) (by decide)),
          masked_bit hpos hm]
    · rw [if_neg hk', if_neg hk, if_neg (by omega)]

/-- A field that leaves the array at its last byte. -/
theorem setByteBits_beyond (ho : 0 < o) (hlast : off + 1 = data.length) (h8 : o ≤ 8) :
    setByteBits data b 8 off o = none := by
  have hnext : data[off + 1]? = none := by simp [hlast]
  have hoff : off < data.length := by omega
  unfold setByteBits
  rw [if_neg (by omega), if_neg (by omega), if_neg (by omega)]
  dsimp only
  rw [if_neg (by omega)]
  simp [hnext, hoff]

theorem getBits8OrLess_field (data : Bytes) (off : Nat) (hpos : 0 < m) (hm : m ≤ 8) (ho : o ≤ 8)
    (h : 8 * off + o + m ≤ 8 * data.length) : ∃ d, getBits8OrLess data m off o = some d ∧
      ∀ i < 8, d.toBitVec.getLsbD i = (decide (i < m) && bitAt data (8 * off + o + (m - 1 - i))) := by
  have hoff : off < data.length := by omega
  unfold getBits8OrLess
  rw [if_neg (by omega)]
  split
  · next hshort =>
    simp only [hoff, List.getElem?_eq_getElem, Option.bind_eq_bind, Option.bind_some]
    refine ⟨_, rfl, fun i hi => ?_⟩
    rw [toBitVec_shr, toBitVec_shl, BitVec.getLsbD_ushiftRight, BitVec.getLsbD_shiftLeft]
    by_cases hlt : i < m
    · have hplace : 8 - m + i - o = 8 - 1 - (o + (m - 1 - i)) := by omega
      have hin : 8 - m + i < 8 ∧ ¬ 8 - m + i < o ∧ o + (m - 1 - i) < 8 := by omega
      have hmod : (8 * off + o + (m - 1 - i)) % 8 = o + (m - 1 - i) := by omega
      rw [bitAt_get (List.getElem?_eq_getElem hoff) (by omega), hmod, BitVec.getMsbD_eq_getLsbD]
      simp [hlt, hplace, hin]
    · have hout : ¬ 8 - m + i < 8 := by omega
      simp [hlt, hout]
  · next hlong =>
    have hnext : off + 1 < data.length := by omega
    simp only [hoff, hnext, List.getElem?_eq_getElem, Option.bind_eq_bind, Option.bind_some]
    refine ⟨_, rfl, fun i hi => ?_⟩
    rw [UInt8.toBitVec_or, BitVec.getLsbD_or]
    simp only [toBitVec_shr, toBitVec_shl, BitVec.getLsbD_ushiftRight, BitVec.getLsbD_shiftLeft, hi, decide_true,
      Bool.true_and]
    by_cases hlow : i < m - (8 - o)
    · have hplace : 16 - m - o + i = 8 - 1 - (o + (m - 1 - i) - 8) := by omega
      have hin : i < m ∧ o + (m - 1 - i) - 8 < 8 := by omega
      have hmod : (8 * off + o + (m - 1 - i)) % 8 = o + (m - 1 - i) - 8 := by omega
      rw [bitAt_get (List.getElem?_eq_getElem hnext) (by omega), hmod, BitVec.getMsbD_eq_getLsbD]
      simp [hlow, hplace, hin]
    · have hbeyond : 8 ≤ 16 - m - o + i := by omega
      rw [BitVec.getLsbD_of_ge _ _ hbeyond, Bool.or_false]
      by_cases hlt : i < m
      · have hplace : i - (m - (8 - o)) = 8 - 1 - (o + (m - 1 - i)) := by omega
        have hin : o + (8 - 1 - (o + (m - 1 - i))) < 8 ∧ o + (m - 1 - i) < 8 := by omega
        have hmod : (8 * off + o + (m - 1 - i)) % 8 = o + (m - 1 - i) := by omega
        rw [bitAt_get (List.getElem?_eq_getElem hoff) (by omega), hmod, BitVec.getMsbD_eq_getLsbD]
        simp [hlt, hlow, hplace, hin]
      · have hout : ¬ o + (i - (m - (8 - o))) < 8 := by omega
        simp [hlt, hlow, hout]

end

/-! ## Fields of a number -/

namespace Written

variable {data data₁ data' : Bytes} {p m m' : Nat} {v v' w : Nat → Bool}

theorem none : Written data data p 0 v where
  length := rfl
  bits k := by rw [if_neg (by omega)]

theorem append (h : Written data data₁ p m v) (h' : Written data₁ data' (p + m) m' v')
    (hfirst : ∀ x < m, w x = v x) (hrest : ∀ x < m', w (m + x) = v' x) :
    Written data data' p (m + m') w where
  length := h'.length.trans h.length
  bits k := by
    rw [h'.bits, h.bits]
    by_cases hk : p + m ≤ k ∧ k < p + m + m'
    · have hplace : k - p = m + (k - (p + m)) := by omega
      rw [if_pos hk, if_pos (by omega), hplace, hrest _ (by omega)]
    · rw [if_neg hk]
      by_cases hk' : p ≤ k ∧ k < p + m
      · rw [if_pos hk', if_pos (by omega), hfirst _ (by omega)]
      · rw [if_neg hk', if_neg (by omega)]

end Written

section

variable {data data' : Bytes} {b res : UInt64} {n off o p k s i : Nat}

/-- The body of the loop of `setBits`. -/
def setStep (b : UInt64) (lownum bytes : Nat) (s : Bytes × Nat × Nat) (i : Nat) :
    Option (Bytes × Nat × Nat) := do
  let (data, offsetBytes, offsetbits) := s
  if i = 0 ∧ 0 < lownum % 8 then do
    let bits := lownum % 8
    let data ← setByteBits data (b >>> UInt64.ofNat ((bytes - 1) * 8)).toUInt8 bits offsetBytes
      offsetbits
    let offsetbits := offsetbits + bits
    if 8 < offsetbits then return (data, offsetBytes + 1, offsetbits % 8)
    else return (data, offsetBytes, offsetbits)
  else do
    let data ← setByteBits data ((b <<< UInt64.ofNat (i * 8)) >>> 56).toUInt8 8 offsetBytes offsetbits
    return (data, offsetBytes + 1, offsetbits)

theorem setBits_loop (h : n / 8 + off ≤ data.length) : setBits data b n off o =
    ((List.range' (8 - (n + 7) / 8) ((n + 7) / 8)).foldlM (setStep b n ((n + 7) / 8))
      (data, off, o)).map Prod.fst := by
  unfold setBits
  rw [if_neg (by omega), Option.map_eq_bind]
  rfl

theorem fullByte_bit {j : Nat} (hi : i < 8) (hj : j < 8) :
    ((b <<< UInt64.ofNat (i * 8)) >>> 56).toUInt8.toBitVec.getLsbD j =
      b.toBitVec.getLsbD (56 - 8 * i + j) := by
  have hmod : ((UInt64.ofNat (i * 8)).toBitVec % 64).toNat = i * 8 := by
    simp
    omega
  have htop : ((56 : UInt64).toBitVec % 64).toNat = 56 := rfl
  have hplace : 56 + j - i * 8 = 56 - 8 * i + j := by omega
  have hin : 56 + j < 64 ∧ ¬ 56 + j < i * 8 := by omega
  rw [UInt64.toBitVec_toUInt8, UInt64.toBitVec_shiftRight, UInt64.toBitVec_shiftLeft,
    BitVec.shiftLeft_eq', BitVec.ushiftRight_eq', hmod, htop, BitVec.getLsbD_setWidth,
    BitVec.getLsbD_ushiftRight, BitVec.getLsbD_shiftLeft, hplace]
  simp only [hj, hin, decide_true, decide_false, Bool.not_false, Bool.true_and]

theorem topByte_bit {j : Nat} (hj : j < 8) :
    (b >>> UInt64.ofNat ((8 - 1) * 8)).toUInt8.toBitVec.getLsbD j = b.toBitVec.getLsbD (56 + j) := by
  rw [UInt64.toBitVec_toUInt8, UInt64.toBitVec_shiftRight]
  simp [hj]

/-- Where the field goes on after its partial byte. -/
def afterPartial (off o m : Nat) : Nat × Nat := if 8 < o + m then (off + 1, (o + m) % 8) else (off, o + m)

theorem afterPartial_place (off : Nat) (ho : o < 8) (hm : n < 8) : (afterPartial off o n).2 ≤ 8 ∧
    8 * (afterPartial off o n).1 + (afterPartial off o n).2 = 8 * off + o + n := by
  unfold afterPartial
  split <;> constructor <;> dsimp only <;> omega

theorem setFull_written (n : Nat) (b : UInt64) (data : Bytes) (off : Nat) (hsk : s + k = 8)
    (hfull : s = 0 → n % 8 = 0) (ho : o ≤ 8)
    (h : 8 * off + o + 8 * k ≤ 8 * data.length) : ∃ data',
      (List.range' s k).foldlM (setStep b n ((n + 7) / 8)) (data, off, o) =
        some (data', off + k, o) ∧
      Written data data' (8 * off + o) (8 * k) fun x => b.toBitVec.getLsbD (8 * k - 1 - x) := by
  induction k generalizing data off s with
  | zero => exact ⟨data, rfl, .none⟩
  | succ k ih =>
    obtain ⟨data₁, hrun, hwritten⟩ := setByteBits_written data
      ((b <<< UInt64.ofNat (s * 8)) >>> 56).toUInt8 off (m := 8) (by decide) (by decide) ho (by omega)
    obtain ⟨data', hrest, hwritten'⟩ := ih data₁ (off + 1) (s := s + 1) (by omega)
      (by omega) (by rw [hwritten.length]; omega)
    refine ⟨data', ?_, ?_⟩
    · rw [List.range'_succ, List.foldlM_cons, setStep, if_neg (by omega), hrun]
      simp only [Option.pure_def, Option.bind_eq_bind, Option.bind_some]
      rw [hrest, Nat.add_right_comm, Nat.add_assoc]
    · have hlen : 8 * (k + 1) = 8 + 8 * k := by omega
      have hplace : 8 * (off + 1) + o = 8 * off + o + 8 := by omega
      rw [hplace] at hwritten'
      rw [hlen]
      refine hwritten.append hwritten' (fun x hx => ?_) (fun x hx => ?_)
      · rw [fullByte_bit (by omega) (by omega)]
        congr 1
        omega
      · congr 1
        omega

theorem setFull_beyond (hsk : s + k = 8) (hk : 0 < k) (hfull : s = 0 → n % 8 = 0) (hpos : 0 < o)
    (ho : o ≤ 8) (hlast : off + k = data.length) :
    (List.range' s k).foldlM (setStep b n ((n + 7) / 8)) (data, off, o) = none := by
  induction k generalizing data off s with
  | zero => exact absurd hk (lt_irrefl 0)
  | succ k ih =>
    rw [List.range'_succ, List.foldlM_cons, setStep, if_neg (by omega)]
    by_cases hk : k = 0
    · rw [setByteBits_beyond hpos (by omega) ho]
      rfl
    · obtain ⟨data₁, hrun, hwritten⟩ := setByteBits_written data
        ((b <<< UInt64.ofNat (s * 8)) >>> 56).toUInt8 off (m := 8) (by decide) (by decide) ho (by omega)
      simp only [hrun, Option.pure_def, Option.bind_eq_bind, Option.bind_some]
      exact ih (by omega) (by omega) (by omega) (by rw [hwritten.length]; omega)

/-- The width that `setBits` writes: a field of up to 56 bits is rounded up to whole bytes. -/
def widthWritten (n : Nat) : Nat := if n % 8 = 0 ∨ 57 ≤ n then n else 8 * ((n + 7) / 8)

theorem setBits_written (hpos : 0 < n) (hn : n ≤ 64) (ho : o < 8)
    (h : 8 * off + o + n ≤ 8 * data.length) (hfits : 8 * off + o + widthWritten n ≤ 8 * data.length) :
    ∃ data', setBits data b n off o = some data' ∧
      Written data data' (8 * off + o) (widthWritten n) fun x =>
        b.toBitVec.getLsbD (widthWritten n - 1 - x) := by
  rw [setBits_loop (by omega)]
  unfold widthWritten at hfits ⊢
  split at hfits
  · next hexact =>
    rw [if_pos hexact]
    by_cases hfull : n % 8 = 0
    · have hlen : 8 * ((n + 7) / 8) = n := by omega
      obtain ⟨data', hrun, hwritten⟩ := setFull_written n b data off
        (s := 8 - (n + 7) / 8) (k := (n + 7) / 8) (by omega) (by omega) (Nat.le_of_lt ho) (by omega)
      rw [hlen] at hwritten
      exact ⟨data', by rw [hrun]; rfl, hwritten⟩
    · have hbytes : (n + 7) / 8 = 8 := by omega
      obtain ⟨hle, hplace⟩ := afterPartial_place off ho (Nat.mod_lt n (by decide : 8 > 0))
      obtain ⟨data₁, hrun, hwritten⟩ := setByteBits_written data
        (b >>> UInt64.ofNat ((8 - 1) * 8)).toUInt8 off (o := o) (m := n % 8) (by omega) (by omega) (by omega) (by omega)
      obtain ⟨data', hrest, hwritten'⟩ := setFull_written n b data₁
        (afterPartial off o (n % 8)).1 (s := 1) (k := 7) rfl (by omega) hle
        (by rw [hwritten.length]; omega)
      refine ⟨data', ?_, ?_⟩
      · rw [hbytes, List.range'_succ, List.foldlM_cons, setStep, if_pos (by omega)]
        unfold afterPartial at hrest
        rw [hbytes] at hrest
        dsimp only
        rw [hrun]
        simp only [Option.pure_def, Option.bind_eq_bind, Option.bind_some]
        split at hrest
        · next hcarry =>
          rw [if_pos hcarry, Option.bind_some, hrest]
          rfl
        · next hcarry =>
          rw [if_neg hcarry, Option.bind_some, hrest]
          rfl
      · have hlen : n % 8 + 8 * 7 = n := by omega
        rw [hplace] at hwritten'
        have happend := hwritten.append (w := fun x => b.toBitVec.getLsbD (n - 1 - x)) hwritten'
          (fun x hx => ?_) (fun x hx => ?_)
        · rwa [hlen] at happend
        · rw [topByte_bit (by omega)]
          congr 1
          omega
        · congr 1
          omega
  · next hround =>
    rw [if_neg hround]
    obtain ⟨data', hrun, hwritten⟩ := setFull_written n b data off
      (s := 8 - (n + 7) / 8) (k := (n + 7) / 8) (by omega) (by omega) (Nat.le_of_lt ho) hfits
    exact ⟨data', by rw [hrun]; rfl, hwritten⟩

theorem setBits_beyond (hpos : 0 < n) (hn : n ≤ 64) (ho : o < 8)
    (h : 8 * off + o + n ≤ 8 * data.length) (hbeyond : 8 * data.length < 8 * off + o + widthWritten n) :
    setBits data b n off o = none := by
  unfold widthWritten at hbeyond
  split at hbeyond
  · omega
  · rw [setBits_loop (by omega), setFull_beyond (by omega) (by omega) (by omega) (by omega) (by omega)
      (by omega)]
    rfl

/-- The body of the loop of `getBits`. -/
def getStep (data : Bytes) (num : Nat) (s : UInt64 × Nat × Nat) (i : Nat) : Option (UInt64 × Nat × Nat) := do
  let (res, offsetBytes, offsetbits) := s
  if i = 0 ∧ 0 < num % 8 then do
    let bits := num % 8
    let b ← getBits8OrLess data bits offsetBytes offsetbits
    let offsetbits := offsetbits + bits
    if 8 < offsetbits then return (b.toUInt64, offsetBytes + 1, offsetbits % 8)
    else return (b.toUInt64, offsetBytes, offsetbits)
  else do
    let b ← getBits8OrLess data 8 offsetBytes offsetbits
    return ((res <<< 8) ||| b.toUInt64, offsetBytes + 1, offsetbits)

theorem getBits_loop : getBits data n off o =
    ((List.range ((n + 7) / 8)).foldlM (getStep data n) (0, off, o)).map Prod.fst := by
  unfold getBits
  rw [Option.map_eq_bind]
  rfl

theorem pushByte_bit {d : UInt8} (hk : k < 64) : ((res <<< 8) ||| d.toUInt64).toBitVec.getLsbD k =
    if k < 8 then d.toBitVec.getLsbD k else res.toBitVec.getLsbD (k - 8) := by
  have hshift : ((8 : UInt64).toBitVec % 64).toNat = 8 := rfl
  rw [UInt64.toBitVec_or, UInt64.toBitVec_shiftLeft, BitVec.shiftLeft_eq', hshift, BitVec.getLsbD_or,
    BitVec.getLsbD_shiftLeft, UInt8.toBitVec_toUInt64, BitVec.getLsbD_setWidth]
  by_cases hlow : k < 8
  · simp only [hk, hlow, decide_true, Bool.not_true, Bool.and_false, Bool.false_and, Bool.false_or,
      Bool.true_and, if_true]
  · rw [BitVec.getLsbD_of_ge _ _ (Nat.le_of_not_lt hlow)]
    simp only [hk, hlow, decide_true, decide_false, Bool.not_false, Bool.true_and, Bool.and_false,
      Bool.or_false, if_false]

theorem getFull_read (data : Bytes) (n : Nat) (res : UInt64) (off : Nat) {l : List Nat}
    (hfull : ∀ i ∈ l, i = 0 → n % 8 = 0) (ho : o ≤ 8)
    (h : 8 * off + o + 8 * l.length ≤ 8 * data.length) : ∃ res',
      l.foldlM (getStep data n) (res, off, o) = some (res', off + l.length, o) ∧
      ∀ i < 64, res'.toBitVec.getLsbD i = if i < 8 * l.length
        then bitAt data (8 * off + o + (8 * l.length - 1 - i))
        else res.toBitVec.getLsbD (i - 8 * l.length) := by
  induction l generalizing res off with
  | nil => exact ⟨res, rfl, fun i _ => by simp⟩
  | cons j l ih =>
    rw [List.length_cons] at h ⊢
    obtain ⟨d, hrun, hd⟩ := getBits8OrLess_field data off (m := 8)
      (by decide) (by decide) ho (by omega)
    obtain ⟨res', hrest, hres⟩ := ih ((res <<< 8) ||| d.toUInt64) (off + 1)
      (fun i hi => hfull i (List.mem_cons_of_mem _ hi)) (by omega)
    have hj : ¬ (j = 0 ∧ 0 < n % 8) := fun hj => by
      have := hfull j List.mem_cons_self hj.1
      omega
    refine ⟨res', ?_, fun i hi => ?_⟩
    · rw [List.foldlM_cons, getStep, if_neg hj, hrun]
      simp only [Option.pure_def, Option.bind_eq_bind, Option.bind_some]
      rw [hrest, Nat.add_right_comm, Nat.add_assoc]
    · rw [hres i hi]
      by_cases hlow : i < 8 * l.length
      · rw [if_pos hlow, if_pos (by omega)]
        congr 1
        omega
      · have hk : i - 8 * l.length < 64 := by omega
        rw [if_neg hlow, pushByte_bit hk]
        by_cases hbyte : i - 8 * l.length < 8
        · rw [if_pos hbyte, if_pos (by omega), hd _ hbyte, decide_eq_true hbyte, Bool.true_and]
          congr 1
          omega
        · rw [if_neg hbyte, if_neg (by omega)]
          congr 1

theorem getBits_field (data : Bytes) (off : Nat) (hpos : 0 < n) (hn : n ≤ 64) (ho : o < 8)
    (h : 8 * off + o + n ≤ 8 * data.length) :
    ∃ res, getBits data n off o = some res ∧
      ∀ i < 64, res.toBitVec.getLsbD i = (decide (i < n) && bitAt data (8 * off + o + (n - 1 - i))) := by
  rw [getBits_loop]
  by_cases hfull : n % 8 = 0
  · have hlen : 8 * ((n + 7) / 8) = n := by omega
    obtain ⟨res, hrun, hres⟩ := getFull_read data n 0 off (o := o)
      (l := List.range ((n + 7) / 8)) (fun _ _ _ => hfull) (Nat.le_of_lt ho)
      (by rw [List.length_range]; omega)
    refine ⟨res, by rw [hrun]; rfl, fun i hi => ?_⟩
    rw [hres i hi, List.length_range, hlen]
    by_cases hin : i < n <;> simp [hin]
  · obtain ⟨hle, hplace⟩ := afterPartial_place off ho (Nat.mod_lt n (by decide : 8 > 0))
    obtain ⟨d, hfirst, hd⟩ := getBits8OrLess_field data off (o := o) (m := n % 8)
      (by omega) (by omega) (by omega) (by omega)
    have hlen : ((List.range (n / 8)).map Nat.succ).length = n / 8 := by simp
    obtain ⟨res, hrun, hres⟩ := getFull_read data n d.toUInt64
      (afterPartial off o (n % 8)).1 (l := (List.range (n / 8)).map Nat.succ) (by simp) hle
      (by rw [hlen]; omega)
    have hcount : (n + 7) / 8 = n / 8 + 1 := by omega
    refine ⟨res, ?_, fun i hi => ?_⟩
    · rw [hcount, List.range_succ_eq_map, List.foldlM_cons, getStep, if_pos (by omega)]
      unfold afterPartial at hrun
      dsimp only
      rw [hfirst]
      simp only [Option.pure_def, Option.bind_eq_bind, Option.bind_some]
      split at hrun
      · next hcarry =>
        rw [if_pos hcarry, Option.bind_some, hrun]
        rfl
      · next hcarry =>
        rw [if_neg hcarry, Option.bind_some, hrun]
        rfl
    · rw [hres i hi, hlen, hplace]
      by_cases hlow : i < 8 * (n / 8)
      · have hin : i < n := by omega
        rw [if_pos hlow, decide_eq_true hin, Bool.true_and]
        congr 1
        omega
      · rw [if_neg hlow, UInt8.toBitVec_toUInt64, BitVec.getLsbD_setWidth,
          decide_eq_true (by omega : i - 8 * (n / 8) < 64), Bool.true_and]
        by_cases hin : i < n
        · rw [hd _ (by omega), decide_eq_true (by omega : i - 8 * (n / 8) < n % 8), decide_eq_true hin,
            Bool.true_and, Bool.true_and]
          congr 1
          omega
        · rw [decide_eq_false hin, Bool.false_and]
          by_cases hbyte : i - 8 * (n / 8) < 8
          · rw [hd _ hbyte, decide_eq_false (by omega : ¬ i - 8 * (n / 8) < n % 8), Bool.false_and]
          · exact BitVec.getLsbD_of_ge _ _ (Nat.le_of_not_lt hbyte)

end

/-! ## The round trip -/

section

variable {data : Bytes} {b res : UInt64} {n offset bit : Nat}

/-- What `getBits` makes of a field that `setBits` wrote. -/
def RoundTrip (data : Bytes) (b : UInt64) (n offset bit : Nat) : Prop :=
  ∃ data' res, setBits data b n offset bit = some data' ∧ getBits data' n offset bit = some res ∧
    res.toNat = b.toNat % 2 ^ n ∧ data'.length = data.length ∧
    ∀ k, k < 8 * offset + bit ∨ 8 * offset + bit + n ≤ k → bitAt data' k = bitAt data k

/-- The rounded field is inside the array and the array already holds what the rounding adds, and the `n` bits that
end up in the field are the lowest ones all the same. -/
structure Coincides (data : Bytes) (b : UInt64) (n offset bit : Nat) : Prop where
  inside : 8 * offset + bit + widthWritten n ≤ 8 * data.length
  field : ∀ i < n, b.toBitVec.getLsbD (widthWritten n - n + i) = b.toBitVec.getLsbD i
  behind : ∀ i < widthWritten n - n,
    bitAt data (8 * offset + bit + (widthWritten n - 1 - i)) = b.toBitVec.getLsbD i

theorem le_widthWritten : n ≤ widthWritten n := by
  unfold widthWritten
  split <;> omega

theorem toNat_eq_mod_iff (hn : n ≤ 64) : res.toNat = b.toNat % 2 ^ n ↔
    ∀ i < 64, res.toBitVec.getLsbD i = (decide (i < n) && b.toBitVec.getLsbD i) := by
  constructor
  · intro h i hi
    have hbit := congrArg (Nat.testBit · i) h
    simp only [Nat.testBit_mod_two_pow] at hbit
    exact hbit
  · intro h
    apply Nat.eq_of_testBit_eq
    intro i
    rw [Nat.testBit_mod_two_pow]
    by_cases hi : i < 64
    · exact h i hi
    · have hlarge : 2 ^ 64 ≤ 2 ^ i := Nat.pow_le_pow_right (by decide) (Nat.le_of_not_lt hi)
      rw [Nat.testBit_lt_two_pow (Nat.lt_of_lt_of_le res.toNat_lt hlarge), decide_eq_false (by omega),
        Bool.false_and]

theorem roundTrip_iff_coincides (hpos : 0 < n) (hn : n ≤ 64) (hbit : bit < 8)
    (h : 8 * offset + bit + n ≤ 8 * data.length) :
    RoundTrip data b n offset bit ↔ Coincides data b n offset bit := by
  have hle : n ≤ widthWritten n := le_widthWritten
  by_cases hinside : 8 * offset + bit + widthWritten n ≤ 8 * data.length
  · obtain ⟨data', hset, hwritten⟩ := setBits_written (b := b) hpos hn hbit h hinside
    obtain ⟨res, hget, hres⟩ := getBits_field data' offset hpos hn hbit (by rw [hwritten.length]; exact h)
    -- The bit of the field at place `i` from its end.
    have hread : ∀ i < n, bitAt data' (8 * offset + bit + (n - 1 - i)) =
        b.toBitVec.getLsbD (widthWritten n - n + i) := by
      intro i hi
      rw [hwritten.bits, if_pos (by omega)]
      congr 1
      omega
    have hbehind : ∀ i < widthWritten n - n,
        bitAt data' (8 * offset + bit + (widthWritten n - 1 - i)) = b.toBitVec.getLsbD i := by
      intro i hi
      rw [hwritten.bits, if_pos (by omega)]
      congr 1
      omega
    constructor
    · rintro ⟨data'', res', hset', hget', hvalue, -, houtside⟩
      rw [hset, Option.some.injEq] at hset'
      subst hset'
      rw [hget, Option.some.injEq] at hget'
      subst hget'
      rw [toNat_eq_mod_iff hn] at hvalue
      refine ⟨hinside, fun i hi => ?_, fun i hi => ?_⟩
      · have hboth := (hres i (by omega)).symm.trans (hvalue i (by omega))
        rw [hread i hi] at hboth
        simpa [hi] using hboth
      · rw [← hbehind i hi, houtside _ (Or.inr (by omega))]
    · intro hc
      refine ⟨data', res, hset, hget, (toNat_eq_mod_iff hn).mpr fun i hi => ?_, hwritten.length,
        fun k hk => ?_⟩
      · rw [hres i hi]
        by_cases hin : i < n
        · rw [hread i hin, hc.field i hin]
        · rw [decide_eq_false hin, Bool.false_and, Bool.false_and]
      · by_cases hk' : 8 * offset + bit ≤ k ∧ k < 8 * offset + bit + widthWritten n
        · have hplace : k = 8 * offset + bit + (widthWritten n - 1 -
              (8 * offset + bit + widthWritten n - 1 - k)) := by omega
          rw [hplace, hbehind _ (by omega), hc.behind _ (by omega)]
        · rw [hwritten.bits, if_neg hk']
  · have hnone := setBits_beyond (b := b) hpos hn hbit h (by omega)
    constructor
    · rintro ⟨data', res, hset, -⟩
      rw [hnone] at hset
      cases hset
    · intro hc
      exact absurd hc.inside hinside

theorem coincides_exact (hexact : n % 8 = 0 ∨ 57 ≤ n) (h : 8 * offset + bit + n ≤ 8 * data.length) :
    Coincides data b n offset bit := by
  have hwidth : widthWritten n = n := if_pos hexact
  constructor <;> rw [hwidth]
  · exact h
  · intro i _
    rw [Nat.sub_self, Nat.zero_add]
  · intro i hi
    omega

/-- A field comes back and nothing else changes exactly when its width is whole bytes or more than seven of them, or
by coincidence. -/
theorem field_roundTrip_iff (hpos : 0 < n) (hn : n ≤ 64) (hbit : bit < 8)
    (h : 8 * offset + bit + n ≤ 8 * data.length) :
    RoundTrip data b n offset bit ↔ n % 8 = 0 ∨ 57 ≤ n ∨ Coincides data b n offset bit := by
  rw [roundTrip_iff_coincides hpos hn hbit h]
  constructor
  · exact fun hc => Or.inr (Or.inr hc)
  · rintro (hwhole | hwide | hc)
    · exact coincides_exact (Or.inl hwhole) h
    · exact coincides_exact (Or.inr hwide) h
    · exact hc

theorem byte_roundTrip : RoundTrip [0, 0] 5 8 0 3 :=
  (field_roundTrip_iff (by decide) (by decide) (by decide) (by decide)).mpr (Or.inl rfl)

/-- Three bits are written as a whole byte, which leaves the field at zero. -/
theorem three_bits_lost : 8 * 0 + 0 + 3 ≤ 8 * ([0, 0] : Bytes).length ∧ ¬ RoundTrip [0, 0] 5 3 0 0 := by
  refine ⟨by decide, ?_⟩
  rintro ⟨data', res, hset, hget, hvalue, -⟩
  have hrun : setBits [0, 0] 5 3 0 0 = some [5, 0] := by decide
  have hread : getBits [5, 0] 3 0 0 = some 0 := by decide
  rw [hrun, Option.some.injEq] at hset
  rw [← hset, hread, Option.some.injEq] at hget
  rw [← hget] at hvalue
  exact absurd hvalue (by decide)

end

end ByteArray

end Blackadder
