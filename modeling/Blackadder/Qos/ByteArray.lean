import Mathlib.Data.BitVec
import Mathlib.Data.List.Basic
import Mathlib.Tactic.Common
import Mathlib.Tactic.IntervalCases
import Blackadder.Lib.Wire

/-!
# The byte arrays of the link reports

The class is the same on both sides, but for names. `none` stands for an access outside the array. Fields start at
any bit of a byte, and the highest bit of a byte is the first.
-/

namespace Blackadder

abbrev Bytes := List UInt8

namespace ByteArray

open Wire (store Filled Front filled_iff)

/-! ## Bytes -/

/-- `b <<= k`. -/
def shl (b : UInt8) (k : Nat) : UInt8 := UInt8.ofNat (b.toNat <<< k)

/-- `b >>= k`. -/
def shr (b : UInt8) (k : Nat) : UInt8 := UInt8.ofNat (b.toNat >>> k)

def getLowMask (num : Nat) : UInt64 :=
  if 64 < num then 0 else (List.range num).foldl (fun res i => res ||| (shl 1 i).toUInt64) 0

/-! ## Writes -/

/-- What `new` leaves in the bytes from `data.length` on is given by `fresh`. -/
def extend (fresh : Nat → UInt8) (data : Bytes) (extSize : Nat) : Bytes :=
  data ++ (List.range extSize).map fun i => fresh (data.length + i)

/-- `setBits` of a `byte`. -/
def setByteBits (data : Bytes) (b : UInt8) (lownum offsetBytes offsetbits : Nat) : Option Bytes :=
  if 8 < lownum ∨ 8 < offsetbits then some data
  else if data.length - 1 < offsetBytes then some data
  else if data.length < lownum / 8 + offsetBytes then some data
  else
    let mask := (getLowMask lownum).toUInt8
    let b := shl (b &&& mask) (8 - lownum)
    let mask := shl mask (8 - lownum)
    if lownum + offsetbits ≤ 8 then do
      let old ← data[offsetBytes]?
      store data offsetBytes ((old &&& ~~~ shr mask offsetbits) ||| shr b offsetbits)
    else do
      let b2 := (b.toUInt16 <<< 8) >>> UInt16.ofNat offsetbits
      let mask2 := ~~~ ((mask.toUInt16 <<< 8) >>> UInt16.ofNat offsetbits)
      let old ← data[offsetBytes]?
      let next ← data[offsetBytes + 1]?
      let data ← store data offsetBytes ((old &&& (mask2 >>> 8).toUInt8) ||| (b2 >>> 8).toUInt8)
      store data (offsetBytes + 1) ((next &&& mask2.toUInt8) ||| b2.toUInt8)

/-- `setBits` of a `uint64_t`: the highest of the bytes first. -/
def setBits (data : Bytes) (b : UInt64) (lownum offsetBytes offsetbits : Nat) : Option Bytes :=
  if data.length < lownum / 8 + offsetBytes then some data
  else do
    let bytes := (lownum + 7) / 8
    let (data, _, _) ← (List.range' (8 - bytes) bytes).foldlM (fun (data, offsetBytes, offsetbits) i =>
      if i = 0 ∧ 0 < lownum % 8 then do
        let bits := lownum % 8
        let data ← setByteBits data (b >>> UInt64.ofNat ((bytes - 1) * 8)).toUInt8 bits offsetBytes
          offsetbits
        let offsetbits := offsetbits + bits
        if 8 < offsetbits then return (data, offsetBytes + 1, offsetbits % 8)
        else return (data, offsetBytes, offsetbits)
      else do
        let data ← setByteBits data ((b <<< UInt64.ofNat (i * 8)) >>> 56).toUInt8 8 offsetBytes
          offsetbits
        return (data, offsetBytes + 1, offsetbits)) (data, offsetBytes, offsetbits)
    return data

/-- The loop of `setBytes` and of its `string` version. -/
def setEach (write : Bytes → Nat → UInt8 → Option Bytes) (data : Bytes) (offsetBytes : Nat)
    (b : Bytes) : Option Bytes :=
  (b.foldlM (fun (s : Bytes × Nat) cur => do
    let data ← write s.1 s.2 cur
    return (data, s.2 + 1)) (data, offsetBytes)).map Prod.fst

/-- `setBytes` of an array of the caller's. -/
def setBytes (data : Bytes) (b : Bytes) (offsetBytes offsetbits : Nat) : Option Bytes :=
  if data.length < b.length + offsetBytes then some data
  else setEach (fun data offsetBytes cur =>
    if offsetbits = 0 then store data offsetBytes cur
    else setByteBits data cur 8 offsetBytes offsetbits) data offsetBytes b

/-- `setBits` of a `string`, with the name of `setBytes` in the library. -/
def setString (data : Bytes) (str : Bytes) (offsetBytes offsetbits : Nat) : Option Bytes :=
  if data.length < str.length + offsetBytes then some data
  -- The counter has 8 bits: the loop does not end.
  else if 256 ≤ str.length then none
  else setEach (fun data offsetBytes cur => setByteBits data cur 8 offsetBytes offsetbits) data
    offsetBytes str

/-! ## Reads -/

def getBits8OrLess (data : Bytes) (num offsetBytes offsetbits : Nat) : Option UInt8 :=
  if 8 < num then some 0
  else if num + offsetbits ≤ 8 then do
    let d ← data[offsetBytes]?
    return shr (shl d offsetbits) (8 - num)
  else do
    let d ← data[offsetBytes]?
    let next ← data[offsetBytes + 1]?
    return shl (shr (shl d offsetbits) offsetbits) (num - (8 - offsetbits)) |||
      shr next (16 - num - offsetbits)

/-- The number is a `uint8_t`. -/
def getStrBytes (data : Bytes) (num : UInt8) (offsetBytes offsetbits : Nat) : Option Bytes :=
  if data.length < num.toNat + offsetBytes then some []
  else (List.range num.toNat).mapM fun i => getBits8OrLess data 8 (offsetBytes + i) offsetbits

def getBits (data : Bytes) (num offsetBytes offsetbits : Nat) : Option UInt64 := do
  let (res, _, _) ← (List.range ((num + 7) / 8)).foldlM (fun (res, offsetBytes, offsetbits) i =>
    if i = 0 ∧ 0 < num % 8 then do
      let bits := num % 8
      let b ← getBits8OrLess data bits offsetBytes offsetbits
      let offsetbits := offsetbits + bits
      if 8 < offsetbits then return (b.toUInt64, offsetBytes + 1, offsetbits % 8)
      else return (b.toUInt64, offsetBytes, offsetbits)
    else do
      let b ← getBits8OrLess data 8 offsetBytes offsetbits
      return ((res <<< 8) ||| b.toUInt64, offsetBytes + 1, offsetbits))
    ((0 : UInt64), offsetBytes, offsetbits)
  return res

/-! ## Whole bytes -/

section

variable {data : Bytes} {b d : UInt8} {v : UInt16} {off k : Nat}

@[simp]
theorem toNat_shl : (shl b k).toNat = b.toNat * 2 ^ k % 256 := by
  simp [shl, Nat.shiftLeft_eq]

@[simp]
theorem toNat_shr : (shr b k).toNat = b.toNat / 2 ^ k := by
  have hlt : b.toNat / 2 ^ k < 256 := Nat.lt_of_le_of_lt (Nat.div_le_self _ _) b.toNat_lt
  simp [shr, Nat.shiftRight_eq_div_pow, Nat.mod_eq_of_lt hlt]

theorem shl_zero : shl b 0 = b := by
  apply UInt8.toNat_inj.mp
  simp

theorem shr_zero : shr b 0 = b := by
  apply UInt8.toNat_inj.mp
  simp

theorem setByteBits_byte (h : off < data.length) : setByteBits data b 8 off 0 = store data off b := by
  have hmask : (getLowMask 8).toUInt8 = 255 := by decide
  have hand : b &&& 255 = b := by
    apply UInt8.toBitVec_inj.mp
    exact BitVec.and_allOnes
  have hclear : data[off] &&& ~~~ (255 : UInt8) = 0 := by
    apply UInt8.toBitVec_inj.mp
    exact BitVec.and_zero
  have hor : (0 : UInt8) ||| b = b := by
    apply UInt8.toBitVec_inj.mp
    exact BitVec.zero_or
  unfold setByteBits
  rw [if_neg (by omega), if_neg (by omega), if_neg (by omega)]
  simp [hmask, hand, shl_zero, shr_zero, List.getElem?_eq_getElem h, hclear, hor]

theorem getBits8OrLess_byte : getBits8OrLess data 8 off 0 = data[off]? := by
  unfold getBits8OrLess
  cases data[off]? <;> simp [shl_zero, shr_zero]

theorem getStrBytes_drop {x post : Bytes} {num : UInt8} (h : data.drop off = x ++ post)
    (hlen : x.length = num.toNat) : getStrBytes data num off 0 = some x := by
  have hall := congrArg List.length h
  rw [List.length_drop, List.length_append] at hall
  have hread : ∀ i c, x[i]? = some c → ∃ b, getBits8OrLess data 8 (off + i) 0 = some b ∧ c = b := by
    intro i c hc
    obtain ⟨hi, -⟩ := List.getElem?_eq_some_iff.mp hc
    refine ⟨c, ?_, rfl⟩
    rw [getBits8OrLess_byte, ← List.getElem?_drop, h, List.getElem?_append_left hi, hc]
  obtain ⟨bs, hrun, hbs⟩ := Wire.mapM_places hread
  rw [List.forall₂_eq_eq_eq] at hbs
  obtain rfl : x = bs := hbs
  rw [getStrBytes, ← hlen]
  split
  · next hshort =>
    have hnil : x = [] := List.eq_nil_of_length_eq_zero (by omega)
    rw [hnil]
  · exact hrun

theorem getBits8OrLess_bit (hk : k < 8) (hd : data[off]? = some d) :
    getBits8OrLess data 1 off k = some (shr (shl d k) 7) := by
  unfold getBits8OrLess
  rw [if_neg (by omega), if_pos (by omega), hd]
  rfl

/-- The two bytes of a value. -/
def highByte (v : UInt16) : UInt8 := UInt8.ofNat (v.toNat / 256)
def lowByte (v : UInt16) : UInt8 := UInt8.ofNat (v.toNat % 256)

theorem setBits_front {n k : Nat} {pre post : Bytes} (h : Front n pre post data)
    (hoff : k = pre.length) (hroom : k + 2 ≤ n) : ∃ data', setBits data v.toUInt64 16 k 0 = some data' ∧
      Front n (pre ++ [highByte v] ++ [lowByte v]) post data' := by
  have hlt := v.toNat_lt
  have hhi : ((v.toUInt64 <<< 48) >>> 56).toUInt8 = highByte v := by
    apply UInt8.toNat_inj.mp
    simp [highByte, Nat.shiftLeft_eq, Nat.shiftRight_eq_div_pow]
    omega
  have hlo : ((v.toUInt64 <<< 56) >>> 56).toUInt8 = lowByte v := by
    apply UInt8.toNat_inj.mp
    simp [lowByte, Nat.shiftLeft_eq, Nat.shiftRight_eq_div_pow]
    omega
  obtain ⟨data₁, hrun₁, h₁⟩ := h.store (a := highByte v) hoff (by omega)
  obtain ⟨data₂, hrun₂, h₂⟩ := h₁.store (a := lowByte v) (k := k + 1) (by simp [hoff]) (by omega)
  refine ⟨data₂, ?_, h₂⟩
  rw [← setByteBits_byte (by rw [h.length]; omega)] at hrun₁
  rw [← setByteBits_byte (by rw [h₁.length]; omega)] at hrun₂
  unfold setBits
  rw [if_neg (by rw [h.length]; omega)]
  simp [List.range', hhi, hlo, hrun₁, hrun₂]

theorem getBits_value (hhi : data[off]? = some (highByte v)) (hlo : data[off + 1]? = some (lowByte v)) :
    ∃ res, getBits data 16 off 0 = some res ∧ res.toUInt16 = v := by
  have hlt := v.toNat_lt
  refine ⟨((highByte v).toUInt64 <<< 8) ||| (lowByte v).toUInt64, ?_, ?_⟩
  · simp [getBits, List.range_succ, getBits8OrLess_byte, hhi, hlo]
  · apply UInt16.toNat_inj.mp
    have hlow : v.toNat % 256 < 2 ^ 8 := Nat.mod_lt _ (by decide)
    have hhigh : (v.toNat / 256 % 256) <<< 8 % 65536 = (v.toNat / 256) <<< 8 := by
      simp only [Nat.shiftLeft_eq]
      omega
    have hsum := Nat.shiftLeft_add_eq_or_of_lt hlow (v.toNat / 256)
    simp only [Nat.shiftLeft_eq] at hsum hhigh
    simp only [highByte, lowByte, UInt64.toUInt16_or, UInt16.toNat_or]
    simp [Nat.shiftLeft_eq, hhigh, ← hsum]
    omega

variable {write : Bytes → Nat → UInt8 → Option Bytes} {pre x y post : Bytes}

theorem setEach_append
    (hwrite : ∀ data off c, off < data.length → write data off c = store data off c)
    (hdata : data = pre ++ (y ++ post)) (hoff : off = pre.length) (hlen : x.length = y.length) :
    setEach write data off x = some (pre ++ (x ++ post)) := by
  have hloop : ∃ s, x.foldlM (fun (s : Bytes × Nat) cur => do
      let data ← write s.1 s.2 cur
      return (data, s.2 + 1)) (data, off) = some s ∧
        s.1 = pre ++ x ++ (y.drop x.length ++ post) ∧ s.2 = off + x.length := by
    refine Wire.foldlM_all (I := fun (done : Bytes) (s : Bytes × Nat) =>
      s.1 = pre ++ done ++ (y.drop done.length ++ post) ∧ s.2 = off + done.length) ?_ ?_
    · simp [hdata]
    · rintro done c rest ⟨data, offset⟩ hx ⟨hd, ho⟩
      dsimp only at hd ho
      have hlt : done.length < y.length := by
        rw [← hlen, hx]
        simp
      have hdrop : y.drop done.length = [y[done.length]] ++ y.drop (done.length + 1) :=
        List.drop_eq_getElem_cons hlt
      have hd : data = pre ++ done ++ ([y[done.length]] ++ (y.drop (done.length + 1) ++ post)) := by
        rw [hd, hdrop, List.append_assoc [_]]
      have hset : store data offset c = some (pre ++ done ++ ([c] ++ (y.drop (done.length + 1) ++ post))) :=
        Wire.blit_append hd (by simp [ho, hoff]) rfl
      refine ⟨_, by rw [hwrite _ _ _ (by simp [hd, ho, hoff]), hset]; rfl, ?_, ?_⟩
      · simp
      · simp [ho]
        omega
  obtain ⟨s, hrun, hd, -⟩ := hloop
  rw [setEach, hrun]
  simp [hd, hlen]

theorem setBytes_append (hdata : data = pre ++ (y ++ post)) (hoff : off = pre.length)
    (hlen : x.length = y.length) : setBytes data x off 0 = some (pre ++ (x ++ post)) := by
  unfold setBytes
  rw [if_neg (by simp [hdata, hoff, hlen]; omega)]
  exact setEach_append (fun _ _ _ _ => rfl) hdata hoff hlen

theorem setString_append (hdata : data = pre ++ (y ++ post)) (hoff : off = pre.length)
    (hlen : x.length = y.length) (hx : x.length < 256) :
    setString data x off 0 = some (pre ++ (x ++ post)) := by
  unfold setString
  rw [if_neg (by simp [hdata, hoff, hlen]; omega), if_neg (by omega)]
  exact setEach_append (fun _ _ _ h => setByteBits_byte h) hdata hoff hlen

end

/-! ## Single bits -/

section

variable {bits : Nat → Bool} {b : UInt8} {bit : Bool} {k n : Nat}

/-- `byte <<= 1; byte |= bit`. -/
def pushBit (b : UInt8) (bit : Bool) : UInt8 := shl b 1 ||| bit.toUInt8

/-- The byte with eight bits, the first bit highest. -/
def pack (bits : Nat → Bool) : UInt8 := (List.range 8).foldl (fun b k => pushBit b (bits k)) 0

theorem toNat_pushBit : (pushBit b bit).toNat = (2 * b.toNat + bit.toNat) % 256 := by
  have hlow : bit.toNat < 2 ^ 1 := by cases bit <;> decide
  have hsum := Nat.shiftLeft_add_eq_or_of_lt hlow (b.toNat % 128)
  have hshl : b.toNat * 2 ^ 1 % 256 = (b.toNat % 128) <<< 1 := by
    rw [Nat.shiftLeft_eq]
    omega
  have hbit : bit.toUInt8.toNat = bit.toNat := by cases bit <;> rfl
  rw [pushBit, UInt8.toNat_or, toNat_shl, hshl, hbit, ← hsum, Nat.shiftLeft_eq]
  omega

theorem foldl_pushBit : (List.range 8).foldl (fun b k => pushBit b (bits k)) b = pack bits := by
  apply UInt8.toNat_inj.mp
  simp [pack, List.range_succ, toNat_pushBit]
  omega

theorem toNat_pack : (pack bits).toNat = 128 * (bits 0).toNat + 64 * (bits 1).toNat +
    32 * (bits 2).toNat + 16 * (bits 3).toNat + 8 * (bits 4).toNat + 4 * (bits 5).toNat +
    2 * (bits 6).toNat + (bits 7).toNat := by
  have hle : ∀ k, (bits k).toNat ≤ 1 := fun k => Bool.toNat_le _
  have h0 := hle 0
  have h1 := hle 1
  have h2 := hle 2
  have h3 := hle 3
  have h4 := hle 4
  have h5 := hle 5
  have h6 := hle 6
  have h7 := hle 7
  simp [pack, List.range_succ, toNat_pushBit]
  omega

theorem pack_bit (bits : Nat → Bool) (hk : k < 8) : shr (shl (pack bits) k) 7 ≠ 0 ↔ bits k = true := by
  have hne : shr (shl (pack bits) k) 7 ≠ 0 ↔ (shr (shl (pack bits) k) 7).toNat ≠ 0 :=
    not_congr UInt8.toNat_inj.symm
  have hle : ∀ k, (bits k).toNat ≤ 1 := fun k => Bool.toNat_le _
  have h0 := hle 0
  have h1 := hle 1
  have h2 := hle 2
  have h3 := hle 3
  have h4 := hle 4
  have h5 := hle 5
  have h6 := hle 6
  have h7 := hle 7
  rw [hne, toNat_shr, toNat_shl, toNat_pack, ← Bool.toNat_eq_one]
  interval_cases k <;> omega

end

end ByteArray

end Blackadder
