import Blackadder.Api.Packets
import Blackadder.Pla.Curve
import Mathlib.Data.Nat.Digits.Lemmas
import Mathlib.Tactic.IntervalCases

/-!
# Keys and signatures in the header

`libpla_io.c` and `ec_io.c`: a field element and its compression bit in 21 bytes, a signature in 41.
-/

namespace Blackadder.Pla

open Gnb

variable {e : Elem} {rest : List UInt8} {b : Bool} {i j n t : Nat}

/-- A field of `n` bytes. -/
abbrev Octets (n : Nat) := {bytes : List UInt8 // bytes.length = n}

/-- A field of zeros. -/
def zeroOctets (n : Nat) : Octets n := ⟨List.replicate n 0, List.length_replicate⟩

/-- The number in bytes that begin with the low one. -/
def fromLittleEndian (bytes : List UInt8) : Nat := bytes.foldr (fun b m => b.toNat + 256 * m) 0

/-! ## Words of an element -/

/-- `a[j]`, with coefficient `32 * j` at its high end. -/
def elemWord (a : Elem) (j : Nat) : Nat := ((a.coefs.extractLsb' (32 * j) 32).reverse).toNat

def elemOfWords (word : Nat → Nat) : Elem :=
  let chunk j := (BitVec.ofNat 32 (word j)).reverse
  ⟨(chunk 5 ++ chunk 4 ++ chunk 3 ++ chunk 2 ++ chunk 1 ++ chunk 0).setWidth degree⟩

/-- `elem_t` in memory. -/
def elemBytes (a : Elem) : List UInt8 := (List.range 6).flatMap fun j => littleEndian 4 (elemWord a j)

theorem testBit_elemWord (ht : t < 32) :
    (elemWord e j).testBit t = e.coefs.getLsbD (32 * j + (31 - t)) := by
  have hbit : (elemWord e j).testBit t = (e.coefs.extractLsb' (32 * j) 32).reverse.getLsbD t :=
    BitVec.testBit_toNat _
  rw [hbit, BitVec.getLsbD_reverse, BitVec.getMsbD_eq_getLsbD, BitVec.getLsbD_extractLsb']
  simp [ht, show 31 - t < 32 by omega]

theorem elemWord_lt : elemWord e j < 2 ^ 32 := BitVec.isLt _

theorem reverse_reverse {w : Nat} (x : BitVec w) : x.reverse.reverse = x := by
  refine BitVec.eq_of_getLsbD_eq fun i _ => ?_
  rw [BitVec.getLsbD_reverse, BitVec.getMsbD_reverse]

theorem elemOfWords_eq {word : Nat → Nat} (h : ∀ j < 6, word j = elemWord e j) :
    elemOfWords word = e := by
  have hchunk : ∀ j < 6, (BitVec.ofNat 32 (word j)).reverse = e.coefs.extractLsb' (32 * j) 32 := by
    intro j hj
    rw [h j hj, elemWord, BitVec.ofNat_toNat, BitVec.setWidth_eq, reverse_reverse]
  refine congrArg Elem.mk (BitVec.eq_of_getLsbD_eq fun i hi => ?_)
  simp only [hchunk, Nat.reduceLT, BitVec.getLsbD_setWidth, BitVec.getLsbD_append,
    BitVec.getLsbD_extractLsb', hi, decide_true, Bool.true_and]
  have hi' : i < 163 := hi
  split_ifs <;>
  · rw [decide_eq_true (by omega), Bool.true_and]
    exact congrArg _ (by omega)

theorem elemWord_margin : elemWord e 5 % 2 ^ 29 = 0 := by
  refine Nat.eq_of_testBit_eq fun t => ?_
  rw [Nat.testBit_mod_two_pow, Nat.zero_testBit]
  by_cases ht : t < 29
  · rw [testBit_elemWord (by omega), BitVec.getLsbD_of_ge _ _ (by simp only [degree]; omega)]
    simp
  · simp [ht]

/-! ## Public keys -/

/-- `libpla_io_public_key_to_bin`. -/
def publicKeyToBin (e : Elem) (b : Bool) : List UInt8 :=
  ((List.range 5).flatMap fun i => littleEndian 4 (elemWord e i)) ++
    [UInt8.ofNat (elemWord e 5 >>> 24 + b.toNat)]

/-- `libpla_io_bin_to_public_key`. It reads three bytes behind the field and shifts them out. -/
def binToPublicKey (src : List UInt8) : Elem × Bool :=
  let tmp_int := fromLittleEndian ((src.drop 20).take 4)
  let b := tmp_int % 2
  (elemOfWords fun i =>
    if i < 5 then fromLittleEndian ((src.drop (4 * i)).take 4) else (tmp_int - b) <<< 24 % 2 ^ 32,
    b = 1)

theorem length_publicKeyToBin : (publicKeyToBin e b).length = 21 := by
  simp [publicKeyToBin, List.range_succ]

theorem fromLittleEndian_eq (n v : Nat) : fromLittleEndian (littleEndian n v) = v % 256 ^ n :=
  foldr_littleEndian n v

theorem fromLittleEndian_word : fromLittleEndian (littleEndian 4 (elemWord e j)) = elemWord e j := by
  have hlt := elemWord_lt (e := e) (j := j)
  rw [fromLittleEndian_eq]
  omega

theorem word_publicKeyToBin (hi : i < 5) :
    (((publicKeyToBin e b ++ rest).drop (4 * i)).take 4) = littleEndian 4 (elemWord e i) := by
  interval_cases i <;> rfl

theorem even_high : elemWord e 5 / 2 ^ 24 % 32 = 0 ∧ elemWord e 5 / 2 ^ 24 < 256 ∧
    elemWord e 5 / 2 ^ 24 * 2 ^ 24 = elemWord e 5 := by
  have hmargin := elemWord_margin (e := e)
  have hlt := elemWord_lt (e := e) (j := 5)
  omega

theorem last_publicKeyToBin :
    fromLittleEndian (((publicKeyToBin e b ++ rest).drop 20).take 4) =
      elemWord e 5 / 2 ^ 24 + b.toNat + 256 * fromLittleEndian (rest.take 3) := by
  have hlast : ((publicKeyToBin e b ++ rest).drop 20).take 4 =
      UInt8.ofNat (elemWord e 5 >>> 24 + b.toNat) :: rest.take 3 := rfl
  obtain ⟨heven, hlt, _⟩ := even_high (e := e)
  have hbit := b.toNat_lt
  rw [hlast, fromLittleEndian, List.foldr_cons, UInt8.toNat_ofNat', Nat.shiftRight_eq_div_pow,
    Nat.mod_eq_of_lt (by omega)]
  rfl

/-- What is behind the field does not matter. -/
theorem binToPublicKey_publicKeyToBin :
    binToPublicKey (publicKeyToBin e b ++ rest) = (e, b) := by
  obtain ⟨heven, hlt, hback⟩ := even_high (e := e)
  have hbit := b.toNat_lt
  simp only [binToPublicKey, last_publicKeyToBin]
  generalize fromLittleEndian (rest.take 3) = above
  have hlow : (elemWord e 5 / 2 ^ 24 + b.toNat + 256 * above) % 2 = b.toNat := by omega
  have hword : ∀ j < 6, (if j < 5 then
      fromLittleEndian (((publicKeyToBin e b ++ rest).drop (4 * j)).take 4)
      else (elemWord e 5 / 2 ^ 24 + b.toNat + 256 * above - b.toNat) <<< 24 % 2 ^ 32) =
        elemWord e j := by
    intro j hj
    by_cases hj' : j < 5
    · rw [if_pos hj', word_publicKeyToBin hj', fromLittleEndian_word]
    · obtain rfl : j = 5 := by omega
      rw [if_neg hj', Nat.shiftLeft_eq]
      omega
  rw [hlow, elemOfWords_eq hword]
  cases b <;> rfl

/-! ## Signatures -/

/-- `ecselfsig_t`, without the key that goes with it. -/
structure SelfSig where
  r : Octets 20
  s : Int

/-- The low bytes of a number up to its last one, and how many they are: `mpz_export`. -/
def exported (s : Int) : Nat := (Nat.digits 256 s.natAbs).length

/-- `ec_io_sig_to_bin2`. The count of the bytes of `s`, less 18, is put into two bits of the last
byte. -/
def sigToBin (sig : SelfSig) : List UInt8 :=
  let tmpbuf := littleEndian 21 sig.s.natAbs
  let countp := (exported sig.s + (2 ^ 64 - 18)) % 2 ^ 64
  sig.r.val ++ tmpbuf.take 20 ++ [tmpbuf.getD 20 0 ||| UInt8.ofNat (countp <<< 6 % 2 ^ 64)]

/-- `ec_io_bin_to_sig2`. -/
def binToSig (source : Octets 41) : SelfSig :=
  let countp := source.val.getD 40 0 >>> 6
  let source' := source.val.set 40 (source.val.getD 40 0 &&& 63)
  { r := ⟨source.val.take 20, by simp [source.property]⟩
    s := fromLittleEndian ((source'.drop 20).take (countp.toNat + 18)) }

theorem length_sigToBin (sig : SelfSig) : (sigToBin sig).length = 41 := by
  simp [sigToBin, sig.r.property]

theorem take_littleEndian {v : Nat} (h : n ≤ t) : (littleEndian t v).take n = littleEndian n v := by
  rw [littleEndian, littleEndian, ← List.map_take, List.take_range, Nat.min_eq_left h]

theorem getD_littleEndian {v : Nat} (h : i < n) :
    (littleEndian n v).getD i 0 = UInt8.ofNat (v / 256 ^ i % 256) := by
  simp [littleEndian, List.getD, h]

theorem lt_exported (v : Nat) : v < 256 ^ exported v :=
  Nat.lt_base_pow_length_digits (by decide)

theorem exported_le {v : Nat} (h : v < 2 ^ 166) : exported v ≤ 21 := by
  have hlt : v < 256 ^ 21 := Nat.lt_of_lt_of_le h (by decide)
  exact (Nat.digits_length_le_iff (by decide) v).mpr hlt

theorem littleEndian_succ_right (n v : Nat) :
    littleEndian (n + 1) v = littleEndian n v ++ [UInt8.ofNat (v / 256 ^ n % 256)] := by
  rw [littleEndian, List.range_succ, List.map_append]
  rfl

theorem lastByte {d c : Nat} (hd : d < 64) (hc : c < 4) :
    (UInt8.ofNat d ||| UInt8.ofNat (c * 64)) >>> 6 = UInt8.ofNat c ∧
      (UInt8.ofNat d ||| UInt8.ofNat (c * 64)) &&& 63 = UInt8.ofNat d := by
  have hall : ∀ d < 64, ∀ c < 4, (UInt8.ofNat d ||| UInt8.ofNat (c * 64)) >>> 6 = UInt8.ofNat c ∧
      (UInt8.ofNat d ||| UInt8.ofNat (c * 64)) &&& 63 = UInt8.ofNat d := by
    decide +kernel
  exact hall d hd c hc

theorem countBits {n : Nat} (h : n ≤ 21) :
    UInt8.ofNat (((n + (2 ^ 64 - 18)) % 2 ^ 64) <<< 6 % 2 ^ 64) = UInt8.ofNat ((n + 2) % 4 * 64) ∧
      n ≤ (n + 2) % 4 + 18 := by
  have hall : ∀ n ≤ 21, UInt8.ofNat (((n + (2 ^ 64 - 18)) % 2 ^ 64) <<< 6 % 2 ^ 64) =
      UInt8.ofNat ((n + 2) % 4 * 64) ∧ n ≤ (n + 2) % 4 + 18 := by
    decide +kernel
  exact hall n h

/-- Nothing of a signature is lost in its field. -/
theorem binToSig_sigToBin (sig : SelfSig) (hpos : 0 ≤ sig.s) (hlt : sig.s < 2 ^ 166) :
    binToSig ⟨sigToBin sig, length_sigToBin sig⟩ = sig := by
  obtain ⟨⟨r, hr⟩, s⟩ := sig
  obtain ⟨v, rfl⟩ := Int.eq_ofNat_of_zero_le hpos
  have hv : v < 2 ^ 166 := by simpa using hlt
  obtain ⟨hcount, hle⟩ := countBits (exported_le hv)
  have hroom := lt_exported v
  generalize hc : (exported v + 2) % 4 = c at *
  have hc4 : c < 4 := by omega
  have hhigh : v / 256 ^ 20 < 64 := by omega
  obtain ⟨hshift, hmask⟩ := lastByte hhigh hc4
  have hbytes : sigToBin ⟨⟨r, hr⟩, v⟩ =
      (r ++ littleEndian 20 v) ++ [UInt8.ofNat (v / 256 ^ 20) ||| UInt8.ofNat (c * 64)] := by
    simp only [sigToBin, Int.natAbs_natCast, hcount]
    rw [take_littleEndian (by decide), getD_littleEndian (by decide), Nat.mod_eq_of_lt (by omega)]
  have hfront : (r ++ littleEndian 20 v).length = 40 := by simp [hr]
  have hlast : littleEndian 21 v = littleEndian 20 v ++ [UInt8.ofNat (v / 256 ^ 20)] := by
    have hmod : v / 256 ^ 20 % 256 = v / 256 ^ 20 := Nat.mod_eq_of_lt (by omega)
    rw [littleEndian_succ_right, hmod]
  have hget : (r ++ littleEndian 20 v ++
      [UInt8.ofNat (v / 256 ^ 20) ||| UInt8.ofNat (c * 64)]).getD 40 0 =
        UInt8.ofNat (v / 256 ^ 20) ||| UInt8.ofNat (c * 64) := by
    rw [List.getD_eq_getElem?_getD, List.getElem?_append_right hfront.le, hfront]
    rfl
  have hset : (r ++ littleEndian 20 v ++
      [UInt8.ofNat (v / 256 ^ 20) ||| UInt8.ofNat (c * 64)]).set 40 (UInt8.ofNat (v / 256 ^ 20)) =
        r ++ littleEndian 21 v := by
    rw [List.set_append_right _ _ hfront.le, hfront, hlast, List.append_assoc]
    rfl
  have hcut : (UInt8.ofNat c).toNat = c := by
    rw [UInt8.toNat_ofNat', Nat.mod_eq_of_lt (by omega)]
  have hvalue : fromLittleEndian ((littleEndian 21 v).take (c + 18)) = v := by
    rw [take_littleEndian (by omega), fromLittleEndian_eq]
    exact Nat.mod_eq_of_lt (Nat.lt_of_lt_of_le hroom (Nat.pow_le_pow_right (by decide) hle))
  have htake : (r ++ littleEndian 20 v ++
      [UInt8.ofNat (v / 256 ^ 20) ||| UInt8.ofNat (c * 64)]).take 20 = r := by
    rw [List.append_assoc, List.take_left' hr]
  simp only [binToSig, hbytes, hget, hshift, hmask, hset, hcut, htake, List.drop_left' hr, hvalue]

end Blackadder.Pla
