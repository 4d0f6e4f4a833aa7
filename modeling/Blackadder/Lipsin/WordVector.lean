import Blackadder.Api.Packets
import Blackadder.Lipsin.Forwarder
import Mathlib.Data.List.Forall2
import Mathlib.Data.Nat.Bitwise

/-!
# The vectors as words

`BABitvector` keeps its bits in words of 32. A vector of at most 64 bits has two words of its own, and
the operations look at both of them. The bits behind the end of a vector are not cleared when it shrinks.
-/

namespace Blackadder

/-- `_max + 1`, and what `_data` points to: `_f0` and `_f1` or the words of `new`. -/
structure BABitvector where
  size : Nat
  data : List (BitVec 32)
deriving DecidableEq

namespace BABitvector

variable {v w : BABitvector} {l l' : List Bool} {n m i j k : Nat} {b : Bool}

/-- `max_word() + 1`. -/
def words (size : Nat) : Nat := (size + 31) / 32

def word (v : BABitvector) (k : Nat) : BitVec 32 := v.data.getD k 0

/-- `operator[]`. -/
def bit (v : BABitvector) (i : Nat) : Bool := (v.word (i / 32)).getLsbD (i % 32)

/-- A loop over the first `n` words. -/
def forWords (n : Nat) (f : Nat → BitVec 32 → BitVec 32) (data : List (BitVec 32)) : List (BitVec 32) :=
  data.mapIdx fun k p => if k < n then f k p else p

def resize_to_max (v : BABitvector) (new_max : Nat) (valid_n : Bool) : List (BitVec 32) :=
  let want_u := new_max / 32 + 1
  let have_u := max (if valid_n then words v.size else 2) 2
  if want_u ≤ have_u then v.data else v.data.take have_u ++ List.replicate (want_u - have_u) 0

/-- `BABitvector(n)`. -/
def ofSize (n : Nat) : BABitvector :=
  let v : BABitvector := ⟨n, [0, 0]⟩
  if 64 < n then ⟨n, v.resize_to_max (n - 1) false⟩ else v

/-- The copy constructor. -/
def copy (o : BABitvector) : BABitvector :=
  if 64 < o.size then ⟨o.size, o.data.take (words o.size)⟩ else ⟨o.size, [o.word 0, o.word 1]⟩

def clear_last (v : BABitvector) : BABitvector :=
  if v.size = 0 then { v with data := v.data.set 0 0 }
  else if (v.size - 1) % 32 = 31 then v
  else
    let mask := ((1 : BitVec 32) <<< ((v.size - 1) % 32 + 1)) - 1
    { v with data := v.data.modify ((v.size - 1) / 32) (· &&& mask) }

def resize (v : BABitvector) (n : Nat) : BABitvector where
  size := n
  data := if 64 < n then v.resize_to_max (n - 1) true else v.data

/-- `operator=`. -/
def assignFrom (v o : BABitvector) : BABitvector where
  size := o.size
  data :=
    if words o.size ≤ 2 then o.data.take 2 ++ v.data.drop 2 else o.data.take (words o.size)

def assign (v : BABitvector) (n : Nat) (value : Bool) : BABitvector :=
  let v := v.resize n
  let bits : BitVec 32 := if value then BitVec.allOnes 32 else 0
  let copy := if 32 < n then words n - 1 else 0
  let v := { v with data := forWords (copy + 1) (fun _ _ => bits) v.data }
  if value then v.clear_last else v

/-- `BABitvector(n, bit)`. -/
def ofSizeBit (n : Nat) (bit : Bool) : BABitvector :=
  if bit then (ofSize n).assign n bit else ofSize n

def clear (v : BABitvector) : BABitvector :=
  { v with data := forWords (words v.size) (fun _ _ => 0) v.data }

def zero (v : BABitvector) : Prop := ∀ k < words v.size, v.word k = 0

instance (v : BABitvector) : Decidable v.zero := inferInstanceAs (Decidable (∀ k < _, _))

def negate (v : BABitvector) : BABitvector :=
  ({ v with data := forWords (words v.size) (fun _ p => ~~~p) v.data } : BABitvector).clear_last

/-- `operator&=`, for vectors of one size. -/
def andEq (v o : BABitvector) : BABitvector :=
  { v with data := forWords (words v.size) (fun k p => p &&& o.word k) v.data }

/-- `operator|=`. A vector that is shorter than `o` is resized. -/
def orEq (v o : BABitvector) : BABitvector :=
  let v := if v.size < o.size then v.resize o.size else v
  { v with data := forWords (words v.size) (fun k p => p ||| o.word k) v.data }

/-- `operator^=`, for vectors of one size. -/
def xorEq (v o : BABitvector) : BABitvector :=
  { v with data := forWords (words v.size) (fun k p => p ^^^ o.word k) v.data }

/-- `(*v)[i] = x`. -/
def setBit (v : BABitvector) (i : Nat) (x : Bool) : BABitvector :=
  { v with data := v.data.modify (i / 32) fun p =>
      if x then p ||| BitVec.twoPow 32 (i % 32) else p &&& ~~~ BitVec.twoPow 32 (i % 32) }

/-- `operator==`. -/
def eq (v o : BABitvector) : Bool :=
  if v.size ≠ o.size then false
  else if v.size ≤ 64 then v.data.take 2 = o.data.take 2
  else v.data.take (words v.size) = o.data.take (words v.size)

def to_string (v : BABitvector) : List Char :=
  (List.range v.size).map fun i => if v.bit (v.size - i - 1) then '1' else '0'

/-- `memcpy` of `n` words into the words of a vector. -/
def ofBytes (n : Nat) (p : List UInt8) : BABitvector where
  size := 32 * n
  data := (List.range n).map fun k =>
    BitVec.ofNat 32 (((p.drop (4 * k)).take 4).foldr (fun b n => b.toNat + 256 * n) 0)

/-! ## The bits that a vector stands for -/

/-- The words that are compared, and kept when the vector grows. -/
def kept (size : Nat) : Nat := max (words size) 2

/-- The words that are kept hold the bits `f`. -/
structure Holds (v : BABitvector) (n : Nat) (f : Nat → Bool) : Prop where
  size : v.size = n
  room : kept n ≤ v.data.length
  bit : ∀ i < 32 * kept n, v.bit i = f i

/-- The words that are kept hold the bits of `l`, the lowest first, and nothing else. -/
def Represents (v : BABitvector) (l : List Bool) : Prop := v.Holds l.length fun i => l.getD i false

variable {f g : Nat → Bool}

theorem bit_eq_word (hj : j < 32) : v.bit (32 * k + j) = (v.word k).getLsbD j := by
  rw [bit, show (32 * k + j) / 32 = k by omega, show (32 * k + j) % 32 = j by omega]

theorem bit_of_word_eq (h : v.word (i / 32) = w.word (i / 32)) : v.bit i = w.bit i := by
  rw [bit, bit, h]

/-- The words of `resize_to_max`, where `have_u` of the old ones are kept. -/
theorem resize_to_max_spec (new_max : Nat) (valid_n : Bool)
    (hroom : max (if valid_n then words v.size else 2) 2 ≤ v.data.length) :
    new_max / 32 + 1 ≤ (v.resize_to_max new_max valid_n).length ∧
    ∀ k < new_max / 32 + 1, (v.resize_to_max new_max valid_n).getD k 0 =
      if k < max (if valid_n then words v.size else 2) 2 then v.word k else 0 := by
  unfold resize_to_max
  dsimp only
  generalize max (if valid_n then words v.size else 2) 2 = have_u at hroom ⊢
  split
  · next hle => exact ⟨hle.trans hroom, fun k hk => by rw [if_pos (hk.trans_le hle)]; rfl⟩
  · next hgt =>
    refine ⟨by simp; omega, fun k hk => ?_⟩
    by_cases hk' : k < have_u
    · rw [if_pos hk', List.getD_append _ _ _ _ (by simp; omega)]
      simp [word, hk']
    · rw [if_neg hk', List.getD_append_right _ _ _ _ (by simp; omega)]
      simp

namespace Holds

theorem congr (h : v.Holds n f) (hfg : ∀ i < 32 * kept n, f i = g i) : v.Holds n g :=
  ⟨h.size, h.room, fun i hi => (h.bit i hi).trans (hfg i hi)⟩

theorem lt_length (h : v.Holds n f) (hi : i < 32 * kept n) : i / 32 < v.data.length := by
  have hroom := h.room
  omega

/-- A loop over the first words. -/
theorem forWords (h : v.Holds n f) {F : Nat → BitVec 32 → BitVec 32}
    (hF : ∀ k < j, ∀ i < 32, (F k (v.word k)).getLsbD i = g (32 * k + i)) :
    (⟨v.size, BABitvector.forWords j F v.data⟩ : BABitvector).Holds n
      fun i => if i < 32 * j then g i else f i := by
  refine ⟨h.size, by simpa [BABitvector.forWords] using h.room, fun i hi => ?_⟩
  have hlt := h.lt_length hi
  have hword : (⟨v.size, BABitvector.forWords j F v.data⟩ : BABitvector).word (i / 32) =
      if i / 32 < j then F (i / 32) (v.word (i / 32)) else v.word (i / 32) := by
    simp [word, BABitvector.forWords, hlt]
  by_cases hj : i < 32 * j
  · have hF := hF (i / 32) (by omega) (i % 32) (by omega)
    rw [Nat.div_add_mod] at hF
    rw [BABitvector.bit, hword, if_pos (by omega), if_pos hj, hF]
  · rw [BABitvector.bit, hword, if_neg (by omega), if_neg hj, ← h.bit i hi, BABitvector.bit]

/-- A word that is changed by itself. -/
theorem modify (h : v.Holds n f) {F : BitVec 32 → BitVec 32}
    (hF : ∀ i < 32, (F (v.word k)).getLsbD i = g (32 * k + i)) :
    (⟨v.size, v.data.modify k F⟩ : BABitvector).Holds n fun i => if i / 32 = k then g i else f i := by
  refine ⟨h.size, by simpa using h.room, fun i hi => ?_⟩
  have hlt := h.lt_length hi
  have hword : (⟨v.size, v.data.modify k F⟩ : BABitvector).word (i / 32) =
      if i / 32 = k then F (v.word (i / 32)) else v.word (i / 32) := by
    simp [word, List.getElem_modify, hlt, eq_comm]
  by_cases hk : i / 32 = k
  · subst hk
    have hF := hF (i % 32) (by omega)
    rw [Nat.div_add_mod] at hF
    rw [BABitvector.bit, hword, if_pos rfl, if_pos rfl, hF]
  · rw [BABitvector.bit, hword, if_neg hk, if_neg hk, ← h.bit i hi, BABitvector.bit]

end Holds

/-! ## The operations -/

theorem words_le_kept (n : Nat) : words n ≤ kept n := le_max_left _ _

namespace Holds

/-- The bits of a word. -/
theorem word (h : v.Holds n f) (hk : k < kept n) (hi : i < 32) : (v.word k).getLsbD i = f (32 * k + i) := by
  rw [← bit_eq_word hi]
  exact h.bit _ (by omega)

theorem andEq (h : v.Holds n f) (hw : w.Holds n g) :
    (v.andEq w).Holds n fun i => if i < 32 * words n then f i && g i else f i := by
  unfold BABitvector.andEq
  rw [show words v.size = words n by rw [h.size]]
  refine h.forWords fun k hk i hi => ?_
  have hkept := hk.trans_le (words_le_kept n)
  rw [BitVec.getLsbD_and, h.word hkept hi, hw.word hkept hi]

theorem xorEq (h : v.Holds n f) (hw : w.Holds n g) :
    (v.xorEq w).Holds n fun i => if i < 32 * words n then f i ^^ g i else f i := by
  unfold BABitvector.xorEq
  rw [show words v.size = words n by rw [h.size]]
  refine h.forWords fun k hk i hi => ?_
  have hkept := hk.trans_le (words_le_kept n)
  rw [BitVec.getLsbD_xor, h.word hkept hi, hw.word hkept hi]

theorem orWords (h : v.Holds n f) (hw : w.Holds n g) :
    (⟨v.size, BABitvector.forWords (words v.size) (fun k p => p ||| w.word k) v.data⟩ : BABitvector).Holds n
      fun i => if i < 32 * words n then f i || g i else f i := by
  rw [show words v.size = words n by rw [h.size]]
  refine h.forWords fun k hk i hi => ?_
  have hkept := hk.trans_le (words_le_kept n)
  rw [BitVec.getLsbD_or, h.word hkept hi, hw.word hkept hi]

theorem clear (h : v.Holds n f) : v.clear.Holds n fun i => if i < 32 * words n then false else f i := by
  unfold BABitvector.clear
  rw [show words v.size = words n by rw [h.size]]
  exact h.forWords fun k _ i _ => by simp

theorem setBit (h : v.Holds n f) (hj : j < 32 * kept n) (b : Bool) :
    (v.setBit j b).Holds n fun i => if i = j then b else f i := by
  refine (h.modify (g := fun i => if i = j then b else f i) fun i hi => ?_).congr fun i hi => ?_
  · have hword := h.word (k := j / 32) (by omega) hi
    rw [← hword]
    by_cases hij : i = j % 32
    · have hj : 32 * (j / 32) + i = j := by omega
      rw [if_pos hj]
      cases b <;> simp [hij, Nat.mod_lt]
    · have hj : 32 * (j / 32) + i ≠ j := by omega
      rw [if_neg hj]
      cases b <;> simp [hij, hi]
  · split
    · rfl
    · rw [if_neg]
      rintro rfl
      omega

/-- The mask of `clear_last`. -/
theorem getLsbD_mask (hk : k < 32) (hi : i < 32) :
    (((1 : BitVec 32) <<< k) - 1).getLsbD i = decide (i < k) := by
  have hmask : ∀ k : Fin 32, ((1 : BitVec 32) <<< k.val) - 1 = BitVec.ofNat 32 (2 ^ k.val - 1) := by decide
  rw [hmask ⟨k, hk⟩, BitVec.getLsbD_ofNat, Nat.testBit_two_pow_sub_one]
  simp [hi]

/-- What `clear_last` leaves: the last word without the bits behind the end. -/
theorem clear_last (h : v.Holds n f) :
    v.clear_last.Holds n fun i => if n ≤ i ∧ i < 32 * max 1 (words n) then false else f i := by
  obtain rfl := h.size
  unfold BABitvector.clear_last
  split
  · next hsize =>
    rw [List.set_eq_modify]
    refine (h.modify (g := fun _ => false) fun i _ => by simp).congr fun i _ => ?_
    exact if_congr (by simp [hsize, words]) rfl rfl
  split
  · next hsize hfull =>
    refine h.congr fun i _ => ?_
    rw [if_neg]
    unfold words
    omega
  · next hsize hfull =>
    have hwords : words v.size = (v.size - 1) / 32 + 1 := by
      unfold words
      omega
    have hlast : (v.size - 1) / 32 < kept v.size := by
      have hkept := words_le_kept v.size
      omega
    refine (h.modify (g := fun i => if v.size ≤ i then false else f i) fun i hi => ?_).congr fun i hi => ?_
    · rw [BitVec.getLsbD_and, getLsbD_mask (by omega) hi, h.word hlast hi]
      by_cases hi : v.size ≤ 32 * ((v.size - 1) / 32) + i
      · rw [if_pos hi, decide_eq_false (by omega), Bool.and_false]
      · rw [if_neg hi, decide_eq_true (by omega), Bool.and_true]
    · rw [hwords]
      by_cases hi : v.size ≤ i
      · by_cases hlast : i / 32 = (v.size - 1) / 32
        · rw [if_pos hlast, if_pos hi, if_pos ⟨hi, by omega⟩]
        · rw [if_neg hlast, if_neg (by omega)]
      · simp [hi]

theorem negate (h : v.Holds n f) : v.negate.Holds n fun i =>
    if n ≤ i ∧ i < 32 * max 1 (words n) then false else if i < 32 * words n then !f i else f i := by
  obtain rfl := h.size
  refine (h.forWords (g := fun i => !f i) fun k hk i hi => ?_).clear_last
  rw [BitVec.getLsbD_not, h.word (hk.trans_le (words_le_kept _)) hi]
  simp [hi]

theorem of_data {data : List (BitVec 32)} (hroom : kept n ≤ data.length)
    (hdata : ∀ k < kept n, ∀ i < 32, (data.getD k 0).getLsbD i = f (32 * k + i)) :
    (⟨n, data⟩ : BABitvector).Holds n f := by
  refine ⟨rfl, hroom, fun i hi => ?_⟩
  have hbit := hdata (i / 32) (by omega) (i % 32) (by omega)
  rwa [Nat.div_add_mod] at hbit

/-- The same words with another length. -/
theorem of_words (h : v.Holds n f) {data : List (BitVec 32)} (hroom : kept m ≤ data.length)
    (hword : ∀ k < kept m, data.getD k 0 = if k < kept n then v.word k else 0) :
    (⟨m, data⟩ : BABitvector).Holds m fun i => if i < 32 * kept n then f i else false := by
  refine of_data hroom fun k hk i hi => ?_
  rw [hword k hk]
  by_cases hn : k < kept n
  · rw [if_pos hn, if_pos (by omega), h.word hn hi]
  · rw [if_neg hn, if_neg (by omega)]
    exact BitVec.getLsbD_zero

/-- Bits that a vector gets when it grows are false, but those of the words it had come back. -/
theorem resize (h : v.Holds n f) (m : Nat) :
    (v.resize m).Holds m fun i => if i < 32 * kept n then f i else false := by
  obtain rfl := h.size
  have hroom := h.room
  by_cases hm : 64 < m
  · have hwant : (m - 1) / 32 + 1 = kept m := by
      unfold kept words
      omega
    unfold BABitvector.resize
    rw [if_pos hm]
    obtain ⟨hlen, hword⟩ := resize_to_max_spec (m - 1) true h.room
    rw [hwant] at hlen hword
    exact h.of_words hlen hword
  · have hkept : kept m ≤ kept v.size := by
      unfold kept words
      omega
    unfold BABitvector.resize
    rw [if_neg hm]
    exact h.of_words (hkept.trans h.room) fun k hk => by rw [if_pos (hk.trans_le hkept)]; rfl

theorem ofSize (n : Nat) : (ofSize n).Holds n fun _ => false := by
  have hzero (k : Nat) : (⟨n, [0, 0]⟩ : BABitvector).word k = 0 := by
    match k with
    | 0 | 1 | k + 2 => rfl
  unfold BABitvector.ofSize
  dsimp only
  split
  · next hn =>
    have hwant : (n - 1) / 32 + 1 = kept n := by
      unfold kept words
      omega
    obtain ⟨hroom, hword⟩ := resize_to_max_spec (v := ⟨n, [0, 0]⟩) (n - 1) false (by simp)
    rw [hwant] at hroom hword
    refine of_data hroom fun k hk i _ => ?_
    rw [hword k hk, hzero, ite_self]
    exact BitVec.getLsbD_zero
  · next hn =>
    have hkept : kept n = 2 := by
      unfold kept words
      omega
    refine of_data (by simp [hkept]) fun k _ i _ => ?_
    rw [show ([0, 0] : List (BitVec 32)).getD k 0 = 0 from hzero k]
    exact BitVec.getLsbD_zero

theorem copy (h : v.Holds n f) : v.copy.Holds n f := by
  obtain rfl := h.size
  have hroom := h.room
  unfold BABitvector.copy
  split
  · next hn =>
    have hkept : kept v.size = words v.size := by
      unfold kept words
      omega
    refine of_data (by simp; omega) fun k hk i hi => ?_
    rw [← h.word hk hi, BABitvector.word]
    simp [hkept ▸ hk]
  · next hn =>
    have hkept : kept v.size = 2 := by
      unfold kept words
      omega
    refine of_data (by simp [hkept]) fun k hk i hi => ?_
    rw [← h.word hk hi]
    have hcases : k = 0 ∨ k = 1 := by omega
    obtain rfl | rfl := hcases <;> rfl

theorem assignFrom (v : BABitvector) (h : w.Holds n f) : (v.assignFrom w).Holds n f := by
  obtain rfl := h.size
  have hroom := h.room
  unfold BABitvector.assignFrom
  split
  · next hn =>
    have hkept : kept w.size = 2 := max_eq_right hn
    refine of_data (by simp; omega) fun k hk i hi => ?_
    rw [← h.word hk hi, BABitvector.word, List.getD_append _ _ _ _ (by simp; omega)]
    simp [hkept ▸ hk]
  · next hn =>
    have hkept : kept w.size = words w.size := max_eq_left (by omega)
    refine of_data (by simp; omega) fun k hk i hi => ?_
    rw [← h.word hk hi, BABitvector.word]
    simp [hkept ▸ hk]

/-- `operator|=` of a vector that is not longer. -/
theorem orEq (h : v.Holds n f) (hw : w.Holds m g) (hle : n ≤ m) : (v.orEq w).Holds m fun i =>
    if i < 32 * words m then (if i < 32 * kept n then f i else false) || g i
    else if i < 32 * kept n then f i else false := by
  have hgrown : (if v.size < w.size then v.resize w.size else v).Holds m
      fun i => if i < 32 * kept n then f i else false := by
    rw [h.size, hw.size]
    split
    · exact h.resize m
    · obtain rfl : n = m := by omega
      exact h.congr fun i hi => (if_pos hi).symm
  exact hgrown.orWords hw

theorem assign (h : v.Holds n f) (m : Nat) (b : Bool) : (v.assign m b).Holds m fun i =>
    if b ∧ m ≤ i ∧ i < 32 * max 1 (words m) then false
    else if i < 32 * max 1 (words m) then b
    else if i < 32 * kept n then f i else false := by
  have hcopy : (if 32 < m then words m - 1 else 0) + 1 = max 1 (words m) := by
    unfold words
    split <;> omega
  have hfilled := (h.resize m).forWords (j := max 1 (words m)) (g := fun _ => b)
    (F := fun _ _ => if b then BitVec.allOnes 32 else 0) fun k _ i hi => by
      cases b with
      | false => exact BitVec.getLsbD_zero
      | true => exact (BitVec.getLsbD_allOnes ..).trans (decide_eq_true hi)
  unfold BABitvector.assign
  dsimp only
  rw [hcopy]
  cases b with
  | false => simpa using hfilled
  | true => simpa using hfilled.clear_last

end Holds

/-! ## Vectors of bits -/

theorem le_of_not_lt_words (hi : ¬ i < 32 * words n) : n ≤ i := by
  unfold words at hi
  omega

/-- No bit of a list is behind the words of its vector. -/
theorem getD_kept (l : List Bool) (i : Nat) :
    (if i < 32 * kept l.length then l.getD i false else false) = l.getD i false := by
  split
  · rfl
  · next hi =>
    refine (List.getD_eq_default _ _ ?_).symm
    unfold kept words at hi
    omega

theorem getD_zipWith {f : Bool → Bool → Bool} (hf : f false false = false) (hlen : l.length = l'.length)
    (i : Nat) : (List.zipWith f l l').getD i false = f (l.getD i false) (l'.getD i false) := by
  by_cases hi : i < l.length
  · rw [List.getD_eq_getElem _ _ (by simpa [← hlen] using hi), List.getD_eq_getElem _ _ hi,
      List.getD_eq_getElem _ _ (hlen ▸ hi), List.getElem_zipWith]
  · rw [List.getD_eq_default _ _ (by simpa [← hlen] using hi), List.getD_eq_default _ _ (by omega),
      List.getD_eq_default _ _ (by omega), hf]

/-- Bits that are added are false. -/
def extend (l : List Bool) (n : Nat) : List Bool := l ++ List.replicate (n - l.length) false

theorem getD_extend (l : List Bool) (n i : Nat) : (extend l n).getD i false = l.getD i false := by
  unfold extend
  by_cases hi : i < l.length
  · rw [List.getD_append _ _ _ _ hi]
  · rw [List.getD_append_right _ _ _ _ (by omega), List.getD_eq_default l _ (by omega)]
    simp

theorem length_extend (hle : l.length ≤ n) : (extend l n).length = n := by
  simp [extend, hle]

namespace Represents

theorem of_holds (h : v.Holds n f) (hl : l.length = n) (hbit : ∀ i < 32 * kept n, f i = l.getD i false) :
    v.Represents l := by
  subst hl
  exact h.congr hbit

theorem ofSize (n : Nat) : (ofSize n).Represents (List.replicate n false) :=
  of_holds (.ofSize n) (by simp) fun i _ => by simp

theorem copy (h : v.Represents l) : v.copy.Represents l := Holds.copy h

theorem assignFrom (v : BABitvector) (h : w.Represents l) : (v.assignFrom w).Represents l :=
  Holds.assignFrom v h

/-- A vector can be made shorter when the bits that stay in its words are false. -/
theorem resize_iff (h : v.Represents l) : (v.resize n).Represents (extend (l.take n) n) ↔
    ∀ k < 32 * kept n, n ≤ k → l.getD k false = false := by
  have hlen : (extend (l.take n) n).length = n := length_extend (by simp)
  have hheld := Holds.resize h n
  have htake : ∀ k, (extend (l.take n) n).getD k false = if k < n then l.getD k false else false := by
    intro k
    rw [getD_extend]
    by_cases hk : k < n
    · rw [if_pos hk]
      simp [List.getD_eq_getElem?_getD, hk]
    · rw [if_neg hk]
      exact List.getD_eq_default _ _ (by simp; omega)
  constructor
  · intro hrep k hk hn
    have hbit := hrep.bit k (by rwa [hlen])
    rw [hheld.bit k hk, getD_kept, htake, if_neg (by omega)] at hbit
    exact hbit
  · intro hfalse
    refine of_holds hheld hlen fun k hk => ?_
    rw [getD_kept, htake]
    split
    · rfl
    · exact hfalse k hk (by omega)

theorem assign (h : v.Represents l) (hle : l.length ≤ n) (b : Bool) :
    (v.assign n b).Represents (List.replicate n b) := by
  refine of_holds (Holds.assign h n b) (by simp) fun i _ => ?_
  by_cases hi : i < n
  · have hbit : (List.replicate n b).getD i false = b := by simp [hi]
    rw [hbit, if_neg (by omega), if_pos]
    unfold words
    omega
  · have hbit : (List.replicate n b).getD i false = false := by simp [hi]
    rw [hbit, List.getD_eq_default l _ (by omega), ite_self]
    cases b <;> grind

theorem ofSizeBit (n : Nat) (b : Bool) : (ofSizeBit n b).Represents (List.replicate n b) := by
  unfold BABitvector.ofSizeBit
  cases b with
  | false => exact ofSize n
  | true => exact (ofSize n).assign (by simp) true

theorem clear (h : v.Represents l) : v.clear.Represents (List.replicate l.length false) := by
  refine of_holds (Holds.clear h) (by simp) fun i _ => ?_
  split
  · simp
  · next hi =>
    rw [List.getD_eq_default _ _ (le_of_not_lt_words hi)]
    simp

theorem negate (h : v.Represents l) : v.negate.Represents (l.map not) := by
  refine of_holds (Holds.negate h) (by simp) fun i _ => ?_
  by_cases hi : i < l.length
  · rw [if_neg (by omega), if_pos (by unfold words; omega), List.getD_eq_getElem _ _ hi,
      List.getD_eq_getElem _ _ (by simpa using hi), List.getElem_map]
  · rw [List.getD_eq_default l _ (by omega), List.getD_eq_default (l.map not) _ (by simpa using hi)]
    split
    · rfl
    · rw [if_neg (by omega)]

theorem andEq (h : v.Represents l) (hw : w.Represents l') (hlen : l.length = l'.length) :
    (v.andEq w).Represents (List.zipWith and l l') := by
  have hw : w.Holds l.length fun i => l'.getD i false := hlen ▸ hw
  refine of_holds (Holds.andEq h hw) (by simp [hlen]) fun i _ => ?_
  rw [getD_zipWith rfl hlen]
  split
  · rfl
  · next hi => rw [List.getD_eq_default _ _ (le_of_not_lt_words hi), Bool.false_and]

theorem xorEq (h : v.Represents l) (hw : w.Represents l') (hlen : l.length = l'.length) :
    (v.xorEq w).Represents (List.zipWith xor l l') := by
  have hw : w.Holds l.length fun i => l'.getD i false := hlen ▸ hw
  refine of_holds (Holds.xorEq h hw) (by simp [hlen]) fun i _ => ?_
  rw [getD_zipWith rfl hlen]
  split
  · rfl
  · next hi =>
    rw [List.getD_eq_default _ _ (le_of_not_lt_words hi),
      List.getD_eq_default _ _ (le_of_not_lt_words (hlen ▸ hi)), Bool.xor_false]

theorem orEq (h : v.Represents l) (hw : w.Represents l') (hle : l.length ≤ l'.length) :
    (v.orEq w).Represents (List.zipWith or (extend l l'.length) l') := by
  have hlen : (extend l l'.length).length = l'.length := length_extend hle
  refine of_holds (Holds.orEq h hw hle) (by simp [hlen]) fun i _ => ?_
  rw [getD_zipWith rfl hlen, getD_extend, getD_kept]
  split
  · rfl
  · next hi => rw [List.getD_eq_default l' _ (le_of_not_lt_words hi), Bool.or_false]

theorem setBit (h : v.Represents l) (hi : i < l.length) (b : Bool) : (v.setBit i b).Represents (l.set i b) := by
  have hkept : i < 32 * kept l.length := by
    unfold kept words
    omega
  refine of_holds (Holds.setBit h hkept b) (by simp) fun j _ => ?_
  by_cases hj : j = i
  · subst hj
    simp [hi]
  · simp [hj, Ne.symm hj]

/-! ## What is read from a vector -/

theorem bit_eq (h : v.Represents l) (hi : i < l.length) : v.bit i = l[i] := by
  rw [h.bit i (by unfold kept words; omega), List.getD_eq_getElem _ _ hi]

theorem zero_iff (h : v.Represents l) : v.zero ↔ ∀ b ∈ l, b = false := by
  have hkept := words_le_kept l.length
  unfold BABitvector.zero
  rw [h.size]
  constructor
  · intro hzero b hb
    obtain ⟨i, hi, rfl⟩ := List.mem_iff_getElem.mp hb
    rw [← h.bit_eq hi, BABitvector.bit, hzero _ (by unfold words; omega)]
    exact BitVec.getLsbD_zero
  · intro hfalse k hk
    refine BitVec.eq_of_getLsbD_eq fun i hi => ?_
    rw [Holds.word h (by omega) hi, show (0 : BitVec 32).getLsbD i = false from BitVec.getLsbD_zero]
    by_cases hlt : 32 * k + i < l.length
    · rw [List.getD_eq_getElem _ _ hlt]
      exact hfalse _ (List.getElem_mem hlt)
    · exact List.getD_eq_default _ _ (by omega)

theorem take_eq_iff {data data' : List (BitVec 32)} (hn : n ≤ data.length) (hn' : n ≤ data'.length) :
    data.take n = data'.take n ↔ ∀ k < n, data.getD k 0 = data'.getD k 0 := by
  constructor
  · intro heq k hk
    have htake := congrArg (·.getD k 0) heq
    simpa [hk] using htake
  · intro hall
    refine List.ext_getElem (by simp [hn, hn']) fun k hk hk' => ?_
    have hk := hall k (by simp at hk; omega)
    rw [List.getD_eq_getElem _ _ (by simp at hk'; omega), List.getD_eq_getElem _ _ (by simp at hk'; omega)] at hk
    simpa using hk

/-- Nothing but the bits is compared. -/
theorem eq_iff (h : v.Represents l) (hw : w.Represents l') : v.eq w ↔ l = l' := by
  unfold BABitvector.eq
  rw [h.size, hw.size]
  by_cases hlen : l.length = l'.length
  case neg =>
    rw [if_pos hlen]
    exact iff_of_false Bool.false_ne_true fun heq => hlen (congrArg _ heq)
  have hwords : (if l.length ≤ 64 then decide (v.data.take 2 = w.data.take 2)
      else decide (v.data.take (words l.length) = w.data.take (words l.length))) =
      decide (v.data.take (kept l.length) = w.data.take (kept l.length)) := by
    split
    · rw [show kept l.length = 2 by unfold kept words; omega]
    · rw [show kept l.length = words l.length by unfold kept words; omega]
  have hroom : kept l.length ≤ w.data.length := hlen ▸ hw.room
  rw [if_neg (not_not.mpr hlen), hwords, decide_eq_true_iff, take_eq_iff h.room hroom]
  constructor
  · intro hall
    refine List.ext_getElem hlen fun i hi hi' => ?_
    rw [← h.bit_eq hi, ← hw.bit_eq hi']
    exact bit_of_word_eq (hall _ (by unfold kept words; omega))
  · rintro rfl k hk
    refine BitVec.eq_of_getLsbD_eq fun i hi => ?_
    exact (Holds.word h hk hi).trans (Holds.word hw hk hi).symm

theorem to_string_eq (h : v.Represents l) :
    v.to_string = l.reverse.map fun b => if b then '1' else '0' := by
  refine List.ext_getElem (by simp [to_string, h.size]) fun i hi hi' => ?_
  have hlt : i < l.length := by simpa [to_string, h.size] using hi
  simp [to_string, h.size, h.bit_eq (show l.length - i - 1 < l.length by omega), Nat.sub_right_comm]

end Represents

/-! ## A program with vectors -/

/-- The operations on vectors that are numbered in the order of their making. -/
inductive Op
  | make (n : Nat) (b : Bool)
  | copy (i : Nat)
  | assignFrom (i j : Nat)
  | assign (i n : Nat) (b : Bool)
  | resize (i n : Nat)
  | clear (i : Nat)
  | negate (i : Nat)
  | andEq (i j : Nat)
  | orEq (i j : Nat)
  | xorEq (i j : Nat)
  | setBit (i k : Nat) (b : Bool)

/-- The operations on the words. `none` stands for an assertion that fails or a vector that is not there. -/
def Op.run (s : List BABitvector) : Op → Option (List BABitvector)
  | .make n b => some (s ++ [.ofSizeBit n b])
  | .copy i => do
    let v ← s[i]?
    return s ++ [v.copy]
  | .assignFrom i j => do
    let v ← s[i]?
    let o ← s[j]?
    if i = j then return s else return s.set i (v.assignFrom o)
  | .assign i n b => do
    let v ← s[i]?
    return s.set i (v.assign n b)
  | .resize i n => do
    let v ← s[i]?
    return s.set i (v.resize n)
  | .clear i => do
    let v ← s[i]?
    return s.set i v.clear
  | .negate i => do
    let v ← s[i]?
    return s.set i v.negate
  | .andEq i j => do
    let v ← s[i]?
    let o ← s[j]?
    if v.size = o.size then return s.set i (v.andEq o) else none
  | .orEq i j => do
    let v ← s[i]?
    let o ← s[j]?
    if v.size ≤ o.size then return s.set i (v.orEq o) else none
  | .xorEq i j => do
    let v ← s[i]?
    let o ← s[j]?
    if v.size = o.size then return s.set i (v.xorEq o) else none
  | .setBit i k b => do
    let v ← s[i]?
    if k < v.size then return s.set i (v.setBit k b) else none

/-- What the operations mean for the bits. A vector is made shorter only when that leaves no bit behind. -/
def Op.bits (t : List (List Bool)) : Op → Option (List (List Bool))
  | .make n b => some (t ++ [List.replicate n b])
  | .copy i => do
    let l ← t[i]?
    return t ++ [l]
  | .assignFrom i j => do
    let _ ← t[i]?
    let l' ← t[j]?
    return t.set i l'
  | .assign i n b => do
    let l ← t[i]?
    if l.length ≤ n then return t.set i (List.replicate n b) else none
  | .resize i n => do
    let l ← t[i]?
    if ∀ k < 32 * kept n, n ≤ k → l.getD k false = false then return t.set i (extend (l.take n) n) else none
  | .clear i => do
    let l ← t[i]?
    return t.set i (List.replicate l.length false)
  | .negate i => do
    let l ← t[i]?
    return t.set i (l.map not)
  | .andEq i j => do
    let l ← t[i]?
    let l' ← t[j]?
    if l.length = l'.length then return t.set i (List.zipWith and l l') else none
  | .orEq i j => do
    let l ← t[i]?
    let l' ← t[j]?
    if l.length ≤ l'.length then return t.set i (List.zipWith or (extend l l'.length) l') else none
  | .xorEq i j => do
    let l ← t[i]?
    let l' ← t[j]?
    if l.length = l'.length then return t.set i (List.zipWith xor l l') else none
  | .setBit i k b => do
    let l ← t[i]?
    if k < l.length then return t.set i (l.set k b) else none

section

variable {s : List BABitvector} {t t' : List (List Bool)}

theorem exists_vector (h : List.Forall₂ Represents s t) (hl : t[i]? = some l) :
    ∃ v, s[i]? = some v ∧ v.Represents l := by
  induction h generalizing i with
  | nil => cases hl
  | cons hv _ ih =>
    cases i with
    | zero =>
      obtain rfl := Option.some.inj hl
      exact ⟨_, rfl, hv⟩
    | succ i => exact ih hl

theorem set_vector (h : List.Forall₂ Represents s t) (hv : v.Represents l) :
    List.Forall₂ Represents (s.set i v) (t.set i l) := by
  induction h generalizing i with
  | nil => exact .nil
  | cons hw hrest ih =>
    cases i with
    | zero => exact .cons hv hrest
    | succ i => exact .cons hw ih

theorem add_vector (h : List.Forall₂ Represents s t) (hv : v.Represents l) :
    List.Forall₂ Represents (s ++ [v]) (t ++ [l]) :=
  List.rel_append h (.cons hv .nil)

theorem exists_one {F : List Bool → Option (List (List Bool))} (h : List.Forall₂ Represents s t)
    (hF : (do let l ← t[i]?; F l) = some t') :
    ∃ v l, s[i]? = some v ∧ v.Represents l ∧ F l = some t' := by
  obtain ⟨l, hl, hF⟩ := Option.bind_eq_some_iff.mp hF
  obtain ⟨v, hv, hrep⟩ := exists_vector h hl
  exact ⟨v, l, hv, hrep, hF⟩

theorem exists_two {F : List Bool → List Bool → Option (List (List Bool))} (h : List.Forall₂ Represents s t)
    (hF : (do let l ← t[i]?; let l' ← t[j]?; F l l') = some t') :
    ∃ v w l l', s[i]? = some v ∧ s[j]? = some w ∧ v.Represents l ∧ w.Represents l' ∧ F l l' = some t' := by
  obtain ⟨v, l, hv, hrep, hF⟩ := exists_one h hF
  obtain ⟨w, l', hw, hrep', hF⟩ := exists_one h hF
  exact ⟨v, w, l, l', hv, hw, hrep, hrep', hF⟩

theorem Op.refines {op : Op} (h : List.Forall₂ Represents s t) (ht : op.bits t = some t') :
    ∃ s', op.run s = some s' ∧ List.Forall₂ Represents s' t' := by
  cases op with
  | make n b =>
    obtain rfl := Option.some.inj ht
    exact ⟨_, rfl, add_vector h (.ofSizeBit n b)⟩
  | copy i =>
    obtain ⟨v, l, hv, hrep, hF⟩ := exists_one h ht
    obtain rfl := Option.some.inj hF
    exact ⟨_, by rw [run, hv]; rfl, add_vector h hrep.copy⟩
  | assignFrom i j =>
    obtain ⟨v, w, l, l', hv, hw, -, hrep, hF⟩ := exists_two h ht
    obtain rfl := Option.some.inj hF
    by_cases hij : i = j
    · refine ⟨s, by simp only [run, hv, hw, if_pos hij, Option.bind_eq_bind, Option.bind_some]; rfl, ?_⟩
      have hsame : s.set i w = s := by
        obtain ⟨hlt, hget⟩ := List.getElem?_eq_some_iff.mp (hij ▸ hw)
        rw [← hget, List.set_getElem_self]
      exact hsame ▸ set_vector h hrep
    · exact ⟨_, by simp only [run, hv, hw, if_neg hij, Option.bind_eq_bind, Option.bind_some]; rfl,
        set_vector h (hrep.assignFrom v)⟩
  | assign i n b =>
    obtain ⟨v, l, hv, hrep, hF⟩ := exists_one h ht
    split at hF
    · next hle =>
      obtain rfl := Option.some.inj hF
      exact ⟨_, by rw [run, hv]; rfl, set_vector h (hrep.assign hle b)⟩
    · cases hF
  | resize i n =>
    obtain ⟨v, l, hv, hrep, hF⟩ := exists_one h ht
    split at hF
    · next hclean =>
      obtain rfl := Option.some.inj hF
      exact ⟨_, by rw [run, hv]; rfl, set_vector h (hrep.resize_iff.mpr hclean)⟩
    · cases hF
  | clear i =>
    obtain ⟨v, l, hv, hrep, hF⟩ := exists_one h ht
    obtain rfl := Option.some.inj hF
    exact ⟨_, by rw [run, hv]; rfl, set_vector h hrep.clear⟩
  | negate i =>
    obtain ⟨v, l, hv, hrep, hF⟩ := exists_one h ht
    obtain rfl := Option.some.inj hF
    exact ⟨_, by rw [run, hv]; rfl, set_vector h hrep.negate⟩
  | andEq i j =>
    obtain ⟨v, w, l, l', hv, hw, hrep, hrep', hF⟩ := exists_two h ht
    split at hF
    · next hlen =>
      obtain rfl := Option.some.inj hF
      have hsize : v.size = w.size := by rw [hrep.size, hrep'.size, hlen]
      exact ⟨_, by simp only [run, hv, hw, if_pos hsize, Option.bind_eq_bind, Option.bind_some]; rfl,
        set_vector h (hrep.andEq hrep' hlen)⟩
    · cases hF
  | orEq i j =>
    obtain ⟨v, w, l, l', hv, hw, hrep, hrep', hF⟩ := exists_two h ht
    split at hF
    · next hlen =>
      obtain rfl := Option.some.inj hF
      have hsize : v.size ≤ w.size := by rwa [hrep.size, hrep'.size]
      exact ⟨_, by simp only [run, hv, hw, if_pos hsize, Option.bind_eq_bind, Option.bind_some]; rfl,
        set_vector h (hrep.orEq hrep' hlen)⟩
    · cases hF
  | xorEq i j =>
    obtain ⟨v, w, l, l', hv, hw, hrep, hrep', hF⟩ := exists_two h ht
    split at hF
    · next hlen =>
      obtain rfl := Option.some.inj hF
      have hsize : v.size = w.size := by rw [hrep.size, hrep'.size, hlen]
      exact ⟨_, by simp only [run, hv, hw, if_pos hsize, Option.bind_eq_bind, Option.bind_some]; rfl,
        set_vector h (hrep.xorEq hrep' hlen)⟩
    · cases hF
  | setBit i k b =>
    obtain ⟨v, l, hv, hrep, hF⟩ := exists_one h ht
    split at hF
    · next hk =>
      obtain rfl := Option.some.inj hF
      have hsize : k < v.size := by rwa [hrep.size]
      exact ⟨_, by simp only [run, hv, if_pos hsize, Option.bind_eq_bind, Option.bind_some]; rfl,
        set_vector h (hrep.setBit hk b)⟩
    · cases hF

theorem run_refines (ops : List Op) (h : List.Forall₂ Represents s t) (ht : ops.foldlM Op.bits t = some t') :
    ∃ s', ops.foldlM Op.run s = some s' ∧ List.Forall₂ Represents s' t' := by
  induction ops generalizing s t with
  | nil =>
    obtain rfl := Option.some.inj ht
    exact ⟨s, rfl, h⟩
  | cons op ops ih =>
    rw [List.foldlM_cons] at ht
    obtain ⟨t₁, ht₁, ht⟩ := Option.bind_eq_some_iff.mp ht
    obtain ⟨s₁, hs₁, h₁⟩ := op.refines h ht₁
    obtain ⟨s', hs', h'⟩ := ih h₁ ht
    refine ⟨s', ?_, h'⟩
    rw [List.foldlM_cons, hs₁]
    exact hs'

/-- In every run of a program with vectors the words show nothing but the bits. -/
theorem vectors_refine (ops : List Op) (ht : ops.foldlM Op.bits [] = some t) :
    ∃ s, ops.foldlM Op.run [] = some s ∧ s.length = t.length ∧
      (∀ (i : Nat) (v : BABitvector) (l : List Bool), s[i]? = some v → t[i]? = some l → v.size = l.length ∧
        (∀ k < l.length, l[k]? = some (v.bit k)) ∧ (v.zero ↔ ∀ b ∈ l, b = false) ∧
        v.to_string = l.reverse.map fun b => if b then '1' else '0') ∧
      ∀ (i j : Nat) (v w : BABitvector) (l l' : List Bool), s[i]? = some v → t[i]? = some l →
        s[j]? = some w → t[j]? = some l' → (v.eq w = true ↔ l = l') := by
  obtain ⟨s, hs, h⟩ := run_refines ops .nil ht
  have hrep : ∀ {i : Nat} {v : BABitvector} {l : List Bool}, s[i]? = some v → t[i]? = some l →
      v.Represents l := by
    intro i v l hv hl
    obtain ⟨v', hv', hrep⟩ := exists_vector h hl
    obtain rfl := Option.some.inj (hv.symm.trans hv')
    exact hrep
  refine ⟨s, hs, h.length_eq, fun i v l hv hl => ?_, fun i j v w l l' hv hl hw hl' => ?_⟩
  · have hv := hrep hv hl
    refine ⟨hv.size, fun k hk => ?_, hv.zero_iff, hv.to_string_eq⟩
    rw [hv.bit_eq hk, List.getElem?_eq_getElem hk]
  · exact (hrep hv hl).eq_iff (hrep hw hl')

end

/-- A vector, the opposite of a copy, and both together. -/
theorem vectors_refine_two : ∃ s, [Op.make 3 true, .copy 0, .negate 1, .xorEq 0 1].foldlM Op.run [] = some s ∧
    s.length = 2 := by
  obtain ⟨s, hs, hlen, -⟩ := vectors_refine [.make 3 true, .copy 0, .negate 1, .xorEq 0 1]
    (t := [[true, true, true], [false, false, false]]) rfl
  exact ⟨s, hs, hlen⟩

/-! ## Identifiers as words -/

/-- The bits of an identifier, the lowest first. -/
def bitsOf (x : BitVec n) : List Bool := (List.range n).map x.getLsbD

section

variable {x y : BitVec n} {FID LID : Bitvector} {F L : BABitvector} {p : List UInt8}

@[simp]
theorem length_bitsOf (x : BitVec n) : (bitsOf x).length = n := by simp [bitsOf]

theorem getD_bitsOf (x : BitVec n) (i : Nat) : (bitsOf x).getD i false = x.getLsbD i := by
  by_cases hi : i < n
  · rw [List.getD_eq_getElem _ _ (by simpa using hi)]
    simp [bitsOf]
  · rw [List.getD_eq_default _ _ (by simpa using hi), BitVec.getLsbD_of_ge x i (by omega)]

theorem ext_getD (hlen : l.length = l'.length) (h : ∀ i < l.length, l.getD i false = l'.getD i false) : l = l' := by
  refine List.ext_getElem hlen fun i hi hi' => ?_
  have hbit := h i hi
  rwa [List.getD_eq_getElem _ _ hi, List.getD_eq_getElem _ _ hi'] at hbit

theorem bitsOf_inj : bitsOf x = bitsOf y ↔ x = y := by
  refine ⟨fun h => BitVec.eq_of_getLsbD_eq fun i _ => ?_, congrArg bitsOf⟩
  rw [← getD_bitsOf, ← getD_bitsOf, h]

theorem zipWith_bitsOf (x y : BitVec n) : List.zipWith and (bitsOf x) (bitsOf y) = bitsOf (x &&& y) := by
  refine ext_getD (by simp) fun i _ => ?_
  rw [getD_zipWith rfl (by simp), getD_bitsOf, getD_bitsOf, getD_bitsOf, BitVec.getLsbD_and]

theorem set_bitsOf (FID : Bitvector) (i : Nat) (b : Bool) :
    (bitsOf FID).set i b = bitsOf (FID.setBit i b) := by
  refine ext_getD (by simp) fun k hk => ?_
  have hk : k < fidBits := by simpa using hk
  rw [getD_bitsOf, Bitvector.getLsbD_setBit hk]
  by_cases hik : k = i
  · subst hik
    rw [if_pos rfl, List.getD_eq_getElem?_getD, List.getElem?_set_self (by simpa using hk), Option.getD_some]
  · rw [if_neg hik, ← getD_bitsOf, List.getD_eq_getElem?_getD, List.getElem?_set_ne (Ne.symm hik),
      ← List.getD_eq_getElem?_getD]

/-- The loops of `configure` over the string of an identifier. -/
theorem foldl_setBit (js : List Nat) (pos : Nat → Nat) (c : Nat → Bool) (hpos : ∀ j ∈ js, pos j < fidBits)
    (h : L.Represents (bitsOf LID)) : (js.foldl (fun v j => v.setBit (pos j) (c j)) L).Represents
      (bitsOf (js.foldl (fun v j => Bitvector.setBit v (pos j) (c j)) LID)) := by
  induction js generalizing L LID with
  | nil => exact h
  | cons j js ih =>
    rw [List.forall_mem_cons] at hpos
    refine ih hpos.2 ?_
    rw [← set_bitsOf]
    exact h.setBit (by simpa using hpos.1) (c j)

theorem represents_parse {s : List Char} (hs : s.length = fidBits) :
    ((List.range s.length).foldl (fun v j => v.setBit (s.length - j - 1) (s[j]? = some '1'))
      (ofSize fidBits)).Represents (bitsOf (Bitvector.parse s)) := by
  refine foldl_setBit _ (fun j => s.length - j - 1) (fun j => s[j]? = some '1') (fun j hj => ?_) ?_
  · have hj := List.mem_range.mp hj
    omega
  · have hzero : bitsOf (0 : Bitvector) = List.replicate fidBits false :=
      ext_getD (by simp) fun i _ => by
        rw [getD_bitsOf]
        simp
    rw [hzero]
    exact Represents.ofSize fidBits

theorem testBit_bytes (p : List UInt8) (i : Nat) : (p.foldr (fun (b : UInt8) n => b.toNat + 256 * n) 0).testBit i =
    (p.getD (i / 8) 0).toNat.testBit (i % 8) := by
  induction p generalizing i with
  | nil => simp
  | cons b p ih =>
    have hrest := ih (i - 8)
    rw [List.foldr_cons]
    generalize p.foldr (fun (b : UInt8) n => b.toNat + 256 * n) 0 = m at hrest ⊢
    rw [Nat.add_comm, show 256 = 2 ^ 8 from rfl, Nat.testBit_two_pow_mul_add _ b.toNat_lt]
    by_cases hi : i < 8
    · rw [if_pos hi, Nat.div_eq_of_lt hi, Nat.mod_eq_of_lt hi]
      rfl
    · rw [if_neg hi, hrest, show i / 8 = (i - 8) / 8 + 1 by omega, show i % 8 = (i - 8) % 8 by omega]
      rfl

theorem represents_ofBytes (p : List UInt8) : (ofBytes 8 p).Represents (bitsOf (Bitvector.ofData p)) := by
  have hheld : (ofBytes 8 p).Holds fidBits (Bitvector.ofData p).getLsbD := by
    refine Holds.of_data (by simp [kept, words]) fun k hk i hi => ?_
    have hk : k < 8 := hk
    have hword : ((List.range 8).map fun k => BitVec.ofNat 32
        (((p.drop (4 * k)).take 4).foldr (fun (b : UInt8) n => b.toNat + 256 * n) 0)).getD k 0 =
        BitVec.ofNat 32 (((p.drop (4 * k)).take 4).foldr (fun (b : UInt8) n => b.toNat + 256 * n) 0) := by
      simp [List.getD_eq_getElem?_getD, hk]
    have hbyte : ((p.drop (4 * k)).take 4).getD (i / 8) 0 = p.getD ((32 * k + i) / 8) 0 := by
      rw [List.getD_eq_getElem?_getD, List.getElem?_take, if_pos (by omega), List.getElem?_drop,
        show 4 * k + i / 8 = (32 * k + i) / 8 by omega, ← List.getD_eq_getElem?_getD]
    rw [hword, Bitvector.ofData, BitVec.getLsbD_ofNat, BitVec.getLsbD_ofNat, testBit_bytes, testBit_bytes, hbyte,
      show (32 * k + i) % 8 = i % 8 by omega, decide_eq_true hi,
      decide_eq_true (show 32 * k + i < 256 by omega)]
  exact Represents.of_holds hheld (length_bitsOf _) fun i _ => (getD_bitsOf _ i).symm

/-- `andVector = FID & LID` and the comparison with `LID`. -/
theorem includes_iff (andVector : BABitvector) (hF : F.Represents (bitsOf FID)) (hL : L.Represents (bitsOf LID)) :
    (andVector.assignFrom (F.copy.andEq L)).eq L = true ↔ FID.Includes LID := by
  have hand := (hF.copy.andEq hL (by simp)).assignFrom andVector
  rw [hand.eq_iff hL, zipWith_bitsOf, bitsOf_inj]
  rfl

/-- `testFID.negate()` and `testFID.zero()`. -/
theorem zero_negate_iff (hF : F.Represents (bitsOf FID)) :
    F.copy.negate.zero ↔ FID = BitVec.allOnes fidBits := by
  rw [hF.copy.negate.zero_iff]
  constructor
  · intro h
    refine BitVec.eq_of_getLsbD_eq fun i hi => ?_
    have hbit := h (!FID.getLsbD i) (by simp [bitsOf]; exact ⟨i, hi, rfl⟩)
    simpa [hi] using hbit
  · rintro rfl b hb
    obtain ⟨c, hc, rfl⟩ := List.mem_map.mp hb
    obtain ⟨i, hi, rfl⟩ := List.mem_map.mp hc
    simpa using hi

/-- The words of an identifier that `configure` sets from its string. -/
def ofChars (s : List Char) : BABitvector :=
  (List.range s.length).foldl (fun v j => v.setBit (s.length - j - 1) (s[j]? = some '1')) (ofSize fidBits)

/-- `andVector = FID & LID`, and the comparison with `LID`. -/
def includes (andVector F L : BABitvector) : Bool := (andVector.assignFrom (F.copy.andEq L)).eq L

variable {Addr : Type*} {links : List (LinkConf Addr)} {I andVector : BABitvector} {gc : GlobalConf}

/-- `push(0, p)` on the words: what is sent for the entries of the links. -/
def pushLocal (andVector : BABitvector) (links : List (LinkConf Addr)) (p payload : List UInt8) :
    List (Output Addr) :=
  (links.filter fun conf => includes andVector (ofBytes 8 p) (ofChars conf.LID)).map
    fun conf => Forwarder.send conf.entry (Bitvector.ofData p) payload

/-- `push(in_port, p)` on the words. `I` is the internal identifier. -/
def pushNetwork [DecidableEq Addr] (andVector I : BABitvector) (links : List (LinkConf Addr))
    (dst src : Addr) (p payload : List UInt8) : List (Output Addr) :=
  let frame : Frame Addr := ⟨dst, src, Bitvector.ofData p, payload⟩
  let outLinks :=
    if (ofBytes 8 p).copy.negate.zero then []
    else links.filter fun conf => includes andVector (ofBytes 8 p) (ofChars conf.LID) ∧
      ¬ Forwarder.Reverse conf.entry frame
  outLinks.map (fun conf => Forwarder.send conf.entry frame.FID payload) ++
    if includes andVector (ofBytes 8 p) I then [.localProxy payload] else []

theorem includes_chars {s : List Char} (hs : s.length = fidBits) :
    includes andVector (ofBytes 8 p) (ofChars s) = true ↔ (Bitvector.ofData p).Includes (Bitvector.parse s) :=
  includes_iff andVector (represents_ofBytes p) (represents_parse hs)

/-- The forwarder finds on the words what it finds on the identifiers. -/
theorem pushLocal_eq (hlinks : ∀ conf ∈ links, conf.LID.length = fidBits) (payload : List UInt8) :
    pushLocal andVector links p payload =
      (Forwarder.configure gc links).pushLocal ⟨Bitvector.ofData p, payload⟩ := by
  simp only [pushLocal, Forwarder.pushLocal, Forwarder.configure, List.filter_map, List.map_map]
  refine congrArg (List.map _) (List.filter_congr fun conf hconf => ?_)
  exact Bool.eq_iff_iff.mpr ((includes_chars (hlinks conf hconf)).trans decide_eq_true_iff.symm)

theorem pushNetwork_eq [DecidableEq Addr] (hlinks : ∀ conf ∈ links, conf.LID.length = fidBits)
    (hI : I.Represents (bitsOf gc.iLID)) (dst src : Addr) (payload : List UInt8) :
    pushNetwork andVector I links dst src p payload =
      (Forwarder.configure gc links).pushNetwork ⟨dst, src, Bitvector.ofData p, payload⟩ := by
  have hall := zero_negate_iff (represents_ofBytes p)
  have hlocal := includes_iff andVector (represents_ofBytes p) hI
  unfold pushNetwork Forwarder.pushNetwork
  dsimp only [Forwarder.configure]
  congr 1
  · by_cases hones : Bitvector.ofData p = BitVec.allOnes fidBits
    · rw [if_pos (hall.mpr hones), if_pos hones]
      rfl
    · rw [if_neg (mt hall.mp hones), if_neg hones, List.filter_map, List.map_map]
      refine congrArg (List.map _) (List.filter_congr fun conf hconf => ?_)
      exact decide_eq_decide.mpr (and_congr_left' (includes_chars (hlinks conf hconf)))
  · exact if_congr hlocal rfl rfl

end

end BABitvector

end Blackadder
