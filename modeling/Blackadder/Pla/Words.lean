import Blackadder.Pla.Field
import Mathlib.Tactic.IntervalCases

/-!
# Words of field elements

The six words of an `elem_t`, with coefficient zero at the highest bit of the first one, and the rotations of
`gnb.c` in place. `none` stands for an access outside the array.
-/

namespace Blackadder.Gnb

abbrev Words := Vector (BitVec 32) 6

namespace Words

/-- `MARGIN`: the bits of the last word that hold no coefficient. -/
abbrev margin : Nat := 29

def word (a : Words) (i : Nat) : BitVec 32 := a[i]?.getD 0

def put (a : Words) (i : Nat) (v : BitVec 32) : Words := a.setIfInBounds i v

def store (a : Words) (i : Nat) (v : BitVec 32) : Option Words :=
  if i < 6 then some (a.put i v) else none

def elemChomp (a : Words) : Words := a.put 5 (a.word 5 &&& (BitVec.allOnes 32 <<< margin))

/-- `(a >> s) | (b << (W - s))`. -/
def shiftIn (s : Nat) (a b : BitVec 32) : BitVec 32 := (a >>> s) ||| (b <<< (32 - s))

/-- The last loop of `elem_rrotate_n`, with the line behind it. -/
def shiftWords (a : Words) (s : Nat) : Words :=
  let a := [5, 4, 3, 2, 1].foldl (fun a i => a.put i (shiftIn s (a.word i) (a.word (i - 1)))) a
  a.put 0 ((a.word 0 >>> s) ||| (a.word 5 <<< (32 - margin)))

def elemRrotate (a : Words) : Words := elemChomp (shiftWords a 1)

def elemLrotate (a : Words) : Words :=
  let c := a.word 0 >>> 31
  let a := [0, 1, 2, 3, 4].foldl (fun a i => a.put i ((a.word i <<< 1) ||| (a.word (i + 1) >>> 31))) a
  a.put 5 ((a.word 5 <<< 1) ||| (c <<< margin))

def elemReverseWords (a : Words) (s n : Nat) : Option Words :=
  (List.range (n / 2)).foldlM (fun (a : Words) i => do
    let tmp ← a[i + s]?
    let last ← a[s + (n - 1) - i]?
    let a ← store a (i + s) last
    store a (s + (n - 1) - i) tmp) a

/-- A number that is still negative is where the second reversal starts. -/
def elemRotateWords (a : Words) (k : Int) : Option Words :=
  let k := if k < 0 ∨ degree ≤ k then (k + degree).tmod degree else k
  if k = 0 then some a
  else if k < 0 then none
  else do
    let a ← elemReverseWords a 0 k.toNat
    let a ← elemReverseWords a k.toNat (6 - k.toNat)
    elemReverseWords a 0 6

/-- The offset that `elem_rrotate_n` goes on with. -/
def normalOffset (offset : Int) : Int :=
  let offset := if offset < 0 ∨ degree ≤ offset then offset.tmod degree else offset
  if offset < 0 then offset + degree else offset

/-- The words that `elem_rotate_words` brought from the end move up to the first coefficient. -/
def closeMargin (a : Words) (count : Nat) : Option Words :=
  (List.range count).reverse.foldlM (fun (a : Words) i => do
    let cur ← a[i]?
    let prev ← a[(i + 5) % 6]?
    store a i (shiftIn margin cur prev)) a

theorem normalOffset_eq (offset : Int) : normalOffset offset = offset % degree := by
  have htmod := Int.tmod_eq_emod (a := offset) (b := degree)
  unfold normalOffset
  simp only [degree] at *
  split at htmod <;> grind

/-- `if(offset>=W)` of `elem_rrotate_n`. -/
def wholeWords (a : Words) (r : Nat) : Option Words :=
  if 32 ≤ r then do
    let a ← elemRotateWords a (6 - r / 32)
    let a ← closeMargin a (r / 32)
    return elemChomp a
  else some a

mutual

/-- The inner call is the step of the loop that follows. -/
def elemRrotateN (a : Words) (offset : Int) : Option Words :=
  if normalOffset offset = 0 then some a
  else do
    let r := (normalOffset offset).toNat
    let a ← wholeWords a r
    if r % 32 = 0 then return a
    else do
      let (a, s) ← rrotateMargins a (r % 32)
      return elemChomp (shiftWords a s)
termination_by ((normalOffset offset).toNat, 1)
decreasing_by
  rcases Nat.lt_or_eq_of_le (Nat.mod_le (normalOffset offset).toNat 32) with hlt | heq
  · exact Prod.Lex.left _ _ hlt
  · rw [heq]
    exact Prod.Lex.right _ Nat.zero_lt_one

/-- `while(offset>MARGIN)` of `elem_rrotate_n`. -/
def rrotateMargins (a : Words) (s : Nat) : Option (Words × Nat) :=
  if margin < s then do
    let a ← elemRrotateN a margin
    rrotateMargins a (s - margin)
  else return (a, s)
termination_by (s, 0)
decreasing_by
  · exact Prod.Lex.left _ _ ‹margin < s›
  · exact Prod.Lex.left _ _ (Nat.sub_lt (Nat.zero_lt_of_lt ‹margin < s›) (by decide))

end

section

variable {a a' : Words} {x y : BitVec 32} {e : Elem} {i j k q s t : Nat}

/-! ## Single words -/

@[simp]
theorem word_put (hi : i < 6) : (a.put i x).word j = if j = i then x else a.word j := by
  unfold word put
  rw [Vector.getElem?_setIfInBounds]
  grind

theorem getMsbD_shiftIn (hs : s ≤ 32) (ht : t < 32) :
    (shiftIn s x y).getMsbD t = if t < s then y.getMsbD (t + (32 - s)) else x.getMsbD (t - s) := by
  unfold shiftIn
  rw [BitVec.getMsbD_or, BitVec.getMsbD_ushiftRight, BitVec.getMsbD_shiftLeft]
  split
  · next h => simp [h, ht]
  · next h =>
    have hbeyond : 32 ≤ t + (32 - s) := by omega
    simp [h, ht, BitVec.getMsbD_of_ge _ _ hbeyond]

theorem word_shiftWords (hj : j < 6) : (shiftWords a s).word j =
    if j = 0 then (a.word 0 >>> s) ||| (shiftIn s (a.word 5) (a.word 4) <<< (32 - margin))
    else shiftIn s (a.word j) (a.word (j - 1)) := by
  unfold shiftWords
  interval_cases j <;> simp

theorem word_elemChomp (hj : j < 6) : (elemChomp a).word j =
    if j = 5 then a.word 5 &&& (BitVec.allOnes 32 <<< margin) else a.word j := by
  unfold elemChomp
  interval_cases j <;> simp

/-! ## Coefficients -/

def coef (a : Words) (k : Nat) : Bool := (a.word (k / 32)).getMsbD (k % 32)

/-- The words of a field element, with nothing in the bits that are left over. -/
structure Holds (a : Words) (e : Elem) : Prop where
  coefs : ∀ k < degree, a.coef k = cyc e k
  rest : ∀ k, degree ≤ k → k < 192 → a.coef k = false

theorem coef_at (ht : t < 32) (hk : k = 32 * j + t) : a.coef k = (a.word j).getMsbD t := by
  have hdiv : k / 32 = j := by omega
  have hmod : k % 32 = t := by omega
  rw [coef, hdiv, hmod]

theorem word_eq (hj : j < 6) : a.word j = a[j] := by
  simp [word, hj]

theorem ext_coef (h : ∀ k < 192, a.coef k = a'.coef k) : a = a' := by
  refine Vector.ext fun j hj => ?_
  rw [← word_eq hj, ← word_eq hj]
  refine BitVec.eq_of_getMsbD_eq fun t ht => ?_
  rw [← coef_at ht rfl, ← coef_at ht rfl]
  exact h _ (by omega)

theorem coef_elemChomp (hk : k < 192) : (elemChomp a).coef k = (decide (k < degree) && a.coef k) := by
  have ht : k % 32 < 32 := Nat.mod_lt _ (by decide)
  unfold coef
  rw [word_elemChomp (by omega)]
  split
  · next hlast =>
    have hin : k % 32 + margin < 32 ↔ k < degree := by simp only [margin, degree]; omega
    rw [hlast, BitVec.getMsbD_and, BitVec.getMsbD_shiftLeft, BitVec.getMsbD_allOnes, Bool.and_comm]
    simp only [hin]
  · next hfull =>
    have hin : k < degree := by simp only [degree]; omega
    simp [hin]

theorem coef_shiftWords (ha : Holds a e) (hpos : 0 < s) (hs : s ≤ margin) (hk : k < degree) :
    (shiftWords a s).coef k = if k < s then a.coef (k + degree - s) else a.coef (k - s) := by
  simp only [margin, degree] at hs hk ⊢
  have ht : k % 32 < 32 := Nat.mod_lt _ (by decide)
  rw [coef, word_shiftWords (by omega)]
  split
  · next hfirst =>
    have ht' : k % 32 = k := by omega
    have hcarried : 32 - margin = 3 := rfl
    rw [ht', hcarried, BitVec.getMsbD_or, BitVec.getMsbD_ushiftRight, BitVec.getMsbD_shiftLeft]
    split
    · next hcarry =>
      rw [decide_eq_true hcarry, Bool.not_true, Bool.false_and, Bool.and_false, Bool.false_or,
        getMsbD_shiftIn (by omega) (by omega)]
      split
      · exact (coef_at (by omega) (by omega)).symm
      · exact (coef_at (by omega) (by omega)).symm
    · next hin =>
      -- What comes around the end is margin.
      have hzero : (shiftIn s (a.word 5) (a.word 4)).getMsbD (k + 3) = false := by
        by_cases hlow : k + 3 < 32
        · rw [getMsbD_shiftIn (by omega) hlow, if_neg (by omega), ← coef_at (by omega) rfl]
          exact ha.rest _ (by simp only [degree]; omega) (by omega)
        · exact BitVec.getMsbD_of_ge _ _ (by omega)
      have hlt : k < 32 := by omega
      rw [hzero, decide_eq_true hlt, decide_eq_false hin, Bool.or_false, Bool.true_and, Bool.not_false,
        Bool.true_and]
      exact (coef_at (by omega) (by omega)).symm
  · next hrest =>
    rw [getMsbD_shiftIn (by omega) ht]
    split
    · rw [if_neg (by omega)]
      exact (coef_at (by omega) (by omega)).symm
    · rw [if_neg (by omega)]
      exact (coef_at (by omega) (by omega)).symm

/-! ## Rotations -/

theorem holds_rotated (hm : q ≤ degree) (hcoef : ∀ k < degree, a'.coef k = cyc e (k + degree - q)) :
    Holds (elemChomp a') (Gnb.elemRrotateN e q) where
  coefs k hk := by
    have hturn : k + degree - q + q = k + degree := by omega
    rw [coef_elemChomp (by simp only [degree] at hk; omega), decide_eq_true hk, Bool.true_and,
      hcoef k hk, ← cyc_rrotateN (i := q), hturn, ← cyc_mod, Nat.add_mod_right, cyc_mod]
  rest k hk hlt := by
    rw [coef_elemChomp hlt, decide_eq_false (Nat.not_lt.mpr hk), Bool.false_and]

theorem Holds.turned (ha : Holds a e) (hk : k < degree) (hle : q ≤ degree) :
    cyc e (k + degree - q) = if k < q then a.coef (k + degree - q) else a.coef (k - q) := by
  split
  · rw [ha.coefs _ (by omega)]
  · have hturn : k + degree - q = k - q + degree := by omega
    rw [ha.coefs _ (by omega), hturn, ← cyc_mod, Nat.add_mod_right, cyc_mod]

theorem Holds.shiftWords (ha : Holds a e) (hpos : 0 < s) (hs : s ≤ margin) :
    Holds (elemChomp (shiftWords a s)) (Gnb.elemRrotateN e s) := by
  have hle : s ≤ degree := by simp only [margin, degree] at *; omega
  refine holds_rotated hle fun k hk => ?_
  rw [coef_shiftWords ha hpos hs hk, ha.turned hk hle]

theorem Holds.rrotate (ha : Holds a e) : Holds (elemRrotate a) (Gnb.elemRrotate e) :=
  ha.shiftWords (by decide) (by decide)

theorem getElem?_word (hj : j < 6) : a[j]? = some (a.word j) := by
  rw [Vector.getElem?_eq_getElem hj, word_eq hj]

theorem store_word (hi : i < 6) : store a i x = some (a.put i x) := if_pos hi

theorem reverseWords_loop {m n : Nat} (h : s + n ≤ 6) (hm : m ≤ n / 2) : ∃ a',
    (List.range m).foldlM (fun (a : Words) i => do
      let tmp ← a[i + s]?
      let last ← a[s + (n - 1) - i]?
      let a ← store a (i + s) last
      store a (s + (n - 1) - i) tmp) a = some a' ∧
    ∀ j < 6, a'.word j =
      if s ≤ j ∧ j < s + m ∨ s + n - m ≤ j ∧ j < s + n then a.word (s + (n - 1) - (j - s))
      else a.word j := by
  induction m with
  | zero => exact ⟨a, rfl, fun j _ => by rw [if_neg (by omega)]⟩
  | succ m ih =>
    obtain ⟨a₁, hrun, h₁⟩ := ih (by omega)
    have hlow : m + s < 6 := by omega
    have hhigh : s + (n - 1) - m < 6 := by omega
    refine ⟨(a₁.put (m + s) (a₁.word (s + (n - 1) - m))).put (s + (n - 1) - m) (a₁.word (m + s)),
      ?_, fun j hj => ?_⟩
    · rw [List.range_succ, List.foldlM_append, hrun]
      simp only [Option.bind_eq_bind, Option.bind_some, List.foldlM_cons, List.foldlM_nil,
        getElem?_word hlow, getElem?_word hhigh, store_word hlow, store_word hhigh]
      rfl
    · have hfirst : a₁.word (m + s) = a.word (m + s) := by rw [h₁ _ hlow, if_neg (by omega)]
      have hlast : a₁.word (s + (n - 1) - m) = a.word (s + (n - 1) - m) := by
        rw [h₁ _ hhigh, if_neg (by omega)]
      rw [word_put hhigh, word_put hlow, hfirst, hlast, h₁ _ hj]
      by_cases hj' : j = s + (n - 1) - m
      · rw [if_pos hj', if_pos (by omega)]
        congr 1
        omega
      · rw [if_neg hj']
        by_cases hj'' : j = m + s
        · rw [if_pos hj'', if_pos (by omega)]
          congr 1
          omega
        · rw [if_neg hj'']
          congr 1
          exact propext (by omega)

theorem reverseWords_word {n : Nat} (h : s + n ≤ 6) : ∃ a', elemReverseWords a s n = some a' ∧
    ∀ j < 6, a'.word j = if s ≤ j ∧ j < s + n then a.word (s + (n - 1) - (j - s)) else a.word j := by
  obtain ⟨a', hrun, hwords⟩ := reverseWords_loop (a := a) h le_rfl
  refine ⟨a', hrun, fun j hj => ?_⟩
  rw [hwords j hj]
  -- The word in the middle stays.
  by_cases hmid : j - s = n - 1 - (j - s) ∧ s ≤ j ∧ j < s + n
  · have hsame : s + (n - 1) - (j - s) = j := by omega
    rw [hsame, ite_self, ite_self]
  · split_ifs <;> first | rfl | omega

theorem rotateWords_right (hpos : 0 < q) (hq : q < 6) : ∃ a',
    elemRotateWords a (6 - q : Nat) = some a' ∧
    ∀ j < 6, a'.word j = a.word ((j + 6 - q) % 6) := by
  obtain ⟨a₁, hrun₁, h₁⟩ := reverseWords_word (a := a) (s := 0) (n := 6 - q) (by omega)
  obtain ⟨a₂, hrun₂, h₂⟩ := reverseWords_word (a := a₁) (s := 6 - q) (n := 6 - (6 - q)) (by omega)
  obtain ⟨a₃, hrun₃, h₃⟩ := reverseWords_word (a := a₂) (s := 0) (n := 6) (by omega)
  refine ⟨a₃, ?_, fun j hj => ?_⟩
  · unfold elemRotateWords
    have hk : ¬ (((6 - q : Nat) : Int) < 0 ∨ (degree : Int) ≤ (6 - q : Nat)) := by
      simp only [degree]
      omega
    have hne : ((6 - q : Nat) : Int) ≠ 0 := by omega
    have hneg : ¬ ((6 - q : Nat) : Int) < 0 := by omega
    simp only [if_neg hk, if_neg hne, if_neg hneg, Int.toNat_natCast, hrun₁, hrun₂, Option.bind_eq_bind,
      Option.bind_some]
    exact hrun₃
  · rw [h₃ j hj, if_pos (by omega), h₂ _ (by omega)]
    split
    · rw [h₁ _ (by omega), if_neg (by omega)]
      congr 1
      omega
    · rw [h₁ _ (by omega), if_pos (by omega)]
      congr 1
      omega

theorem closeMargin_words (hq : q < 6) : ∃ a', closeMargin a q = some a' ∧
    ∀ j < 6, a'.word j =
      if j < q then shiftIn margin (a.word j) (a.word ((j + 5) % 6)) else a.word j := by
  induction q generalizing a with
  | zero => exact ⟨a, rfl, fun j _ => by rw [if_neg (Nat.not_lt_zero j)]⟩
  | succ q ih =>
    obtain ⟨a', hrun, hwords⟩ := ih (a := a.put q (shiftIn margin (a.word q) (a.word ((q + 5) % 6))))
      (by omega)
    refine ⟨a', ?_, fun j hj => ?_⟩
    · have hprev : (q + 5) % 6 < 6 := Nat.mod_lt _ (by decide)
      have hin : q < 6 := by omega
      unfold closeMargin at hrun ⊢
      rw [List.range_succ, List.reverse_append, List.reverse_singleton, List.singleton_append,
        List.foldlM_cons, getElem?_word hin, getElem?_word hprev]
      simp only [Option.bind_eq_bind, Option.bind_some, store_word hin]
      exact hrun
    · have hin : q < 6 := by omega
      rw [hwords j hj, word_put hin, word_put hin]
      split
      · next hlt => rw [if_neg (by omega), if_neg (by omega), if_pos (by omega)]
      · split
        · next hlast => rw [if_pos (by omega), hlast]
        · rw [if_neg (by omega)]

/-! ## Any offset -/

theorem rrotateN_add {m m' : Nat} :
    Gnb.elemRrotateN (Gnb.elemRrotateN e m) m' = Gnb.elemRrotateN e (m + m') := by
  simp only [rrotateN_eq_pow, ← pow_mul, ← pow_add]

theorem Holds.rotateWords (ha : Holds a e) (hpos : 0 < q) (hq : q < 6) : ∃ a₁ a₂,
    elemRotateWords a (6 - q : Nat) = some a₁ ∧ closeMargin a₁ q = some a₂ ∧
    Holds (elemChomp a₂) (Gnb.elemRrotateN e (32 * q)) := by
  obtain ⟨a₁, hrun₁, h₁⟩ := rotateWords_right (a := a) hpos hq
  obtain ⟨a₂, hrun₂, h₂⟩ := closeMargin_words (a := a₁) hq
  have hle : 32 * q ≤ degree := by simp only [degree]; omega
  refine ⟨a₁, a₂, hrun₁, hrun₂, holds_rotated hle fun k hk => ?_⟩
  rw [ha.turned hk hle]
  simp only [degree] at hk ⊢
  have ht : k % 32 < 32 := Nat.mod_lt _ (by decide)
  rw [coef, h₂ _ (by omega)]
  split
  · next hlow =>
    rw [if_pos (by omega), getMsbD_shiftIn (by decide) ht]
    simp only [margin]
    split
    · rw [h₁ _ (by omega)]
      exact (coef_at (by omega) (by omega)).symm
    · rw [h₁ _ (by omega)]
      exact (coef_at (by omega) (by omega)).symm
  · next hhigh =>
    rw [if_neg (by omega), h₁ _ (by omega)]
    exact (coef_at ht (by omega)).symm

theorem Holds.wholeWords {r : Nat} (ha : Holds a e) (hr : r < degree) : ∃ a₁,
    wholeWords a r = some a₁ ∧ Holds a₁ (Gnb.elemRrotateN e (32 * (r / 32))) := by
  unfold Words.wholeWords
  split
  · simp only [degree] at hr
    obtain ⟨a₁, a₂, hrotate, hclose, h₂⟩ := ha.rotateWords (q := r / 32) (by omega) (by omega)
    have hcast : ((6 - r / 32 : Nat) : Int) = 6 - (r : Int) / 32 := by omega
    rw [hcast] at hrotate
    refine ⟨elemChomp a₂, ?_, h₂⟩
    rw [hrotate, Option.bind_eq_bind, Option.bind_some, hclose]
    rfl
  · have hzero : r / 32 = 0 := by omega
    refine ⟨a, rfl, ?_⟩
    rw [hzero, Nat.mul_zero, rrotateN_eq_pow, pow_zero, pow_one]
    exact ha

theorem normalOffset_margin : normalOffset margin = margin := by decide

theorem rrotateMargins_small (hs : s ≤ margin) : rrotateMargins a s = some (a, s) := by
  rw [rrotateMargins, if_neg (Nat.not_lt.mpr hs)]
  rfl

theorem rrotateN_margin : elemRrotateN a margin = some (elemChomp (shiftWords a margin)) := by
  rw [elemRrotateN, normalOffset_margin]
  simp [rrotateMargins_small, Words.wholeWords, margin]

theorem Holds.rrotateMargins (ha : Holds a e) (hpos : 0 < s) (hs : s < 32) : ∃ a' s' m,
    rrotateMargins a s = some (a', s') ∧ 0 < s' ∧ s' ≤ margin ∧ m + s' = s ∧
    Holds a' (Gnb.elemRrotateN e m) := by
  by_cases hsmall : s ≤ margin
  · refine ⟨a, s, 0, rrotateMargins_small hsmall, hpos, hsmall, Nat.zero_add s, ?_⟩
    rw [rrotateN_eq_pow, pow_zero, pow_one]
    exact ha
  · have hrest : s - margin ≤ margin := by simp only [margin] at *; omega
    refine ⟨elemChomp (a.shiftWords margin), s - margin, margin, ?_, by omega, hrest, by omega,
      ha.shiftWords (by decide) le_rfl⟩
    rw [Words.rrotateMargins, if_pos (Nat.lt_of_not_le hsmall), rrotateN_margin]
    exact rrotateMargins_small hrest

theorem Holds.rrotateN (ha : Holds a e) (n : Int) : ∃ a', elemRrotateN a n = some a' ∧
    Holds a' (Gnb.elemRrotateN e (n % degree).toNat) := by
  have hlt : (n % degree).toNat < degree := by simp only [degree]; omega
  rw [elemRrotateN, normalOffset_eq]
  split
  · next hzero =>
    refine ⟨a, rfl, ?_⟩
    rw [hzero, Int.toNat_zero, rrotateN_eq_pow, pow_zero, pow_one]
    exact ha
  · next hne =>
    have hpos : 0 < (n % degree).toNat := by simp only [degree] at *; omega
    generalize (n % degree).toNat = r at hlt hpos
    obtain ⟨a₁, hrun₁, h₁⟩ := ha.wholeWords hlt
    simp only [hrun₁, Option.bind_eq_bind, Option.bind_some]
    split
    · next hwhole =>
      have hr : 32 * (r / 32) = r := by omega
      rw [hr] at h₁
      exact ⟨a₁, rfl, h₁⟩
    · next hrest =>
      obtain ⟨a₂, s, m, hrun₂, hs, hle, hsum, h₂⟩ := h₁.rrotateMargins (Nat.pos_of_ne_zero hrest)
        (Nat.mod_lt _ (by decide))
      have hr : 32 * (r / 32) + m + s = r := by omega
      have hlast := h₂.shiftWords hs hle
      rw [rrotateN_add, rrotateN_add, ← Nat.add_assoc, hr] at hlast
      exact ⟨_, by rw [hrun₂]; rfl, hlast⟩

theorem Holds.unique (ha : Holds a e) (ha' : Holds a' e) : a = a' := by
  refine ext_coef fun k hk => ?_
  by_cases hlt : k < degree
  · rw [ha.coefs k hlt, ha'.coefs k hlt]
  · rw [ha.rest k (Nat.le_of_not_lt hlt) hk, ha'.rest k (Nat.le_of_not_lt hlt) hk]

theorem Holds.chomp (ha : Holds a e) : elemChomp a = a := by
  refine ext_coef fun k hk => ?_
  rw [coef_elemChomp hk]
  by_cases hlt : k < degree
  · simp [hlt]
  · simp [hlt, ha.rest k (Nat.le_of_not_lt hlt) hk]

/-- The coefficients of the words. -/
def toElem (a : Words) : Elem :=
  ⟨((a.word 5).reverse ++ (a.word 4).reverse ++ (a.word 3).reverse ++ (a.word 2).reverse ++
    (a.word 1).reverse ++ (a.word 0).reverse).setWidth degree⟩

theorem holds_toElem (ha : elemChomp a = a) : Holds a (toElem a) where
  coefs k hk := by
    rw [cyc, Nat.mod_eq_of_lt hk, toElem]
    simp only [BitVec.getLsbD_setWidth, BitVec.getLsbD_append, BitVec.getLsbD_reverse, hk, decide_true,
      Bool.true_and]
    simp only [degree] at hk
    split_ifs <;> exact coef_at (by omega) (by omega)
  rest k hk hlt := by
    rw [← ha, coef_elemChomp hlt, decide_eq_false (Nat.not_lt.mpr hk), Bool.false_and]

theorem Holds.iterate (ha : Holds a e) (m : Nat) :
    Holds (elemRrotate^[m] a) (Gnb.elemRrotateN e m) := by
  induction m with
  | zero =>
    rw [rrotateN_eq_pow, pow_zero, pow_one]
    exact ha
  | succ m ih =>
    rw [Function.iterate_succ_apply', ← rrotateN_add]
    exact ih.rrotate

theorem Holds.iterate_mod (ha : Holds a e) (m : Nat) :
    elemRrotate^[m % degree] a = elemRrotate^[m] a := by
  apply (ha.iterate (m % degree)).unique
  have hsame : Gnb.elemRrotateN e (m % degree) = Gnb.elemRrotateN e m := by
    rw [Gnb.elemRrotateN, Nat.mod_mod, ← Gnb.elemRrotateN]
  rw [hsame]
  exact ha.iterate m

/-- Every rotation is as many single ones, counted modulo the degree, and leaves the margin clear. -/
theorem rrotateN_iterate (ha : elemChomp a = a) (n : Int) :
    elemRrotateN a n = some (elemRrotate^[(n % degree).toNat] a) ∧
      elemChomp (elemRrotate^[(n % degree).toNat] a) = elemRrotate^[(n % degree).toNat] a := by
  obtain ⟨a', hrun, ha'⟩ := (holds_toElem ha).rrotateN n
  have hiterate := (holds_toElem ha).iterate (n % degree).toNat
  refine ⟨?_, hiterate.chomp⟩
  rw [hrun, ha'.unique hiterate]

end

example : elemReverseWords #v[0, 1, 2, 3, 4, 5] 1 4 = some #v[0, 4, 3, 2, 1, 5] := by decide

/-! ## Products -/

/-- `TA[n]` and `TB[n]`. -/
def window (a : Words) (n : Nat) : BitVec 32 := (elemLrotate^[n % degree] a).word 0

def productWord (a b : Words) (j : Nat) : BitVec 32 :=
  (R.zipIdx 1).foldl (fun c (row, i) =>
    let sb := window b (row.1 + 32 * j) ^^^ window b (row.2.1 + 32 * j) ^^^
      window b (row.2.2.1 + 32 * j) ^^^ window b (row.2.2.2 + 32 * j)
    c ^^^ (window a (i + 32 * j) &&& sb)) (window a (32 * j) &&& window b (1 + 32 * j))

def gnbMultiply (a b : Words) : Words := elemChomp (Vector.ofFn fun j : Fin 6 => productWord a b j)

section

variable {a b : Words} {d e : Elem} {i j k n t : Nat}

theorem word_elemLrotate (hj : j < 6) : (elemLrotate a).word j =
    if j = 5 then (a.word 5 <<< 1) ||| ((a.word 0 >>> 31) <<< margin)
    else shiftIn 31 (a.word (j + 1)) (a.word j) := by
  unfold elemLrotate shiftIn
  interval_cases j <;> simp [BitVec.or_comm]

theorem Holds.lrotate (ha : Holds a e) : Holds (elemLrotate a) (Gnb.elemLrotate e) where
  coefs k hk := by
    have ht : k % 32 < 32 := Nat.mod_lt _ (by decide)
    have hnext : ∀ j t, t < 32 → k + 1 = 32 * j + t → k + 1 < degree →
        (a.word j).getMsbD t = cyc e (k + 1) := by
      intro j t ht' heq hlt
      rw [← coef_at ht' heq, ha.coefs _ hlt]
    simp only [degree] at hk
    rw [cyc_lrotate, coef, word_elemLrotate (by omega)]
    split
    · next hlast =>
      rw [BitVec.getMsbD_or, BitVec.getMsbD_shiftLeft, BitVec.getMsbD_shiftLeft,
        BitVec.getMsbD_ushiftRight]
      by_cases hend : k = 162
      · -- The coefficient that comes around.
        have hmargin : (a.word 5).getMsbD (k % 32 + 1) = false := by
          rw [← coef_at (k := k + 1) (by omega) (by omega)]
          exact ha.rest _ (by simp only [degree]; omega) (by omega)
        have hround : cyc e (k + 1) = cyc e 0 := by
          rw [hend, ← cyc_mod]
          rfl
        rw [hmargin, Bool.false_or, hround, ← ha.coefs 0 (by decide), coef_at (j := 0) (t := 0) (by decide) rfl]
        simp [hend, margin]
      · have hin : k % 32 + margin < 31 := by simp only [margin]; omega
        rw [hnext 5 _ (by omega) (by omega) (by simp only [degree]; omega), decide_eq_true hin]
        simp
    · next hfull =>
      rw [getMsbD_shiftIn (by decide) ht]
      split
      · exact hnext _ _ (by omega) (by omega) (by simp only [degree]; omega)
      · exact hnext _ _ (by omega) (by omega) (by simp only [degree]; omega)
  rest k hk hlt := by
    simp only [degree] at hk
    have hmargin : (a.word 5).getMsbD (k % 32 + 1) = false := by
      by_cases hin : k % 32 + 1 < 32
      · rw [← coef_at (k := k + 1) hin (by omega)]
        exact ha.rest _ (by simp only [degree]; omega) (by omega)
      · exact BitVec.getMsbD_of_ge _ _ (by omega)
    rw [coef, word_elemLrotate (by omega), if_pos (by omega), BitVec.getMsbD_or, BitVec.getMsbD_shiftLeft,
      BitVec.getMsbD_shiftLeft, hmargin, Bool.false_or]
    exact BitVec.getMsbD_of_ge _ _ (by simp only [margin]; omega)

theorem Holds.window (ha : Holds a e) (ht : t < 32) :
    (window a n).getMsbD t = cyc e (n + t) := by
  have hiterate : ∀ m, Holds (elemLrotate^[m] a) (Gnb.elemLrotate^[m] e) ∧
      ∀ k, cyc (Gnb.elemLrotate^[m] e) k = cyc e (m + k) := by
    intro m
    induction m with
    | zero => exact ⟨ha, fun k => by rw [Nat.zero_add]; rfl⟩
    | succ m ih =>
      rw [Function.iterate_succ_apply', Function.iterate_succ_apply']
      refine ⟨ih.1.lrotate, fun k => ?_⟩
      rw [cyc_lrotate, ih.2, Nat.add_right_comm, Nat.add_assoc]
  obtain ⟨hwords, hcyc⟩ := hiterate (n % degree)
  rw [Words.window, ← coef_at (k := t) ht (by omega), hwords.coefs t (by simp only [degree]; omega),
    hcyc, ← cyc_mod, Nat.mod_add_mod, cyc_mod]

theorem getMsbD_rows (ha : Holds a d) (hb : Holds b e) (ht : t < 32) {rows : List Row} {c : BitVec 32} :
    ((rows.zipIdx i).foldl (fun c (row, i) =>
      let sb := Words.window b (row.1 + 32 * j) ^^^ Words.window b (row.2.1 + 32 * j) ^^^
        Words.window b (row.2.2.1 + 32 * j) ^^^ Words.window b (row.2.2.2 + 32 * j)
      c ^^^ (Words.window a (i + 32 * j) &&& sb)) c).getMsbD t =
    (c.getMsbD t ^^ rowsCoef (fun n => cyc d (32 * j + t + n)) (fun n => cyc e (32 * j + t + n)) rows i) := by
  have hplace : ∀ n, n + 32 * j + t = 32 * j + t + n := fun n => by omega
  induction rows generalizing i c with
  | nil => simp [rowsCoef]
  | cons row rows ih =>
    rw [List.zipIdx_cons, List.foldl_cons, ih]
    simp only [rowsCoef, BitVec.getMsbD_xor, BitVec.getMsbD_and, ha.window ht, hb.window ht, hplace, Bool.xor_assoc]

theorem getMsbD_productWord (ha : Holds a d) (hb : Holds b e) (ht : t < 32) :
    (productWord a b j).getMsbD t = cyc (Gnb.gnbMultiply d e) (32 * j + t) := by
  rw [productWord, getMsbD_rows ha hb ht, cyc_multiply, mulCoef, BitVec.getMsbD_and, ha.window ht,
    hb.window ht]
  congr 3
  omega

theorem Holds.multiply (ha : Holds a d) (hb : Holds b e) :
    Holds (gnbMultiply a b) (Gnb.gnbMultiply d e) where
  coefs k hk := by
    have hword : k / 32 < 6 := by simp only [degree] at hk; omega
    rw [gnbMultiply, coef_elemChomp (by omega), decide_eq_true hk, Bool.true_and, coef, word_eq hword,
      Vector.getElem_ofFn, getMsbD_productWord ha hb (Nat.mod_lt _ (by decide)), Nat.div_add_mod]
  rest k hk hlt := by
    rw [gnbMultiply, coef_elemChomp hlt, decide_eq_false (Nat.not_lt.mpr hk), Bool.false_and]

end

/-! ## Inverses -/

/-- Where an `elem_t` is: with the caller, or a local variable of `gnb_inverse`. -/
inductive Place (ρ : Type) where
  | arg (p : ρ)
  | mu
  | beta
deriving DecidableEq

abbrev Memory (ρ : Type) := Place ρ → Words

/-- `r`: the while loop that counts the bits of `mm1`. -/
def countBits (mm1 : Nat) (r : Int) : Int :=
  if mm1 = 0 then r else countBits (mm1 >>> 1) (r + 1)
termination_by mm1
decreasing_by
  rw [Nat.shiftRight_one]
  omega

section

variable {ρ : Type} [DecidableEq ρ] (mul : Words → Words → Words)

/-- `gnb_multiply` copies its arguments before it writes. -/
def multiplyAt (mem : Memory ρ) (c a b : Place ρ) : Memory ρ :=
  Function.update mem c (mul (mem a) (mem b))

def squareAt (mem : Memory ρ) (a : Place ρ) : Memory ρ := Function.update mem a (elemRrotate (mem a))

/-- The body of the loop of `gnb_inverse`. -/
def inverseStep (eta : ρ) (s : Memory ρ × Nat) (i : Nat) : Option (Memory ρ × Nat) := do
  let (mem, k) := s
  let mem := Function.update mem .mu (mem (.arg eta))
  let mu ← elemRrotateN (mem .mu) k
  let mem := Function.update mem .mu mu
  let mem := multiplyAt mul mem (.arg eta) .mu (.arg eta)
  if (degree - 1).testBit i then
    let mem := squareAt mem (.arg eta)
    let mem := multiplyAt mul mem (.arg eta) (.arg eta) .beta
    return (mem, k <<< 1 + 1)
  else return (mem, k <<< 1)

def gnbInverse (mem : Memory ρ) (eta b : ρ) : Option (Memory ρ) := do
  let mem := Function.update mem .beta (mem (.arg b))
  let r := countBits (degree - 1) (-1)
  let mem := Function.update mem (.arg eta) (mem .beta)
  let (mem, _) ← (List.range r.toNat).reverse.foldlM (inverseStep mul eta) (mem, 1)
  return squareAt mem (.arg eta)

end

/-- What `gnb_inverse` needs of the product of field elements. -/
structure Product (mul : Words → Words → Words) : Prop where
  chomp : ∀ {a b}, elemChomp a = a → elemChomp b = b → elemChomp (mul a b) = mul a b
  assoc : ∀ {a b c}, elemChomp a = a → elemChomp b = b → elemChomp c = c →
    mul (mul a b) c = mul a (mul b c)
  square : ∀ {a}, elemChomp a = a → mul a a = elemRrotate a

/-- The product of `n` factors `b`. -/
def power (mul : Words → Words → Words) (b : Words) (n : Nat) : Words :=
  (List.replicate (n - 1) b).foldl mul b

section

variable {ρ : Type} [DecidableEq ρ] {mul : Words → Words → Words} {a b : Words} {m n : Nat}

theorem power_one : power mul b 1 = b := rfl

theorem power_succ (hn : 0 < n) : power mul b (n + 1) = mul (power mul b n) b := by
  obtain ⟨n, rfl⟩ := Nat.exists_eq_add_of_le' hn
  simp only [power, Nat.add_sub_cancel, List.replicate_succ', List.foldl_append, List.foldl_cons, List.foldl_nil]

theorem Product.chomp_power (h : Product mul) (hb : elemChomp b = b) (hn : 0 < n) :
    elemChomp (power mul b n) = power mul b n := by
  induction n, hn using Nat.le_induction with
  | base => exact hb
  | succ n hn ih =>
    rw [power_succ hn]
    exact h.chomp ih hb

theorem Product.power_add (h : Product mul) (hb : elemChomp b = b) (hm : 0 < m) (hn : 0 < n) :
    mul (power mul b m) (power mul b n) = power mul b (m + n) := by
  induction n, hn using Nat.le_induction with
  | base => exact (power_succ hm).symm
  | succ n hn ih =>
    rw [power_succ hn, ← h.assoc (h.chomp_power hb hm) (h.chomp_power hb hn) hb, ih, ← Nat.add_assoc,
      power_succ (by omega)]

theorem Product.square_power (h : Product mul) (hb : elemChomp b = b) (hn : 0 < n) :
    elemRrotate (power mul b n) = power mul b (2 * n) := by
  rw [← h.square (h.chomp_power hb hn), h.power_add hb hn hn, Nat.two_mul]

theorem Product.iterate_power (h : Product mul) (hb : elemChomp b = b) (hn : 0 < n) :
    elemRrotate^[m] (power mul b n) = power mul b (2 ^ m * n) := by
  induction m with
  | zero => rw [pow_zero, Nat.one_mul, Function.iterate_zero, id]
  | succ m ih =>
    rw [Function.iterate_succ_apply', ih, h.square_power hb (by positivity), pow_succ', Nat.mul_assoc]

theorem countBits_degree : countBits (degree - 1) (-1) = 7 := by
  simp [countBits, degree]

/-- `k` ones in the exponent become `2 * k`, or one more. -/
theorem inverseStep_power {mem : Memory ρ} {eta : ρ} {k : Nat} (h : Product mul) (hb : elemChomp b = b)
    (hk : 0 < k) (heta : mem (.arg eta) = power mul b (2 ^ k - 1)) (hbeta : mem .beta = b) (i : Nat) :
    ∃ mem', inverseStep mul eta (mem, k) i =
        some (mem', if (degree - 1).testBit i then 2 * k + 1 else 2 * k) ∧
      mem' (.arg eta) = power mul b (2 ^ (if (degree - 1).testBit i then 2 * k + 1 else 2 * k) - 1) ∧
      mem' .beta = b ∧ ∀ p, p ≠ eta → mem' (.arg p) = mem (.arg p) := by
  have hpow : 1 < 2 ^ k := Nat.one_lt_two_pow (by omega)
  have hones : 0 < 2 ^ k - 1 := by omega
  have hrot : elemRrotateN (power mul b (2 ^ k - 1)) k =
      some (power mul b (2 ^ k * (2 ^ k - 1))) := by
    have hchomp := h.chomp_power hb hones
    have hcast : (((k : Int) % (degree : Nat)).toNat) = k % degree := by omega
    rw [(rrotateN_iterate hchomp k).1, hcast, (holds_toElem hchomp).iterate_mod, h.iterate_power hb hones]
  have hdouble : mul (power mul b (2 ^ k * (2 ^ k - 1))) (power mul b (2 ^ k - 1)) =
      power mul b (2 ^ (2 * k) - 1) := by
    have hexp : 2 ^ k * (2 ^ k - 1) + (2 ^ k - 1) = 2 ^ (2 * k) - 1 := by
      obtain ⟨m, hm⟩ := Nat.exists_eq_add_of_lt hpow
      rw [two_mul, pow_add, hm]
      have : 1 + m + 1 - 1 = m + 1 := by omega
      rw [this]
      ring_nf
      omega
    rw [h.power_add hb (by positivity) hones, hexp]
  have hodd : mul (elemRrotate (power mul b (2 ^ (2 * k) - 1))) b = power mul b (2 ^ (2 * k + 1) - 1) := by
    have hlarge : 1 < 2 ^ (2 * k) := Nat.one_lt_two_pow (by omega)
    have hexp : 2 * (2 ^ (2 * k) - 1) + 1 = 2 ^ (2 * k + 1) - 1 := by
      rw [pow_succ]
      omega
    rw [h.square_power hb (by omega), ← hexp]
    exact (power_succ (by omega)).symm
  have hshift : k <<< 1 = 2 * k := by rw [Nat.shiftLeft_eq]; omega
  unfold inverseStep multiplyAt squareAt
  simp only [Function.update_self, heta, hrot, Option.bind_eq_bind, Option.bind_some, hshift]
  split
  · refine ⟨_, rfl, ?_, ?_, fun p hp => ?_⟩
    · simp [hbeta, heta, hdouble, hodd]
    · simp [hbeta]
    · simp [hp]
  · refine ⟨_, rfl, ?_, ?_, fun p hp => ?_⟩
    · simp [heta, hdouble]
    · simp [hbeta]
    · simp [hp]

theorem inverseLoop_power {i k : Nat} (mem : Memory ρ) (eta : ρ) (h : Product mul)
    (hb : elemChomp b = b) (hk : 0 < k) (heta : mem (.arg eta) = power mul b (2 ^ k - 1))
    (hbeta : mem .beta = b) : ∃ mem',
      (List.range i).reverse.foldlM (inverseStep mul eta) (mem, k) = some (mem', inverseSteps i k) ∧
      mem' (.arg eta) = power mul b (2 ^ inverseSteps i k - 1) ∧
      ∀ p, p ≠ eta → mem' (.arg p) = mem (.arg p) := by
  induction i generalizing mem k with
  | zero => exact ⟨mem, rfl, heta, fun _ _ => rfl⟩
  | succ i ih =>
    obtain ⟨mem₁, hstep, heta₁, hbeta₁, hframe₁⟩ := inverseStep_power h hb hk heta hbeta i
    obtain ⟨mem', hrun, heta', hframe'⟩ := ih _ (by split <;> omega) heta₁ hbeta₁
    refine ⟨mem', ?_, heta', fun p hp => (hframe' p hp).trans (hframe₁ p hp)⟩
    rw [List.range_succ, List.reverse_append, List.reverse_singleton, List.singleton_append,
      List.foldlM_cons, hstep, Option.bind_eq_bind, Option.bind_some]
    exact hrun

/-- The caller's `eta` may be `b`. -/
theorem inverse_power (h : Product mul) (mem : Memory ρ) (eta b : ρ)
    (hb : elemChomp (mem (.arg b)) = mem (.arg b)) : ∃ mem', gnbInverse mul mem eta b = some mem' ∧
      mem' (.arg eta) = power mul (mem (.arg b)) (2 ^ degree - 2) ∧
      ∀ p, p ≠ eta → mem' (.arg p) = mem (.arg p) := by
  have hsteps : inverseSteps 7 1 = degree - 1 := by decide
  have hexp : 2 * (2 ^ (degree - 1) - 1) = 2 ^ degree - 2 := by
    rw [Nat.mul_sub, ← pow_succ']
    rfl
  obtain ⟨mem', hrun, heta, hframe⟩ := inverseLoop_power (i := 7) (k := 1)
    (Function.update (Function.update mem .beta (mem (.arg b))) (.arg eta) (mem (.arg b))) eta h hb one_pos
    (by simp [power_one]) (by simp)
  rw [hsteps] at hrun heta
  refine ⟨squareAt mem' (.arg eta), ?_, ?_, fun p hp => ?_⟩
  · simp only [gnbInverse, countBits_degree, Function.update_self]
    rw [show (7 : Int).toNat = 7 from rfl, hrun]
    rfl
  · rw [squareAt, Function.update_self, heta, h.square_power hb (by decide), hexp]
  · rw [squareAt, Function.update_of_ne (by simpa using hp), hframe p hp]
    simp [hp]


/-- On the words of field elements, every rotation is that many single ones modulo the degree, and with a product
that squares by a rotation the inverse of `gnb.c` is the power of Fermat, in place or not. -/
theorem rotations_and_inverse (ha : elemChomp a = a) (n : Int) (h : Product mul) (mem : Memory ρ)
    (eta b : ρ) (hb : elemChomp (mem (.arg b)) = mem (.arg b)) :
    (elemRrotateN a n = some (elemRrotate^[(n % degree).toNat] a) ∧
      elemChomp (elemRrotate^[(n % degree).toNat] a) = elemRrotate^[(n % degree).toNat] a) ∧
    ∃ mem', gnbInverse mul mem eta b = some mem' ∧
      mem' (.arg eta) = power mul (mem (.arg b)) (2 ^ degree - 2) ∧
      ∀ p, p ≠ eta → mem' (.arg p) = mem (.arg p) :=
  ⟨rrotateN_iterate ha n, inverse_power h mem eta b hb⟩

theorem product_multiply : Product gnbMultiply where
  chomp ha hb := ((holds_toElem ha).multiply (holds_toElem hb)).chomp
  assoc {a b c} ha hb hc := by
    have hleft := ((holds_toElem ha).multiply (holds_toElem hb)).multiply (holds_toElem hc)
    have hright := (holds_toElem ha).multiply ((holds_toElem hb).multiply (holds_toElem hc))
    simp only [multiply_eq, mul_assoc] at hleft hright
    exact hleft.unique hright
  square {a} ha := by
    have hproduct := (holds_toElem ha).multiply (holds_toElem ha)
    have hrotated := (holds_toElem ha).rrotate
    rw [multiply_eq, ← pow_two, ← rrotate_eq_square] at hproduct
    exact hproduct.unique hrotated

theorem Holds.power {e : Elem} (hb : Holds b e) (hn : 0 < n) : Holds (power gnbMultiply b n) (e ^ n) := by
  induction n, hn using Nat.le_induction with
  | base =>
    rw [pow_one]
    exact hb
  | succ n hn ih =>
    rw [power_succ hn, pow_succ]
    exact ih.multiply hb

/-- With that product it inverts in the field. -/
theorem inverse_holds {e : Elem} {mem : Memory ρ} {b : ρ} (hb : Holds (mem (.arg b)) e) (eta : ρ) :
    ∃ mem', gnbInverse gnbMultiply mem eta b = some mem' ∧ Holds (mem' (.arg eta)) e⁻¹ := by
  obtain ⟨mem', hrun, heta, -⟩ := inverse_power product_multiply mem eta b hb.chomp
  refine ⟨mem', hrun, ?_⟩
  rw [heta, ← inverse_eq, inverse_eq_pow]
  exact hb.power (by decide)

theorem rotations_and_inverse_of_one :
    (elemRrotateN #v[0x80000000, 0, 0, 0, 0, 0] (-1) =
        some (elemRrotate^[(-1 % (degree : Int)).toNat] #v[0x80000000, 0, 0, 0, 0, 0]) ∧
      elemChomp (elemRrotate^[(-1 % (degree : Int)).toNat] #v[0x80000000, 0, 0, 0, 0, 0]) =
        elemRrotate^[(-1 % (degree : Int)).toNat] #v[0x80000000, 0, 0, 0, 0, 0]) ∧
    ∃ mem', gnbInverse gnbMultiply (fun _ : Place Unit => #v[0x80000000, 0, 0, 0, 0, 0]) () () = some mem' ∧
      mem' (.arg ()) = power gnbMultiply #v[0x80000000, 0, 0, 0, 0, 0] (2 ^ degree - 2) ∧
      ∀ p : Unit, p ≠ () → mem' (.arg p) = #v[0x80000000, 0, 0, 0, 0, 0] :=
  rotations_and_inverse (by decide) (-1) product_multiply _ () () (by decide)

end

end Words

end Blackadder.Gnb
