import Mathlib.Data.BitVec
import Mathlib.Data.List.Basic
import Mathlib.Data.Finset.Fold

/-!
# Forwarding identifiers and how they are read

Both vector classes hold `FID_LEN * 8` bits here. Bit `k` is character `255 - k` of a string.
-/

namespace Blackadder

/-- `FID_LEN * 8`. -/
abbrev fidBits : Nat := 256

/-- `BABitvector` and `Bitvector` of the length of a forwarding identifier. -/
abbrev Bitvector := BitVec fidBits

namespace Bitvector

/-- `(*v)[i] = b`. -/
def setBit (v : Bitvector) (i : Nat) (b : Bool) : Bitvector :=
  if b then v ||| BitVec.twoPow fidBits i else v &&& ~~~ BitVec.twoPow fidBits i

/-- The loop of `Forwarder::configure` and `GlobalConf::configure` over one string. -/
def parse (s : List Char) : Bitvector :=
  (List.range s.length).foldl (fun v j => setBit v (s.length - j - 1) (s[j]? = some '1')) 0

/-- The loop of `TMIgraph::calculateFID` over one string. -/
def orString (result : Bitvector) (s : List Char) : Bitvector :=
  (List.range fidBits).foldl
    (fun v k => if s[k]? = some '1' then setBit v (fidBits - k - 1) true else v) result

/-- `(FID & LID) == LID`. -/
def Includes (FID LID : Bitvector) : Prop := FID &&& LID = LID

instance (FID LID : Bitvector) : Decidable (FID.Includes LID) :=
  inferInstanceAs (Decidable (FID &&& LID = LID))

variable {v w FID LID : Bitvector} {s : List Char} {i j n : Nat} {b : Bool}

theorem getLsbD_setBit (hj : j < fidBits) :
    (v.setBit i b).getLsbD j = if j = i then b else v.getLsbD j := by
  unfold setBit
  by_cases h : j = i
  · subst h
    cases b <;> simp [hj]
  · cases b <;> simp [h, hj]

theorem getLsbD_foldl_setBit (c : Nat → Bool) (hn : n ≤ fidBits) (hi : i < fidBits) :
    ((List.range n).foldl (fun v k => setBit v (fidBits - k - 1) (c k)) v).getLsbD i =
      if fidBits - 1 - i < n then c (fidBits - 1 - i) else v.getLsbD i := by
  induction n with
  | zero => rfl
  | succ n ih =>
    rw [List.range_succ, List.foldl_append, List.foldl_cons, List.foldl_nil, getLsbD_setBit hi,
      ih (by omega)]
    by_cases he : i = fidBits - n - 1
    · have hk : fidBits - 1 - i = n := by omega
      rw [if_pos he, hk, if_pos (Nat.lt_succ_self n)]
    · rw [if_neg he]
      exact if_congr (by omega) rfl rfl

theorem getLsbD_parse (hs : s.length = fidBits) (hi : i < fidBits) :
    (parse s).getLsbD i = decide (s[fidBits - 1 - i]? = some '1') := by
  unfold parse
  simp only [hs]
  rw [getLsbD_foldl_setBit (fun k => decide (s[k]? = some '1')) (Nat.le_refl _) hi,
    if_pos (by omega)]

theorem getLsbD_foldl_orBit (c : Nat → Bool) (hn : n ≤ fidBits) (hi : i < fidBits) :
    ((List.range n).foldl (fun v k => if c k then setBit v (fidBits - k - 1) true else v) v).getLsbD
      i = (v.getLsbD i || (decide (fidBits - 1 - i < n) && c (fidBits - 1 - i))) := by
  induction n with
  | zero => simp
  | succ n ih =>
    rw [List.range_succ, List.foldl_append, List.foldl_cons, List.foldl_nil]
    have hlt : i ≠ fidBits - n - 1 → (fidBits - 1 - i < n + 1 ↔ fidBits - 1 - i < n) := by omega
    by_cases he : i = fidBits - n - 1
    · have hk : fidBits - 1 - i = n := by omega
      cases hc : c n
      · rw [if_neg (by simp), ih (by omega), hk]
        simp [hc]
      · rw [if_pos rfl, getLsbD_setBit hi, if_pos he, hk]
        simp [hc]
    · have hother : (if c n then setBit ((List.range n).foldl (fun v k =>
          if c k then setBit v (fidBits - k - 1) true else v) v) (fidBits - n - 1) true
          else (List.range n).foldl (fun v k =>
            if c k then setBit v (fidBits - k - 1) true else v) v).getLsbD i =
          ((List.range n).foldl (fun v k =>
            if c k then setBit v (fidBits - k - 1) true else v) v).getLsbD i := by
        split
        · rw [getLsbD_setBit hi, if_neg he]
        · rfl
      rw [hother, ih (by omega), decide_eq_decide.mpr (hlt he)]

theorem orString_eq (hs : s.length = fidBits) : orString v s = v ||| parse s := by
  apply BitVec.eq_of_getLsbD_eq
  intro i hi
  have h := getLsbD_foldl_orBit (v := v) (fun k => decide (s[k]? = some '1')) (Nat.le_refl _) hi
  simp only [decide_eq_true_eq] at h
  rw [orString, h, BitVec.getLsbD_or, getLsbD_parse hs hi, decide_eq_true (by omega : _ < fidBits),
    Bool.true_and]

/-- The string of a vector with one bit. -/
def oneHot (i : Nat) : List Char :=
  List.replicate (fidBits - 1 - i) '0' ++ '1' :: List.replicate i '0'

theorem length_oneHot (hi : i < fidBits) : (oneHot i).length = fidBits := by
  simp only [oneHot, List.length_append, List.length_replicate, List.length_cons]
  omega

theorem parse_oneHot (hi : i < fidBits) : parse (oneHot i) = BitVec.twoPow fidBits i := by
  apply BitVec.eq_of_getLsbD_eq
  intro j hj
  rw [getLsbD_parse (length_oneHot hi) hj, BitVec.getLsbD_twoPow, decide_eq_true hi, Bool.true_and,
    decide_eq_decide, oneHot, List.getElem?_append, List.length_replicate]
  split
  · rw [List.getElem?_replicate]
    simp
    omega
  · next hle =>
    rw [List.getElem?_cons, List.getElem?_replicate]
    split
    · simp
      omega
    · simp
      omega

theorem twoPow_inj (hi : i < fidBits) (h : BitVec.twoPow fidBits i = BitVec.twoPow fidBits j) :
    i = j := by
  have hbit := congrArg (BitVec.getLsbD · i) h
  simpa [hi, eq_comm] using hbit

/-! ## Inclusion -/

theorem includes_iff : FID.Includes LID ↔ ∀ i, LID.getLsbD i = true → FID.getLsbD i = true := by
  constructor
  · intro h i hi
    rw [← h, BitVec.getLsbD_and, Bool.and_eq_true] at hi
    exact hi.1
  · intro h
    apply BitVec.eq_of_getLsbD_eq
    intro i _
    rw [BitVec.getLsbD_and]
    cases hi : LID.getLsbD i with
    | false => rw [Bool.and_false]
    | true => rw [h i hi, Bool.true_and]

theorem includes_twoPow (hi : i < fidBits) :
    FID.Includes (BitVec.twoPow fidBits i) ↔ FID.getLsbD i = true := by
  rw [includes_iff]
  constructor
  · intro h
    exact h i (by simp [hi])
  · intro h j hj
    simp only [BitVec.getLsbD_twoPow, Bool.and_eq_true, decide_eq_true_eq] at hj
    rwa [← hj.2]

theorem Includes.refl (v : Bitvector) : v.Includes v := BitVec.and_self

theorem Includes.trans (h : FID.Includes v) (h' : v.Includes LID) : FID.Includes LID :=
  includes_iff.mpr fun i hi => includes_iff.mp h i (includes_iff.mp h' i hi)

theorem allOnes_includes (v : Bitvector) : Includes (BitVec.allOnes fidBits) v := BitVec.allOnes_and

theorem includes_or_left (v w : Bitvector) : (v ||| w).Includes v :=
  includes_iff.mpr fun i hi => by rw [BitVec.getLsbD_or, hi, Bool.true_or]

theorem includes_or_right (v w : Bitvector) : (v ||| w).Includes w :=
  includes_iff.mpr fun i hi => by rw [BitVec.getLsbD_or, hi, Bool.or_true]

/-- The bitwise or of some vectors. -/
def orAll {ι : Type*} (S : Finset ι) (f : ι → Bitvector) : Bitvector :=
  S.fold (fun x y : Bitvector => x ||| y) 0 f

theorem getLsbD_orAll {ι : Type*} (S : Finset ι) (f : ι → Bitvector) :
    (orAll S f).getLsbD i = true ↔ ∃ x ∈ S, (f x).getLsbD i = true := by
  classical
  induction S using Finset.induction_on with
  | empty => simp [orAll]
  | insert x S hx ih =>
    rw [orAll, Finset.fold_insert hx, BitVec.getLsbD_or, Bool.or_eq_true, ← orAll, ih]
    simp

end Bitvector

end Blackadder
