import Mathlib.Data.BitVec
import Mathlib.Tactic.Common

/-!
# Field elements of libpla

`gnb.c`: coefficients on a Gaussian normal basis of degree 163, the multiplication table that
`gnb_init` prepares, and the product read off it.
-/

namespace Blackadder.Gnb

/-- `DEGREE`. -/
abbrev degree : Nat := 163

/-- `T`. -/
abbrev type : Nat := 4

/-- `P`. -/
abbrev modulus : Nat := 653

/-! ## The multiplication table -/

/-- One word of an array of words. -/
def word (mem n : Nat) : Nat := (mem >>> (32 * n)) % 2 ^ 32

def setWord (mem n v : Nat) : Nat := mem ^^^ ((word mem n ^^^ v) <<< (32 * n))

/-- `F[n] = i; n = 2 * n % P`. -/
def fillPowers : Nat → Nat → Nat → Nat → Nat
  | 0, _, _, F => F
  | m + 1, i, n, F => fillPowers m (i + 1) (2 * n % modulus) (setWord F n i)

def fillCosets (u : Nat) : Nat → Nat → Nat → Nat
  | 0, _, F => F
  | j + 1, w, F => fillCosets u j (u * w % modulus) (fillPowers degree 0 w F)

/-- `M[F[P - i]][F[i + 1]]` is flipped. The matrix is its rows one after the other. -/
def flipEntries (F : Nat) : Nat → Nat → Nat → Nat
  | 0, _, M => M
  | m + 1, i, M =>
    flipEntries F m (i + 1) (M ^^^ 1 <<< (degree * word F (modulus - i) + word F (i + 1)))

/-- `R[i][1]` to `R[i][T]`. -/
abbrev Row := Nat × Nat × Nat × Nat

def rowOf (M i : Nat) : Row :=
  let ones := (List.range degree).filter fun j => M.testBit (degree * i + j)
  (ones.getD 0 0, ones.getD 1 0, ones.getD 2 0, ones.getD 3 0)

/-- The rows of `R`, for the `u` that `gnb_get_u` drew. -/
def gnbInit (u : Nat) : List Row :=
  (List.range degree).map (rowOf (flipEntries (fillCosets u type 1 0) (modulus - 2) 1 0))

/-- What `gnb_get_u` answers. -/
def OrderType (u : Nat) : Prop := u < modulus ∧ u ^ type % modulus = 1 ∧ u ^ 2 % modulus ≠ 1

/-- `R`, from its second row on. -/
def R : List Row :=
  [(0, 13, 117, 132), (92, 111, 117, 145), (9, 71, 89, 125), (40, 87, 99, 137),
   (17, 60, 105, 121), (22, 134, 136, 160), (21, 43, 58, 90), (33, 61, 124, 139), (3, 20, 73, 93),
   (35, 63, 77, 137), (54, 101, 130, 154), (110, 131, 158, 162), (1, 51, 82, 83),
   (54, 101, 111, 156), (60, 121, 128, 129), (37, 59, 64, 157), (5, 55, 79, 88),
   (20, 93, 96, 136), (72, 74, 107, 135), (9, 18, 89, 140), (7, 63, 135, 147), (6, 45, 61, 68),
   (43, 98, 119, 141), (32, 109, 115, 126), (85, 91, 153, 155), (30, 36, 84, 133),
   (33, 45, 61, 113), (47, 49, 57, 76), (35, 63, 74, 135), (26, 56, 86, 122), (32, 113, 114, 126),
   (24, 31, 44, 123), (8, 27, 44, 85), (49, 93, 134, 136), (10, 29, 50, 94), (26, 101, 156, 159),
   (16, 61, 68, 124), (41, 79, 146, 150), (47, 76, 98, 141), (4, 72, 107, 149),
   (38, 71, 105, 125), (47, 57, 97, 142), (7, 23, 147, 152), (32, 33, 67, 113),
   (22, 27, 134, 148), (47, 48, 97, 141), (28, 39, 42, 46), (46, 72, 135, 147), (28, 34, 80, 106),
   (35, 77, 81, 94), (13, 111, 117, 156), (54, 66, 103, 130), (65, 144, 153, 155),
   (11, 14, 52, 78), (17, 121, 144, 158), (30, 75, 96, 133), (28, 42, 106, 114), (7, 63, 99, 137),
   (16, 124, 128, 129), (5, 15, 112, 138), (8, 22, 27, 37), (73, 76, 98, 146), (10, 21, 29, 58),
   (16, 68, 122, 154), (53, 88, 104, 127), (52, 108, 112, 138), (44, 85, 123, 153),
   (22, 37, 64, 160), (104, 119, 143, 150), (79, 88, 104, 150), (3, 41, 73, 146),
   (19, 40, 48, 97), (9, 62, 71, 80), (19, 29, 77, 94), (56, 92, 140, 145), (28, 39, 62, 80),
   (10, 50, 74, 107), (54, 103, 111, 145), (17, 38, 70, 105), (49, 73, 76, 93), (50, 94, 0, 0),
   (13, 132, 0, 0), (13, 132, 156, 159), (26, 101, 122, 154), (25, 33, 67, 139),
   (30, 96, 136, 160), (4, 115, 126, 149), (17, 65, 70, 144), (3, 20, 108, 118),
   (7, 99, 152, 161), (25, 110, 131, 139), (2, 75, 95, 133), (9, 18, 34, 80), (35, 50, 74, 81),
   (92, 117, 132, 159), (18, 56, 86, 140), (42, 46, 72, 149), (23, 39, 62, 151), (4, 58, 90, 115),
   (110, 121, 129, 158), (11, 14, 36, 84), (110, 124, 129, 139), (52, 78, 108, 118),
   (65, 69, 70, 120), (5, 41, 79, 112), (49, 57, 134, 148), (19, 40, 77, 137), (66, 89, 103, 125),
   (24, 120, 123, 161), (12, 91, 100, 102), (2, 14, 51, 78), (60, 66, 105, 125),
   (27, 31, 44, 148), (31, 57, 142, 148), (24, 87, 99, 161), (144, 155, 158, 162), (1, 2, 51, 95),
   (89, 103, 140, 145), (23, 69, 151, 152), (104, 109, 127, 143), (5, 15, 55, 100),
   (30, 64, 84, 160), (32, 67, 109, 127), (8, 37, 59, 102), (3, 41, 108, 112), (24, 31, 87, 142),
   (65, 120, 123, 153), (15, 59, 138, 157), (15, 59, 100, 102), (11, 52, 138, 157),
   (12, 91, 155, 162), (1, 82, 83, 95), (26, 56, 92, 159), (6, 34, 45, 106), (19, 21, 29, 48),
   (6, 18, 34, 86), (4, 10, 58, 107), (60, 66, 128, 130), (8, 85, 91, 102), (20, 75, 96, 118),
   (23, 39, 46, 147), (42, 114, 126, 149), (69, 120, 152, 161), (53, 55, 88, 116),
   (2, 75, 78, 118), (38, 62, 71, 151), (21, 43, 48, 141), (45, 106, 113, 114), (40, 87, 97, 142),
   (38, 69, 70, 151), (98, 119, 146, 150), (43, 90, 119, 143), (25, 53, 67, 127),
   (11, 64, 84, 157), (25, 53, 116, 131), (14, 36, 51, 83), (16, 128, 130, 154),
   (12, 55, 100, 116), (36, 83, 95, 133), (6, 68, 86, 122), (90, 109, 115, 143),
   (12, 116, 131, 162)]

theorem orderType_cases {u : Nat} (h : OrderType u) : u = 149 ∨ u = 504 := by
  have hall : ∀ u < modulus, u ^ type % modulus = 1 → u ^ 2 % modulus ≠ 1 → u = 149 ∨ u = 504 := by
    decide +kernel
  exact hall u h.1 h.2.1 h.2.2

theorem fillCosets_eq : fillCosets 504 type 1 0 = fillCosets 149 type 1 0 := by decide +kernel

theorem gnbInit_first : gnbInit 149 = (1, 0, 0, 0) :: R := by decide +kernel

/-- The table does not depend on what `gnb_get_u` drew. -/
theorem gnbInit_eq {u : Nat} (h : OrderType u) : gnbInit u = (1, 0, 0, 0) :: R := by
  rcases orderType_cases h with rfl | rfl
  · exact gnbInit_first
  · rw [← gnbInit_first]
    simp only [gnbInit, fillCosets_eq]

/-! ## Elements -/

/-- `elem_t`, coefficient `i` at bit `i`. The `MARGIN` bits that `elem_chomp` clears are not kept. -/
structure Elem where
  coefs : BitVec degree
deriving DecidableEq

variable {a b c : Elem} {f g f' g' : Nat → Bool} {i k n : Nat}

def elemGetcoef (a : Elem) (i : Nat) : Bool := a.coefs.getLsbD i

def gnbZero : Elem := ⟨0⟩

def gnbOne : Elem := ⟨BitVec.allOnes degree⟩

def gnbAdd (a b : Elem) : Elem := ⟨a.coefs ^^^ b.coefs⟩

def elemLrotate (a : Elem) : Elem := ⟨a.coefs.rotateRight 1⟩

def elemRrotate (a : Elem) : Elem := ⟨a.coefs.rotateLeft 1⟩

def elemRrotateN (a : Elem) (offset : Nat) : Elem := ⟨a.coefs.rotateLeft (offset % degree)⟩

def gnbSquare (a : Elem) : Elem := elemRrotate a

/-- `TA` and `TB`: the coefficients written twice, so that a window of them can run over the end. -/
def doubled (a : Elem) : Nat := a.coefs.toNat ||| a.coefs.toNat <<< degree

/-- `sb`. -/
def rowSum (TB : Nat) (row : Row) : Nat :=
  TB >>> row.1 ^^^ TB >>> row.2.1 ^^^ TB >>> row.2.2.1 ^^^ TB >>> row.2.2.2

def mulRows (TA TB : Nat) : List Row → Nat → Nat
  | [], _ => 0
  | row :: rows, i => (TA >>> i &&& rowSum TB row) ^^^ mulRows TA TB rows (i + 1)

def gnbMultiply (a b : Elem) : Elem :=
  ⟨BitVec.ofNat degree
    ((doubled a &&& doubled b >>> 1) ^^^ mulRows (doubled a) (doubled b) R 1)⟩

/-! ## Coefficients around the end -/

/-- Coefficient `n`, counted round and round. -/
def cyc (a : Elem) (n : Nat) : Bool := a.coefs.getLsbD (n % degree)

theorem ext_cyc (h : ∀ n, cyc a n = cyc b n) : a = b := by
  cases a
  cases b
  congr
  refine BitVec.eq_of_getLsbD_eq fun i hi => ?_
  simpa [cyc, Nat.mod_eq_of_lt hi] using h i

@[simp] theorem cyc_mod : cyc a (n % degree) = cyc a n := by
  simp [cyc]

@[simp] theorem cyc_zero : cyc gnbZero n = false := by
  simp [cyc, gnbZero]

@[simp] theorem cyc_one : cyc gnbOne n = true := by
  simp [cyc, gnbOne, Nat.mod_lt]

@[simp] theorem cyc_add : cyc (gnbAdd a b) n = (cyc a n ^^ cyc b n) := by
  simp [cyc, gnbAdd]

theorem cyc_rrotateN : cyc (elemRrotateN a i) (n + i) = cyc a n := by
  have hn : n % degree < degree := Nat.mod_lt _ (by decide)
  have hi : i % degree < degree := Nat.mod_lt _ (by decide)
  unfold cyc elemRrotateN
  rw [BitVec.getLsbD_rotateLeft, Nat.mod_mod, Nat.add_mod]
  rcases Nat.lt_or_ge (n % degree + i % degree) degree with hin | hout
  · have hge : ¬ n % degree + i % degree < i % degree := by omega
    rw [Nat.mod_eq_of_lt hin, decide_eq_false hge, Nat.add_sub_cancel, decide_eq_true hin,
      cond_false, Bool.true_and]
  · have hmod : (n % degree + i % degree) % degree = n % degree + i % degree - degree := by
      rw [Nat.mod_eq_sub_mod hout, Nat.mod_eq_of_lt (by omega)]
    have hlt : n % degree + i % degree - degree < i % degree := by omega
    rw [hmod, decide_eq_true hlt, cond_true]
    exact congrArg a.coefs.getLsbD (by omega)

theorem rrotate_eq : elemRrotate a = elemRrotateN a 1 := rfl

theorem cyc_rrotate : cyc (elemRrotate a) (n + 1) = cyc a n := by
  rw [rrotate_eq, cyc_rrotateN]

theorem cyc_doubled (h : n < 2 * degree) : (doubled a).testBit n = cyc a n := by
  unfold doubled cyc
  rw [Nat.testBit_or, Nat.testBit_shiftLeft, BitVec.testBit_toNat, BitVec.testBit_toNat]
  rcases Nat.lt_or_ge n degree with hlt | hge
  · have hno : ¬ degree ≤ n := by omega
    simp [Nat.mod_eq_of_lt hlt, hno]
  · have hmod : n % degree = n - degree := by
      rw [Nat.mod_eq_sub_mod hge, Nat.mod_eq_of_lt (by omega)]
    simp [hge, hmod]

/-- What the rows of `R` add to coefficient zero, of two sequences of coefficients. -/
def rowsCoef (f g : Nat → Bool) : List Row → Nat → Bool
  | [], _ => false
  | row :: rows, i =>
    (f i && (g row.1 ^^ g row.2.1 ^^ g row.2.2.1 ^^ g row.2.2.2)) ^^ rowsCoef f g rows (i + 1)

def mulCoef (f g : Nat → Bool) : Bool := (f 0 && g 1) ^^ rowsCoef f g R 1

theorem rowsCoef_congr {rows : List Row}
    (hrows : ∀ row ∈ rows, row.1 < degree ∧ row.2.1 < degree ∧ row.2.2.1 < degree ∧
      row.2.2.2 < degree)
    (hlen : i + rows.length ≤ degree) (hf : ∀ n < degree, f n = f' n)
    (hg : ∀ n < degree, g n = g' n) : rowsCoef f g rows i = rowsCoef f' g' rows i := by
  induction rows generalizing i with
  | nil => rfl
  | cons row rows ih =>
    obtain ⟨h₁, h₂, h₃, h₄⟩ := hrows row (by simp)
    have hrest := ih (i := i + 1) (fun r hr => hrows r (by simp [hr])) (by simp at hlen; omega)
    simp only [rowsCoef, hrest, hg _ h₁, hg _ h₂, hg _ h₃, hg _ h₄]
    rw [hf i (by simp at hlen; omega)]

theorem rows_lt : ∀ row ∈ R, row.1 < degree ∧ row.2.1 < degree ∧ row.2.2.1 < degree ∧
    row.2.2.2 < degree := by
  have hall : R.all (fun row => row.1 < degree && row.2.1 < degree && row.2.2.1 < degree &&
      row.2.2.2 < degree) = true := by
    decide +kernel
  intro row hrow
  simpa [and_assoc] using List.all_eq_true.mp hall row hrow

theorem mulCoef_congr (hf : ∀ n < degree, f n = f' n) (hg : ∀ n < degree, g n = g' n) :
    mulCoef f g = mulCoef f' g' := by
  unfold mulCoef
  have hlen : 1 + R.length ≤ degree := by decide +kernel
  rw [hf 0 (by decide), hg 1 (by decide), rowsCoef_congr rows_lt hlen hf hg]

theorem testBit_mulRows {TA TB : Nat} {rows : List Row} :
    (mulRows TA TB rows i).testBit k =
      rowsCoef (fun n => TA.testBit (k + n)) (fun n => TB.testBit (k + n)) rows i := by
  induction rows generalizing i with
  | nil => simp [mulRows, rowsCoef]
  | cons row rows ih =>
    simp [mulRows, rowsCoef, rowSum, ih, Nat.testBit_xor, Nat.testBit_and,
      Nat.testBit_shiftRight, Nat.add_comm]

/-- Every coefficient of a product is found the same way, from its own place on. -/
theorem cyc_multiply : cyc (gnbMultiply a b) k =
    mulCoef (fun n => cyc a (k + n)) (fun n => cyc b (k + n)) := by
  have hlt : k % degree < degree := Nat.mod_lt _ (by decide)
  have hbits : cyc (gnbMultiply a b) k = mulCoef (fun n => (doubled a).testBit (k % degree + n))
      (fun n => (doubled b).testBit (k % degree + n)) := by
    simp only [cyc, gnbMultiply, mulCoef, BitVec.getLsbD_ofNat, hlt, decide_true, Bool.true_and,
      Nat.testBit_xor, Nat.testBit_and, Nat.testBit_shiftRight, testBit_mulRows, Nat.add_zero,
      Nat.add_comm 1]
  have hcyc : ∀ (x : Elem) n, n < degree → (doubled x).testBit (k % degree + n) = cyc x (k + n) := by
    intro x n hn
    rw [cyc_doubled (by omega), ← cyc_mod, Nat.mod_add_mod, cyc_mod]
  rw [hbits]
  exact mulCoef_congr (hcyc a) (hcyc b)

end Blackadder.Gnb
