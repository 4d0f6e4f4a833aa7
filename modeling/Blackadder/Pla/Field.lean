import Blackadder.Pla.Gnb
import Blackadder.Lib.NormalBasis
import Mathlib.Algebra.Field.Defs

/-!
# The field of `gnb.c`

The product of `gnb_multiply` is a commutative ring, its squaring is a rotation, and
`gnb_inverse` inverts.
-/

namespace Blackadder.Gnb

variable {a b c : Elem} {f g : Nat → Bool} {i k n : Nat}

/-! ## Sums -/

instance : Zero Elem := ⟨gnbZero⟩
instance : Add Elem := ⟨gnbAdd⟩
instance : Neg Elem := ⟨id⟩
instance : One Elem := ⟨gnbOne⟩
instance : Mul Elem := ⟨gnbMultiply⟩

@[simp] theorem cyc_zero' : cyc 0 n = false := cyc_zero
@[simp] theorem cyc_one' : cyc 1 n = true := cyc_one
@[simp] theorem cyc_add' : cyc (a + b) n = (cyc a n ^^ cyc b n) := cyc_add

theorem double (a : Elem) : a + a = 0 := ext_cyc fun n => by simp

instance : AddCommGroup Elem where
  add_assoc a b c := ext_cyc fun n => by simp
  zero_add a := ext_cyc fun n => by simp
  add_zero a := ext_cyc fun n => by simp
  add_comm a b := ext_cyc fun n => by simp [Bool.xor_comm]
  neg_add_cancel a := double a
  nsmul := nsmulRec
  zsmul := zsmulRec

theorem xor_swap {p q r s : Bool} : ((p ^^ q) ^^ (r ^^ s)) = ((p ^^ r) ^^ (q ^^ s)) := by
  cases p <;> cases q <;> cases r <;> cases s <;> rfl

theorem rowsCoef_xor_left {f' : Nat → Bool} {rows : List Row} :
    rowsCoef (fun n => f n ^^ f' n) g rows i =
      (rowsCoef f g rows i ^^ rowsCoef f' g rows i) := by
  induction rows generalizing i with
  | nil => rfl
  | cons row rows ih =>
    simp only [rowsCoef, ih, Bool.and_xor_distrib_right]
    exact xor_swap

theorem rowsCoef_xor_right {g' : Nat → Bool} {rows : List Row} :
    rowsCoef f (fun n => g n ^^ g' n) rows i =
      (rowsCoef f g rows i ^^ rowsCoef f g' rows i) := by
  induction rows generalizing i with
  | nil => rfl
  | cons row rows ih =>
    simp only [rowsCoef, ih]
    rw [xor_swap (p := g row.1), xor_swap (p := g row.1 ^^ _), xor_swap (p := g row.1 ^^ _ ^^ _),
      Bool.and_xor_distrib_left]
    exact xor_swap

theorem multiply_add_left (a b c : Elem) :
    gnbMultiply (a + b) c = gnbMultiply a c + gnbMultiply b c := by
  refine ext_cyc fun n => ?_
  simp only [cyc_multiply, cyc_add', mulCoef, rowsCoef_xor_left, Bool.and_xor_distrib_right]
  exact xor_swap

theorem multiply_add_right (a b c : Elem) :
    gnbMultiply a (b + c) = gnbMultiply a b + gnbMultiply a c := by
  refine ext_cyc fun n => ?_
  simp only [cyc_multiply, cyc_add', mulCoef, rowsCoef_xor_right, Bool.and_xor_distrib_left]
  exact xor_swap

/-! ## Rotations -/

theorem ext_from (m : Nat) (h : ∀ n, cyc a (n + m) = cyc b (n + m)) : a = b := by
  refine ext_cyc fun n => ?_
  have hround : ∀ x : Elem, cyc x n = cyc x (n + degree * m - m + m) := by
    intro x
    have hle : m ≤ n + degree * m := Nat.le_add_left_of_le (Nat.le_mul_of_pos_left m (by decide))
    rw [Nat.sub_add_cancel hle, ← cyc_mod, ← cyc_mod (n := n + degree * m), Nat.add_mul_mod_self_left]
  rw [hround a, hround b, h]

theorem ext_next (h : ∀ n, cyc a (n + 1) = cyc b (n + 1)) : a = b := ext_from 1 h

theorem rrotate_add (a b : Elem) : elemRrotate (a + b) = elemRrotate a + elemRrotate b :=
  ext_next fun n => by simp [cyc_rrotate]

theorem rrotate_one : elemRrotate 1 = 1 := ext_next fun n => by simp [cyc_rrotate]

theorem cyc_lrotate : cyc (elemLrotate a) n = cyc a (n + 1) := by
  have hlt : n % degree < degree := Nat.mod_lt _ (by decide)
  unfold cyc elemLrotate
  rw [BitVec.getLsbD_rotateRight, Nat.add_mod]
  rcases Nat.lt_or_ge (n % degree) (degree - 1) with hin | hout
  · have hmod : (n % degree + 1 % degree) % degree = n % degree + 1 :=
      Nat.mod_eq_of_lt (by simp only [degree] at *; omega)
    rw [hmod, decide_eq_true (by simpa using hin), cond_true]
    exact congrArg a.coefs.getLsbD (Nat.add_comm _ _)
  · have hlast : n % degree = degree - 1 := by omega
    rw [hlast]
    rfl

theorem rrotate_lrotate (a : Elem) : elemRrotate (elemLrotate a) = a :=
  ext_next fun n => by rw [cyc_rrotate, cyc_lrotate]

theorem rrotate_multiply (a b : Elem) :
    elemRrotate (gnbMultiply a b) = gnbMultiply (elemRrotate a) (elemRrotate b) := by
  refine ext_next fun n => ?_
  simp only [cyc_rrotate, cyc_multiply, Nat.add_right_comm n 1]

/-! ## The basis -/

def basis (k : Nat) : Elem := ⟨BitVec.twoPow degree (k % degree)⟩

theorem cyc_basis : cyc (basis k) n = decide (k % degree = n % degree) := by
  have hlt : k % degree < degree := Nat.mod_lt _ (by decide)
  unfold cyc basis
  rw [BitVec.getLsbD_twoPow]
  simp [hlt]

theorem rrotate_basis (k : Nat) : elemRrotate (basis k) = basis (k + 1) := by
  refine ext_next fun n => ?_
  have hshift : k % degree = n % degree ↔ (k + 1) % degree = (n + 1) % degree :=
    ⟨fun h => Nat.ModEq.add_right 1 h, fun h => Nat.ModEq.add_right_cancel' 1 h⟩
  rw [cyc_rrotate, cyc_basis, cyc_basis, decide_eq_decide]
  exact hshift

/-- Everything is a sum of basis elements. -/
theorem span_basis : AddSubgroup.closure (Set.range basis) = ⊤ := by
  rw [eq_top_iff]
  suffices hlow : ∀ m ≤ degree, ∀ a : Elem, (∀ i < degree, m ≤ i → cyc a i = false) →
      a ∈ AddSubgroup.closure (Set.range basis) by
    exact fun a _ => hlow degree le_rfl a fun i hi hge => absurd hi (by omega)
  intro m hm
  induction m with
  | zero =>
    intro a ha
    have hzero : a = 0 := by
      refine ext_cyc fun n => ?_
      rw [← cyc_mod, ha _ (Nat.mod_lt _ (by decide)) (Nat.zero_le _), cyc_zero']
    rw [hzero]
    exact zero_mem _
  | succ m ih =>
    intro a ha
    have hbasis : basis m ∈ AddSubgroup.closure (Set.range basis) :=
      AddSubgroup.subset_closure ⟨m, rfl⟩
    have hm' : m % degree = m := Nat.mod_eq_of_lt (by omega)
    cases hbit : cyc a m with
    | false =>
      refine ih (by omega) a fun i hi hge => ?_
      rcases Nat.eq_or_lt_of_le hge with rfl | hgt
      · exact hbit
      · exact ha i hi (by omega)
    | true =>
      -- Without its coefficient `m` it is a sum of smaller ones.
      have hrest : a + basis m ∈ AddSubgroup.closure (Set.range basis) := by
        refine ih (by omega) _ fun i hi hge => ?_
        rw [cyc_add', cyc_basis, hm', Nat.mod_eq_of_lt hi]
        rcases Nat.eq_or_lt_of_le hge with rfl | hgt
        · simp [hbit]
        · rw [ha i hi (by omega), decide_eq_false (by omega)]
          rfl
      have hsum : a = a + basis m + basis m := by rw [add_assoc, double, add_zero]
      rw [hsum]
      exact add_mem hrest hbasis

/-! ## The product on the basis -/

/-- `mulRows` with the operations on numbers that the kernel knows. -/
def mulRowsNat (TB : Nat) : List Row → Nat → Nat
  | [], _ => 0
  | row :: rows, TA =>
    Nat.xor (Nat.land TA (Nat.xor (Nat.xor (Nat.xor (Nat.shiftRight TB row.1)
      (Nat.shiftRight TB row.2.1)) (Nat.shiftRight TB row.2.2.1)) (Nat.shiftRight TB row.2.2.2)))
      (mulRowsNat TB rows (Nat.shiftRight TA 1))

def doubledNat (a : Nat) : Nat := Nat.lor a (Nat.shiftLeft a 163)

def multiplyNat (a b : Nat) : Nat :=
  Nat.mod (Nat.xor (Nat.land (doubledNat a) (Nat.shiftRight (doubledNat b) 1))
    (mulRowsNat (doubledNat b) R (Nat.shiftRight (doubledNat a) 1)))
    11692013098647223345629478661730264157247460343808

theorem mulRows_eq {TA TB : Nat} {rows : List Row} :
    mulRows TA TB rows i = mulRowsNat TB rows (TA >>> i) := by
  induction rows generalizing i with
  | nil => rfl
  | cons row rows ih =>
    rw [mulRows, ih, Nat.shiftRight_succ]
    rfl

theorem multiply_toNat :
    (gnbMultiply a b).coefs.toNat = multiplyNat a.coefs.toNat b.coefs.toNat := by
  unfold gnbMultiply
  rw [BitVec.toNat_ofNat, mulRows_eq]
  rfl

theorem ext_toNat (h : a.coefs.toNat = b.coefs.toNat) : a = b := by
  cases a
  cases b
  congr
  exact BitVec.eq_of_toNat_eq h

theorem basis_toNat (hk : k < degree) : (basis k).coefs.toNat = Nat.shiftLeft 1 k := by
  have hpow : Nat.shiftLeft 1 k = 2 ^ k := Nat.one_shiftLeft k
  unfold basis
  rw [BitVec.toNat_twoPow, Nat.mod_eq_of_lt hk, hpow,
    Nat.mod_eq_of_lt (Nat.pow_lt_pow_right (by decide) hk)]

theorem basis_mod : basis (k % degree) = basis k := by
  simp [basis]

theorem products_nat : ∀ j < degree,
    multiplyNat 1 (Nat.shiftLeft 1 j) = multiplyNat (Nat.shiftLeft 1 j) 1 ∧
      multiplyNat 2 (Nat.shiftLeft 1 j) = multiplyNat 1 (multiplyNat 1 (Nat.shiftLeft 1 j)) := by
  decide +kernel

theorem multiply_basis (j : Nat) :
    gnbMultiply (basis 0) (basis j) = gnbMultiply (basis j) (basis 0) ∧
      gnbMultiply (basis 1) (basis j) =
        gnbMultiply (basis 0) (gnbMultiply (basis 0) (basis j)) := by
  have hlt : j % degree < degree := Nat.mod_lt _ (by decide)
  obtain ⟨hcomm, htwice⟩ := products_nat _ hlt
  have hzero : (basis 0).coefs.toNat = 1 := basis_toNat (by decide)
  have hone : (basis 1).coefs.toNat = 2 := basis_toNat (by decide)
  rw [← basis_mod (k := j)]
  constructor
  · apply ext_toNat
    rw [multiply_toNat, multiply_toNat, basis_toNat hlt, hzero, hcomm]
  · apply ext_toNat
    rw [multiply_toNat, multiply_toNat, multiply_toNat, basis_toNat hlt, hzero, hone, htwice]

def product : NormalBasis.Product Elem where
  mul := AddMonoidHom.mk' (fun a => AddMonoidHom.mk' (gnbMultiply a) (multiply_add_right a))
    fun a b => AddMonoidHom.ext (multiply_add_left a b)
  rot := AddMonoidHom.mk' elemRrotate rrotate_add
  one := gnbOne
  e := basis

theorem product_lawful : product.Lawful where
  double := double
  span := span_basis
  rot_e := rrotate_basis
  rot_surj a := ⟨elemLrotate a, rrotate_lrotate a⟩
  rot_mul := rrotate_multiply
  rot_one := rrotate_one
  zero_comm j := (multiply_basis j).1
  zero_square := by decide +kernel
  zero_one := by decide +kernel
  zero_twice j := (multiply_basis j).2

instance : CommRing Elem where
  __ := (inferInstance : AddCommGroup Elem)
  mul_assoc a b c := product_lawful.assoc
  one_mul a := product_lawful.comm.trans product_lawful.mul_one
  mul_one a := product_lawful.mul_one
  mul_comm a b := product_lawful.comm
  left_distrib := multiply_add_right
  right_distrib := multiply_add_left
  zero_mul a := map_zero (product.mul.flip a)
  mul_zero a := map_zero (product.mul a)

@[simp] theorem multiply_eq : gnbMultiply a b = a * b := rfl

@[simp] theorem add_eq : gnbAdd a b = a + b := rfl

@[simp] theorem one_eq : gnbOne = 1 := rfl

@[simp] theorem zero_eq : gnbZero = 0 := rfl

@[simp] theorem square_eq : gnbSquare a = a ^ 2 := by
  rw [pow_two]
  exact product_lawful.square.symm

@[simp] theorem rrotate_eq_square : elemRrotate a = a ^ 2 := square_eq

@[simp] theorem rrotateN_eq_pow : elemRrotateN a k = a ^ 2 ^ k := by
  induction k with
  | zero =>
    rw [pow_zero, pow_one]
    exact ext_cyc fun n => cyc_rrotateN (i := 0)
  | succ k ih =>
    have hnext : elemRrotateN a (k + 1) = elemRrotate (elemRrotateN a k) :=
      ext_from (k + 1) fun n => by rw [cyc_rrotateN, ← Nat.add_assoc, cyc_rrotate, cyc_rrotateN]
    rw [hnext, ih, rrotate_eq_square, ← pow_mul, Nat.pow_succ]

theorem pow_round : a ^ 2 ^ degree = a := by
  rw [← rrotateN_eq_pow]
  refine ext_cyc fun n => ?_
  rw [← cyc_mod, ← Nat.add_mod_right, cyc_mod, cyc_rrotateN]

theorem one_ne_zero' : (1 : Elem) ≠ 0 := by decide

instance : Nontrivial Elem := ⟨1, 0, one_ne_zero'⟩

instance : CharP Elem 2 := CharTwo.of_one_ne_zero_of_two_eq_zero one_ne_zero' (by
  rw [← one_add_one_eq_two, double])

theorem idempotent_cases (h : a * a = a) : a = 0 ∨ a = 1 := by
  have hrot : elemRrotate a = a := by rw [rrotate_eq_square, pow_two, h]
  have hconst : ∀ n, cyc a n = cyc a 0 := by
    intro n
    induction n with
    | zero => rfl
    | succ n ih => rw [← ih, ← cyc_rrotate (n := n), hrot]
  cases hbit : cyc a 0 with
  | false => exact Or.inl (ext_cyc fun n => by rw [hconst, hbit, cyc_zero'])
  | true => exact Or.inr (ext_cyc fun n => by rw [hconst, hbit, cyc_one'])

/-! ## Inverses -/

def inverseLoop (beta : Elem) : Nat → Elem → Nat → Elem
  | 0, eta, _ => eta
  | i + 1, eta, k =>
    let eta := gnbMultiply (elemRrotateN eta k) eta
    if (degree - 1).testBit i then
      inverseLoop beta i (gnbMultiply (gnbSquare eta) beta) (k <<< 1 + 1)
    else inverseLoop beta i eta (k <<< 1)

def gnbInverse (beta : Elem) : Elem :=
  gnbSquare (inverseLoop beta (Nat.log2 (degree - 1)) beta 1)

/-- The `k` that the loop ends with. -/
def inverseSteps : Nat → Nat → Nat
  | 0, k => k
  | i + 1, k => inverseSteps i (if (degree - 1).testBit i then 2 * k + 1 else 2 * k)

theorem inverseLoop_eq : inverseLoop a i (a ^ (2 ^ k - 1)) k = a ^ (2 ^ inverseSteps i k - 1) := by
  induction i generalizing k with
  | zero => rfl
  | succ i ih =>
    obtain ⟨m, hm⟩ : ∃ m, 2 ^ k = m + 1 := ⟨2 ^ k - 1, by have := Nat.two_pow_pos k; omega⟩
    have hsquare : 2 ^ (2 * k) = m * (m + 1) + m + 1 := by
      rw [two_mul, pow_add, hm]
      ring
    have hdouble : gnbMultiply (elemRrotateN (a ^ (2 ^ k - 1)) k) (a ^ (2 ^ k - 1)) =
        a ^ (2 ^ (2 * k) - 1) := by
      rw [multiply_eq, rrotateN_eq_pow, ← pow_mul, ← pow_add, hsquare, hm]
      rfl
    have hodd : gnbMultiply (gnbSquare (a ^ (2 ^ (2 * k) - 1))) a = a ^ (2 ^ (2 * k + 1) - 1) := by
      rw [multiply_eq, square_eq, ← pow_mul, ← pow_succ, pow_succ 2, hsquare]
      congr 1
      omega
    have hshift : k <<< 1 = 2 * k := by rw [Nat.shiftLeft_eq]; omega
    simp only [inverseLoop, inverseSteps, hdouble, hshift]
    split
    · rw [hodd, ih]
    · exact ih

theorem inverse_eq_pow : gnbInverse a = a ^ (2 ^ degree - 2) := by
  have hsteps : inverseSteps (Nat.log2 (degree - 1)) 1 = degree - 1 := by decide +kernel
  have hloop := inverseLoop_eq (a := a) (i := Nat.log2 (degree - 1)) (k := 1)
  have hexp : (2 ^ (degree - 1) - 1) * 2 = 2 ^ degree - 2 := by decide +kernel
  rw [hsteps, pow_one] at hloop
  rw [gnbInverse, square_eq, ← hexp, pow_mul, ← hloop, Nat.succ_sub_one, pow_one]

theorem multiply_inverse (h : a ≠ 0) : a * gnbInverse a = 1 := by
  rw [inverse_eq_pow]
  exact NormalBasis.mul_pow_eq_one (by decide) pow_round (fun _ => idempotent_cases) h

theorem inverse_zero : gnbInverse 0 = 0 := by
  rw [inverse_eq_pow]
  exact zero_pow (by decide +kernel)

instance : Field Elem where
  inv := gnbInverse
  exists_pair_ne := ⟨1, 0, one_ne_zero'⟩
  mul_inv_cancel _ := multiply_inverse
  inv_zero := inverse_zero
  nnqsmul := _
  qsmul := _

@[simp] theorem inverse_eq : gnbInverse a = a⁻¹ := rfl

end Blackadder.Gnb
