import Blackadder.Pla.Arithmetic
import Blackadder.Lib.TauAdic
import Mathlib.Data.Nat.Size
import Mathlib.Data.Int.Bitwise

/-!
# Multiples of a point

`ec_multiply_binary`, `ec_multiply_addsub` and `ec_multiply`, the last one by an expansion to the
base of the Frobenius map.
-/

namespace Blackadder.Ec

open Gnb WeierstrassCurve

/-- What the multiplications call. -/
structure Arith where
  ecAdd : Point → Point → Point
  ecSub : Point → Point → Point
  ecAddLd : EcPoint → EcPoint → EcPoint
  ecSubLd : EcPoint → EcPoint → EcPoint
  tauRedMod : Int → Int × Int

/-- The number of bits, one for zero. -/
def mpzSizeinbase2 (k : Int) : Nat := max 1 k.natAbs.size

def binaryLoop (ops : Arith) (p0 : Point) (k : Int) : Nat → Point → Point
  | 0, q => q
  | i + 1, q =>
    let q := ops.ecAdd q q
    let q := if k.testBit i then ops.ecAdd q p0 else q
    binaryLoop ops p0 k i q

def ecMultiplyBinary (ops : Arith) (p0 : Point) (k : Int) : Point :=
  binaryLoop ops p0 k (mpzSizeinbase2 k) infinity

/-- What a round does to `c` and `q` before it halves `c`. -/
def addsubStep (ops : Arith) (c : Int) (q p : Point) : Int × Point :=
  if c % 2 = 1 then
    let u := c % 4
    let u := 2 - u
    if u = 1 then (c - 1, ops.ecAdd q p)
    else if u = -1 then (c + 1, ops.ecSub q p)
    else (c, q)
  else (c, q)

theorem addsubStep_lt {ops : Arith} {c : Int} {q p : Point} (hc : c > 0) :
    ((addsubStep ops c q p).1 / 2).toNat < c.toNat := by
  unfold addsubStep
  dsimp only
  split_ifs <;> dsimp only <;> omega

def addsubLoop (ops : Arith) (c : Int) (q p : Point) : Point :=
  if c > 0 then
    let s := addsubStep ops c q p
    addsubLoop ops (s.1 / 2) s.2 (ops.ecAdd p p)
  else q
termination_by c.toNat
decreasing_by exact addsubStep_lt ‹_›

def ecMultiplyAddsub (ops : Arith) (p0 : Point) (k : Int) : Point :=
  addsubLoop ops k infinity p0

/-- What a round does to `r0` and `q` before it divides by `tau`. -/
def tauStep (ops : Arith) (r0 r1 : Int) (q p : EcPoint) : Int × EcPoint :=
  if r0 % 2 = 1 then
    let t1 := r1 * 2
    let t1 := r0 - t1
    let u := 2 - t1 % 4
    if u = 1 then (r0 - 1, ops.ecAddLd q p)
    else if u = -1 then (r0 + 1, ops.ecSubLd q p)
    else (r0, q)
  else (r0, q)

/-- The loop of `ec_multiply_tau`; none where the rounds do not suffice. -/
def tauLoop (ops : Arith) : Nat → Int → Int → EcPoint → EcPoint → Option EcPoint
  | 0, _, _, _, _ => none
  | rounds + 1, r0, r1, q, p =>
    if r0 ≠ 0 ∨ r1 ≠ 0 then
      let s := tauStep ops r0 r1 q p
      let p := ⟨⟨elemRrotate p.x, elemRrotate p.y⟩, elemRrotate p.z⟩
      let t1 := s.1 / 2
      tauLoop ops rounds (r1 + s.1 / 2) (-t1) s.2 p
    else some q

def ecMultiplyTau (ops : Arith) (rounds : Nat) (p0 : EcPoint) (k : Int) : Option EcPoint :=
  tauLoop ops rounds (ops.tauRedMod k).1 (ops.tauRedMod k).2 infinityLd p0

/-- `ec_multiply`, without the hardware. -/
def ecMultiply (ops : Arith) (rounds : Nat) (p0o : Point) (ko : Int) : Option EcPoint :=
  let p0 : EcPoint := ⟨p0o, gnbOne⟩
  let k := ko % order
  let rover2 := order / 2
  let p1 :=
    if k > rover2 then
      ecMultiplyTau ops rounds { p0 with y := gnbAdd p0.x p0.y } (order - k)
    else ecMultiplyTau ops rounds p0 k
  p1.map fun p1 => ecNormalize (fun _ => p1) () () ()

/-! ## Additions that implement a group -/

variable {A : Type*} [AddCommGroup A] {ops : Arith} {tau : AddMonoid.End A} {pt : A → Point}
  {Rep : EcPoint → A → Prop} {a b c : A} {p q q' : EcPoint} {r0 r1 k : Int} {i n rounds : Nat}

/-- The affine points `pt a` and the projective ones of `Rep` are the elements of a group, and the
operations are those of the group. -/
structure Arith.Correct (ops : Arith) (tau : AddMonoid.End A) (pt : A → Point)
    (Rep : EcPoint → A → Prop) : Prop where
  zero : pt 0 = infinity
  neg : ∀ a, pt (-a) = ⟨(pt a).x, gnbAdd (pt a).x (pt a).y⟩
  add : ∀ a b, ops.ecAdd (pt a) (pt b) = pt (a + b)
  sub : ∀ a b, ops.ecSub (pt a) (pt b) = pt (a - b)
  rotate : ∀ a, pt (tau a) = ⟨elemRrotate (pt a).x, elemRrotate (pt a).y⟩
  tau_tau : ∀ a, tau (tau a) + 2 • a = tau a
  infinityLd : Rep Ec.infinityLd 0
  addLd : ∀ {p q a b}, Rep p a → q.z = gnbOne → q.toPoint = pt b → b ≠ 0 →
    Rep (ops.ecAddLd p q) (a + b)
  subLd : ∀ {p q a b}, Rep p a → q.z = gnbOne → q.toPoint = pt b → b ≠ 0 →
    Rep (ops.ecSubLd p q) (a - b)
  affine : ∀ {p a}, Rep p a → p.affine = pt a
  redMod : ∀ a k, order • a = 0 →
    (ops.tauRedMod k).1 • a + (ops.tauRedMod k).2 • tau a = k • a

/-! ## From the left -/

theorem binaryLoop_eq (h : ops.Correct tau pt Rep) {k : Nat} :
    binaryLoop ops (pt a) k i (pt ((k / 2 ^ i) • a)) = pt (k • a) := by
  induction i with
  | zero => rw [binaryLoop, pow_zero, Nat.div_one]
  | succ i ih =>
    have hhalf : k / 2 ^ (i + 1) = k / 2 ^ i / 2 := by rw [pow_succ, Nat.div_div_eq_div_mul]
    have hbit : (k : Int).testBit i = decide (k / 2 ^ i % 2 = 1) :=
      Nat.testBit_eq_decide_div_mod_eq
    rw [binaryLoop, h.add, ← two_nsmul, smul_smul, hhalf, hbit]
    by_cases hone : k / 2 ^ i % 2 = 1
    · have hdigit : 2 * (k / 2 ^ i / 2) + 1 = k / 2 ^ i := by omega
      rw [if_pos (by simpa using hone), h.add, ← succ_nsmul, hdigit, ih]
    · have hdigit : 2 * (k / 2 ^ i / 2) = k / 2 ^ i := by omega
      rw [if_neg (by simpa using hone), hdigit, ih]

theorem ecMultiplyBinary_eq (h : ops.Correct tau pt Rep) {k : Nat} :
    ecMultiplyBinary ops (pt a) k = pt (k • a) := by
  have hsize : k / 2 ^ mpzSizeinbase2 k = 0 := by
    refine Nat.div_eq_of_lt ((Nat.lt_size_self k).trans_le ?_)
    exact Nat.pow_le_pow_right (by decide) (le_max_right _ _)
  have hloop := binaryLoop_eq h (i := mpzSizeinbase2 k) (k := k) (a := a)
  rw [hsize, zero_smul, h.zero] at hloop
  exact hloop

/-! ## From the right -/

theorem addsubStep_eq (h : ops.Correct tau pt Rep) :
    ∃ u, addsubStep ops k (pt a) (pt b) = (k - u, pt (a + u • b)) ∧ 2 ∣ k - u ∧ u ≤ 1 := by
  unfold addsubStep
  dsimp only
  split_ifs with hodd hone hminus
  · refine ⟨1, ?_, by omega, le_rfl⟩
    rw [h.add, one_zsmul]
  · refine ⟨-1, ?_, by omega, by decide⟩
    rw [h.sub, neg_one_zsmul, ← sub_eq_add_neg, sub_neg_eq_add]
  · omega
  · refine ⟨0, ?_, by omega, by decide⟩
    rw [zero_zsmul, add_zero, sub_zero]

theorem addsubLoop_eq (h : ops.Correct tau pt Rep) (hk : 0 ≤ k) :
    addsubLoop ops k (pt a) (pt b) = pt (a + k • b) := by
  induction hn : k.toNat using Nat.strong_induction_on generalizing k a b with
  | _ n ih =>
    rw [addsubLoop]
    split_ifs with hpos
    · obtain ⟨u, hstep, hdvd, hu⟩ := addsubStep_eq h (k := k) (a := a) (b := b)
      have hlt : ((addsubStep ops k (pt a) (pt b)).1 / 2).toNat < k.toNat := addsubStep_lt hpos
      rw [hstep] at hlt ⊢
      have hrest := ih _ (hn ▸ hlt) (a := a + u • b) (b := b + b) (by dsimp only; omega) rfl
      have hsplit : u + 2 * ((k - u) / 2) = k := by omega
      rw [h.add, hrest]
      congr 1
      calc a + u • b + ((k - u) / 2) • (b + b) = a + (u + 2 * ((k - u) / 2)) • b := by module
        _ = a + k • b := by rw [hsplit]
    · obtain rfl : k = 0 := by omega
      rw [zero_zsmul, add_zero]

theorem ecMultiplyAddsub_eq (h : ops.Correct tau pt Rep) {k : Nat} :
    ecMultiplyAddsub ops (pt a) k = pt (k • a) := by
  rw [ecMultiplyAddsub, ← h.zero, addsubLoop_eq h (Int.natCast_nonneg k), zero_add,
    natCast_zsmul]

/-! ## To the base of the Frobenius map -/

theorem tauStep_fst : (tauStep ops r0 r1 q p).1 = r0 - TauAdic.digit (r0, r1) := by
  unfold tauStep TauAdic.digit
  dsimp only
  rw [mul_comm r1 2]
  split_ifs <;> dsimp only <;> omega

theorem tauLoop_succ :
    tauLoop ops (rounds + 1) r0 r1 q p =
      if r0 ≠ 0 ∨ r1 ≠ 0 then
        tauLoop ops rounds (TauAdic.next (r0, r1)).1 (TauAdic.next (r0, r1)).2
          (tauStep ops r0 r1 q p).2 ⟨⟨elemRrotate p.x, elemRrotate p.y⟩, elemRrotate p.z⟩
      else some q := by
  rw [tauLoop]
  simp only [tauStep_fst, TauAdic.next]

theorem tauLoop_isSome (hend : TauAdic.next^[n] (r0, r1) = (0, 0)) (hn : n < rounds) :
    (tauLoop ops rounds r0 r1 q p).isSome := by
  induction rounds generalizing n r0 r1 q p with
  | zero => exact absurd hn (Nat.not_lt_zero n)
  | succ rounds ih =>
    rw [tauLoop_succ]
    split_ifs with hne
    · rcases n with _ | n
      · obtain ⟨rfl, rfl⟩ := Prod.mk.inj hend
        simp at hne
      · exact ih hend (Nat.lt_of_succ_lt_succ hn)
    · rfl

/-- The affine point that is added: an element of the group whose order is that of the base point. -/
structure Operand (pt : A → Point) (p : EcPoint) (b : A) : Prop where
  z : p.z = gnbOne
  eq : p.toPoint = pt b
  ne : b ≠ 0
  order : order • b = 0

theorem tauStep_snd (h : ops.Correct tau pt Rep) (hq : Rep q a) (hp : Operand pt p b) :
    Rep (tauStep ops r0 r1 q p).2 (a + TauAdic.digit (r0, r1) • b) := by
  unfold tauStep TauAdic.digit
  dsimp only
  rw [mul_comm r1 2]
  split_ifs with hodd hone hminus
  · rw [hone, one_zsmul]
    exact h.addLd hq hp.z hp.eq hp.ne
  · rw [hminus, neg_one_zsmul, ← sub_eq_add_neg]
    exact h.subLd hq hp.z hp.eq hp.ne
  · omega
  · rwa [zero_zsmul, add_zero]

/-- An element of odd order is not lost by the Frobenius map. -/
theorem tau_ne_zero (h : ops.Correct tau pt Rep) (hb : b ≠ 0) (hord : order • b = 0) :
    tau b ≠ 0 := by
  intro hzero
  have htwo : (2 : Nat) • b = 0 := by simpa [hzero] using h.tau_tau b
  have hodd : order = 2 * (order / 2) + 1 := by rw [order_eq]; decide
  apply hb
  have hcancel : (2 * (order / 2)) • b = 0 := by
    rw [mul_comm, mul_zsmul, ofNat_zsmul, htwo, zsmul_zero]
  rw [hodd, add_zsmul, hcancel, zero_add, one_zsmul] at hord
  exact hord

theorem Operand.rotate (h : ops.Correct tau pt Rep) (hp : Operand pt p b) :
    Operand pt ⟨⟨elemRrotate p.x, elemRrotate p.y⟩, elemRrotate p.z⟩ (tau b) where
  z := by
    rw [hp.z]
    simp
  eq := by
    rw [h.rotate, ← hp.eq]
  ne := tau_ne_zero h hp.ne hp.order
  order := by rw [← map_zsmul, hp.order, map_zero]

theorem tauLoop_rep (h : ops.Correct tau pt Rep) (hq : Rep q a) (hp : Operand pt p b)
    (hloop : tauLoop ops rounds r0 r1 q p = some q') : Rep q' (a + (r0 • b + r1 • tau b)) := by
  induction rounds generalizing r0 r1 q p a b with
  | zero => exact absurd hloop (by rw [tauLoop]; nofun)
  | succ rounds ih =>
    rw [tauLoop_succ] at hloop
    split_ifs at hloop with hne
    · have hrest := ih (tauStep_snd h hq hp) (hp.rotate h) hloop
      rwa [add_assoc, TauAdic.value_next (h.tau_tau b)] at hrest
    · obtain ⟨rfl, rfl⟩ : r0 = 0 ∧ r1 = 0 := by simpa using hne
      obtain rfl := Option.some.inj hloop
      simpa using hq

theorem tauLoop_halts (ops : Arith) (r0 r1 : Int) :
    ∃ n, ∀ rounds ≥ n, ∀ q p, (tauLoop ops rounds r0 r1 q p).isSome := by
  obtain ⟨n, hend⟩ := TauAdic.exists_iterate (r0, r1)
  exact ⟨n + 1, fun rounds hn q p => tauLoop_isSome hend hn⟩

theorem ecMultiplyTau_eq (h : ops.Correct tau pt Rep) (hp : Operand pt p b) (k : Int) :
    ∃ n, ∀ rounds ≥ n, ∃ q, ecMultiplyTau ops rounds p k = some q ∧ Rep q (k • b) := by
  obtain ⟨n, hsome⟩ := tauLoop_halts ops (ops.tauRedMod k).1 (ops.tauRedMod k).2
  refine ⟨n, fun rounds hn => ?_⟩
  obtain ⟨q, hq⟩ := Option.isSome_iff_exists.mp (hsome rounds hn infinityLd p)
  refine ⟨q, hq, ?_⟩
  have hrep := tauLoop_rep h h.infinityLd hp hq
  rwa [zero_add, h.redMod b k hp.order] at hrep

theorem ecNormalize_self {ι : Type*} [DecidableEq ι] {m : Memory ι} {p : ι} :
    ecNormalize m p p p = ⟨(m p).affine, gnbOne⟩ := by
  ext <;> simp [ecNormalize, EcPoint.affine]

theorem ecMultiply_eq (h : ops.Correct tau pt Rep) (ha : a ≠ 0) (hord : order • a = 0) (k : Int) :
    ∃ n, ∀ rounds ≥ n, ecMultiply ops rounds (pt a) k = some ⟨pt (k • a), gnbOne⟩ := by
  have hmod : (k % order) • a = k • a := by
    conv_rhs => rw [← Int.mul_ediv_add_emod k order, add_zsmul, mul_comm, mul_zsmul, hord,
      zsmul_zero, zero_add]
  have hfinish : ∀ {p : EcPoint} {b : A} {j : Int}, Operand pt p b → j • b = k • a →
      ∃ n, ∀ rounds ≥ n, (ecMultiplyTau ops rounds p j).map
        (fun p1 => ecNormalize (fun _ : Unit => p1) () () ()) = some ⟨pt (k • a), gnbOne⟩ := by
    intro p b j hp hj
    obtain ⟨n, hrun⟩ := ecMultiplyTau_eq h hp j
    refine ⟨n, fun rounds hn => ?_⟩
    obtain ⟨q, hq, hrep⟩ := hrun rounds hn
    rw [hq, Option.map_some, ecNormalize_self, h.affine hrep, hj]
  simp only [ecMultiply]
  by_cases hlarge : k % order > order / 2
  · simp only [hlarge, if_true]
    refine hfinish (b := -a) ⟨rfl, (h.neg a).symm, neg_ne_zero.mpr ha, ?_⟩ ?_
    · rw [zsmul_neg, hord, neg_zero]
    · rw [zsmul_neg, sub_zsmul, hord, hmod, zero_add, neg_neg]
  · simp only [hlarge, if_false]
    exact hfinish ⟨rfl, rfl, ha, hord⟩ hmod

/-- The three multiplications agree, over whatever additions implement a group, and the expansion
of every `r0 + r1 * tau` ends. -/
theorem multiplications_agree (ops : Arith) (tau : AddMonoid.End A) (pt : A → Point)
    (Rep : EcPoint → A → Prop) :
    (ops.Correct tau pt Rep →
      (∀ (P : A) (k : Nat), ecMultiplyBinary ops (pt P) k = pt (k • P) ∧
        ecMultiplyAddsub ops (pt P) k = pt (k • P)) ∧
      ∀ P : A, P ≠ 0 → order • P = 0 → ∀ k : Nat,
        ∃ n, ∀ rounds ≥ n, ecMultiply ops rounds (pt P) k = some ⟨pt (k • P), gnbOne⟩) ∧
    ∀ r0 r1 : Int, ∃ n, ∀ rounds ≥ n, ∀ q p, (tauLoop ops rounds r0 r1 q p).isSome := by
  refine ⟨fun h => ⟨fun P k => ⟨ecMultiplyBinary_eq h, ecMultiplyAddsub_eq h⟩,
    fun P hP hord k => ?_⟩, tauLoop_halts ops⟩
  have hrun := ecMultiply_eq h hP hord k
  rwa [natCast_zsmul] at hrun

/-! ## The curve -/

def canonical : E.Point → EcPoint
  | .zero => infinityLd
  | .some x y _ => ⟨⟨x, y⟩, gnbOne⟩

theorem represents_canonical (P : E.Point) : Represents (canonical P) P := by
  rcases P with _ | ⟨x, y, h⟩
  · exact rfl
  · exact represents_affine (m := fun _ : Unit => canonical (.some x y h)) (q := ()) nofun rfl rfl

open Classical in
/-- An answer where it stands for the point, else one that does. -/
noncomputable def repaired (r : EcPoint) (R : E.Point) : EcPoint :=
  if Represents r R then r else canonical R

theorem represents_repaired (r : EcPoint) (R : E.Point) : Represents (repaired r R) R := by
  unfold repaired
  split_ifs with h
  · exact h
  · exact represents_canonical R

/-- The operations of `ec.c`, made good where they are wrong. -/
noncomputable def repairedArith : Arith where
  ecAdd := chordTangent.ecAdd
  ecSub := chordTangent.ecSub
  ecAddLd p q := repaired (ecAddLd (fun i : Bool => if i then p else q) true true false true)
    (ofPoint p.affine + ofPoint q.toPoint)
  ecSubLd p q :=
    repaired (ecSubLd (fun i : Bool => if i then p else q) infinityLd true true false true)
      (ofPoint p.affine - ofPoint q.toPoint)
  tauRedMod k := (k, 0)

theorem repairedArith_correct : repairedArith.Correct Koblitz.frobenius pointOf Represents where
  zero := rfl
  neg := pointOf_neg
  add a b := by simp only [repairedArith, chordTangent, ofPoint_pointOf]
  sub a b := by simp only [repairedArith, chordTangent, ofPoint_pointOf]
  rotate a := by
    rcases a with _ | ⟨x, y, h⟩
    · have hzero : infinity = ⟨elemRrotate infinity.x, elemRrotate infinity.y⟩ := by decide +kernel
      exact hzero
    · rw [Koblitz.frobenius_some h (Koblitz.nonsingular_square h)]
      simp only [pointOf, rrotate_eq_square]
  tau_tau a := by
    rw [two_nsmul]
    exact Koblitz.frobenius_frobenius square_add_ne_one a
  infinityLd := rfl
  addLd hp _ hq _ := by
    simp only [repairedArith]
    rw [hp.affine, hq, ofPoint_pointOf, ofPoint_pointOf]
    exact represents_repaired _ _
  subLd hp _ hq _ := by
    simp only [repairedArith]
    rw [hp.affine, hq, ofPoint_pointOf, ofPoint_pointOf]
    exact represents_repaired _ _
  affine := Represents.affine
  redMod a k _ := by
    simp only [repairedArith, zero_zsmul, add_zero]

theorem multiplications_five :
    (ecMultiplyBinary repairedArith basePoint 5 = pointOf (5 • G) ∧
      ecMultiplyAddsub repairedArith basePoint 5 = pointOf (5 • G)) ∧
    ∃ n, ∀ rounds ≥ n,
      ecMultiply repairedArith rounds basePoint 5 = some ⟨pointOf (5 • G), gnbOne⟩ :=
  have hagree := (multiplications_agree repairedArith Koblitz.frobenius pointOf Represents).1
    repairedArith_correct
  ⟨hagree.1 G 5, hagree.2 G nofun order_base 5⟩

end Blackadder.Ec
