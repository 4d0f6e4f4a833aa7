import Mathlib.Algebra.Group.Subgroup.Lattice
import Mathlib.Algebra.Group.Hom.End
import Mathlib.Algebra.Ring.Basic
import Mathlib.Algebra.GroupWithZero.Basic
import Mathlib.Algebra.CharP.Two
import Mathlib.Tactic.Abel
import Mathlib.Tactic.Ring

/-!
# Products on a normal basis

A bilinear product over the field of two elements, on a basis that one rotation permutes. What it
does with the first two basis elements decides that it is a commutative ring.
-/

namespace NormalBasis

structure Product (V : Type*) [AddCommGroup V] where
  mul : V →+ V →+ V
  rot : V →+ V
  one : V
  e : Nat → V

variable {V : Type*} [AddCommGroup V] {M : Product V} {a b c : V} {i j k : Nat}

/-- Multiplication by one basis element. -/
def Product.times (M : Product V) (k : Nat) : AddMonoid.End V := M.mul (M.e k)

structure Product.Lawful (M : Product V) : Prop where
  double : ∀ a : V, a + a = 0
  span : AddSubgroup.closure (Set.range M.e) = ⊤
  rot_e : ∀ k, M.rot (M.e k) = M.e (k + 1)
  rot_surj : Function.Surjective M.rot
  rot_mul : ∀ a b, M.rot (M.mul a b) = M.mul (M.rot a) (M.rot b)
  rot_one : M.rot M.one = M.one
  zero_comm : ∀ j, M.mul (M.e 0) (M.e j) = M.mul (M.e j) (M.e 0)
  zero_square : M.mul (M.e 0) (M.e 0) = M.e 1
  zero_one : M.mul (M.e 0) M.one = M.e 0
  zero_twice : ∀ j, M.mul (M.e 1) (M.e j) = M.mul (M.e 0) (M.mul (M.e 0) (M.e j))

namespace Product.Lawful

variable (h : M.Lawful)
include h

/-- What respects sums holds of everything once it holds of the basis. -/
theorem basis_induction {p : V → Prop} (hbasis : ∀ k, p (M.e k)) (hzero : p 0)
    (hadd : ∀ a b, p a → p b → p (a + b)) : p a := by
  have hmem : a ∈ AddSubgroup.closure (Set.range M.e) := by simp [h.span]
  induction hmem using AddSubgroup.closure_induction with
  | mem x hx =>
    obtain ⟨k, rfl⟩ := hx
    exact hbasis k
  | zero => exact hzero
  | add x y _ _ hx hy => exact hadd x y hx hy
  | neg x _ hx =>
    have hneg : -x = x := neg_eq_of_add_eq_zero_left (h.double x)
    rwa [hneg]

theorem basis_comm (hij : i ≤ j) : M.mul (M.e i) (M.e j) = M.mul (M.e j) (M.e i) := by
  induction i generalizing j with
  | zero => exact h.zero_comm j
  | succ i ih =>
    obtain ⟨j, rfl⟩ : ∃ m, j = m + 1 := ⟨j - 1, by omega⟩
    rw [← h.rot_e, ← h.rot_e, ← h.rot_mul, ← h.rot_mul, ih (by omega)]

protected theorem comm : M.mul a b = M.mul b a := by
  refine h.basis_induction (p := fun a => M.mul a b = M.mul b a) ?_ (by simp) ?_
  · intro i
    refine h.basis_induction (p := fun b => M.mul (M.e i) b = M.mul b (M.e i)) ?_ (by simp) ?_
    · intro j
      rcases le_total i j with hij | hij
      · exact h.basis_comm hij
      · exact (h.basis_comm hij).symm
    · intro a b ha hb
      simp [ha, hb]
  · intro a b ha hb
    simp [ha, hb]

theorem basis_square : M.mul (M.e k) (M.e k) = M.rot (M.e k) := by
  induction k with
  | zero => rw [h.zero_square, h.rot_e]
  | succ k ih => rw [← h.rot_e, ← h.rot_mul, ih]

theorem square : M.mul a a = M.rot a := by
  refine h.basis_induction (p := fun a => M.mul a a = M.rot a) ?_ (by simp) ?_
  · exact fun k => h.basis_square
  · intro a b ha hb
    have hcross : M.mul b a + M.mul a b = 0 := by
      rw [h.comm (a := b)]
      exact h.double _
    calc M.mul (a + b) (a + b) = M.mul a a + (M.mul b a + M.mul a b) + M.mul b b := by
          simp only [map_add, AddMonoidHom.add_apply]
          abel
      _ = M.rot (a + b) := by rw [hcross, ha, hb]; simp

theorem mul_one : M.mul a M.one = a := by
  refine h.basis_induction (p := fun a => M.mul a M.one = a) ?_ (by simp) ?_
  · intro k
    induction k with
    | zero => exact h.zero_one
    | succ k ih =>
      calc M.mul (M.e (k + 1)) M.one = M.rot (M.mul (M.e k) M.one) := by
            rw [h.rot_mul, h.rot_e, h.rot_one]
        _ = M.e (k + 1) := by rw [ih, h.rot_e]
  · intro a b ha hb
    simp [ha, hb]

/-- Multiplying by the next basis element is multiplying twice by this one. -/
theorem mul_next : M.mul (M.e (k + 1)) a = M.mul (M.e k) (M.mul (M.e k) a) := by
  induction k generalizing a with
  | zero =>
    refine h.basis_induction (p := fun a => M.mul (M.e 1) a = M.mul (M.e 0) (M.mul (M.e 0) a))
      h.zero_twice (by simp) ?_
    intro a b ha hb
    simp [ha, hb]
  | succ k ih =>
    obtain ⟨a, rfl⟩ := h.rot_surj a
    rw [← h.rot_e (k + 1), ← h.rot_mul, ih, h.rot_mul, h.rot_mul, h.rot_e]

theorem times_power : M.times k = M.times 0 ^ 2 ^ k := by
  induction k with
  | zero => rw [Nat.pow_zero, pow_one]
  | succ k ih =>
    rw [Nat.pow_succ, pow_mul, ← ih, pow_two]
    ext a
    exact h.mul_next

theorem basis_swap : M.mul (M.e i) (M.mul (M.e j) c) = M.mul (M.e j) (M.mul (M.e i) c) := by
  have hcomm : Commute (M.times i) (M.times j) := by
    rw [h.times_power, h.times_power (k := j)]
    exact Commute.pow_pow_self _ _ _
  exact DFunLike.congr_fun hcomm.eq c

theorem swap : M.mul a (M.mul b c) = M.mul b (M.mul a c) := by
  refine h.basis_induction (p := fun a => M.mul a (M.mul b c) = M.mul b (M.mul a c)) ?_ (by simp) ?_
  · intro i
    refine h.basis_induction
      (p := fun b => M.mul (M.e i) (M.mul b c) = M.mul b (M.mul (M.e i) c)) ?_ (by simp) ?_
    · exact fun j => h.basis_swap
    · intro a b ha hb
      simp [ha, hb]
  · intro a b ha hb
    simp [ha, hb]

protected theorem assoc : M.mul (M.mul a b) c = M.mul a (M.mul b c) := by
  rw [h.comm, h.swap, h.comm (a := c)]

end Product.Lawful

/-! ## Inverses -/

/-- Where squaring often enough changes nothing and only zero and one are their own squares, a power
is an inverse. -/
theorem mul_pow_eq_one {F : Type*} [CommRing F] {a : F} {n : Nat} (hn : 2 ≤ n) (hround : a ^ n = a)
    (hidem : ∀ x : F, x * x = x → x = 0 ∨ x = 1) (ha : a ≠ 0) : a * a ^ (n - 2) = 1 := by
  have hsucc : a * a ^ (n - 2) = a ^ (n - 1) := by
    rw [← pow_succ']
    congr 1
    omega
  have hkeep : a * a ^ (n - 1) = a := by
    rw [← pow_succ', Nat.sub_add_cancel (by omega), hround]
  have hsquare : a ^ (n - 1) * a ^ (n - 1) = a ^ (n - 1) := by
    calc a ^ (n - 1) * a ^ (n - 1) = a ^ (n - 2) * (a * a ^ (n - 1)) := by
          rw [← hsucc]
          ring
      _ = a ^ (n - 1) := by rw [hkeep, ← hsucc, mul_comm]
  rw [hsucc]
  rcases hidem _ hsquare with hzero | hone
  · rw [hzero, mul_zero] at hkeep
    exact absurd hkeep.symm ha
  · exact hone

end NormalBasis
