import Mathlib.Algebra.GroupWithZero.Nat
import Mathlib.Data.List.Basic
import Mathlib.Data.List.Forall2
import Mathlib.Tactic.Common

/-!
# Drawing what is new, and handing it out in order

A draw is repeated until its value is not taken. A loop whose body takes the next entries of a
table by a counter fails when the table ends.
-/

namespace Vouchers

/-! ## Draws -/

variable {V R : Type*} {draw : R → Option (V × R)} {taken : V → Bool} {fuel : Nat} {r r' : R} {v : V}

/-- Draws until a value is not taken. -/
def untilFresh (draw : R → Option (V × R)) (taken : V → Bool) : Nat → R → Option (V × R)
  | 0, _ => none
  | fuel + 1, r =>
    match draw r with
    | none => none
    | some (v, r') => if taken v then untilFresh draw taken fuel r' else some (v, r')

/-- The value that is kept was drawn and is new. -/
theorem untilFresh_spec (h : untilFresh draw taken fuel r = some (v, r')) :
    taken v = false ∧ ∃ r₀, draw r₀ = some (v, r') := by
  induction fuel generalizing r with
  | zero => cases h
  | succ fuel ih =>
    rw [untilFresh] at h
    split at h
    · cases h
    · next v₀ r₀ hdraw =>
      split at h
      · exact ih h
      · next hnew =>
        cases h
        exact ⟨eq_false_of_ne_true hnew, r, hdraw⟩

/-! ## Handing out -/

variable {α β ι : Type*} {ids : List ι} {k : α → Nat} {f : α → Nat → Option (β × Nat)}
  {slots : β → List ι} {l : List α} {bs : List β} {c c' n m : Nat}

/-- `f` takes the next `n` entries of the table, and `slots` says where it put them. -/
structure Hands (ids : List ι) (n : Nat) (f : Nat → Option (β × Nat)) (slots : β → List ι) :
    Prop where
  taken : ∀ {c b c'}, f c = some (b, c') →
    c' = c + n ∧ c' ≤ max c ids.length ∧ slots b = (ids.drop c).take n
  total : ∀ {c}, c + n ≤ ids.length → ∃ b, f c = some (b, c + n)

/-- A loop over `l` with the counter. -/
def loop (f : α → Nat → Option (β × Nat)) : List α → Nat → Option (List β × Nat)
  | [], c => some ([], c)
  | a :: l, c =>
    match f a c with
    | none => none
    | some (b, c') =>
      match loop f l c' with
      | none => none
      | some (bs, c'') => some (b :: bs, c'')

theorem Hands.none (b : β) (hb : slots b = []) : Hands ids 0 (fun c => some (b, c)) slots where
  taken h := by
    cases h
    exact ⟨rfl, Nat.le_max_left _ _, by rw [hb, List.take_zero]⟩
  total _ := ⟨b, rfl⟩

theorem Hands.one {g : ι → β} (hg : ∀ i, slots (g i) = [i]) :
    Hands ids 1 (fun c => ids[c]?.map fun i => (g i, c + 1)) slots where
  taken {c b c'} h := by
    obtain ⟨i, hi, heq⟩ := Option.map_eq_some_iff.mp h
    cases heq
    obtain ⟨hlt, hget⟩ := List.getElem?_eq_some_iff.mp hi
    refine ⟨rfl, Nat.le_trans hlt (Nat.le_max_right _ _), ?_⟩
    rw [hg, List.drop_eq_getElem_cons hlt, List.take_succ_cons, List.take_zero, hget]
  total {c} h := ⟨g ids[c], by rw [List.getElem?_eq_getElem (by omega)]; rfl⟩

theorem Hands.map {γ : Type*} {slots' : γ → List ι} {g : β → γ} {f : Nat → Option (β × Nat)}
    (h : Hands ids n f slots) (hg : ∀ b, slots' (g b) = slots b) :
    Hands ids n (fun c => (f c).map fun (b, c') => (g b, c')) slots' where
  taken {c d c'} hd := by
    obtain ⟨⟨b, c₁⟩, hb, heq⟩ := Option.map_eq_some_iff.mp hd
    cases heq
    rw [hg]
    exact h.taken hb
  total hc := by
    obtain ⟨b, hb⟩ := h.total hc
    exact ⟨g b, by rw [hb]; rfl⟩

theorem Hands.seq {γ : Type*} {slots' out : γ → List ι} {f : Nat → Option (β × Nat)}
    {f' : β → Nat → Option (γ × Nat)} (h : Hands ids n f slots)
    (h' : ∀ c b c', f c = some (b, c') → Hands ids m (f' b) slots')
    (hout : ∀ c b c' d c'', f c = some (b, c') → f' b c' = some (d, c'') →
      out d = slots b ++ slots' d) :
    Hands ids (n + m) (fun c => (f c).bind fun (b, c') => f' b c') out where
  taken {c d c''} hd := by
    obtain ⟨⟨b, c'⟩, hb, hd⟩ := Option.bind_eq_some_iff.mp hd
    obtain ⟨rfl, hle, hs⟩ := h.taken hb
    obtain ⟨rfl, hle', hs'⟩ := (h' _ _ _ hb).taken hd
    refine ⟨by omega, by omega, ?_⟩
    rw [hout _ _ _ _ _ hb hd, hs, hs', List.take_add, List.drop_drop]
  total {c} hc := by
    obtain ⟨b, hb⟩ := h.total (c := c) (by omega)
    obtain ⟨d, hd⟩ := (h' _ _ _ hb).total (c := c + n) (by omega)
    exact ⟨d, by rw [hb, ← Nat.add_assoc]; exact hd⟩

theorem Hands.loop (h : ∀ a, Hands ids (k a) (f a) slots) (l : List α) :
    Hands ids (l.map k).sum (Vouchers.loop f l) (·.flatMap slots) := by
  induction l with
  | nil => exact Hands.none [] rfl
  | cons a l ih =>
    constructor
    · intro c bs c' hbs
      rw [Vouchers.loop] at hbs
      split at hbs
      · cases hbs
      · next b c₁ hb =>
        split at hbs
        · cases hbs
        · next bs₀ c₂ hbs₀ =>
          cases hbs
          obtain ⟨rfl, hle, hs⟩ := (h a).taken hb
          obtain ⟨rfl, hle', hs'⟩ := ih.taken hbs₀
          rw [List.map_cons, List.sum_cons]
          refine ⟨by omega, by omega, ?_⟩
          rw [List.flatMap_cons, hs, hs', List.take_add, List.drop_drop]
    · intro c hc
      rw [List.map_cons, List.sum_cons] at hc ⊢
      obtain ⟨b, hb⟩ := (h a).total (c := c) (by omega)
      obtain ⟨bs, hbs⟩ := ih.total (c := c + k a) (by omega)
      exact ⟨b :: bs, by rw [Vouchers.loop, hb]; simp only [hbs, Nat.add_assoc]⟩

theorem loop_forall₂ {Rel : α → β → Prop} (h : loop f l c = some (bs, c'))
    (hf : ∀ a c b c', f a c = some (b, c') → Rel a b) : List.Forall₂ Rel l bs := by
  induction l generalizing c bs with
  | nil =>
    cases h
    exact .nil
  | cons a l ih =>
    rw [loop] at h
    split at h
    · cases h
    · next b c₁ hb =>
      split at h
      · cases h
      · next bs₀ c₂ hbs₀ =>
        cases h
        exact .cons (hf _ _ _ _ hb) (ih hbs₀)

end Vouchers
