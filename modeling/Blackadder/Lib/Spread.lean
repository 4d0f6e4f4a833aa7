import Mathlib.Algebra.Order.Group.Multiset
import Mathlib.Data.Fintype.Pigeonhole
import Mathlib.Logic.Hydra
import Mathlib.Order.OrderIsoNat
import Blackadder.Lib.Runs

/-!
# What is on its way

Each of the things on their way is taken up at some time, and gives way to what follows from it. Neither whether that
ends nor what it leads to depends on the order.
-/

namespace Spread

variable {F M : Type*}

structure State (F M : Type*) where
  waiting : Multiset F
  total : M

section

variable [DecidableEq F] [AddCommMonoid M] (next : F → Multiset F) (yield : F → M)

/-- What `f` stands for after it was taken up. -/
def State.take (σ : State F M) (f : F) : State F M := ⟨σ.waiting.erase f + next f, σ.total + yield f⟩

def Step (σ : State F M) (f : F) (σ' : State F M) : Prop := f ∈ σ.waiting ∧ σ' = σ.take next yield f

variable {next yield} {σ σ' σ₁ σ₂ : State F M} {f f' : F}

/-- What is taken up first makes no difference. -/
theorem State.take_comm (hf : f ∈ σ.waiting) (hf' : f' ∈ σ.waiting.erase f) :
    (σ.take next yield f).take next yield f' = (σ.take next yield f').take next yield f := by
  have hmem' : f' ∈ σ.waiting := Multiset.mem_of_mem_erase hf'
  have hmem : f ∈ σ.waiting.erase f' := by
    by_cases hne : f = f'
    · rwa [hne] at hf' ⊢
    · exact (Multiset.mem_erase_of_ne hne).mpr hf
  unfold State.take
  congr 1
  · dsimp only
    rw [Multiset.erase_add_left_pos _ hf', Multiset.erase_add_left_pos _ hmem, Multiset.erase_comm, add_right_comm]
  · exact add_right_comm _ _ _

theorem step_diamond (h₁ : Step next yield σ f σ₁) (h₂ : Step next yield σ f' σ₂) :
    σ₁ = σ₂ ∨ ∃ σ', Step next yield σ₁ f' σ' ∧ Step next yield σ₂ f σ' := by
  obtain ⟨hf, rfl⟩ := h₁
  obtain ⟨hf', rfl⟩ := h₂
  by_cases hne : f' = f
  · subst hne
    exact .inl rfl
  · have hrest' : f' ∈ σ.waiting.erase f := (Multiset.mem_erase_of_ne hne).mpr hf'
    have hrest : f ∈ σ.waiting.erase f' := (Multiset.mem_erase_of_ne (Ne.symm hne)).mpr hf
    refine .inr ⟨(σ.take next yield f).take next yield f', ⟨Multiset.mem_add.mpr (.inl hrest'), rfl⟩,
      Multiset.mem_add.mpr (.inl hrest), State.take_comm hf hrest'⟩

/-- All orders in which nothing is left lead to the same state. -/
theorem outcome_unique (h₁ : Runs.Reachable (Step next yield) σ σ₁) (h₂ : Runs.Reachable (Step next yield) σ σ₂)
    (hidle₁ : σ₁.waiting = 0) (hidle₂ : σ₂.waiting = 0) : σ₁ = σ₂ := by
  have hstuck : ∀ σ : State F M, σ.waiting = 0 → ∀ σ', Runs.Reachable (Step next yield) σ σ' → σ' = σ := by
    intro σ hσ σ' hreach
    rcases hreach.cases_head with rfl | ⟨_, ⟨f, hf, -⟩, -⟩
    · rfl
    · rw [hσ] at hf
      cases hf
  obtain ⟨σ', hjoin₁, hjoin₂⟩ := Relation.church_rosser (fun σ σ₁ σ₂ h₁ h₂ => by
    obtain ⟨f, h₁⟩ := h₁
    obtain ⟨f', h₂⟩ := h₂
    rcases step_diamond h₁ h₂ with rfl | ⟨σ', h₁', h₂'⟩
    · exact ⟨σ₁, .refl, .refl⟩
    · exact ⟨σ', .single ⟨f', h₁'⟩, .single ⟨f, h₂'⟩⟩) h₁ h₂
  exact (hstuck σ₁ hidle₁ σ' hjoin₁).symm.trans (hstuck σ₂ hidle₂ σ' hjoin₂)

/-- Where each thing on its way leads to an end, all of them do. -/
theorem acc_step (h : ∀ f ∈ σ.waiting, Acc (fun f' f => f' ∈ next f) f) :
    Acc (fun σ' σ => ∃ f, Step next yield σ f σ') σ := by
  -- below what leads to an end, nothing follows from itself
  let r : F → F → Prop := fun f' f => f' ∈ next f ∧ Acc (fun f' f => f' ∈ next f) f
  have hself : ∀ f, Acc (fun f' f => f' ∈ next f) f → f ∉ next f := by
    intro f hf
    induction hf with
    | intro f _ ih => exact fun hmem => ih f hmem hmem
  have hirrefl : Std.Irrefl r := ⟨fun f hf => hself f hf.2 hf.1⟩
  have hacc : ∀ f, Acc (fun f' f => f' ∈ next f) f → Acc r f := by
    intro f hf
    induction hf with
    | intro f _ ih => exact .intro f fun f' hf' => ih f' hf'.1
  have hwaiting : Acc (Relation.CutExpand r) σ.waiting :=
    Relation.acc_of_singleton fun f hf => (hacc f (h f hf)).cutExpand
  suffices hall : ∀ s, Acc (Relation.CutExpand r) s → ∀ σ : State F M, σ.waiting = s →
      (∀ f ∈ σ.waiting, Acc (fun f' f => f' ∈ next f) f) →
      Acc (fun σ' σ => ∃ f, Step next yield σ f σ') σ from hall _ hwaiting σ rfl h
  intro s hs
  induction hs with
  | intro s _ ih =>
    rintro σ rfl hσ
    refine .intro σ ?_
    rintro _ ⟨f, hf, rfl⟩
    have hf' := hσ f hf
    refine ih _ ⟨next f, f, fun f' hf'' => ⟨hf'', hf'⟩, ?_⟩ _ rfl ?_
    · have hback : σ.waiting.erase f + {f} = σ.waiting := by
        rw [add_comm, Multiset.singleton_add, Multiset.cons_erase hf]
      show σ.waiting.erase f + next f + {f} = _
      rw [add_right_comm, hback]
    · intro f'' hf''
      rcases Multiset.mem_add.mp hf'' with hold | hnew
      · exact hσ f'' (Multiset.mem_of_mem_erase hold)
      · exact hf'.inv hnew

/-- What always has a successor is on its way for ever. -/
theorem endless {P : F → Prop} (hP : ∀ f, P f → ∃ f' ∈ next f, P f')
    (hr : Runs.Reachable (Step next yield) σ σ') (h : ∃ f ∈ σ.waiting, P f) : ∃ f ∈ σ'.waiting, P f := by
  refine hr.invariant (I := fun σ => ∃ f ∈ σ.waiting, P f) h ?_
  rintro σ a _ - ⟨f, hf, hPf⟩ ⟨-, rfl⟩
  by_cases hsame : f = a
  · subst hsame
    obtain ⟨f', hf', hPf'⟩ := hP f hPf
    exact ⟨f', Multiset.mem_add.mpr (.inr hf'), hPf'⟩
  · exact ⟨f, Multiset.mem_add.mpr (.inl ((Multiset.mem_erase_of_ne hsame).mpr hf)), hPf⟩

end

/-! ## Cycles -/

/-- In a finite set that is not left, what leads to no cycle leads to an end. -/
theorem acc_of_no_cycle {α : Type*} {r : α → α → Prop} {S : Set α} (hS : S.Finite)
    (hclosed : ∀ x y, x ∈ S → r x y → y ∈ S) {a : α} (ha : a ∈ S)
    (hno : ∀ x, Relation.ReflTransGen r a x → ¬Relation.TransGen r x x) : Acc (fun y x => r x y) a := by
  by_contra hnot
  obtain ⟨f, rfl, hf⟩ := not_acc_iff_exists_descending_chain.mp hnot
  have hreach : ∀ n, Relation.ReflTransGen r (f 0) (f n) := by
    intro n
    induction n with
    | zero => exact .refl
    | succ n ih => exact ih.tail (hf n)
  have hmem : ∀ n, f n ∈ S := by
    intro n
    induction n with
    | zero => exact ha
    | succ n ih => exact hclosed _ _ ih (hf n)
  have htrans : ∀ m k, Relation.TransGen r (f m) (f (m + k + 1)) := by
    intro m k
    induction k with
    | zero => exact .single (hf m)
    | succ k ih => exact ih.tail (hf _)
  -- the chain comes back to some point
  obtain ⟨m, n, hlt, hsame⟩ := hS.exists_lt_map_eq_of_forall_mem hmem
  obtain ⟨k, rfl⟩ := Nat.exists_eq_add_of_lt hlt
  have hcycle := htrans m k
  rw [← hsame] at hcycle
  exact hno _ (hreach m) hcycle

end Spread
