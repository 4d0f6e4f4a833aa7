import Mathlib.Data.Finset.Basic
import Mathlib.Data.List.Nodup

/-!
# Sets that are walked in a fixed order

A hash table used as a set, with the order in which its iterator visits the
elements kept in a list. No element occurs twice.
-/

structure ListSet (α : Type*) where
  toList : List α
  nodup : toList.Nodup

namespace ListSet

variable {α : Type*}

instance : Membership α (ListSet α) := ⟨fun s a => a ∈ s.toList⟩

instance : EmptyCollection (ListSet α) := ⟨⟨[], List.nodup_nil⟩⟩

def size (s : ListSet α) : Nat := s.toList.length

variable [DecidableEq α]

instance (a : α) (s : ListSet α) : Decidable (a ∈ s) := inferInstanceAs (Decidable (a ∈ s.toList))

/-- `find_insert`: nothing happens when the element is already there. -/
def insert (s : ListSet α) (a : α) : ListSet α := ⟨s.toList.insert a, s.nodup.insert⟩

def erase (s : ListSet α) (a : α) : ListSet α := ⟨s.toList.erase a, s.nodup.erase a⟩

omit [DecidableEq α] in
@[simp]
theorem mem_toList (s : ListSet α) (a : α) : a ∈ s.toList ↔ a ∈ s := Iff.rfl

omit [DecidableEq α] in
@[simp]
theorem not_mem_empty (a : α) : ¬ a ∈ (∅ : ListSet α) := List.not_mem_nil

@[simp]
theorem mem_insert (s : ListSet α) (a b : α) : b ∈ s.insert a ↔ b = a ∨ b ∈ s :=
  List.mem_insert_iff

@[simp]
theorem mem_erase (s : ListSet α) (a b : α) : b ∈ s.erase a ↔ b ≠ a ∧ b ∈ s :=
  s.nodup.mem_erase_iff

omit [DecidableEq α] in
theorem size_eq_zero (s : ListSet α) : s.size = 0 ↔ ∀ a, ¬ a ∈ s := by
  rw [size, List.length_eq_zero_iff, List.eq_nil_iff_forall_not_mem]
  rfl

omit [DecidableEq α] in
theorem eq_of_size_one (s : ListSet α) (a b : α) (h : s.size = 1) (ha : a ∈ s) (hb : b ∈ s) :
    b = a := by
  obtain ⟨c, hc⟩ := List.length_eq_one_iff.mp h
  rw [← mem_toList, hc, List.mem_singleton] at ha hb
  rw [ha, hb]

omit [DecidableEq α] in
theorem exists_ne_of_size (s : ListSet α) (a : α) (h : s.size ≠ 1) (ha : a ∈ s) :
    ∃ b ∈ s, b ≠ a := by
  obtain ⟨l, hl⟩ := s
  match l, hl with
  | [], _ => exact absurd ha List.not_mem_nil
  | [c], _ => exact absurd rfl h
  | c :: d :: rest, hl =>
    have hcd : c ≠ d := fun e => (List.nodup_cons.mp hl).1 (e ▸ List.mem_cons_self)
    by_cases hca : c = a
    · exact ⟨d, List.mem_cons_of_mem _ List.mem_cons_self, fun e => hcd (hca.trans e.symm)⟩
    · exact ⟨c, List.mem_cons_self, hca⟩

end ListSet
