import Mathlib.Data.List.Sort
import Mathlib.Data.Finset.Basic

/-!
# Sets that are walked in the order of their elements

A tree set as the list of its elements, the smallest first.
-/

namespace StdSet

variable {α : Type*} {r : α → α → Prop} [DecidableRel r] [DecidableEq α] {l xs : List α} {a b : α}

/-- `insert` does nothing when the element is already there. -/
def insert (r : α → α → Prop) [DecidableRel r] (l : List α) (a : α) : List α :=
  if a ∈ l then l else l.orderedInsert r a

theorem mem_insert : b ∈ insert r l a ↔ b = a ∨ b ∈ l := by
  unfold insert
  split
  · next ha =>
    constructor
    · exact Or.inr
    · rintro (rfl | hb)
      · exact ha
      · exact hb
  · exact List.mem_orderedInsert r

theorem nodup_insert (hl : l.Nodup) : (insert r l a).Nodup := by
  unfold insert
  split
  · exact hl
  · next ha => exact (List.perm_orderedInsert r a l).nodup_iff.mpr (List.nodup_cons.mpr ⟨ha, hl⟩)

/-- The set of the elements of a list. -/
def ofList (r : α → α → Prop) [DecidableRel r] (xs : List α) : List α := xs.foldl (insert r) []

theorem foldl_insert (hl : l.Nodup) :
    (xs.foldl (insert r) l).Nodup ∧ ∀ b, b ∈ xs.foldl (insert r) l ↔ b ∈ xs ∨ b ∈ l := by
  induction xs generalizing l with
  | nil => simp [hl]
  | cons a xs ih =>
    obtain ⟨hnodup, hmem⟩ := ih (nodup_insert (r := r) (a := a) hl)
    refine ⟨hnodup, fun b => ?_⟩
    rw [List.foldl_cons, hmem, mem_insert, List.mem_cons]
    tauto

theorem nodup_ofList : (ofList r xs).Nodup := (foldl_insert List.nodup_nil).1

theorem mem_ofList : b ∈ ofList r xs ↔ b ∈ xs := by
  rw [ofList, (foldl_insert List.nodup_nil).2 b]
  simp

theorem ofList_append {ys : List α} : ofList r (xs ++ ys) = ys.foldl (insert r) (ofList r xs) :=
  List.foldl_append

theorem ofList_eq_nil : ofList r xs = [] ↔ xs = [] := by
  simp only [List.eq_nil_iff_forall_not_mem, mem_ofList]

theorem toFinset_ofList : (ofList r xs).toFinset = xs.toFinset := by
  ext b
  simp only [List.mem_toFinset, mem_ofList]

end StdSet
