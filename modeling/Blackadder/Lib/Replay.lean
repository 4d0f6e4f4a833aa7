import Mathlib.Data.Finset.Basic
import Mathlib.Data.Finset.SDiff

/-!
# Views that follow announcements

A party keeps a copy of a set by applying what it is told. The copy is right as long as
every announcement is true at the end and every change is announced.
-/

namespace Replay

variable {α : Type*} [DecidableEq α]

/-- Keys that came, or keys that went. -/
structure Announcement (α : Type*) where
  added : Bool
  keys : Finset α

def Announcement.apply (a : Announcement α) (V : Finset α) : Finset α :=
  if a.added then V ∪ a.keys else V \ a.keys

/-- The view after the announcements, latest first. -/
def replay (l : List (Announcement α)) (V : Finset α) : Finset α :=
  l.foldr Announcement.apply V

theorem mem_apply_of_mem {a : Announcement α} {V : Finset α} {x : α} (hx : x ∈ a.keys) :
    x ∈ a.apply V ↔ a.added = true := by
  unfold Announcement.apply
  split <;> simp_all

theorem mem_apply_of_not_mem {a : Announcement α} {V : Finset α} {x : α} (hx : x ∉ a.keys) :
    x ∈ a.apply V ↔ x ∈ V := by
  unfold Announcement.apply
  split <;> simp [hx]

/-- True announcements that name `x`, or a view that was right about it, give a right view. -/
theorem mem_replay {l : List (Announcement α)} {V : Finset α} {P : α → Prop} {x : α}
    (htrue : ∀ a ∈ l, x ∈ a.keys → (a.added = true ↔ P x))
    (hcover : (x ∈ V ↔ P x) ∨ ∃ a ∈ l, x ∈ a.keys) : x ∈ replay l V ↔ P x := by
  induction l with
  | nil =>
    rcases hcover with h | ⟨a, ha, -⟩
    · exact h
    · cases ha
  | cons a l ih =>
    change x ∈ a.apply (replay l V) ↔ P x
    by_cases hx : x ∈ a.keys
    · rw [mem_apply_of_mem hx]
      exact htrue a List.mem_cons_self hx
    · rw [mem_apply_of_not_mem hx]
      refine ih (fun b hb => htrue b (List.mem_cons_of_mem a hb)) (hcover.imp_right ?_)
      rintro ⟨b, hb, hxb⟩
      rcases List.mem_cons.mp hb with rfl | hb
      · exact absurd hxb hx
      · exact ⟨b, hb, hxb⟩

end Replay
