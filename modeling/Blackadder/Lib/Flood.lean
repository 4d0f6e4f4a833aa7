import Mathlib.Data.Finset.Card
import Mathlib.Logic.Relation

/-!
# Copies that run down a tree

A copy that arrives at a node goes out on all edges of the tree that leave the node. The
state is the set of edges that were used and the set of those whose copy is still on its way.
-/

namespace Flood

variable {V E : Type*} {src tgt : E → V} {T : Finset E} {root : V}

/-- The edges of `T` make a tree that leads away from `root`. -/
structure IsArborescence (src tgt : E → V) (T : Finset E) (root : V) : Prop where
  unique : ∀ e ∈ T, ∀ e' ∈ T, tgt e = tgt e' → e = e'
  no_entry : ∀ e ∈ T, tgt e ≠ root
  reach : ∀ e ∈ T, Relation.ReflTransGen (fun u v => ∃ e ∈ T, src e = u ∧ tgt e = v) root (src e)

/-- No edge leads back along another. -/
theorem IsArborescence.no_return (h : IsArborescence src tgt T root) {e e' : E} (he : e ∈ T)
    (he' : e' ∈ T) (hstart : src e' = tgt e) : tgt e' ≠ src e := by
  intro hend
  -- Both ends of `e` are entered from each other only, so `root` reaches neither.
  have hout : ∀ x, Relation.ReflTransGen (fun u v => ∃ e ∈ T, src e = u ∧ tgt e = v) root x →
      x ≠ src e ∧ x ≠ tgt e := by
    intro x hx
    induction hx with
    | refl => exact ⟨fun hr => h.no_entry e' he' (hend.trans hr.symm), fun hr => h.no_entry e he hr.symm⟩
    | tail _ hstep ih =>
      obtain ⟨e'', he'', rfl, rfl⟩ := hstep
      constructor
      · intro hx
        obtain rfl := h.unique e'' he'' e' he' (hx.trans hend.symm)
        exact ih.2 hstart
      · intro hx
        obtain rfl := h.unique e'' he'' e he hx
        exact ih.1 rfl
  exact (hout _ (h.reach e he)).1 rfl

variable [DecidableEq V] [DecidableEq E]

def out (src : E → V) (T : Finset E) (v : V) : Finset E := T.filter (fun e => src e = v)

structure State (E : Type*) where
  sent : Finset E
  flying : Finset E

/-- The edges whose copy has arrived. -/
def State.arrived (σ : State E) : Finset E := σ.sent \ σ.flying

def start (src : E → V) (T : Finset E) (root : V) : State E := ⟨out src T root, out src T root⟩

/-- The copy on `e` arrives. -/
def State.arrive (src tgt : E → V) (T : Finset E) (σ : State E) (e : E) : State E where
  sent := σ.sent ∪ out src T (tgt e)
  flying := σ.flying.erase e ∪ out src T (tgt e)

/-- Exactly the edges below nodes that a copy reached were used. -/
structure State.Inv (src tgt : E → V) (T : Finset E) (root : V) (σ : State E) : Prop where
  flying_sub : σ.flying ⊆ σ.sent
  sent_sub : σ.sent ⊆ T
  sent_iff : ∀ e ∈ T, e ∈ σ.sent ↔ src e = root ∨ ∃ e' ∈ σ.sent, e' ∉ σ.flying ∧ tgt e' = src e

variable {σ : State E} {e : E}

omit [DecidableEq E] in
theorem mem_out {v : V} : e ∈ out src T v ↔ e ∈ T ∧ src e = v := Finset.mem_filter

omit [DecidableEq E] in
theorem inv_start : (start src T root).Inv src tgt T root where
  flying_sub := Finset.Subset.refl _
  sent_sub := Finset.filter_subset _ _
  sent_iff e he := by
    simp only [start, mem_out, he, true_and]
    constructor
    · exact Or.inl
    · rintro (h | ⟨e', h, hnot, -⟩)
      · exact h
      · exact absurd h hnot

namespace State.Inv

omit [DecidableEq E] in
/-- Nothing was sent on the edges below a copy that has not arrived. -/
theorem out_fresh (hσ : σ.Inv src tgt T root) (hT : IsArborescence src tgt T root)
    (he : e ∈ σ.flying) : ∀ e' ∈ out src T (tgt e), e' ∉ σ.sent := by
  intro e' he' hsent
  have heT := hσ.sent_sub (hσ.flying_sub he)
  obtain ⟨heT', hsrc⟩ := mem_out.mp he'
  rcases (hσ.sent_iff e' heT').mp hsent with hroot | ⟨e'', hsent'', hnot, htgt⟩
  · exact hT.no_entry e heT (hsrc.symm.trans hroot)
  · obtain rfl := hT.unique e'' (hσ.sent_sub hsent'') e heT (htgt.trans hsrc)
    exact hnot he

theorem arrive (hσ : σ.Inv src tgt T root) (hT : IsArborescence src tgt T root)
    (he : e ∈ σ.flying) : (σ.arrive src tgt T e).Inv src tgt T root where
  flying_sub := Finset.union_subset_union
    ((Finset.erase_subset _ _).trans hσ.flying_sub) (Finset.Subset.refl _)
  sent_sub := Finset.union_subset hσ.sent_sub (Finset.filter_subset _ _)
  sent_iff e' he' := by
    have hfresh := hσ.out_fresh hT he
    have hself : e ∉ out src T (tgt e) := fun h => hfresh e h (hσ.flying_sub he)
    simp only [State.arrive, Finset.mem_union, Finset.mem_erase, hσ.sent_iff e' he']
    constructor
    · rintro ((hroot | ⟨e'', hsent, hnot, htgt⟩) | hout)
      · exact Or.inl hroot
      · refine Or.inr ⟨e'', Or.inl hsent, ?_, htgt⟩
        rintro (h | h)
        · exact hnot h.2
        · exact hfresh e'' h hsent
      · exact Or.inr ⟨e, Or.inl (hσ.flying_sub he), by simp [hself], (mem_out.mp hout).2.symm⟩
    · rintro (hroot | ⟨e'', hsent, hnot, htgt⟩)
      · exact Or.inl (Or.inl hroot)
      · rw [not_or, not_and_or, not_not] at hnot
        rcases hnot.1 with rfl | hnot'
        · exact Or.inr (mem_out.mpr ⟨he', htgt.symm⟩)
        · exact Or.inl (Or.inr ⟨e'', hsent.resolve_right hnot.2, hnot', htgt⟩)

/-- Only the copy on `e` has arrived now that had not before. -/
theorem arrived_arrive (hσ : σ.Inv src tgt T root) (hT : IsArborescence src tgt T root)
    (he : e ∈ σ.flying) : (σ.arrive src tgt T e).arrived = insert e σ.arrived := by
  have hfresh := hσ.out_fresh hT he
  have hself : e ∉ out src T (tgt e) := fun h => hfresh e h (hσ.flying_sub he)
  ext e'
  simp only [arrived, State.arrive, Finset.mem_sdiff, Finset.mem_union, Finset.mem_erase, Finset.mem_insert]
  by_cases hout : e' ∈ out src T (tgt e)
  · have hne : e' ≠ e := fun h => hself (h ▸ hout)
    simp [hout, hne, hfresh e' hout]
  · by_cases hne : e' = e
    · subst hne
      simp [hout, hσ.flying_sub he]
    · simp [hout, hne]

omit [DecidableEq V] [DecidableEq E] in
/-- When nothing is on its way, all edges were used. -/
theorem complete (hσ : σ.Inv src tgt T root) (hT : IsArborescence src tgt T root)
    (hdone : σ.flying = ∅) : σ.sent = T := by
  refine Finset.Subset.antisymm hσ.sent_sub fun e he => ?_
  have hreach := hT.reach e he
  rw [hσ.sent_iff e he, hdone]
  -- The last edge on the way from the root was used, by induction on the way.
  suffices ∀ x, Relation.ReflTransGen (fun u v => ∃ e ∈ T, src e = u ∧ tgt e = v) root x →
      x = root ∨ ∃ e' ∈ σ.sent, e' ∉ (∅ : Finset E) ∧ tgt e' = x from this _ hreach
  intro x hx
  induction hx with
  | refl => exact Or.inl rfl
  | tail _ hstep ih =>
    obtain ⟨e', he', rfl, rfl⟩ := hstep
    refine Or.inr ⟨e', ?_, Finset.notMem_empty _, rfl⟩
    rw [hσ.sent_iff e' he', hdone]
    exact ih

end State.Inv

end Flood
