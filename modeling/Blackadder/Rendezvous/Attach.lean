import Mathlib.Data.List.AList
import Mathlib.Tactic.Common
import Blackadder.Rendezvous.Growth

/-!
# New links

A publication or a subscription puts a new node below a father, or links an existing
node to one more father, and then adds the ids that follow.
-/

namespace Blackadder

namespace LocalRV

variable {s s' s₀ : LocalRV} {lab : Node → Id} {n m : Node} {X Y F P x : Id} {f g sc : Ptr}
  {k : Kind} {strategy : Strategy} {fuel : Nat}

/-- `n` was put below `o`, or nowhere as a root scope, and all ids that follow were added. -/
structure Attached (s : LocalRV) (n : Node) (o : Option Ptr) (s' : LocalRV) : Prop where
  inv : ∃ lab, s'.Inv lab
  nodeID : s'.nodeID = s.nodeID
  record : s'.record = s.record
  out : s'.out = s.out
  fathers : ∀ m g, g ∈ s'.fatherScopes m ↔ g ∈ s.fatherScopes m ∨ (m = n ∧ o = some g)
  pairAt : ∀ m X, s'.pairAt m X = s.pairAt m X
  mono : ∀ m X, X ∈ s.ids m → X ∈ s'.ids m
  only : ∀ m X, X ∈ s'.ids m → X ∈ s.ids m ∨ s'.Under m n
  strategy : ∀ m X, X ∈ s.ids m → s'.strategy m = s.strategy m

/-- The link is there and the ids of `n` are still to be added. -/
structure Linked (s : LocalRV) (lab : Node → Id) (n : Node) (f : Ptr) (s₀ : LocalRV) : Prop where
  consistent : s₀.Consistent lab
  complete : ∀ m, m ≠ n → s₀.CompleteAt lab m
  live : ∀ m g, g ∈ s₀.fatherScopes m → m = n ∨ ∃ X, X ∈ s₀.ids m
  nodeID : s₀.nodeID = s.nodeID
  record : s₀.record = s.record
  out : s₀.out = s.out
  ids : s₀.ids = s.ids
  fathers : ∀ m g, g ∈ s₀.fatherScopes m ↔ g ∈ s.fatherScopes m ∨ (m = n ∧ f = g)
  strategy : ∀ m X, X ∈ s.ids m → s₀.strategy m = s.strategy m

theorem mem_fathers_link : g ∈ (s.link n f).fatherScopes m ↔
    g ∈ s.fatherScopes m ∨ (m = n ∧ f = g) := by
  by_cases hm : m = n
  · subst hm
    simp [link, or_comm, eq_comm]
  · simp [link, hm]

theorem mem_children_link {p : Ptr} : p ∈ (s.link n f).children g k ↔
    p ∈ s.children g k ∨ (n = ⟨k, p⟩ ∧ f = g) := by
  by_cases h : g = f ∧ k = n.kind
  · obtain ⟨rfl, rfl⟩ := h
    simp [link, or_comm, Node.ext_iff, eq_comm]
  · have : ¬ (n = ⟨k, p⟩ ∧ f = g) := by
      rintro ⟨rfl, rfl⟩
      exact h ⟨rfl, rfl⟩
    simp [link, h, this]

/-- A link to a father under which the label of `n` is free. A root scope gets no father. -/
theorem linked_link (hs : s.Inv lab) (hP : P ∈ s.ids (.scope f))
    (hfree : ∀ m, ¬ P ++ lab n ∈ s.ids m) (hn : (∃ X, X ∈ s.ids n) → ∃ g, g ∈ s.fatherScopes n)
    (hroot : n.kind = .scope → ¬ s.isRoot n.ptr = true) (hlt : n.ptr < s.next) :
    s.Linked lab n f (s.link n f) where
  nodeID := rfl
  record := rfl
  out := rfl
  ids := rfl
  fathers m g := mem_fathers_link
  strategy _ _ _ := rfl
  complete m hm := by
    rintro ⟨k, g⟩ F ⟨hk, hg⟩ hF
    rcases mem_fathers_link.mp hg with hg | ⟨rfl, _⟩
    · exact hs.complete m ⟨k, g⟩ F ⟨hk, hg⟩ hF
    · exact absurd rfl hm
  live m g hg := by
    rcases mem_fathers_link.mp hg with hg | ⟨rfl, _⟩
    · exact Or.inr (hs.live hg)
    · exact Or.inl rfl
  consistent := by
    -- A child of `f` with the label of `n` would own `P ++ lab n`.
    have hsib : ∀ m, f ∈ s.fatherScopes m → ¬ lab m = lab n := fun m hm he =>
      hfree m (he ▸ hs.mem_ext hm hP)
    constructor
    · exact hs.lab_length
    · refine sound_of hs.lab_length (fun _ _ => hs.ids_length) ?_ ?_ ?_ fun _ _ _ => hs.owner_unique
      · intro m X hr hX
        have : ∀ g, ¬ g ∈ s.fatherScopes m := fun g hg => hr g (mem_fathers_link.mpr (Or.inl hg))
        rw [hs.root_ids this hX, hs.lab_length]
      · intro m g X hg hX
        obtain ⟨g', hg'⟩ : ∃ g', g' ∈ s.fatherScopes m := by
          rcases mem_fathers_link.mp hg with hg | ⟨rfl, _⟩
          · exact ⟨g, hg⟩
          · exact hn ⟨X, hX⟩
        obtain ⟨g'', hg'', F, hF, he⟩ := hs.below hg' hX
        exact ⟨g'', mem_fathers_link.mpr (Or.inl hg''), F, hF, he⟩
      · intro m m' g hm hm' he
        rcases mem_fathers_link.mp hm with h | ⟨rfl, rfl⟩ <;>
          rcases mem_fathers_link.mp hm' with h' | ⟨rfl, hfg⟩
        · exact hs.siblings h h' he
        · exact absurd he (hsib m (hfg ▸ h))
        · exact absurd he.symm (hsib m' h')
        · rfl
    · exact hs.suffix
    · exact hs.index_iff
    · intro m g
      rw [mem_children_link, mem_fathers_link, hs.child_iff]
      exact or_congr_right (and_congr_left' ⟨Eq.symm, Eq.symm⟩)
    · intro m g hg
      rcases mem_fathers_link.mp hg with hg | ⟨_, rfl⟩
      · exact hs.father_live m g hg
      · exact ⟨P, hP⟩
    · intro m X hX
      refine (hs.has_father m X hX).imp_right ?_
      rintro ⟨g, hg⟩
      exact ⟨g, mem_fathers_link.mpr (Or.inl hg)⟩
    · intro p g hp hg
      rcases mem_fathers_link.mp hg with hg | ⟨rfl, _⟩
      · exact hs.root_fatherless p g hp hg
      · exact hroot rfl hp
    · exact hs.ids_lt
    · intro m g hg
      rcases mem_fathers_link.mp hg with hg | ⟨rfl, _⟩
      · exact hs.father_lt m g hg
      · exact hlt
    · exact hs.root_lt

/-! ## New nodes -/

theorem Inv.alloc (hs : s.Inv lab) (strat : Node → Strategy) (root : Ptr → Bool) (k : Kind)
    (hx : x.length = pursuitIdLen) (hroot : ∀ p, root p = true → s.isRoot p = true ∨ p = s.next)
    (hroot' : ∀ p, s.isRoot p = true → root p = true) :
    ({ s with strategy := strat, isRoot := root, next := s.next + 1 } : LocalRV).Inv
      (Function.update lab ⟨k, s.next⟩ x) := by
  have hlive : ∀ m X, X ∈ s.ids m → Function.update lab ⟨k, s.next⟩ x m = lab m := by
    intro m X hX
    refine Function.update_of_ne ?_ _ _
    rintro rfl
    exact hs.fresh_ids hX
  have hlab : ∀ m g, g ∈ s.fatherScopes m → Function.update lab ⟨k, s.next⟩ x m = lab m := by
    intro m g hg
    obtain ⟨X, hX⟩ := hs.live hg
    exact hlive m X hX
  have hlen : ∀ m, (Function.update lab ⟨k, s.next⟩ x m).length = pursuitIdLen := by
    intro m
    by_cases hm : m = ⟨k, s.next⟩
    · rw [hm, Function.update_self, hx]
    · rw [Function.update_of_ne hm, hs.lab_length]
  constructor
  · constructor
    · exact hlen
    · refine sound_of hlen (fun _ _ => hs.ids_length) ?_ ?_ ?_ fun _ _ _ => hs.owner_unique
      · intro m X hr hX
        rw [hs.root_ids hr hX, hs.lab_length]
      · intro m g X hg hX
        rw [hlab m g hg]
        exact hs.below hg hX
      · intro m m' g hm hm' he
        rw [hlab m g hm, hlab m' g hm'] at he
        exact hs.siblings hm hm' he
    · intro m X hX
      rw [hlive m X hX]
      exact hs.suffix m X hX
    · exact hs.index_iff
    · exact hs.child_iff
    · exact hs.father_live
    · intro m X hX
      exact (hs.has_father m X hX).imp_left (And.imp_right (hroot' m.ptr))
    · intro p g hp hg
      rcases hroot p hp with hp | rfl
      · exact hs.root_fatherless p g hp hg
      · exact hs.fresh_fathers hg
    · intro m X hX
      exact Nat.lt_succ_of_lt (hs.ids_lt m X hX)
    · intro m g hg
      exact Nat.lt_succ_of_lt (hs.father_lt m g hg)
    · intro p hp
      rcases hroot p hp with hp | rfl
      · exact Nat.lt_succ_of_lt (hs.root_lt p hp)
      · exact Nat.lt_succ_self _
  · rintro m ⟨k', g⟩ F ⟨hk, hg⟩ hF
    change F ++ Function.update lab ⟨k, s.next⟩ x m ∈ s.ids m
    cases hk
    rw [hlab m g hg]
    exact hs.mem_ext hg hF

theorem linked_newUnder (hs : s.Inv lab) (hP : P ∈ s.ids (.scope f)) (k : Kind) (strategy : Strategy)
    (hx : x.length = pursuitIdLen) (hfree : ∀ m, ¬ P ++ x ∈ s.ids m) :
    s.Linked (Function.update lab ⟨k, s.next⟩ x) ⟨k, s.next⟩ f (s.newUnder k strategy f) := by
  have hinv := hs.alloc (fun m => if m = ⟨k, s.next⟩ then strategy else s.strategy m) s.isRoot k hx
    (fun _ => Or.inl) (fun _ h => h)
  have hroot : ¬ s.isRoot s.next = true := fun h => Nat.lt_irrefl _ (hs.root_lt _ h)
  have h := linked_link (n := ⟨k, s.next⟩) (f := f) (P := P) hinv hP
    (by rw [Function.update_self]; exact hfree) (fun ⟨X, hX⟩ => absurd hX hs.fresh_ids)
    (fun _ => hroot) (Nat.lt_succ_self s.next)
  refine { h with strategy := fun m X hX => ?_ }
  have hm : ¬ m = ⟨k, s.next⟩ := by
    rintro rfl
    exact hs.fresh_ids hX
  change (if m = ⟨k, s.next⟩ then strategy else s.strategy m) = s.strategy m
  rw [if_neg hm]

/-! ## The ids that follow -/

theorem Linked.attached {D : Node → Prop} (h : s.Linked lab n f s₀) (hg : Grows lab D s₀ s')
    (hD : ∀ m, D m → s₀.Under m n) (hc : ∀ m, s'.CompleteAt lab m) :
    s.Attached n (some f) s' where
  inv := ⟨lab, hg.consistent, hc⟩
  nodeID := hg.links.nodeID.trans h.nodeID
  record := hg.links.record.trans h.record
  out := hg.links.out.trans h.out
  fathers m g := by
    rw [hg.links.fatherScopes, h.fathers, Option.some.injEq]
  pairAt m X := by
    rw [hg.pairAt, pairAt, h.ids]
    rfl
  mono m X hX := hg.mono m X (h.ids ▸ hX)
  only m X hX := by
    rw [hg.links.under]
    exact (hg.only m X hX).imp (fun hX => h.ids ▸ hX) (hD m)
  strategy m X hX := (congrFun hg.links.strategy m).trans (h.strategy m X hX)

/-- The new link brings the ids that it asks for. -/
theorem Linked.mem_ids {D : Node → Prop} (h : s.Linked lab n f s₀) (hg : Grows lab D s₀ s')
    (hc : s'.CompleteAt lab n) (hP : P ∈ s.ids (.scope f)) : P ++ lab n ∈ s'.ids n := by
  refine hc (.scope f) P ⟨rfl, ?_⟩ (hg.mono _ _ (h.ids ▸ hP))
  rw [hg.links.fatherScopes]
  exact (h.fathers n f).mpr (Or.inr ⟨rfl, rfl⟩)

theorem Linked.attached_item {p : Ptr} (h : s.Linked lab (.item p) f s₀) (hP : P ∈ s.ids (.scope f)) :
    s.Attached (.item p) (some f) (s₀.updateIDs (.item p) (lab (.item p))) ∧
      P ++ lab (.item p) ∈ (s₀.updateIDs (.item p) (lab (.item p))).ids (.item p) := by
  have hg := (updateIDs_grows (n := .item p) h.consistent).1
  have hself : ∀ g, ¬ Node.scope g = Node.item p := fun g he => by cases he
  have hc := updateIDs_complete (n := .item p) h.consistent fun g _ => hself g
  refine ⟨h.attached hg (by rintro m rfl; exact .refl) fun m => ?_, h.mem_ids hg hc hP⟩
  by_cases hm : m = .item p
  · rw [hm]
    exact hc
  · exact hg.completeAt (h.complete m hm) fun g _ => hself g

theorem Linked.attached_scope (h : s.Linked lab (.scope sc) f s₀) (hP : P ∈ s.ids (.scope f))
    (hr : recursivelyUpdateIDs fuel s₀ sc (lab (.scope sc)) = .ok s') :
    s.Attached (.scope sc) (some f) s' ∧ P ++ lab (.scope sc) ∈ s'.ids (.scope sc) := by
  obtain ⟨hg, hc⟩ := recursivelyUpdateIDs_grows h.consistent hr
  refine ⟨h.attached hg (fun _ hm => hm) fun m => hc m ?_, h.mem_ids hg (hc _ (Or.inr rfl)) hP⟩
  by_cases hm : m = .scope sc
  · exact Or.inr hm
  · exact Or.inl (h.complete m hm)

theorem attached_root (hs : s.Inv lab) (hX : X.length = pursuitIdLen)
    (hfree : ∀ m, ¬ X ∈ s.ids m) :
    s.Attached (.scope s.next) none ((s.newRootScope strategy).addID (.scope s.next) X) := by
  let lab' := Function.update lab (.scope s.next) X
  have hinv : (s.newRootScope strategy).Inv lab' := by
    refine hs.alloc _ _ .scope hX (fun p hp => ?_) fun p hp => ?_
    · by_cases h : p = s.next
      · exact Or.inr h
      · exact Or.inl (by simpa [h] using hp)
    · simp [hp]
  have hnew : lab' (.scope s.next) = X := Function.update_self ..
  have hno : ¬ X ∈ (s.newRootScope strategy).ids (.scope s.next) := hfree _
  have hl := addID_links (s.newRootScope strategy) (.scope s.next) X
  have hfathers : ∀ g, ¬ g ∈ (s.newRootScope strategy).fatherScopes (.scope s.next) :=
    fun g => hs.fresh_fathers
  refine ⟨⟨lab', ?_, ?_⟩, hl.nodeID, hl.record, hl.out, ?_, fun m Y => pairAt_addID, ?_, ?_, ?_⟩
  · constructor
    · exact hinv.lab_length
    · refine sound_of hinv.lab_length ?_ ?_ ?_ ?_ ?_
      · intro m Y hY
        rcases mem_ids_addID.mp hY with hY | ⟨_, rfl⟩
        · exact hinv.ids_length hY
        · exact hX.ge
      · intro m Y hr hY
        rw [hl.fatherScopes] at hr
        rcases mem_ids_addID.mp hY with hY | ⟨_, rfl⟩
        · rw [hinv.root_ids hr hY, hinv.lab_length]
        · exact hX
      · intro m g Y hg hY
        rw [hl.fatherScopes] at hg ⊢
        rcases mem_ids_addID.mp hY with hY | ⟨rfl, rfl⟩
        · obtain ⟨g', hg', F, hF, he⟩ := hinv.below hg hY
          exact ⟨g', hg', F, mem_ids_addID.mpr (Or.inl hF), he⟩
        · exact absurd hg (hfathers g)
      · intro m m' g hm hm' he
        rw [hl.fatherScopes] at hm hm'
        exact hinv.siblings hm hm' he
      · intro m m' Y hm hm'
        rcases mem_ids_addID.mp hm with hm | ⟨rfl, rfl⟩ <;>
          rcases mem_ids_addID.mp hm' with hm' | ⟨rfl, he⟩
        · exact hinv.owner_unique hm hm'
        · exact absurd (he ▸ hm) (hfree m)
        · exact absurd hm' (hfree m')
        · rfl
    · intro m Y hY
      rcases mem_ids_addID.mp hY with hY | ⟨rfl, rfl⟩
      · exact hinv.suffix m Y hY
      · rw [hnew, suffixOf_of_length hX]
    · intro m Y
      rw [index_addID hno, mem_ids_addID, hinv.index_iff]
      constructor
      · rintro (h | ⟨_, h⟩)
        · exact Or.inr h
        · exact Or.inl h
      · rintro (h | h)
        · refine Or.inr ⟨?_, h⟩
          rintro ⟨_, rfl⟩
          exact hfree m h
        · exact Or.inl h
    · rw [hl.children, hl.fatherScopes]
      exact hinv.child_iff
    · intro m g hg
      rw [hl.fatherScopes] at hg
      obtain ⟨G, hG⟩ := hinv.father_live m g hg
      exact ⟨G, mem_ids_addID.mpr (Or.inl hG)⟩
    · intro m Y hY
      rw [hl.fatherScopes, hl.isRoot]
      rcases mem_ids_addID.mp hY with hY | ⟨rfl, _⟩
      · exact hinv.has_father m Y hY
      · exact Or.inl ⟨rfl, by simp⟩
    · rw [hl.fatherScopes, hl.isRoot]
      exact hinv.root_fatherless
    · intro m Y hY
      rw [hl.next]
      rcases mem_ids_addID.mp hY with hY | ⟨rfl, _⟩
      · exact hinv.ids_lt m Y hY
      · exact Nat.lt_succ_self _
    · rw [hl.fatherScopes, hl.next]
      exact hinv.father_lt
    · rw [hl.isRoot, hl.next]
      exact hinv.root_lt
  · -- The new scope is the father of nobody, so its id asks for no other.
    rintro m ⟨k, g⟩ F ⟨hk, hg⟩ hF
    cases hk
    have hg : g ∈ s.fatherScopes m := by rwa [hl.fatherScopes] at hg
    rcases mem_ids_addID.mp hF with hF | ⟨he, _⟩
    · exact mem_ids_addID.mpr (Or.inl (hinv.mem_ext hg hF))
    · cases he
      obtain ⟨G, hG⟩ := hs.father_live m s.next hg
      exact absurd hG hs.fresh_ids
  · intro m g
    rw [hl.fatherScopes]
    simp
  · exact fun m Y hY => mem_ids_addID.mpr (Or.inl hY)
  · intro m Y hY
    refine (mem_ids_addID.mp hY).imp_right ?_
    rintro ⟨rfl, _⟩
    exact .refl
  · intro m Y hY
    have hm : ¬ m = .scope s.next := by
      rintro rfl
      exact hs.fresh_ids hY
    rw [hl.strategy]
    simp [hm]

end LocalRV

end Blackadder
