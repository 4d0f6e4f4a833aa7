import Mathlib.Data.List.AList
import Mathlib.Tactic.Common
import Blackadder.Rendezvous.Registrations

/-!
# Deletions

A node that nobody uses any more under one of its fathers loses that branch: the link and
all ids below the ids of the father. The last branch takes the node with it.
-/

namespace Blackadder

namespace LocalRV

variable {s s' : LocalRV} {lab : Node → Id} {n m : Node} {X Y x : Id} {f g p : Ptr} {k : Kind}
  {o : Option Ptr}

/-- `X` extends an id of `o`. Every id of a root scope is in its only branch. -/
def InBranch (s : LocalRV) (o : Option Ptr) (X : Id) : Prop :=
  ∀ f, o = some f → fatherOf X ∈ s.ids (.scope f)

/-- Some host is registered under an id of the branch. -/
def Occupied (s : LocalRV) (n : Node) (o : Option Ptr) : Prop :=
  ∃ X role h, s.InBranch o X ∧ h ∈ s.pairAt n X role

/-- The fathers of a node, `none` for a root scope. -/
def IsBranch (s : LocalRV) (n : Node) : Option Ptr → Prop
  | some f => f ∈ s.fatherScopes n
  | none => ∀ f, ¬ f ∈ s.fatherScopes n

/-- No scope and no item below `n`. -/
def Childless (s : LocalRV) (n : Node) : Prop :=
  n.kind = .scope → ∀ m, ¬ n.ptr ∈ s.fatherScopes m

theorem SameShape.inBranch {t : LocalRV} (h : s.SameShape t) : t.InBranch o X ↔ s.InBranch o X :=
  forall_congr' fun f => imp_congr_right fun _ => h.mem_ids (.scope f) _

theorem SameShape.isBranch {t : LocalRV} (h : s.SameShape t) : t.IsBranch n o ↔ s.IsBranch n o := by
  cases o <;> simp only [IsBranch, h.fatherScopes]

/-- The branch `o` of `n` was taken away. -/
structure Detached (s : LocalRV) (n : Node) (o : Option Ptr) (s' : LocalRV) : Prop where
  inv : ∀ lab, s.Inv lab → s'.Inv lab
  nodeID : s'.nodeID = s.nodeID
  record : s'.record = s.record
  out : s'.out = s.out
  strategy : s'.strategy = s.strategy
  isRoot : s'.isRoot = s.isRoot
  fathers : ∀ m g, g ∈ s'.fatherScopes m ↔ g ∈ s.fatherScopes m ∧ ¬ (m = n ∧ o = some g)
  mem_ids : ∀ m X, X ∈ s'.ids m ↔ X ∈ s.ids m ∧ ¬ (m = n ∧ s.InBranch o X)
  pairAt : ∀ m X, s'.pairAt m X = s.pairAt m X

/-- What the two kinds of deletion have in common. -/
structure Cut (s : LocalRV) (n : Node) (o : Option Ptr) (s' : LocalRV) : Prop where
  rest : s' = { s with
    ids := s'.ids, index := s'.index, fatherScopes := s'.fatherScopes, children := s'.children }
  fathers : ∀ m g, g ∈ s'.fatherScopes m ↔ g ∈ s.fatherScopes m ∧ ¬ (m = n ∧ o = some g)
  children : ∀ k p g, p ∈ s'.children g k ↔ p ∈ s.children g k ∧ ¬ (n = ⟨k, p⟩ ∧ o = some g)
  gone : ∀ X, s.InBranch o X → s'.pairAt n X = .new
  kept : ∀ m X, ¬ (m = n ∧ s.InBranch o X) → s'.pairAt m X = s.pairAt m X
  mem_ids : ∀ m X, X ∈ s'.ids m ↔ X ∈ s.ids m ∧ ¬ (m = n ∧ s.InBranch o X)
  index : ∀ k X p, s'.index k X = some p ↔
    s.index k X = some p ∧ ¬ (k = n.kind ∧ X ∈ s.ids n ∧ s.InBranch o X)

theorem Inv.other_father (hs : s.Inv lab) (hX : X ∈ s.ids n) (hb : s.IsBranch n o)
    (hnot : ¬ s.InBranch o X) : ∃ g ∈ s.fatherScopes n, ¬ o = some g := by
  cases o with
  | none => exact absurd (fun _ h => nomatch h) hnot
  | some f =>
    obtain ⟨g, hg, F, hF, rfl⟩ := hs.below hb hX
    refine ⟨g, hg, ?_⟩
    rintro ⟨⟩
    refine hnot fun f' he => ?_
    rw [← Option.some.inj he, fatherOf_append (hs.lab_length n)]
    exact hF

theorem Cut.inv (h : Cut s n o s') (hs : s.Inv lab) (hb : s.IsBranch n o)
    (hc : s.Childless n) : s'.Inv lab := by
  have hnext : s'.next = s.next := (congrArg LocalRV.next h.rest :)
  have hroot : s'.isRoot = s.isRoot := (congrArg LocalRV.isRoot h.rest :)
  have hsub : ∀ {m X}, X ∈ s'.ids m → X ∈ s.ids m := fun hX => ((h.mem_ids _ _).mp hX).1
  have hfsub : ∀ {m g}, g ∈ s'.fatherScopes m → g ∈ s.fatherScopes m := fun hg =>
    ((h.fathers _ _).mp hg).1
  -- A father is not `n`, so it keeps all its ids.
  have hkeep : ∀ {m g F}, g ∈ s.fatherScopes m → F ∈ s.ids (.scope g) → F ∈ s'.ids (.scope g) := by
    intro m g F hg hF
    refine (h.mem_ids _ _).mpr ⟨hF, ?_⟩
    rintro ⟨rfl, -⟩
    exact hc rfl m hg
  -- An id that is left has a father that is left.
  have hleft : ∀ {m X g}, g ∈ s.fatherScopes m → X ∈ s'.ids m → ∃ g', g' ∈ s'.fatherScopes m := by
    intro m X g hg hX
    obtain ⟨hX, hnot⟩ := (h.mem_ids _ _).mp hX
    by_cases hm : m = n
    · subst hm
      obtain ⟨g', hg', ho⟩ := hs.other_father hX hb fun hin => hnot ⟨rfl, hin⟩
      exact ⟨g', (h.fathers _ _).mpr ⟨hg', fun hh => ho hh.2⟩⟩
    · exact ⟨g, (h.fathers _ _).mpr ⟨hg, fun hh => hm hh.1⟩⟩
  have hbelow : ∀ m g X, g ∈ s'.fatherScopes m → X ∈ s'.ids m →
      ∃ g' ∈ s'.fatherScopes m, ∃ F ∈ s'.ids (.scope g'), X = F ++ lab m := by
    intro m g X hg hX
    obtain ⟨g', hg', F, hF, rfl⟩ := hs.below (hfsub hg) (hsub hX)
    refine ⟨g', (h.fathers _ _).mpr ⟨hg', ?_⟩, F, hkeep hg' hF, rfl⟩
    rintro ⟨rfl, rfl⟩
    refine ((h.mem_ids _ _).mp hX).2 ⟨rfl, fun f he => ?_⟩
    rw [← Option.some.inj he, fatherOf_append (hs.lab_length m)]
    exact hF
  constructor
  · constructor
    · exact hs.lab_length
    · refine sound_of hs.lab_length (fun _ _ hX => hs.ids_length (hsub hX)) ?_ hbelow ?_ ?_
      · intro m X hr hX
        by_cases hf : ∃ g, g ∈ s.fatherScopes m
        · obtain ⟨g, hg⟩ := hf
          obtain ⟨g', hg'⟩ := hleft hg hX
          exact absurd hg' (hr g')
        · rw [hs.root_ids (fun g hg => hf ⟨g, hg⟩) (hsub hX), hs.lab_length]
      · exact fun m m' g hm hm' he => hs.siblings (hfsub hm) (hfsub hm') he
      · exact fun m m' X hm hm' => hs.owner_unique (hsub hm) (hsub hm')
    · exact fun m X hX => hs.suffix m X (hsub hX)
    · intro m X
      rw [h.index, h.mem_ids, hs.index_iff]
      refine and_congr_right fun hX => not_congr ⟨?_, ?_⟩
      · rintro ⟨-, hn, hin⟩
        exact ⟨hs.owner_unique hX hn, hin⟩
      · rintro ⟨rfl, hin⟩
        exact ⟨rfl, hX, hin⟩
    · intro m g
      rw [h.children, h.fathers, hs.child_iff]
      exact and_congr_right fun _ => not_congr (and_congr_left' ⟨Eq.symm, Eq.symm⟩)
    · intro m g hg
      obtain ⟨F, hF⟩ := hs.father_live m g (hfsub hg)
      exact ⟨F, hkeep (hfsub hg) hF⟩
    · intro m X hX
      rw [hroot]
      rcases hs.has_father m X (hsub hX) with hr | ⟨g, hg⟩
      · exact Or.inl hr
      · exact Or.inr (hleft hg hX)
    · intro p g hp hg
      rw [hroot] at hp
      exact hs.root_fatherless p g hp (hfsub hg)
    · intro m X hX
      rw [hnext]
      exact hs.ids_lt m X (hsub hX)
    · intro m g hg
      rw [hnext]
      exact hs.father_lt m g (hfsub hg)
    · rw [hroot, hnext]
      exact hs.root_lt
  · rintro m ⟨k, g⟩ F ⟨hk, hg⟩ hF
    cases hk
    obtain ⟨hg, hnot⟩ := (h.fathers _ _).mp hg
    refine (h.mem_ids _ _).mpr ⟨hs.mem_ext hg (hsub hF), ?_⟩
    rintro ⟨rfl, hin⟩
    cases o with
    | none => exact hb g hg
    | some f =>
      have hf := hin f rfl
      change fatherOf (F ++ lab m) ∈ s.ids (.scope f) at hf
      rw [fatherOf_append (hs.lab_length m)] at hf
      have hfg : Node.scope f = .scope g := hs.owner_unique hf (hsub hF)
      exact hnot ⟨rfl, congrArg (fun n => some n.ptr) hfg⟩

/-- The pairs that go are empty. -/
theorem Cut.detached (h : Cut s n o s') (hb : s.IsBranch n o)
    (hc : s.Childless n) (hfree : ¬ s.Occupied n o) : s.Detached n o s' where
  inv _ hs' := h.inv hs' hb hc
  nodeID := (congrArg LocalRV.nodeID h.rest :)
  record := (congrArg LocalRV.record h.rest :)
  out := (congrArg LocalRV.out h.rest :)
  strategy := (congrArg LocalRV.strategy h.rest :)
  isRoot := (congrArg LocalRV.isRoot h.rest :)
  fathers := h.fathers
  mem_ids := h.mem_ids
  pairAt m X := by
    by_cases hin : m = n ∧ s.InBranch o X
    · obtain ⟨rfl, hin⟩ := hin
      rw [h.gone X hin]
      funext role
      refine (Finset.eq_empty_of_forall_notMem fun h hh => ?_).symm
      exact hfree ⟨X, role, h, hin, hh⟩
    · exact h.kept m X hin

/-! ## A whole node -/

theorem foldl_setIndex_none (l : List Id) : l.foldl (fun s ID => s.setIndex k ID none) s =
    { s with index := fun k' X => if k' = k ∧ X ∈ l then none else s.index k' X } := by
  induction l generalizing s with
  | nil => simp
  | cons Y l ih =>
    rw [List.foldl_cons, ih]
    simp only [setIndex, LocalRV.mk.injEq, true_and, and_true]
    funext k' X
    by_cases hk : k' = k <;> by_cases hX : X = Y <;> simp [hk, hX]

theorem deleteNode_eq : s.deleteNode n = { s with
    index := fun k X => if k = n.kind ∧ X ∈ s.ids n then none else s.index k X
    ids := fun m => if m = n then ∅ else s.ids m
    fatherScopes := fun m => if m = n then ∅ else s.fatherScopes m } := by
  rw [deleteNode, foldl_setIndex_none]
  simp only [free, setIds, setFathers, AList.mem_keys]

/-- All ids of a node with one father are in its branch, and so are those of a root scope. -/
theorem Inv.inBranch_of_only (hs : s.Inv lab) (hb : s.IsBranch n o)
    (honly : ∀ g ∈ s.fatherScopes n, o = some g) (hX : X ∈ s.ids n) : s.InBranch o X := by
  by_contra hnot
  obtain ⟨g, hg, ho⟩ := hs.other_father hX hb hnot
  exact ho (honly g hg)

theorem cut_deleteNode {s₀ : LocalRV} (hs : s.Inv lab) (hb : s.IsBranch n o)
    (honly : ∀ g ∈ s.fatherScopes n, o = some g)
    (hrest : s₀ = { s with children := s₀.children })
    (hchildren : ∀ k p g, p ∈ s₀.children g k ↔
      p ∈ s.children g k ∧ ¬ (n = ⟨k, p⟩ ∧ o = some g)) : Cut s n o (s₀.deleteNode n) := by
  have hids : s₀.ids = s.ids := (congrArg LocalRV.ids hrest :)
  have hfs : s₀.fatherScopes = s.fatherScopes := (congrArg LocalRV.fatherScopes hrest :)
  have hix : s₀.index = s.index := (congrArg LocalRV.index hrest :)
  have hin : ∀ {X}, X ∈ s.ids n → s.InBranch o X := fun hX => hs.inBranch_of_only hb honly hX
  rw [deleteNode_eq, hids, hfs, hix]
  refine ⟨?_, ?_, hchildren, ?_, ?_, ?_, ?_⟩
  · rw [hrest]
  · intro m g
    by_cases hm : m = n
    · subst hm
      simpa using fun hg => honly g hg
    · simp [hm]
  · intro X _
    simp [pairAt]
  · intro m X hnot
    by_cases hm : m = n
    · subst hm
      rw [pairAt_of_not_mem fun hX => hnot ⟨rfl, hin hX⟩]
      simp [pairAt]
    · simp [pairAt, hm]
  · intro m X
    by_cases hm : m = n
    · subst hm
      simpa using fun hX => hin hX
    · simp [hm]
  · intro k X p
    by_cases hk : k = n.kind ∧ X ∈ s.ids n
    · simp [hk, hin hk.2]
    · have : ¬ (k = n.kind ∧ X ∈ s.ids n ∧ s.InBranch o X) := fun h => hk ⟨h.1, h.2.1⟩
      simp [hk, this]

/-! ## One branch -/

/-- The loop of `deleteBranch`. -/
def eraseIDs (s : LocalRV) (n : Node) (x : Id) (l : List Id) : LocalRV :=
  l.foldl (fun s ID => (s.setIds n ((s.ids n).erase (ID ++ x))).setIndex n.kind (ID ++ x) none) s

theorem eraseIDs_rest (l : List Id) :
    s.eraseIDs n x l = { s with ids := (s.eraseIDs n x l).ids, index := (s.eraseIDs n x l).index } := by
  refine List.foldlRecOn (motive := fun t : LocalRV => t = { s with ids := t.ids, index := t.index })
    _ _ rfl fun t ht ID _ => ?_
  rw [ht]
  rfl

theorem pairAt_eraseIDs (l : List Id) : (s.eraseIDs n x l).pairAt m X =
    if m = n ∧ ∃ F ∈ l, X = F ++ x then .new else s.pairAt m X := by
  induction l generalizing s with
  | nil => simp [eraseIDs]
  | cons F l ih =>
    refine (ih (s := (s.setIds n ((s.ids n).erase (F ++ x))).setIndex n.kind (F ++ x) none)).trans ?_
    have hp : ((s.setIds n ((s.ids n).erase (F ++ x))).setIndex n.kind (F ++ x) none).pairAt m X =
        (s.setIds n ((s.ids n).erase (F ++ x))).pairAt m X := rfl
    rw [hp, pairAt_setIds]
    by_cases hm : m = n
    · subst hm
      by_cases hX : X = F ++ x
      · subst hX
        simp [AList.lookup_erase]
      · simp [hX, pairAt, AList.lookup_erase_ne]
    · simp [hm]

theorem mem_ids_eraseIDs (l : List Id) : X ∈ (s.eraseIDs n x l).ids m ↔
    X ∈ s.ids m ∧ ¬ (m = n ∧ ∃ F ∈ l, X = F ++ x) := by
  induction l generalizing s with
  | nil => simp [eraseIDs]
  | cons F l ih =>
    refine (ih (s := (s.setIds n ((s.ids n).erase (F ++ x))).setIndex n.kind (F ++ x) none)).trans ?_
    by_cases hm : m = n
    · subst hm
      simp only [setIndex_ids, setIds_ids, if_true, AList.mem_erase]
      grind
    · simp [hm]

theorem index_eraseIDs (l : List Id) : (s.eraseIDs n x l).index k X = some p ↔
    s.index k X = some p ∧ ¬ (k = n.kind ∧ ∃ F ∈ l, X = F ++ x) := by
  induction l generalizing s with
  | nil => simp [eraseIDs]
  | cons F l ih =>
    refine (ih (s := (s.setIds n ((s.ids n).erase (F ++ x))).setIndex n.kind (F ++ x) none)).trans ?_
    simp only [setIndex_index, setIds_index]
    by_cases hk : k = n.kind <;> by_cases hX : X = F ++ x <;> simp [hk, hX]

theorem deleteBranch_eq (hs : s.Inv lab) (hf : f ∈ s.fatherScopes n) : s.deleteBranch n f =
    .ok (((s.eraseChild f n).setFathers n ((s.fatherScopes n).erase f)).eraseIDs n (lab n)
      (s.ids (.scope f)).keys) := by
  have hsuf : ((s.eraseChild f n).setFathers n ((s.fatherScopes n).erase f)).firstSuffix n =
      .ok (lab n) := hs.firstSuffix_child hf
  change (do
    let suffixID ← ((s.eraseChild f n).setFathers n ((s.fatherScopes n).erase f)).firstSuffix n
    return _) = _
  rw [hsuf]
  rfl

theorem cut_eraseIDs (hs : s.Inv lab) (hf : f ∈ s.fatherScopes n) :
    Cut s n (some f) (((s.eraseChild f n).setFathers n ((s.fatherScopes n).erase f)).eraseIDs n
      (lab n) (s.ids (.scope f)).keys) := by
  let t := (s.eraseChild f n).setFathers n ((s.fatherScopes n).erase f)
  have hlast : ∀ {X}, X ∈ s.ids n → (s.InBranch (some f) X ↔
      ∃ F ∈ (s.ids (.scope f)).keys, X = F ++ lab n) := by
    intro X hX
    constructor
    · intro hin
      refine ⟨fatherOf X, AList.mem_keys.mp (hin f rfl), ?_⟩
      rw [← hs.suffix n X hX, fatherOf_append_suffixOf]
    · rintro ⟨F, hF, rfl⟩ f' he
      rw [← Option.some.inj he, fatherOf_append (hs.lab_length n)]
      exact AList.mem_keys.mpr hF
  have hrest := eraseIDs_rest (s := t) (n := n) (x := lab n) (s.ids (.scope f)).keys
  refine ⟨?_, ?_, ?_, ?_, ?_, ?_, ?_⟩
  · rw [hrest]
    rfl
  · intro m g
    rw [hrest]
    by_cases hm : m = n
    · subst hm
      simp [t, and_comm, eq_comm]
    · simp [t, hm, eraseChild]
  · intro k p g
    rw [hrest]
    by_cases hg : g = f ∧ k = n.kind
    · obtain ⟨rfl, rfl⟩ := hg
      simp [t, eraseChild, Node.ext_iff, and_comm, eq_comm]
    · have hne : n = ⟨k, p⟩ → ¬ f = g := by
        rintro rfl rfl
        exact hg ⟨rfl, rfl⟩
      simpa [t, eraseChild, hg] using fun _ => hne
  · intro X hin
    rw [pairAt_eraseIDs]
    split
    · rfl
    · next hnot =>
      refine pairAt_of_not_mem (s := t) fun hX => hnot ⟨rfl, (hlast hX).mp hin⟩
  · intro m X hnot
    rw [pairAt_eraseIDs]
    split
    · next h =>
      obtain ⟨rfl, h⟩ := h
      exact (pairAt_of_not_mem fun hX => hnot ⟨rfl, (hlast hX).mpr h⟩).symm
    · rfl
  · intro m X
    rw [mem_ids_eraseIDs]
    refine and_congr_right fun hX => not_congr (and_congr_right fun hm => ?_)
    subst hm
    exact (hlast hX).symm
  · intro k X p
    rw [index_eraseIDs]
    refine and_congr_right fun hX => not_congr (and_congr_right fun hk => ?_)
    constructor
    · rintro ⟨F, hF, rfl⟩
      have hn := hs.mem_ext hf (AList.mem_keys.mpr hF)
      exact ⟨hn, (hlast hn).mpr ⟨F, hF, rfl⟩⟩
    · rintro ⟨hn, hin⟩
      exact (hlast hn).mp hin

end LocalRV

end Blackadder
