import Mathlib.Data.List.AList
import Mathlib.Tactic.Common
import Blackadder.Lib.Loops
import Blackadder.Rendezvous.Invariant

/-!
# The propagation of ids

`addID` and the loops around it only add ids, all of them below the scope they start at.
-/

namespace Blackadder

namespace LocalRV

variable {s s' t : LocalRV} {lab : Node → Id} {n m : Node} {X Y F x : Id} {f sc : Ptr}
  {D : Node → Prop} {fuel : Nat}

/-- The children of a scope among the scopes. -/
def ChildScope (s : LocalRV) (c p : Ptr) : Prop := c ∈ s.childrenScopes p

/-- Only the ids and the indexes differ. -/
def SameLinks (s s' : LocalRV) : Prop := s' = { s with ids := s'.ids, index := s'.index }

namespace SameLinks

theorem refl (s : LocalRV) : s.SameLinks s := rfl

theorem trans (h : s.SameLinks s') (h' : s'.SameLinks t) : s.SameLinks t := by
  unfold SameLinks at h h' ⊢
  rw [h', h]

theorem nodeID (h : s.SameLinks s') : s'.nodeID = s.nodeID := (congrArg LocalRV.nodeID h :)
theorem fatherScopes (h : s.SameLinks s') : s'.fatherScopes = s.fatherScopes :=
  (congrArg LocalRV.fatherScopes h :)
theorem strategy (h : s.SameLinks s') : s'.strategy = s.strategy := (congrArg LocalRV.strategy h :)
theorem children (h : s.SameLinks s') : s'.children = s.children := (congrArg LocalRV.children h :)
theorem childrenScopes (h : s.SameLinks s') : s'.childrenScopes = s.childrenScopes := by
  unfold LocalRV.childrenScopes
  rw [h.children]
theorem childScope (h : s.SameLinks s') : s'.ChildScope = s.ChildScope := by
  unfold ChildScope
  rw [h.childrenScopes]
theorem isRoot (h : s.SameLinks s') : s'.isRoot = s.isRoot := (congrArg LocalRV.isRoot h :)
theorem record (h : s.SameLinks s') : s'.record = s.record := (congrArg LocalRV.record h :)
theorem next (h : s.SameLinks s') : s'.next = s.next := (congrArg LocalRV.next h :)
theorem out (h : s.SameLinks s') : s'.out = s.out := (congrArg LocalRV.out h :)

end SameLinks

/-- `s'` is consistent and has more ids than `s`, with empty pairs, at nodes of `D` only. -/
structure Grows (lab : Node → Id) (D : Node → Prop) (s s' : LocalRV) : Prop where
  links : s.SameLinks s'
  consistent : s'.Consistent lab
  pairAt : ∀ n X, s'.pairAt n X = s.pairAt n X
  mono : ∀ n X, X ∈ s.ids n → X ∈ s'.ids n
  only : ∀ n X, X ∈ s'.ids n → X ∈ s.ids n ∨ D n

namespace Grows

theorem refl (hs : s.Consistent lab) : Grows lab D s s :=
  ⟨.refl s, hs, fun _ _ => rfl, fun _ _ h => h, fun _ _ h => Or.inl h⟩

theorem trans (h : Grows lab D s s') (h' : Grows lab D s' t) : Grows lab D s t where
  links := h.links.trans h'.links
  consistent := h'.consistent
  pairAt n X := (h'.pairAt n X).trans (h.pairAt n X)
  mono n X hX := h'.mono n X (h.mono n X hX)
  only n X hX := (h'.only n X hX).elim (h.only n X) Or.inr

theorem weaken {D' : Node → Prop} (h : Grows lab D s s') (hD : ∀ n, D n → D' n) :
    Grows lab D' s s' :=
  { h with only := fun n X hX => (h.only n X hX).imp_right (hD n) }

/-- A node without new ids at its fathers stays complete. -/
theorem completeAt (h : Grows lab D s s') (hm : s.CompleteAt lab m)
    (hD : ∀ f ∈ s.fatherScopes m, ¬ D (.scope f)) : s'.CompleteAt lab m := by
  rintro ⟨k, f⟩ F ⟨hk, hf⟩ hF
  cases hk
  rw [h.links.fatherScopes] at hf
  rcases h.only _ _ hF with hF | hF
  · exact h.mono _ _ (hm (.scope f) F ⟨rfl, hf⟩ hF)
  · exact absurd hF (hD f hf)

end Grows

/-! ## One id -/

theorem addID_of_mem (hX : X ∈ s.ids n) : s.addID n X = s := by
  simp [addID, hX]

theorem addID_of_not_mem (hX : ¬ X ∈ s.ids n) : s.addID n X =
    (s.setIndex n.kind X n.ptr).setIds n ((s.ids n).insert X .new) := by
  simp [addID, hX]

theorem addID_links (s : LocalRV) (n : Node) (X : Id) : s.SameLinks (s.addID n X) := by
  by_cases hX : X ∈ s.ids n
  · rw [addID_of_mem hX]; rfl
  · rw [addID_of_not_mem hX]; rfl

theorem mem_ids_addID : Y ∈ (s.addID n X).ids m ↔ Y ∈ s.ids m ∨ (m = n ∧ Y = X) := by
  by_cases hX : X ∈ s.ids n
  · rw [addID_of_mem hX]
    constructor
    · exact Or.inl
    · rintro (h | ⟨rfl, rfl⟩)
      · exact h
      · exact hX
  · rw [addID_of_not_mem hX, or_comm]
    exact mem_ids_setIds_insert (s := s.setIndex n.kind X n.ptr) .new

theorem pairAt_addID : (s.addID n X).pairAt m Y = s.pairAt m Y := by
  by_cases hX : X ∈ s.ids n
  · rw [addID_of_mem hX]
  · rw [addID_of_not_mem hX]
    refine (pairAt_setIds_insert (s := s.setIndex n.kind X n.ptr) .new).trans ?_
    split
    · next h => rw [h.1, h.2, pairAt_of_not_mem hX]
    · rfl

theorem index_addID (hX : ¬ X ∈ s.ids n) :
    (s.addID n X).index m.kind Y = some m.ptr ↔
      (m = n ∧ Y = X) ∨ (¬ (m.kind = n.kind ∧ Y = X) ∧ s.index m.kind Y = some m.ptr) := by
  rw [addID_of_not_mem hX]
  by_cases h : m.kind = n.kind ∧ Y = X
  · simp [h, Node.ext_iff, eq_comm]
  · have : ¬ (m = n ∧ Y = X) := fun ⟨h1, h2⟩ => h ⟨congrArg Node.kind h1, h2⟩
    simp [h, this]

theorem names_addID : (s.addID n X).names lab = (s.names lab).addName n X := by
  unfold names NameGraph.addName
  rw [(addID_links s n X).fatherScopes]
  congr 1
  funext m Y
  exact propext mem_ids_addID

theorem addID_grows (hs : s.Consistent lab) (hf : f ∈ s.fatherScopes n)
    (hF : F ∈ s.ids (.scope f)) : Grows lab (· = n) s (s.addID n (F ++ lab n)) := by
  have hl := addID_links s n (F ++ lab n)
  have howner : ∀ m, F ++ lab n ∈ s.ids m → m = n := fun m hm =>
    hs.sound.owner_eq (f := .scope f) ⟨rfl, hf⟩ hF hm
  refine ⟨hl, ?_, fun m X => pairAt_addID, fun m X hX => mem_ids_addID.mpr (Or.inl hX), ?_⟩
  · constructor
    · exact hs.lab_length
    · rw [names_addID]
      exact hs.sound.addName (f := .scope f) ⟨rfl, hf⟩ hF
    · intro m Y hY
      rcases mem_ids_addID.mp hY with hY | ⟨rfl, rfl⟩
      · exact hs.suffix m Y hY
      · exact suffixOf_append (hs.lab_length m)
    · intro m Y
      by_cases hX : F ++ lab n ∈ s.ids n
      · rw [addID_of_mem hX]
        exact hs.index_iff m Y
      · rw [index_addID hX, mem_ids_addID, hs.index_iff]
        constructor
        · rintro (h | ⟨_, h⟩)
          · exact Or.inr h
          · exact Or.inl h
        · rintro (h | h)
          · refine Or.inr ⟨?_, h⟩
            rintro ⟨_, rfl⟩
            exact hX (howner m h ▸ h)
          · exact Or.inl h
    · rw [hl.children, hl.fatherScopes]
      exact hs.child_iff
    · intro m g hg
      rw [hl.fatherScopes] at hg
      obtain ⟨G, hG⟩ := hs.father_live m g hg
      exact ⟨G, mem_ids_addID.mpr (Or.inl hG)⟩
    · intro m Y hY
      rw [hl.fatherScopes, hl.isRoot]
      rcases mem_ids_addID.mp hY with hY | ⟨rfl, _⟩
      · exact hs.has_father m Y hY
      · exact Or.inr ⟨f, hf⟩
    · rw [hl.fatherScopes, hl.isRoot]
      exact hs.root_fatherless
    · intro m Y hY
      rw [hl.next]
      rcases mem_ids_addID.mp hY with hY | ⟨rfl, _⟩
      · exact hs.ids_lt m Y hY
      · exact hs.father_lt m f hf
    · rw [hl.fatherScopes, hl.next]
      exact hs.father_lt
    · rw [hl.isRoot, hl.next]
      exact hs.root_lt
  · intro m X hX
    exact (mem_ids_addID.mp hX).imp_right And.left

/-! ## The ids of one node -/

theorem foldl_addID_grows (hf : f ∈ s.fatherScopes n) (l : List Id)
    (hl : ∀ F ∈ l, F ∈ s.ids (.scope f)) (hs : s.Consistent lab) :
    Grows lab (· = n) s (l.foldl (fun s ID => s.addID n (ID ++ lab n)) s) ∧
      ∀ F ∈ l, F ++ lab n ∈ (l.foldl (fun s ID => s.addID n (ID ++ lab n)) s).ids n := by
  induction l generalizing s with
  | nil => exact ⟨.refl hs, by simp⟩
  | cons F l ih =>
    have h1 := addID_grows hs hf (hl F List.mem_cons_self)
    have hf1 : f ∈ (s.addID n (F ++ lab n)).fatherScopes n := by
      rw [h1.links.fatherScopes]; exact hf
    obtain ⟨h2, hall⟩ := ih hf1
      (fun G hG => h1.mono _ _ (hl G (List.mem_cons_of_mem _ hG))) h1.consistent
    refine ⟨h1.trans h2, fun G hG => ?_⟩
    rcases List.mem_cons.mp hG with rfl | hG
    · exact h2.mono _ _ (mem_ids_addID.mpr (Or.inr ⟨rfl, rfl⟩))
    · exact hall G hG

theorem addFatherIDs_grows (hs : s.Consistent lab) (hf : f ∈ s.fatherScopes n) :
    Grows lab (· = n) s (s.addFatherIDs n (lab n) f) ∧
      ∀ F ∈ s.ids (.scope f), F ++ lab n ∈ (s.addFatherIDs n (lab n) f).ids n := by
  obtain ⟨h, hall⟩ := foldl_addID_grows hf (s.ids (.scope f)).keys
    (fun F hF => AList.mem_keys.mpr hF) hs
  exact ⟨h, fun F hF => hall F (AList.mem_keys.mp hF)⟩

theorem foldl_addFatherIDs_grows (l : List Ptr) (hl : ∀ f ∈ l, f ∈ s.fatherScopes n) (hs : s.Consistent lab) :
    Grows lab (· = n) s (l.foldl (fun s father => s.addFatherIDs n (lab n) father) s) ∧
      ∀ f ∈ l, ∀ F ∈ s.ids (.scope f), F ++ lab n ∈
        (l.foldl (fun s father => s.addFatherIDs n (lab n) father) s).ids n := by
  induction l generalizing s with
  | nil => exact ⟨.refl hs, by simp⟩
  | cons f l ih =>
    have hf := hl f List.mem_cons_self
    obtain ⟨h1, hall1⟩ := addFatherIDs_grows hs hf
    have hfathers := h1.links.fatherScopes
    obtain ⟨h2, hall2⟩ := ih (fun g hg => by rw [hfathers]; exact hl g (List.mem_cons_of_mem _ hg)) h1.consistent
    refine ⟨h1.trans h2, fun g hg F hF => ?_⟩
    rcases List.mem_cons.mp hg with rfl | hg
    · exact h2.mono _ _ (hall1 F hF)
    · exact hall2 g hg F (h1.mono _ _ hF)

theorem updateIDs_grows (hs : s.Consistent lab) :
    Grows lab (· = n) s (s.updateIDs n (lab n)) ∧
      ∀ f ∈ s.fatherScopes n, ∀ F ∈ s.ids (.scope f),
        F ++ lab n ∈ (s.updateIDs n (lab n)).ids n :=
  foldl_addFatherIDs_grows (s.fatherScopes n).toList (fun _ h => h) hs

theorem updateIDs_complete (hs : s.Consistent lab)
    (hself : ∀ f ∈ s.fatherScopes n, ¬ .scope f = n) :
    (s.updateIDs n (lab n)).CompleteAt lab n := by
  obtain ⟨h, hall⟩ := updateIDs_grows (n := n) hs
  rintro ⟨k, f⟩ F ⟨hk, hf⟩ hF
  cases hk
  have hf : f ∈ s.fatherScopes n := h.links.fatherScopes ▸ hf
  rcases h.only _ _ hF with hF | hF
  · exact hall f hf F hF
  · exact absurd hF (hself f hf)

theorem updateIDs_links (s : LocalRV) (n : Node) (x : Id) : s.SameLinks (s.updateIDs n x) := by
  unfold updateIDs addFatherIDs
  refine List.foldlRecOn (motive := s.SameLinks) _ _ (.refl s) fun t ht f _ => ?_
  refine List.foldlRecOn (motive := s.SameLinks) _ _ ht fun t ht ID _ => ?_
  exact ht.trans (addID_links t n _)

/-! ## The recursion -/

/-- `n` is `m` or lies below it. -/
def Under (s : LocalRV) (n m : Node) : Prop :=
  Relation.ReflTransGen (fun c p => p.kind = .scope ∧ p.ptr ∈ s.fatherScopes c) n m

theorem firstSuffix_of_ok (hs : s.Consistent lab) (h : s.firstSuffix n = .ok x) : x = lab n := by
  cases hk : (s.ids n).keys with
  | nil => simp [firstSuffix, hk, bind, Except.bind] at h
  | cons Y rest =>
    have hY : Y ∈ s.ids n := by rw [AList.mem_keys, hk]; exact List.mem_cons_self
    rw [hs.firstSuffix_eq hY] at h
    exact (Except.ok.inj h).symm

theorem recursivelyUpdateIDs_links (h : recursivelyUpdateIDs fuel s sc x = .ok s') :
    s.SameLinks s' := by
  induction fuel generalizing s sc x s' with
  | zero => simp [recursivelyUpdateIDs] at h
  | succ fuel ih =>
    rw [recursivelyUpdateIDs, Loops.bind_eq_ok] at h
    obtain ⟨s1, h1, h2⟩ := h
    have hs1 : s.SameLinks s1 := by
      refine Loops.foldlM_invariant h1 (updateIDs_links s _ x) fun c t t' _ ht hb => ?_
      obtain ⟨y, _, hb⟩ := Loops.bind_eq_ok.mp hb
      exact ht.trans (ih hb)
    refine Loops.foldlM_invariant h2 hs1 fun ii t t' _ ht hb => ?_
    obtain ⟨y, _, hb⟩ := Loops.bind_eq_ok.mp hb
    rw [← Loops.pure_eq_ok.mp hb]
    exact ht.trans (updateIDs_links t _ y)

/-- A recursion that returned met no cycle. -/
theorem acc_of_recursivelyUpdateIDs (h : recursivelyUpdateIDs fuel s sc x = .ok s') :
    Acc s.ChildScope sc := by
  induction fuel generalizing s sc x s' with
  | zero => simp [recursivelyUpdateIDs] at h
  | succ fuel ih =>
    rw [recursivelyUpdateIDs, Loops.bind_eq_ok] at h
    obtain ⟨s1, h1, -⟩ := h
    have hl := updateIDs_links s (.scope sc) x
    have heach := Loops.foldlM_each h1 hl fun c t t' _ ht hb => by
      obtain ⟨y, _, hb⟩ := Loops.bind_eq_ok.mp hb
      exact ht.trans (recursivelyUpdateIDs_links hb)
    refine Acc.intro sc fun c hc => ?_
    obtain ⟨t, t', ht, hb⟩ := heach c (by rwa [hl.childrenScopes])
    obtain ⟨y, _, hb⟩ := Loops.bind_eq_ok.mp hb
    rw [← ht.childScope]
    exact ih hb

theorem not_child_self_of_acc (h : Acc s.ChildScope sc) : ¬ s.ChildScope sc sc := by
  intro hc
  induction h with
  | intro p _ ih => exact ih p hc hc

theorem recursivelyUpdateIDs_mono {fuel' : Nat} (hle : fuel ≤ fuel')
    (h : recursivelyUpdateIDs fuel s sc x = .ok s') :
    recursivelyUpdateIDs fuel' s sc x = .ok s' := by
  induction fuel generalizing s sc x s' fuel' with
  | zero => simp [recursivelyUpdateIDs] at h
  | succ fuel ih =>
    obtain ⟨fuel', rfl⟩ : ∃ k, fuel' = k + 1 := ⟨fuel' - 1, by omega⟩
    rw [recursivelyUpdateIDs, Loops.bind_eq_ok] at h ⊢
    obtain ⟨s1, h1, h2⟩ := h
    refine ⟨s1, Loops.foldlM_mono h1 fun c t t' _ hb => ?_, h2⟩
    obtain ⟨y, hy, hb⟩ := Loops.bind_eq_ok.mp hb
    exact Loops.bind_eq_ok.mpr ⟨y, hy, ih (by omega) hb⟩

theorem SameLinks.under (h : s.SameLinks s') : s'.Under = s.Under := by
  unfold Under
  rw [h.fatherScopes]

theorem under_of_father (hf : f ∈ s.fatherScopes m) (h : s.Under n m) : s.Under n (.scope f) :=
  h.tail ⟨rfl, hf⟩

/-- What the recursion adds lies below its scope, and the scope and all nodes that were
complete before are complete after it. -/
theorem recursivelyUpdateIDs_grows (hs : s.Consistent lab)
    (h : recursivelyUpdateIDs fuel s sc (lab (.scope sc)) = .ok s') :
    Grows lab (s.Under · (.scope sc)) s s' ∧
      ∀ m, s.CompleteAt lab m ∨ m = .scope sc → s'.CompleteAt lab m := by
  induction fuel generalizing s sc s' with
  | zero => simp [recursivelyUpdateIDs] at h
  | succ fuel ih =>
    have hself := not_child_self_of_acc (acc_of_recursivelyUpdateIDs h)
    rw [recursivelyUpdateIDs, Loops.bind_eq_ok] at h
    obtain ⟨s2, h1, h2⟩ := h
    have hg1 := (updateIDs_grows (n := .scope sc) hs).1
    have hc1 := updateIDs_complete (n := .scope sc) hs fun f hf he => by
      cases he
      exact hself ((hs.child_iff (.scope sc) sc).mpr hf)
    -- Only the children of `sc` may be incomplete now, and the loops complete them one by one.
    have hscopes := Loops.foldlM_done (I := fun done t => Grows lab (s.Under · (.scope sc)) s t ∧
      (∀ m, s.CompleteAt lab m ∨ m = .scope sc → ¬ sc ∈ s.fatherScopes m → t.CompleteAt lab m) ∧
      ∀ c ∈ done, t.CompleteAt lab (.scope c)) h1
      ⟨hg1.weaken (by rintro _ rfl; exact .refl), ?_, by simp⟩ ?_
    rotate_left
    · rintro m (hm | rfl) hnot
      · exact hg1.completeAt hm fun f hf he => by cases he; exact hnot hf
      · exact hc1
    · rintro done c t t' hc ⟨hg, hrest, hdone⟩ hb
      obtain ⟨y, hy, hb⟩ := Loops.bind_eq_ok.mp hb
      obtain rfl := firstSuffix_of_ok hg.consistent hy
      obtain ⟨hg', hc'⟩ := ih hg.consistent hb
      have hcf : sc ∈ s.fatherScopes (.scope c) := by
        rw [hg1.links.childrenScopes] at hc
        exact (hs.child_iff (.scope c) sc).mp hc
      rw [hg.links.under] at hg'
      refine ⟨hg.trans (hg'.weaken fun m hm => under_of_father hcf hm),
        fun m hm hnot => hc' m (Or.inl (hrest m hm hnot)), fun d hd => ?_⟩
      rcases List.mem_append.mp hd with hd | hd
      · exact hc' _ (Or.inl (hdone d hd))
      · rw [List.mem_singleton.mp hd]
        exact hc' _ (Or.inr rfl)
    obtain ⟨hg2, hrest2, hdone2⟩ := hscopes
    have hitems := Loops.foldlM_done (I := fun done t => Grows lab (s.Under · (.scope sc)) s t ∧
      (∀ m, s2.CompleteAt lab m → t.CompleteAt lab m) ∧
      ∀ i ∈ done, t.CompleteAt lab (.item i)) h2 ⟨hg2, fun _ h => h, by simp⟩ ?_
    rotate_left
    · rintro done i t t' hi ⟨hg, hrest, hdone⟩ hb
      obtain ⟨y, hy, hb⟩ := Loops.bind_eq_ok.mp hb
      obtain rfl := firstSuffix_of_ok hg.consistent hy
      obtain rfl := Loops.pure_eq_ok.mp hb
      obtain ⟨hg', -⟩ := updateIDs_grows (n := .item i) hg.consistent
      have hci := updateIDs_complete (n := .item i) hg.consistent fun f _ he => by cases he
      have hif : sc ∈ s.fatherScopes (.item i) := by
        rw [ListSet.mem_toList, LocalRV.informationitems, hg2.links.children] at hi
        exact (hs.child_iff (.item i) sc).mp hi
      have hkeep : ∀ m, t.CompleteAt lab m → (t.updateIDs (.item i) (lab (.item i))).CompleteAt lab m :=
        fun m hm => hg'.completeAt hm fun f _ he => by cases he
      refine ⟨hg.trans (hg'.weaken (by rintro _ rfl; exact under_of_father hif .refl)),
        fun m hm => hkeep m (hrest m hm), fun d hd => ?_⟩
      rcases List.mem_append.mp hd with hd | hd
      · exact hkeep _ (hdone d hd)
      · rw [List.mem_singleton.mp hd]
        exact hci
    obtain ⟨hg3, hrest3, hdone3⟩ := hitems
    refine ⟨hg3, fun m hm => ?_⟩
    by_cases hf : sc ∈ s.fatherScopes m
    · obtain ⟨k, c⟩ := m
      have hc := (hs.child_iff ⟨k, c⟩ sc).mpr hf
      cases k with
      | scope =>
        refine hrest3 _ (hdone2 c ?_)
        rwa [hg1.links.childrenScopes]
      | item =>
        refine hdone3 c ?_
        rwa [ListSet.mem_toList, LocalRV.informationitems, hg2.links.children]
    · exact hrest3 m (hrest2 m hm hf)

/-! ## Termination -/

/-- Every child has an id, but for the scope that the recursion starts at. -/
def LiveBut (s : LocalRV) (sc : Ptr) : Prop :=
  ∀ m f, f ∈ s.fatherScopes m → m = .scope sc ∨ ∃ X, X ∈ s.ids m

theorem live_of_updateIDs (hs : s.Consistent lab) (hlive : s.LiveBut sc)
    (hg : Grows lab D (s.updateIDs (.scope sc) (lab (.scope sc))) t)
    (hf : f ∈ t.fatherScopes m) : ∃ X, X ∈ t.ids m := by
  obtain ⟨hg0, hall⟩ := updateIDs_grows (n := .scope sc) hs
  rw [hg.links.fatherScopes, hg0.links.fatherScopes] at hf
  rcases hlive m f hf with rfl | ⟨X, hX⟩
  · obtain ⟨F, hF⟩ := hs.father_live _ f hf
    exact ⟨_, hg.mono _ _ (hall f hf F hF)⟩
  · exact ⟨X, hg.mono _ _ (hg0.mono _ _ hX)⟩

theorem recursivelyUpdateIDs_total (hs : s.Consistent lab) (hacc : Acc s.ChildScope sc)
    (hlive : s.LiveBut sc) :
    ∃ fuel s', recursivelyUpdateIDs fuel s sc (lab (.scope sc)) = .ok s' := by
  generalize hR : s.ChildScope = R at hacc
  induction hacc generalizing s with
  | intro sc _ ih =>
    subst hR
    let s1 := s.updateIDs (.scope sc) (lab (.scope sc))
    have hg1 : Grows lab (fun _ => True) s s1 :=
      (updateIDs_grows (n := .scope sc) hs).1.weaken fun _ _ => trivial
    have hlive1 : ∀ {t m f}, Grows lab (fun _ => True) s1 t → f ∈ t.fatherScopes m →
        ∃ X, X ∈ t.ids m := fun hg hf => live_of_updateIDs hs hlive hg hf
    have hscopes := Loops.foldlM_total_fuel (s := s1)
      (l := (s1.childrenScopes sc).toList) (I := Grows lab (fun _ => True) s1)
      (f := fun fuel s child => do
        let tempSuffix ← s.firstSuffix (.scope child)
        recursivelyUpdateIDs fuel s child tempSuffix) ?_ (.refl hg1.consistent) ?_
    rotate_left
    · intro n n' c t t' hle hb
      obtain ⟨y, hy, hb⟩ := Loops.bind_eq_ok.mp hb
      exact Loops.bind_eq_ok.mpr ⟨y, hy, recursivelyUpdateIDs_mono hle hb⟩
    · intro c t hc hg
      have hlinks := hg1.links.trans hg.links
      have hcs : s.ChildScope c sc := by rwa [ListSet.mem_toList, hg1.links.childrenScopes] at hc
      have hct : sc ∈ t.fatherScopes (.scope c) := by
        rw [hlinks.fatherScopes]
        exact (hs.child_iff (.scope c) sc).mp hcs
      obtain ⟨X, hX⟩ := hlive1 hg hct
      obtain ⟨n, t', ht'⟩ := ih c hcs hg.consistent (fun m f hf => Or.inr (hlive1 hg hf))
        hlinks.childScope
      refine ⟨n, t', ?_, hg.trans ((recursivelyUpdateIDs_grows hg.consistent ht').1.weaken
        fun _ _ => trivial)⟩
      exact Loops.bind_eq_ok.mpr ⟨_, hg.consistent.firstSuffix_eq hX, ht'⟩
    obtain ⟨fuel, s2, h2, hg2⟩ := hscopes
    have hitems := Loops.foldlM_total (s := s2)
      (l := (s2.informationitems sc).toList) (I := Grows lab (fun _ => True) s1)
      (f := fun s ii => do
        let tempSuffix ← s.firstSuffix (.item ii)
        return s.updateIDs (.item ii) tempSuffix) hg2 ?_
    rotate_left
    · intro i t hi hg
      have hit : sc ∈ t.fatherScopes (.item i) := by
        rw [ListSet.mem_toList, LocalRV.informationitems, hg2.links.children] at hi
        rw [hg.links.fatherScopes]
        exact (hg1.consistent.child_iff (.item i) sc).mp hi
      obtain ⟨X, hX⟩ := hlive1 hg hit
      exact ⟨_, Loops.bind_eq_ok.mpr ⟨_, hg.consistent.firstSuffix_eq hX, rfl⟩,
        hg.trans ((updateIDs_grows hg.consistent).1.weaken fun _ _ => trivial)⟩
    obtain ⟨s3, h3, -⟩ := hitems
    refine ⟨fuel + 1, s3, ?_⟩
    rw [recursivelyUpdateIDs]
    exact Loops.bind_eq_ok.mpr ⟨s2, h2, h3⟩

/-- The recursion follows no null pointer: the only fault is that it does not return. -/
theorem recursivelyUpdateIDs_fault {e : Fault} (hs : s.Consistent lab) (hlive : s.LiveBut sc)
    (h : recursivelyUpdateIDs fuel s sc (lab (.scope sc)) = .error e) : e = .outOfFuel := by
  induction fuel generalizing s sc with
  | zero => exact (Except.error.inj h).symm
  | succ fuel ih =>
    let s1 := s.updateIDs (.scope sc) (lab (.scope sc))
    have hg1 : Grows lab (fun _ => True) s s1 :=
      (updateIDs_grows (n := .scope sc) hs).1.weaken fun _ _ => trivial
    have hlive1 : ∀ {t m f}, Grows lab (fun _ => True) s1 t → f ∈ t.fatherScopes m →
        ∃ X, X ∈ t.ids m := fun hg hf => live_of_updateIDs hs hlive hg hf
    have hstep : ∀ c t t', Grows lab (fun _ => True) s1 t → (do
        let tempSuffix ← t.firstSuffix (.scope c)
        recursivelyUpdateIDs fuel t c tempSuffix) = .ok t' → Grows lab (fun _ => True) s1 t' := by
      intro c t t' hg hb
      obtain ⟨y, hy, hb⟩ := Loops.bind_eq_ok.mp hb
      obtain rfl := firstSuffix_of_ok hg.consistent hy
      exact hg.trans ((recursivelyUpdateIDs_grows hg.consistent hb).1.weaken fun _ _ => trivial)
    rw [recursivelyUpdateIDs, Loops.bind_eq_error] at h
    rcases h with h | ⟨s2, h2, h⟩
    · obtain ⟨c, hc, t, hg, hb⟩ := Loops.foldlM_error h (.refl hg1.consistent)
        fun c t t' _ hg hb => hstep c t t' hg hb
      have hct : sc ∈ t.fatherScopes (.scope c) := by
        rw [hg.links.fatherScopes]
        exact (hg1.consistent.child_iff (.scope c) sc).mp hc
      obtain ⟨X, hX⟩ := hlive1 hg hct
      rw [hg.consistent.firstSuffix_eq hX] at hb
      exact ih hg.consistent (fun m f hf => Or.inr (hlive1 hg hf)) hb
    · have hg2 := Loops.foldlM_invariant h2 (.refl hg1.consistent)
        fun c t t' _ hg hb => hstep c t t' hg hb
      obtain ⟨i, hi, t, hg, hb⟩ := Loops.foldlM_error (I := Grows lab (fun _ => True) s1) h hg2
        fun i t t' _ hg hb => by
          obtain ⟨y, hy, hb⟩ := Loops.bind_eq_ok.mp hb
          obtain rfl := firstSuffix_of_ok hg.consistent hy
          obtain rfl := Loops.pure_eq_ok.mp hb
          exact hg.trans ((updateIDs_grows hg.consistent).1.weaken fun _ _ => trivial)
      have hit : sc ∈ t.fatherScopes (.item i) := by
        rw [ListSet.mem_toList, LocalRV.informationitems, hg2.links.children] at hi
        rw [hg.links.fatherScopes]
        exact (hg1.consistent.child_iff (.item i) sc).mp hi
      obtain ⟨X, hX⟩ := hlive1 hg hit
      rw [hg.consistent.firstSuffix_eq hX] at hb
      exact absurd hb Loops.pure_ne_error

end LocalRV

end Blackadder
