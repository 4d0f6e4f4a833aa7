import Mathlib.Data.List.AList
import Mathlib.Tactic.Common
import Blackadder.Rendezvous.LocalRV

/-!
# What each write changes

The graph is read through `X ∈ s.ids n` (the id is a key) and `s.pairAt n X` (its pair,
empty when the id is not a key).
-/

namespace Blackadder

namespace LocalRV

variable {s : LocalRV} {n m : Node} {X Y : Id} {role : Role} {h : NodeId}

def pairAt (s : LocalRV) (n : Node) (X : Id) : RemoteHostPair :=
  ((s.ids n).lookup X).getD .new

theorem lookup_of_mem (hX : X ∈ s.ids n) : (s.ids n).lookup X = some (s.pairAt n X) := by
  obtain ⟨pair, hp⟩ := Option.isSome_iff_exists.mp (AList.lookup_isSome.mpr hX)
  rw [pairAt, hp]
  rfl

theorem pairAt_of_not_mem (hX : ¬ X ∈ s.ids n) : s.pairAt n X = .new := by
  rw [pairAt, AList.lookup_eq_none.mpr hX]
  rfl

@[simp]
theorem not_mem_new (h : NodeId) (role : Role) : h ∉ RemoteHostPair.new role :=
  Finset.notMem_empty h

theorem mem_of_pairAt (hh : h ∈ s.pairAt n X role) : X ∈ s.ids n := by
  by_contra hX
  rw [pairAt_of_not_mem hX] at hh
  exact not_mem_new h role hh

theorem isEmpty_eq_false (pair : RemoteHostPair) :
    pair.isEmpty = false ↔ ∃ role h, h ∈ pair role := by
  simp only [RemoteHostPair.isEmpty, decide_eq_false_iff_not, not_and_or,
    ← ne_eq, ← Finset.nonempty_iff_ne_empty]
  constructor
  · rintro (⟨h, hh⟩ | ⟨h, hh⟩)
    · exact ⟨.publisher, h, hh⟩
    · exact ⟨.subscriber, h, hh⟩
  · rintro ⟨role, h, hh⟩
    cases role
    · exact Or.inl ⟨h, hh⟩
    · exact Or.inr ⟨h, hh⟩

/-! ## Reads -/

theorem mem_foldr_hosts (l : List (Σ _ : Id, RemoteHostPair)) :
    h ∈ l.foldr (fun e hosts => e.2 role ∪ hosts) ∅ ↔ ∃ e ∈ l, h ∈ e.2 role := by
  induction l with
  | nil => simp
  | cons e l ih => simp [ih]

theorem mem_hostsOf : h ∈ s.hostsOf n role ↔ ∃ X, h ∈ s.pairAt n X role := by
  rw [hostsOf, mem_foldr_hosts]
  constructor
  · rintro ⟨⟨X, pair⟩, he, hh⟩
    refine ⟨X, ?_⟩
    rw [pairAt, AList.mem_lookup_iff.mpr he]
    exact hh
  · rintro ⟨X, hh⟩
    exact ⟨⟨X, s.pairAt n X⟩, AList.mem_lookup_iff.mp (lookup_of_mem (mem_of_pairAt hh)), hh⟩

theorem mem_getPublishers {ii : Ptr} :
    h ∈ s.getPublishers ii ↔ ∃ X, h ∈ s.pairAt (.item ii) X .publisher := mem_hostsOf

theorem mem_getSubscribers : h ∈ s.getSubscribers n ↔ ∃ X, h ∈ s.pairAt n X .subscriber :=
  mem_hostsOf

@[simp]
theorem mem_getIDs : X ∈ s.getIDs n ↔ X ∈ s.ids n := by
  rw [getIDs, List.mem_toFinset, AList.mem_keys]

theorem mem_foldl_subscribers (s : LocalRV) (l : List Ptr) (acc : Finset NodeId) :
    h ∈ l.foldl (fun subscribers father => subscribers ∪ s.getSubscribers (.scope father)) acc ↔
      h ∈ acc ∨ ∃ f ∈ l, h ∈ s.getSubscribers (.scope f) := by
  induction l generalizing acc with
  | nil => simp
  | cons f l ih => simp [ih, or_assoc]

theorem mem_allSubscribers {ii : Ptr} :
    h ∈ s.allSubscribers ii ↔ h ∈ s.getSubscribers (.item ii) ∨
      ∃ f ∈ s.fatherScopes (.item ii), h ∈ s.getSubscribers (.scope f) := by
  rw [allSubscribers, mem_foldl_subscribers]
  rfl

/-- All ids of a node with the same last fragment: it does not matter which one is first. -/
theorem firstSuffix_eq {x : Id} (hne : ∃ X, X ∈ s.ids n) (hall : ∀ X ∈ s.ids n, suffixOf X = x) :
    s.firstSuffix n = .ok x := by
  obtain ⟨X, hX⟩ := hne
  cases hk : (s.ids n).keys with
  | nil =>
    rw [AList.mem_keys, hk] at hX
    exact absurd hX List.not_mem_nil
  | cons Y rest =>
    have hY : Y ∈ s.ids n := by rw [AList.mem_keys, hk]; exact List.mem_cons_self
    simp only [firstSuffix, hk, List.head?_cons, deref_some]
    rw [← hall Y hY]
    rfl

theorem anyHosts_eq (IDs : List Id) (hall : ∀ X ∈ IDs, X ∈ s.ids n) :
    s.anyHosts n IDs = .ok (decide (∃ X ∈ IDs, (s.pairAt n X).isEmpty = false)) := by
  induction IDs with
  | nil => simp [anyHosts, pure, Except.pure]
  | cons X IDs ih =>
    have hX := lookup_of_mem (hall X List.mem_cons_self)
    have hrest := ih (fun Y hY => hall Y (List.mem_cons_of_mem _ hY))
    simp only [anyHosts, hX, deref_some]
    cases he : (s.pairAt n X).isEmpty with
    | false => simp [he, bind, Except.bind, pure, Except.pure]
    | true => simp [he, hrest, bind, Except.bind]

/-! ## Writes to pairs -/

theorem pairAt_setIds (ids : IdsHashMap) :
    (s.setIds n ids).pairAt m X = if m = n then (ids.lookup X).getD .new else s.pairAt m X := by
  by_cases hm : m = n <;> simp [pairAt, hm]

theorem pairAt_setIds_insert (pair : RemoteHostPair) :
    (s.setIds n ((s.ids n).insert X pair)).pairAt m Y =
      if m = n ∧ Y = X then pair else s.pairAt m Y := by
  rw [pairAt_setIds]
  by_cases hm : m = n
  · subst hm
    by_cases hY : Y = X
    · subst hY
      simp [AList.lookup_insert]
    · simp [hY, AList.lookup_insert_ne, pairAt]
  · simp [hm]

theorem mem_ids_setIds_insert (pair : RemoteHostPair) :
    Y ∈ (s.setIds n ((s.ids n).insert X pair)).ids m ↔ (m = n ∧ Y = X) ∨ Y ∈ s.ids m := by
  by_cases hm : m = n
  · subst hm; simp
  · simp [hm]

end LocalRV

end Blackadder
