import Mathlib.Data.List.AList
import Mathlib.Tactic.Common
import Blackadder.Lib.NameGraph
import Blackadder.Rendezvous.Fields

/-!
# The representation invariant

The label of a node is the last fragment that all its ids share.
-/

namespace Blackadder

namespace LocalRV

/-- The graph of a state as a graph of names. Only scopes are fathers. -/
def names (s : LocalRV) (lab : Node → Id) : NameGraph Node Id Id where
  father n f := f.kind = .scope ∧ f.ptr ∈ s.fatherScopes n
  owns n X := X ∈ s.ids n
  lab := lab
  ext := (· ++ ·)
  size := List.length
  base := pursuitIdLen

/-- What holds also inside an operation, while ids of some nodes are still to be added. -/
structure Consistent (s : LocalRV) (lab : Node → Id) : Prop where
  lab_length : ∀ n, (lab n).length = pursuitIdLen
  sound : (s.names lab).Sound
  suffix : ∀ n X, X ∈ s.ids n → suffixOf X = lab n
  index_iff : ∀ n X, s.index n.kind X = some n.ptr ↔ X ∈ s.ids n
  child_iff : ∀ n f, n.ptr ∈ s.children f n.kind ↔ f ∈ s.fatherScopes n
  father_live : ∀ n f, f ∈ s.fatherScopes n → ∃ F, F ∈ s.ids (.scope f)
  has_father : ∀ n X, X ∈ s.ids n →
    (n.kind = .scope ∧ s.isRoot n.ptr = true) ∨ ∃ f, f ∈ s.fatherScopes n
  root_fatherless : ∀ p f, s.isRoot p = true → ¬ f ∈ s.fatherScopes (.scope p)
  ids_lt : ∀ n X, X ∈ s.ids n → n.ptr < s.next
  father_lt : ∀ n f, f ∈ s.fatherScopes n → n.ptr < s.next
  root_lt : ∀ p, s.isRoot p = true → p < s.next

def CompleteAt (s : LocalRV) (lab : Node → Id) (n : Node) : Prop :=
  (s.names lab).Complete n

/-- The invariant between requests. -/
structure Inv (s : LocalRV) (lab : Node → Id) : Prop extends s.Consistent lab where
  complete : ∀ n, s.CompleteAt lab n

variable {s : LocalRV} {lab : Node → Id} {n m : Node} {X Y F : Id} {f g p : Ptr} {k : Kind}

/-- The laws of names from facts about ids. Labels of one length make them injective. -/
theorem sound_of (hlen : ∀ n, (lab n).length = pursuitIdLen)
    (hbase : ∀ n X, X ∈ s.ids n → pursuitIdLen ≤ X.length)
    (hroot : ∀ n X, (∀ f, ¬ f ∈ s.fatherScopes n) → X ∈ s.ids n → X.length = pursuitIdLen)
    (hbelow : ∀ n f X, f ∈ s.fatherScopes n → X ∈ s.ids n →
      ∃ g ∈ s.fatherScopes n, ∃ F ∈ s.ids (.scope g), X = F ++ lab n)
    (hsib : ∀ n m f, f ∈ s.fatherScopes n → f ∈ s.fatherScopes m → lab n = lab m → n = m)
    (huniq : ∀ n m X, X ∈ s.ids n → X ∈ s.ids m → n = m) : (s.names lab).Sound where
  inj h := List.append_inj' h (by rw [names, hlen, hlen])
  size_ext F n := by simp [names, hlen, pursuitIdLen]
  base_le := hbase _ _
  root_size hr hX := hroot _ _ (fun f hf => hr (.scope f) ⟨rfl, hf⟩) hX
  below := by
    rintro n ⟨k, f⟩ X ⟨_, hf⟩ hX
    obtain ⟨g, hg, F, hF, he⟩ := hbelow n f X hf hX
    exact ⟨.scope g, F, ⟨rfl, hg⟩, hF, he⟩
  siblings hn hm he := hsib _ _ _ hn.2 hm.2 he
  unique := huniq _ _ _

theorem inv_init (nodeID : NodeId) :
    (init nodeID).Inv (fun _ => List.replicate pursuitIdLen 0) where
  lab_length _ := List.length_replicate
  sound := by
    constructor <;> simp [names, init, pursuitIdLen]
  suffix n X hX := by simp [init] at hX
  index_iff n X := by simp [init]
  child_iff n f := by simp [init]
  father_live n f hf := by simp [init] at hf
  has_father n X hX := by simp [init] at hX
  root_fatherless p f h := by simp [init] at h
  ids_lt n X hX := by simp [init] at hX
  father_lt n f hf := by simp [init] at hf
  root_lt p h := by simp [init] at h
  complete n f F hf := by simp [names, init] at hf

/-! ## Owners -/

namespace Consistent

theorem owner_unique (hs : s.Consistent lab) (hn : X ∈ s.ids n) (hm : X ∈ s.ids m) : n = m :=
  hs.sound.unique hn hm

theorem of_index (hs : s.Consistent lab) (h : s.index k X = some p) : X ∈ s.ids ⟨k, p⟩ :=
  (hs.index_iff ⟨k, p⟩ X).mp h

theorem index_of_mem (hs : s.Consistent lab) (hX : X ∈ s.ids n) : s.index n.kind X = some n.ptr :=
  (hs.index_iff n X).mpr hX

theorem index_none (hs : s.Consistent lab) (h : s.index k X = none) : ¬ X ∈ s.ids ⟨k, p⟩ := by
  intro hX
  have := hs.index_of_mem hX
  simp [h] at this

theorem index_kind (hs : s.Consistent lab) {k' : Kind} {q : Ptr} (h : s.index k X = some p)
    (h' : s.index k' X = some q) : k = k' := by
  have := hs.owner_unique (hs.of_index h) (hs.of_index h')
  exact congrArg Node.kind this

theorem not_owned (hs : s.Consistent lab) (hsc : s.scopeIndex X = none)
    (hii : s.pubIndex X = none) (m : Node) : ¬ X ∈ s.ids m := by
  obtain ⟨k, p⟩ := m
  cases k
  · exact hs.index_none hsc
  · exact hs.index_none hii

theorem ids_length (hs : s.Consistent lab) (hX : X ∈ s.ids n) : pursuitIdLen ≤ X.length :=
  hs.sound.base_le hX

/-- Every id of a node with a father extends an id of one of its fathers. -/
theorem below (hs : s.Consistent lab) (hf : f ∈ s.fatherScopes n) (hX : X ∈ s.ids n) :
    ∃ g ∈ s.fatherScopes n, ∃ F ∈ s.ids (.scope g), X = F ++ lab n := by
  obtain ⟨⟨k, g⟩, F, ⟨hk, hg⟩, hF, he⟩ := hs.sound.below (n := n) (f := .scope f) ⟨rfl, hf⟩ hX
  cases hk
  exact ⟨g, hg, F, hF, he⟩

theorem root_ids (hs : s.Consistent lab) (hr : ∀ f, ¬ f ∈ s.fatherScopes n) (hX : X ∈ s.ids n) :
    X = lab n := by
  have hlen : X.length = pursuitIdLen :=
    hs.sound.root_size (n := n) (fun g hg => hr g.ptr hg.2) hX
  rw [← hs.suffix n X hX, suffixOf_of_length hlen]

theorem child_of_ext (hs : s.Consistent lab) {x : Id} (hx : x.length = pursuitIdLen)
    (hF : F ∈ s.ids (.scope f)) (hm : F ++ x ∈ s.ids m) : f ∈ s.fatherScopes m ∧ lab m = x := by
  have hlab : lab m = x := by rw [← hs.suffix m _ hm, suffixOf_append hx]
  subst hlab
  exact ⟨(hs.sound.owner_of_ext (n := m) hF hm).1.2, rfl⟩

theorem siblings (hs : s.Consistent lab) (hn : f ∈ s.fatherScopes n) (hm : f ∈ s.fatherScopes m)
    (h : lab n = lab m) : n = m :=
  hs.sound.siblings (f := .scope f) ⟨rfl, hn⟩ ⟨rfl, hm⟩ h

theorem fresh_ids (hs : s.Consistent lab) : ¬ X ∈ s.ids ⟨k, s.next⟩ := by
  intro hX
  exact Nat.lt_irrefl _ (hs.ids_lt _ _ hX)

theorem fresh_fathers (hs : s.Consistent lab) : ¬ f ∈ s.fatherScopes ⟨k, s.next⟩ := by
  intro hf
  exact Nat.lt_irrefl _ (hs.father_lt _ _ hf)

theorem firstSuffix_eq (hs : s.Consistent lab) (hX : X ∈ s.ids n) :
    s.firstSuffix n = .ok (lab n) :=
  LocalRV.firstSuffix_eq ⟨X, hX⟩ (hs.suffix n)

end Consistent

namespace Inv

theorem mem_ext (hs : s.Inv lab) (hf : f ∈ s.fatherScopes n) (hF : F ∈ s.ids (.scope f)) :
    F ++ lab n ∈ s.ids n :=
  hs.complete n (.scope f) F ⟨rfl, hf⟩ hF

theorem ids_iff (hs : s.Inv lab) (hf : f ∈ s.fatherScopes n) :
    X ∈ s.ids n ↔ ∃ g ∈ s.fatherScopes n, ∃ F ∈ s.ids (.scope g), X = F ++ lab n := by
  constructor
  · exact hs.below hf
  · rintro ⟨g, hg, F, hF, rfl⟩
    exact hs.mem_ext hg hF

theorem live (hs : s.Inv lab) (hf : f ∈ s.fatherScopes n) : ∃ X, X ∈ s.ids n := by
  obtain ⟨F, hF⟩ := hs.father_live n f hf
  exact ⟨_, hs.mem_ext hf hF⟩

theorem firstSuffix_child (hs : s.Inv lab) (hf : f ∈ s.fatherScopes n) :
    s.firstSuffix n = .ok (lab n) := by
  obtain ⟨X, hX⟩ := hs.live hf
  exact hs.firstSuffix_eq hX

end Inv

end LocalRV

end Blackadder
