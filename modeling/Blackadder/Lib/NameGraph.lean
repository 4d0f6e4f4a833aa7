import Mathlib.Logic.Basic

/-!
# Graphs whose nodes are named by their paths

A node has fathers, a label and a set of names. Every name of a node below `f` extends
a name of `f` by the label of the node. A node that can be reached over several paths
has several names.
-/

structure NameGraph (N Name L : Type*) where
  father : N → N → Prop
  owns : N → Name → Prop
  lab : N → L
  ext : Name → L → Name
  size : Name → Nat
  /-- The size of the names of the roots. -/
  base : Nat

namespace NameGraph

variable {N Name L : Type*}

/-- The laws that hold even while names are still missing. -/
structure Sound (G : NameGraph N Name L) : Prop where
  inj : ∀ {F F' n m}, G.ext F (G.lab n) = G.ext F' (G.lab m) → F = F' ∧ G.lab n = G.lab m
  size_ext : ∀ F n, G.size F < G.size (G.ext F (G.lab n))
  base_le : ∀ {n X}, G.owns n X → G.base ≤ G.size X
  root_size : ∀ {n X}, (∀ f, ¬ G.father n f) → G.owns n X → G.size X = G.base
  below : ∀ {n f X}, G.father n f → G.owns n X →
    ∃ g F, G.father n g ∧ G.owns g F ∧ X = G.ext F (G.lab n)
  siblings : ∀ {n m f}, G.father n f → G.father m f → G.lab n = G.lab m → n = m
  unique : ∀ {n m X}, G.owns n X → G.owns m X → n = m

/-- No name of `n` is missing. -/
def Complete (G : NameGraph N Name L) (n : N) : Prop :=
  ∀ f F, G.father n f → G.owns f F → G.owns n (G.ext F (G.lab n))

variable {G : NameGraph N Name L}

/-- A node that owns an extension of a name of `f` is below `f`, and has the label. -/
theorem Sound.owner_of_ext (h : G.Sound) {m n f : N} {F : Name} (hf : G.owns f F)
    (hm : G.owns m (G.ext F (G.lab n))) : G.father m f ∧ G.lab m = G.lab n := by
  by_cases hroot : ∀ g, ¬ G.father m g
  · have h1 := h.root_size hroot hm
    have h2 := h.size_ext F n
    have h3 := h.base_le hf
    omega
  · obtain ⟨g, hg⟩ := not_forall_not.mp hroot
    obtain ⟨g', F', hg', hF', he⟩ := h.below hg hm
    obtain ⟨rfl, hlab⟩ := h.inj he
    rw [h.unique hf hF']
    exact ⟨hg', hlab.symm⟩

/-! ## One more name -/

def addName (G : NameGraph N Name L) (n : N) (X : Name) : NameGraph N Name L :=
  { G with owns := fun m Y => G.owns m Y ∨ (m = n ∧ Y = X) }

theorem Sound.owner_eq (h : G.Sound) {n m f : N} {F : Name} (hf : G.father n f) (hF : G.owns f F)
    (hm : G.owns m (G.ext F (G.lab n))) : m = n := by
  obtain ⟨hmf, hlab⟩ := h.owner_of_ext hF hm
  exact h.siblings hmf hf hlab

theorem Sound.addName (h : G.Sound) {n f : N} {F : Name} (hf : G.father n f) (hF : G.owns f F) :
    (G.addName n (G.ext F (G.lab n))).Sound where
  inj := h.inj
  size_ext := h.size_ext
  base_le := by
    rintro m X (hm | ⟨_, rfl⟩)
    · exact h.base_le hm
    · exact Nat.le_trans (h.base_le hF) (Nat.le_of_lt (h.size_ext F n))
  root_size := by
    rintro m X hroot (hm | ⟨rfl, _⟩)
    · exact h.root_size hroot hm
    · exact absurd hf (hroot f)
  below := by
    rintro m g X hg (hm | ⟨rfl, rfl⟩)
    · obtain ⟨g', F', hg', hF', he⟩ := h.below hg hm
      exact ⟨g', F', hg', Or.inl hF', he⟩
    · exact ⟨f, F, hf, Or.inl hF, rfl⟩
  siblings := h.siblings
  unique := by
    rintro m m' X (hm | ⟨rfl, rfl⟩) (hm' | ⟨rfl, he⟩)
    · exact h.unique hm hm'
    · subst he; exact h.owner_eq hf hF hm
    · exact (h.owner_eq hf hF hm').symm
    · rfl

/-! ## Names bound the depth -/

/-- The longest name grows along every edge, so the edges make no cycle. -/
theorem Sound.top_lt (h : G.Sound) {top : N → Nat} {n f : N} (hc : G.Complete n) (hf : G.father n f)
    (hle : ∀ X, G.owns n X → G.size X ≤ top n) (hmax : ∃ F, G.owns f F ∧ G.size F = top f) :
    top f < top n := by
  obtain ⟨F, hF, he⟩ := hmax
  have h1 := h.size_ext F n
  have h2 := hle _ (hc f F hf hF)
  omega

end NameGraph
