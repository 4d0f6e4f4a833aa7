import Mathlib.Data.List.Chain
import Mathlib.Data.List.Nodup
import Mathlib.Data.List.Perm.Subperm
import Mathlib.Data.Nat.Find
import Mathlib.Logic.Relation

/-!
# Shortest walks

A walk of a directed graph is the list of its vertices.
-/

namespace Walks

variable {V : Type*} {adj : V → V → Prop} {s d u v : V} {l : List V}

structure IsWalk (adj : V → V → Prop) (s d : V) (l : List V) : Prop where
  head : l.head? = some s
  last : l.getLast? = some d
  chain : l.IsChain adj

structure IsShortest (adj : V → V → Prop) (s d : V) (l : List V) : Prop extends IsWalk adj s d l where
  least : ∀ l', IsWalk adj s d l' → l.length ≤ l'.length

/-- No vertex is left and entered again at once. -/
def NoReturn (l : List V) : Prop := ∀ u v, ¬ [u, v, u] <:+: l

theorem NoReturn.tail {l : List V} (h : NoReturn (u :: l)) : NoReturn l :=
  fun a b hin => h a b (hin.trans (List.suffix_cons u l).isInfix)

theorem NoReturn.ne {w : V} (h : NoReturn (u :: v :: w :: l)) : u ≠ w := by
  rintro rfl
  exact h u v (List.prefix_append [u, v, u] l).isInfix

theorem IsWalk.reach (h : IsWalk adj s d l) : Relation.ReflTransGen adj s d := by
  obtain ⟨rest, rfl⟩ := List.head?_eq_some_iff.mp h.head
  refine List.relationReflTransGen_of_exists_isChain_cons rest h.chain ?_
  rw [List.getLast_eq_iff_getLast?_eq_some]
  exact h.last

theorem exists_walk (h : Relation.ReflTransGen adj s d) : ∃ l, IsWalk adj s d l := by
  obtain ⟨rest, hchain, hlast⟩ := List.exists_isChain_cons_of_relationReflTransGen h
  refine ⟨s :: rest, rfl, ?_, hchain⟩
  rw [← hlast, List.getLast?_eq_some_getLast]

theorem IsWalk.cut {a b c : List V} (h : IsWalk adj s d (a ++ u :: b ++ u :: c)) :
    IsWalk adj s d (a ++ u :: c) where
  head := by
    have hhead := h.head
    cases a with
    | nil => simpa using hhead
    | cons x a => simpa using hhead
  last := by
    have hlast := h.last
    simpa [List.getLast?_append, List.getLast?_cons] using hlast
  chain := by
    have hchain := h.chain
    rw [List.append_assoc, List.cons_append, List.isChain_append] at hchain
    obtain ⟨ha, hb, hab⟩ := hchain
    refine List.isChain_append.mpr ⟨ha, ?_, ?_⟩
    · exact (List.isChain_append.mp (List.cons_append ▸ hb)).2.1
    · simpa using hab

/-- A walk is given by its edges. -/
def EdgeWalk {E : Type*} (joins : E → V → V → Prop) : V → V → List E → Prop
  | s, d, [] => s = d
  | s, d, e :: edges => ∃ v, joins e s v ∧ EdgeWalk joins v d edges

theorem EdgeWalk.walk {E : Type*} {joins : E → V → V → Prop} {edges : List E}
    (h : EdgeWalk joins s d edges) :
    ∃ l, IsWalk (fun u v => ∃ e, joins e u v) s d l ∧ l.length = edges.length + 1 := by
  induction edges generalizing s with
  | nil =>
    obtain rfl : s = d := h
    exact ⟨[s], ⟨rfl, rfl, .singleton _⟩, rfl⟩
  | cons e edges ih =>
    obtain ⟨v, hjoins, hrest⟩ := h
    obtain ⟨l, hwalk, hlen⟩ := ih hrest
    obtain ⟨tail, rfl⟩ := List.head?_eq_some_iff.mp hwalk.head
    refine ⟨s :: v :: tail, ⟨rfl, ?_, List.isChain_cons_cons.mpr ⟨⟨e, hjoins⟩, hwalk.chain⟩⟩,
      congrArg Nat.succ hlen⟩
    rw [List.getLast?_cons_cons]
    exact hwalk.last

theorem IsShortest.nodup (h : IsShortest adj s d l) : l.Nodup := by
  rw [List.nodup_iff_sublist]
  intro u htwice
  obtain ⟨a, rest, rfl, hu⟩ : ∃ a rest, l = a ++ u :: rest ∧ u ∈ rest := by
    obtain ⟨first, rest, rfl, hfirst, hrest⟩ := List.cons_sublist_iff.mp htwice
    obtain ⟨a, b, rfl⟩ := List.append_of_mem hfirst
    exact ⟨a, b ++ rest, by simp, List.mem_append_right b (List.singleton_sublist.mp hrest)⟩
  obtain ⟨b, c, rfl⟩ := List.append_of_mem hu
  have hle := h.least _ (IsWalk.cut (by simpa using h.toIsWalk))
  simp only [List.length_append, List.length_cons] at hle
  omega

theorem IsShortest.noReturn (h : IsShortest adj s d l) : NoReturn l := by
  intro u v hin
  have hnodup : [u, v, u].Nodup := h.nodup.sublist hin.sublist
  simp at hnodup

theorem exists_shortest (h : Relation.ReflTransGen adj s d) : ∃ l, IsShortest adj s d l := by
  classical
  have hsome : ∃ n l, IsWalk adj s d l ∧ l.length = n := by
    obtain ⟨l, hl⟩ := exists_walk h
    exact ⟨_, l, hl, rfl⟩
  obtain ⟨l, hl, hlen⟩ := Nat.find_spec hsome
  exact ⟨l, hl, fun l' hl' => hlen ▸ Nat.find_min' hsome ⟨l', hl', rfl⟩⟩

/-! ## A search over all vertices -/

section Search

variable (adj) [DecidableRel adj] [DecidableEq V] (vertices : List V)

/-- All walks with this number of edges. -/
def walks : Nat → V → V → List (List V)
  | 0, s, d => if s = d then [[s]] else []
  | n + 1, s, d => vertices.flatMap fun v =>
    if adj s v then (walks n v d).map (List.cons s) else []

/-- A shortest walk, or nothing. -/
def search (s d : V) : List V :=
  ((List.range vertices.length).findSome? fun n => (walks adj vertices n s d).head?).getD []

variable {adj vertices} (hall : ∀ v, v ∈ vertices) {n : Nat}

include hall

theorem mem_walks : l ∈ walks adj vertices n s d ↔ IsWalk adj s d l ∧ l.length = n + 1 := by
  induction n generalizing s l with
  | zero =>
    unfold walks
    constructor
    · intro hl
      split at hl
      · next heq =>
        subst heq
        obtain rfl := List.mem_singleton.mp hl
        exact ⟨⟨rfl, rfl, .singleton _⟩, rfl⟩
      · cases hl
    · rintro ⟨hwalk, hlen⟩
      obtain ⟨v, rfl⟩ := List.length_eq_one_iff.mp hlen
      obtain rfl := Option.some.inj hwalk.head
      obtain rfl := Option.some.inj hwalk.last
      simp
  | succ n ih =>
    simp only [walks, List.mem_flatMap]
    constructor
    · rintro ⟨v, -, hl⟩
      split at hl
      · next hadj =>
        obtain ⟨rest, hrest, rfl⟩ := List.mem_map.mp hl
        obtain ⟨hwalk, hlen⟩ := ih.mp hrest
        obtain ⟨tail, rfl⟩ := List.head?_eq_some_iff.mp hwalk.head
        refine ⟨⟨rfl, ?_, List.isChain_cons_cons.mpr ⟨hadj, hwalk.chain⟩⟩, by simpa using hlen⟩
        rw [List.getLast?_cons_cons]
        exact hwalk.last
      · cases hl
    · rintro ⟨hwalk, hlen⟩
      obtain ⟨rest, rfl⟩ := List.head?_eq_some_iff.mp hwalk.head
      obtain ⟨v, tail, rfl⟩ := List.exists_cons_of_length_eq_add_one (Nat.succ.inj hlen)
      obtain ⟨hadj, hchain⟩ := List.isChain_cons_cons.mp hwalk.chain
      have hlast := hwalk.last
      rw [List.getLast?_cons_cons] at hlast
      refine ⟨v, hall v, ?_⟩
      rw [if_pos hadj]
      exact List.mem_map_of_mem (ih.mpr ⟨⟨rfl, hlast, hchain⟩, Nat.succ.inj hlen⟩)

theorem search_eq_some {w : List V} (h : ((List.range vertices.length).findSome? fun n =>
      (walks adj vertices n s d).head?) = some w) : IsShortest adj s d w := by
  obtain ⟨before, n, after, hrange, hn, hbefore⟩ := List.findSome?_eq_some_iff.mp h
  obtain ⟨hwalk, hlen⟩ := (mem_walks hall).mp (List.mem_of_head? hn)
  refine ⟨hwalk, fun l hl => ?_⟩
  obtain ⟨m, hm⟩ : ∃ m, l.length = m + 1 := by
    obtain ⟨rest, rfl⟩ := List.head?_eq_some_iff.mp hl.head
    exact ⟨rest.length, rfl⟩
  rw [hlen, hm]
  by_contra hlt
  have hmem : m ∈ before := by
    have hin : m ∈ before ++ n :: after := by
      rw [← hrange, List.mem_range]
      have hn' : n ∈ List.range vertices.length := by simp [hrange]
      rw [List.mem_range] at hn'
      omega
    have hsorted := List.pairwise_lt_range (n := vertices.length)
    rw [hrange, List.pairwise_append, List.pairwise_cons] at hsorted
    rcases List.mem_append.mp hin with hin | hin
    · exact hin
    · rcases List.mem_cons.mp hin with rfl | hin
      · omega
      · have hgt := hsorted.2.1.1 m hin
        omega
  have hnone := hbefore m hmem
  rw [List.head?_eq_none_iff] at hnone
  exact List.not_mem_nil (hnone ▸ (mem_walks hall).mpr ⟨hl, hm⟩)

theorem isShortest_search (h : Relation.ReflTransGen adj s d) :
    IsShortest adj s d (search adj vertices s d) := by
  obtain ⟨l, hl⟩ := exists_shortest h
  have hle : l.length ≤ vertices.length :=
    (List.subperm_of_subset hl.nodup fun v _ => hall v).length_le
  obtain ⟨rest, rfl⟩ := List.head?_eq_some_iff.mp hl.head
  have hmem : s :: rest ∈ walks adj vertices rest.length s d := (mem_walks hall).mpr ⟨hl.toIsWalk, rfl⟩
  unfold search
  cases hfind : (List.range vertices.length).findSome? fun n => (walks adj vertices n s d).head? with
  | none =>
    have hnone := List.findSome?_eq_none_iff.mp hfind rest.length (List.mem_range.mpr hle)
    rw [List.head?_eq_none_iff] at hnone
    exact absurd (hnone ▸ hmem) List.not_mem_nil
  | some w => exact search_eq_some hall hfind

theorem search_eq_nil (h : ¬ Relation.ReflTransGen adj s d) : search adj vertices s d = [] := by
  unfold search
  cases hfind : (List.range vertices.length).findSome? fun n => (walks adj vertices n s d).head? with
  | none => rfl
  | some w => exact absurd (search_eq_some hall hfind).reach h

end Search

end Walks
