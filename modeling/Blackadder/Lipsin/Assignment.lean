import Blackadder.Lipsin.Matching
import Mathlib.Data.Finset.Sort
import Mathlib.Data.Fintype.Card

/-!
# Which subscribers an identifier serves

A subscriber that no publisher reaches leaves the publisher and the identifier of the one before it in
the locals, and they replace what that publisher had.
-/

namespace Blackadder

namespace TMIgraph

variable {V E : Type*} {f : V → V → Route V} {publishers done : List V} {m m' : Matching V}
  {publ publ' sub s : V}

/-! ## What is left of the subscribers -/

theorem First.unique (h : First f publishers sub publ) (h' : First f publishers sub publ') :
    publ = publ' := by
  obtain ⟨before, after, hsplit, hbefore, hafter⟩ := h.split
  obtain ⟨before', after', hsplit', hbefore', hafter'⟩ := h'.split
  rcases List.append_eq_append_iff.mp (hsplit.symm.trans hsplit') with ⟨c, rfl, hc⟩ | ⟨c, rfl, hc⟩
  · cases c with
    | nil => exact (List.cons.inj hc).1
    | cons x c =>
      obtain ⟨rfl, rfl⟩ := List.cons.inj hc
      have hless := hbefore' publ (by simp)
      have hle := hafter publ' (by simp)
      omega
  · cases c with
    | nil => exact (List.cons.inj hc).1.symm
    | cons x c =>
      obtain ⟨rfl, rfl⟩ := List.cons.inj hc
      have hless := hbefore publ' (by simp)
      have hle := hafter' publ (by simp)
      omega

/-- No publisher reaches it. -/
def Unreached (f : V → V → Route V) (publishers : List V) (sub : V) : Prop :=
  ∀ publ ∈ publishers, ¬ Found f publ sub

theorem Unreached.not_first (h : Unreached f publishers sub) : ¬ First f publishers sub publ :=
  fun hfirst => h publ hfirst.mem hfirst.found

/-- A later subscriber has the same publisher, and one that is not reached comes next. -/
def Dropped (f : V → V → Route V) (publishers subscribers : List V) (publ s : V) : Prop :=
  ∃ before t u after, subscribers = before ++ t :: u :: after ∧ s ∈ before ∧
    First f publishers t publ ∧ Unreached f publishers u

/-- The subscribers of a publisher whose bits its identifier keeps. -/
structure Keeps (f : V → V → Route V) (publishers subscribers : List V) (publ s : V) : Prop where
  mem : s ∈ subscribers
  first : First f publishers s publ
  kept : ¬ Dropped f publishers subscribers publ s

/-- A subscriber is dropped by the ones before the last, or the last one drops it. -/
theorem dropped_append : Dropped f publishers (done ++ [sub]) publ s ↔
    Dropped f publishers done publ s ∨ ∃ before t, done = before ++ [t] ∧ s ∈ before ∧
      First f publishers t publ ∧ Unreached f publishers sub := by
  constructor
  · rintro ⟨before, t, u, after, hsplit, hs, ht, hu⟩
    rcases List.eq_nil_or_concat after with rfl | ⟨after, x, rfl⟩
    · have hend : done ++ [sub] = (before ++ [t]) ++ [u] := by simpa using hsplit
      obtain ⟨hdone, hsub⟩ := List.append_inj' hend rfl
      obtain rfl := List.singleton_injective hsub
      exact Or.inr ⟨before, t, hdone, hs, ht, hu⟩
    · have hend : done ++ [sub] = (before ++ t :: u :: after) ++ [x] := by simpa using hsplit
      exact Or.inl ⟨before, t, u, after, (List.append_inj' hend rfl).1, hs, ht, hu⟩
  · rintro (⟨before, t, u, after, rfl, hs, ht, hu⟩ | ⟨before, t, rfl, hs, ht, hu⟩)
    · exact ⟨before, t, u, after ++ [sub], by simp, hs, ht, hu⟩
    · exact ⟨before, t, sub, [], by simp, hs, ht, hu⟩

/-- A subscriber that is reached drops none. -/
theorem keeps_reached (hfirst : First f publishers sub publ') (hnew : sub ∉ done) :
    Keeps f publishers (done ++ [sub]) publ s ↔
      Keeps f publishers done publ s ∨ s = sub ∧ publ = publ' := by
  have hdropped : Dropped f publishers (done ++ [sub]) publ s ↔ Dropped f publishers done publ s := by
    rw [dropped_append, or_iff_left]
    rintro ⟨-, -, -, -, -, hsub⟩
    exact hsub.not_first hfirst
  constructor
  · rintro ⟨hmem, hs, hkept⟩
    rcases List.mem_append.mp hmem with hmem | hmem
    · exact Or.inl ⟨hmem, hs, fun hdrop => hkept (hdropped.mpr hdrop)⟩
    · obtain rfl := List.mem_singleton.mp hmem
      exact Or.inr ⟨rfl, hs.unique hfirst⟩
  · rintro (⟨hmem, hs, hkept⟩ | ⟨rfl, rfl⟩)
    · exact ⟨List.mem_append_left _ hmem, hs, fun hdrop => hkept (hdropped.mp hdrop)⟩
    · refine ⟨by simp, hfirst, fun hdrop => ?_⟩
      obtain ⟨before, t, u, after, rfl, hs, -, -⟩ := hdropped.mp hdrop
      exact hnew (List.mem_append_left _ hs)

/-- A subscriber that is not reached leaves its publisher the bits of the last one before it. -/
theorem keeps_unreached {before after : List V} {t : V} (hnodup : (before ++ t :: after).Nodup)
    (ht : First f publishers t publ) (hafter : ∀ u ∈ after, Unreached f publishers u)
    (hne : after ≠ []) : Keeps f publishers (before ++ t :: after) publ s ↔ s = t := by
  constructor
  · rintro ⟨hmem, hfirst, hkept⟩
    rcases List.mem_append.mp hmem with hs | hs
    · obtain ⟨u, rest, rfl⟩ := List.exists_cons_of_ne_nil hne
      exact absurd ⟨before, t, u, rest, rfl, hs, ht, hafter u List.mem_cons_self⟩ hkept
    · rcases List.mem_cons.mp hs with rfl | hs
      · rfl
      · exact absurd hfirst (hafter s hs).not_first
  · rintro rfl
    refine ⟨by simp, ht, ?_⟩
    rintro ⟨before', t', u, after', hsplit, hs, ht', -⟩
    obtain ⟨c, d, rfl⟩ := List.append_of_mem hs
    have hsame : before ++ s :: after = c ++ s :: (d ++ t' :: u :: after') := by simpa using hsplit
    obtain ⟨hout, -⟩ := List.nodup_cons.mp (List.nodup_middle.mp hnodup)
    rw [List.mem_append, not_or] at hout
    obtain ⟨-, -, hrest⟩ := (List.append_cons_inj_of_notMem hout.1 hout.2).mp hsame
    exact (hafter t' (by simp [hrest])).not_first ht'

/-- And the others keep theirs. -/
theorem keeps_unreached_other {before after : List V} {t : V}
    (ht : First f publishers t publ) (hafter : ∀ u ∈ after, Unreached f publishers u)
    (hsub : Unreached f publishers sub) (hne : publ' ≠ publ) :
    Keeps f publishers (before ++ t :: after ++ [sub]) publ' s ↔
      Keeps f publishers (before ++ t :: after) publ' s := by
  have hdropped : Dropped f publishers (before ++ t :: after ++ [sub]) publ' s ↔
      Dropped f publishers (before ++ t :: after) publ' s := by
    rw [dropped_append, or_iff_left]
    rintro ⟨before', t', hdone, -, ht', -⟩
    rcases List.eq_nil_or_concat after with rfl | ⟨after, x, rfl⟩
    · obtain ⟨-, hlast⟩ := List.append_inj' hdone rfl
      obtain rfl := List.singleton_injective hlast
      exact hne (ht'.unique ht)
    · have hend : (before ++ t :: after) ++ [x] = before' ++ [t'] := by simpa using hdone
      obtain ⟨-, hlast⟩ := List.append_inj' hend rfl
      obtain rfl := List.singleton_injective hlast
      exact (hafter x (by simp)).not_first ht'
  constructor
  · rintro ⟨hmem, hfirst, hkept⟩
    refine ⟨?_, hfirst, fun hdrop => hkept (hdropped.mpr hdrop)⟩
    rcases List.mem_append.mp hmem with hs | hs
    · exact hs
    · rw [List.mem_singleton.mp hs] at hfirst
      exact absurd hfirst hsub.not_first
  · rintro ⟨hmem, hfirst, hkept⟩
    exact ⟨List.mem_append_left _ hmem, hfirst, fun hdrop => hkept (hdropped.mp hdrop)⟩

/-! ## The loop over the subscribers -/

theorem addFID_uintMax {FID : Bitvector} (existing : Option Bitvector) :
    addFID uintMax FID existing = some FID := by
  unfold addFID
  cases existing with
  | none => rfl
  | some _ => exact if_pos rfl

theorem addFID_some {n : Nat} {FID existingFID : Bitvector} (hn : n < uintMax) :
    addFID n FID (some existingFID) = some (existingFID ||| FID) := if_neg (by omega)

/-- The locals after these subscribers. -/
structure Combined (f : V → V → Route V) (publishers done : List V) (m : Matching V) : Prop
    extends Keyed publishers m where
  last : done = [] ∧ m.bestPublisher = none ∨ ∃ before t after publ, done = before ++ t :: after ∧
    First f publishers t publ ∧ (∀ u ∈ after, Unreached f publishers u) ∧
    m.bestPublisher = some publ ∧ m.bestFID = (f publ t).FID
  null : ∀ publ, (publ, none) ∈ m.result → ∀ s ∈ done, ¬ First f publishers s publ
  used : ∀ publ FID, (publ, some FID) ∈ m.result → ∃ s, Keeps f publishers done publ s
  bits : ∀ publ FID, (publ, some FID) ∈ m.result → ∀ i, FID.getLsbD i = true ↔
    ∃ s, Keeps f publishers done publ s ∧ (f publ s).FID.getLsbD i = true

theorem combined_start (publishers : List V) : Combined f publishers [] (Matching.start publishers) where
  toKeyed := keyed_start publishers
  last := Or.inl ⟨rfl, rfl⟩
  null := nofun
  used := by simp [Matching.start]
  bits := by simp [Matching.start]

section

variable [DecidableEq V]

theorem Combined.reached (h : Combined f publishers done m) (hnew : sub ∉ done)
    (hfirst : First f publishers sub publ) : Combined f publishers (done ++ [sub])
      (m.enter (f publ sub).numberOfHops publ (f publ sub).FID (f publ sub).path) where
  toKeyed := h.toKeyed.enter _ _ _ _
  last := Or.inr ⟨done, sub, [], publ, rfl, hfirst, by simp, rfl, rfl⟩
  null := by
    intro other hnone s hs hother
    rcases mem_update.mp hnone with ⟨hne, hold⟩ | ⟨rfl, existing, -, heq⟩
    · rcases List.mem_append.mp hs with hs | hs
      · exact h.null other hold s hs hother
      · rw [List.mem_singleton.mp hs] at hother
        exact hne (hother.unique hfirst)
    · unfold addFID at heq
      split at heq
      · cases heq
      · split at heq <;> cases heq
  used := by
    intro other FID hmem
    rcases mem_update.mp hmem with ⟨-, hold⟩ | ⟨rfl, -⟩
    · obtain ⟨s, hs⟩ := h.used other FID hold
      exact ⟨s, (keeps_reached hfirst hnew).mpr (Or.inl hs)⟩
    · exact ⟨sub, (keeps_reached hfirst hnew).mpr (Or.inr ⟨rfl, rfl⟩)⟩
  bits := by
    intro other FID hmem i
    simp only [keeps_reached hfirst hnew]
    rcases mem_update.mp hmem with ⟨hne, hold⟩ | ⟨rfl, existing, hold, heq⟩
    · simp only [hne, and_false, or_false]
      exact h.bits other FID hold i
    · cases existing with
      | none =>
        obtain rfl := Option.some.inj heq
        have hnone : ∀ s, ¬ Keeps f publishers done other s := fun s hs =>
          h.null other hold s hs.mem hs.first
        simp [hnone]
      | some existingFID =>
        rw [addFID_some hfirst.found] at heq
        obtain rfl := Option.some.inj heq
        rw [BitVec.getLsbD_or, Bool.or_eq_true, h.bits other existingFID hold i]
        simp only [or_and_right, exists_or, and_true, exists_eq_left]

theorem Combined.unreached (h : Combined f publishers done m) (hnodup : (done ++ [sub]).Nodup)
    (hsub : Unreached f publishers sub) (hbest : m.bestPublisher = some publ) :
    Combined f publishers (done ++ [sub]) (m.enter uintMax publ m.bestFID m.best_path) := by
  rcases h.last with ⟨-, hnone⟩ | ⟨before, t, after, best, rfl, ht, hafter, hlast, hFID⟩
  · rw [hnone] at hbest
    cases hbest
  · obtain rfl := Option.some.inj (hlast.symm.trans hbest)
    have hafter' : ∀ u ∈ after ++ [sub], Unreached f publishers u := by
      rw [List.forall_mem_append, List.forall_mem_singleton]
      exact ⟨hafter, hsub⟩
    have hkeeps : ∀ s, Keeps f publishers (before ++ t :: after ++ [sub]) best s ↔ s = t := by
      intro s
      rw [List.append_assoc, List.cons_append] at hnodup ⊢
      exact keeps_unreached hnodup ht hafter' (by simp)
    refine ⟨h.toKeyed.enter _ _ _ _, ?_, fun other hnone s hs hother => ?_, fun other FID hmem => ?_,
      fun other FID hmem i => ?_⟩
    · exact Or.inr ⟨before, t, after ++ [sub], best, by simp, ht, hafter', rfl, hFID⟩
    · rcases mem_update.mp hnone with ⟨-, hold⟩ | ⟨rfl, existing, -, heq⟩
      · rcases List.mem_append.mp hs with hs | hs
        · exact h.null other hold s hs hother
        · rw [List.mem_singleton.mp hs] at hother
          exact hsub.not_first hother
      · rw [addFID_uintMax] at heq
        cases heq
    · rcases mem_update.mp hmem with ⟨hne, hold⟩ | ⟨rfl, -⟩
      · obtain ⟨s, hs⟩ := h.used other FID hold
        exact ⟨s, (keeps_unreached_other ht hafter hsub hne).mpr hs⟩
      · exact ⟨t, (hkeeps t).mpr rfl⟩
    · rcases mem_update.mp hmem with ⟨hne, hold⟩ | ⟨rfl, existing, -, heq⟩
      · simp only [keeps_unreached_other ht hafter hsub hne]
        exact h.bits other FID hold i
      · rw [addFID_uintMax] at heq
        obtain rfl := Option.some.inj heq
        simp only [hkeeps, exists_eq_left, hFID]

theorem Combined.turn (h : Combined f publishers done m) (hnodup : (done ++ [sub]).Nodup)
    (hturn : matchSubscriber f publishers m sub = some m') : Combined f publishers (done ++ [sub]) m' := by
  rcases matchSubscriber_eq hturn with ⟨publ, hfirst, rfl⟩ | ⟨hsub, publ, hbest, rfl⟩
  · refine h.reached (fun hin => ?_) hfirst
    exact (List.nodup_append.mp hnodup).2.2 sub hin sub (by simp) rfl
  · exact h.unreached hnodup hsub hbest

theorem combined_calculateFIDs {subscribers : List V} (hnodup : subscribers.Nodup)
    (h : calculateFIDs f publishers subscribers = some m) : Combined f publishers subscribers m := by
  refine Wire.foldlM_done h (I := fun done m => Combined f publishers done m)
    (combined_start publishers) fun done sub rest m m' hsplit hm hturn => hm.turn ?_ hturn
  rw [hsplit] at hnodup
  exact hnodup.sublist (by simp)

/-- A turn for a subscriber that is not reached uses the publisher of the one before. -/
theorem matchSubscriber_unreached (hkeys : Keyed publishers m) (hsub : Unreached f publishers sub)
    (hpubl : publ ∈ publishers) (hbest : m.bestPublisher = some publ) :
    ∃ m', matchSubscriber f publishers m sub = some m' := by
  unfold matchSubscriber
  dsimp only
  rcases foldl_better f sub publishers (uintMax, m.bestPublisher, m.bestFID, m.best_path) with
    ⟨hsame, -⟩ | ⟨before, best, after, hsplit, -, -, hlt, -⟩
  · rw [hsame, hbest, hkeys.result, Option.bind_eq_bind, Option.bind_some, if_pos hpubl]
    exact ⟨_, rfl⟩
  · exact absurd hlt (hsub best (by simp [hsplit]))

/-- The loop comes to its end when it does not begin with a subscriber that is not reached. -/
theorem calculateFIDs_some_iff {subscribers : List V} (hnodup : subscribers.Nodup) :
    (∃ m, calculateFIDs f publishers subscribers = some m) ↔
      ∀ u rest, subscribers = u :: rest → ¬ Unreached f publishers u := by
  constructor
  · rintro ⟨m, h⟩ u rest rfl hu
    obtain ⟨m₁, hturn, -⟩ := Option.bind_eq_some_iff.mp h
    rcases matchSubscriber_eq hturn with ⟨publ, hfirst, -⟩ | ⟨-, publ, hbest, -⟩
    · exact hu.not_first hfirst
    · cases hbest
  · intro hhead
    obtain ⟨m, hrun, -⟩ := Wire.foldlM_all (l := subscribers) (f := matchSubscriber f publishers)
      (I := fun done m => Combined f publishers done m) (combined_start publishers) (by
        intro done sub rest m hsplit hm
        have hdone : (done ++ [sub]).Nodup := by
          rw [hsplit] at hnodup
          exact hnodup.sublist (by simp)
        suffices ∃ m', matchSubscriber f publishers m sub = some m' by
          obtain ⟨m', hturn⟩ := this
          exact ⟨m', hturn, hm.turn hdone hturn⟩
        by_cases hsub : Unreached f publishers sub
        · rcases hm.last with ⟨rfl, -⟩ | ⟨_, _, _, publ, _, ht, _, hbest, _⟩
          · exact absurd hsub (hhead sub rest hsplit)
          · exact matchSubscriber_unreached hm.toKeyed hsub ht.mem hbest
        · unfold Unreached at hsub
          push Not at hsub
          obtain ⟨publ, hpubl, hfound⟩ := hsub
          exact matchSubscriber_some hm.toKeyed hpubl hfound)
    exact ⟨m, hrun⟩

end

/-! ## On a graph -/

section

variable {g : TMIgraph V E} {adj : V → V → Prop} {i : Nat}

/-- igraph finds a shortest path, or an empty one when there is none. -/
def FindsPaths (g : TMIgraph V E) (adj : V → V → Prop) : Prop :=
  ∀ u v, (Relation.ReflTransGen adj u v → Walks.IsShortest adj u v (g.getShortestPath u v)) ∧
    (¬ Relation.ReflTransGen adj u v → g.getShortestPath u v = [])

/-- A bit of a link of the path, or of the internal link of `s`. -/
def Marks (g : TMIgraph V E) (path : List V) (s : V) (i : Nat) : Prop :=
  (∃ eid ∈ g.pathEdges path, (Bitvector.parse (g.LID eid)).getLsbD i = true) ∨
    (Bitvector.parse (g.iLID s)).getLsbD i = true

theorem getLsbD_foldl_or (LID : E → Bitvector) (es : List E) (FID : Bitvector) :
    (es.foldl (fun FID eid => FID ||| LID eid) FID).getLsbD i = true ↔
      FID.getLsbD i = true ∨ ∃ eid ∈ es, (LID eid).getLsbD i = true := by
  induction es generalizing FID with
  | nil => simp
  | cons e es ih =>
    rw [List.foldl_cons, ih]
    simp [or_assoc]

theorem getLsbD_route : (g.route publ s).FID.getLsbD i = true ↔
    g.Marks (g.getShortestPath publ s) s i := by
  simp only [route, Marks, BitVec.getLsbD_or, Bool.or_eq_true]
  rw [getLsbD_foldl_or (fun eid => Bitvector.parse (g.LID eid))]
  simp

theorem hops_none (hg : g.FindsPaths adj) (h : ¬ Relation.ReflTransGen adj publ s) :
    (g.route publ s).numberOfHops = uintMax := by
  simp [route, (hg publ s).2 h]

variable [Fintype V]

/-- igraph has fewer nodes than an `int` counts. -/
theorem hops_reach (hg : g.FindsPaths adj) (hids : Fintype.card V < 2 ^ 31)
    (h : Relation.ReflTransGen adj publ s) :
    (g.route publ s).numberOfHops = (g.getShortestPath publ s).length ∧ Found g.route publ s := by
  have hpath := (hg publ s).1 h
  have hlen : (g.getShortestPath publ s).length ≤ Fintype.card V := hpath.nodup.length_le_card
  have hpos : 0 < (g.getShortestPath publ s).length := by
    obtain ⟨rest, hrest⟩ := List.head?_eq_some_iff.mp hpath.head
    simp [hrest]
  have hmod : (g.getShortestPath publ s).length % 2 ^ 32 = (g.getShortestPath publ s).length :=
    Nat.mod_eq_of_lt (by omega)
  have hhops : (g.route publ s).numberOfHops = (g.getShortestPath publ s).length := by
    simp only [route, hmod, if_neg (Nat.ne_of_gt hpos)]
  refine ⟨hhops, ?_⟩
  rw [Found, hhops, uintMax]
  omega

theorem found_iff (hg : g.FindsPaths adj) (hids : Fintype.card V < 2 ^ 31) :
    Found g.route publ s ↔ Relation.ReflTransGen adj publ s := by
  refine ⟨fun hfound => ?_, fun h => (hops_reach hg hids h).2⟩
  by_contra hno
  rw [Found, hops_none hg hno] at hfound
  exact Nat.lt_irrefl _ hfound

end

section

variable [LinearOrder V]

/-- The publisher at the least distance, with the smallest identifier. -/
structure Nearest (adj : V → V → Prop) (publishers : Finset V) (s publ : V) : Prop where
  mem : publ ∈ publishers
  reach : Relation.ReflTransGen adj publ s
  least : ∀ other ∈ publishers, ∀ w w', Walks.IsShortest adj publ s w →
    Walks.IsShortest adj other s w' → w.length < w'.length ∨ w.length = w'.length ∧ publ ≤ other

theorem split_sort {nodes : Finset V} {x : V} (before : List V) {after : List V}
    (h : nodes.sort = before ++ x :: after) : (∀ v ∈ before, v < x) ∧ ∀ v ∈ after, x < v := by
  have hsorted : nodes.sort.Pairwise (· < ·) := (Finset.sortedLT_sort nodes).pairwise
  rw [h, List.pairwise_append, List.pairwise_cons] at hsorted
  exact ⟨fun v hv => hsorted.2.2 v hv x List.mem_cons_self, hsorted.2.1.1⟩

variable [Fintype V] {g : TMIgraph V E} {adj : V → V → Prop} {pubs subs : Finset V}

theorem first_iff (hg : g.FindsPaths adj) (hids : Fintype.card V < 2 ^ 31) :
    First g.route pubs.sort s publ ↔ Nearest adj pubs s publ := by
  have hsame : ∀ {p w}, Walks.IsShortest adj p s w → w.length = (g.route p s).numberOfHops := by
    intro p w hw
    have hreach := hw.toIsWalk.reach
    have hpath := (hg p s).1 hreach
    rw [(hops_reach hg hids hreach).1]
    exact Nat.le_antisymm (hw.least _ hpath.toIsWalk) (hpath.least _ hw.toIsWalk)
  constructor
  · rintro ⟨hfound, before, after, hsplit, hbefore, hafter⟩
    obtain ⟨-, hgreater⟩ := split_sort _ hsplit
    refine ⟨?_, (found_iff hg hids).mp hfound, fun other hother w w' hw hw' => ?_⟩
    · rw [← Finset.mem_sort (· ≤ ·), hsplit]
      simp
    · rw [hsame hw, hsame hw']
      rw [← Finset.mem_sort (· ≤ ·), hsplit] at hother
      rcases List.mem_append.mp hother with hother | hother
      · exact Or.inl (hbefore other hother)
      · rcases List.mem_cons.mp hother with rfl | hother
        · exact Or.inr ⟨rfl, le_rfl⟩
        · rcases Nat.lt_or_eq_of_le (hafter other hother) with hlt | heq
          · exact Or.inl hlt
          · exact Or.inr ⟨heq, (hgreater other hother).le⟩
  · rintro ⟨hmem, hreach, hleast⟩
    obtain ⟨hhops, hfound⟩ := hops_reach hg hids hreach
    obtain ⟨before, after, hsplit⟩ := List.append_of_mem ((Finset.mem_sort (· ≤ ·)).mpr hmem)
    obtain ⟨hless, -⟩ := split_sort _ hsplit
    have hall : ∀ other ∈ pubs.sort, (g.route publ s).numberOfHops < (g.route other s).numberOfHops ∨
        (g.route publ s).numberOfHops = (g.route other s).numberOfHops ∧ publ ≤ other := by
      intro other hother
      by_cases hother' : Relation.ReflTransGen adj other s
      · have hcompare := hleast other ((Finset.mem_sort (· ≤ ·)).mp hother) _ _ ((hg publ s).1 hreach)
          ((hg other s).1 hother')
        rwa [← hhops, ← (hops_reach hg hids hother').1] at hcompare
      · rw [hops_none hg hother']
        exact Or.inl hfound
    refine ⟨hfound, before, after, hsplit, fun other hother => ?_, fun other hother => ?_⟩
    · rcases hall other (by simp [hsplit, hother]) with hlt | ⟨-, hle⟩
      · exact hlt
      · exact absurd (hless other hother) (not_lt.mpr hle)
    · rcases hall other (by simp [hsplit, hother]) with hlt | ⟨heq, -⟩
      · exact hlt.le
      · exact heq.le

theorem unreached_iff (hg : g.FindsPaths adj) (hids : Fintype.card V < 2 ^ 31) :
    Unreached g.route pubs.sort s ↔ ∀ publ ∈ pubs, ¬ Relation.ReflTransGen adj publ s := by
  simp only [Unreached, Finset.mem_sort, found_iff hg hids]

/-- A subscriber behind `s` has the same publisher, and no publisher reaches the next subscriber. -/
def Overtaken (adj : V → V → Prop) (pubs subs : Finset V) (s publ : V) : Prop :=
  ∃ t ∈ subs, ∃ u ∈ subs, s < t ∧ t < u ∧ (∀ v ∈ subs, v ≤ t ∨ u ≤ v) ∧
    Nearest adj pubs t publ ∧ ∀ p ∈ pubs, ¬ Relation.ReflTransGen adj p u

theorem dropped_iff (hg : g.FindsPaths adj) (hids : Fintype.card V < 2 ^ 31) (hs : s ∈ subs) :
    Dropped g.route pubs.sort subs.sort publ s ↔ Overtaken adj pubs subs s publ := by
  have hmem : ∀ {v}, v ∈ subs.sort ↔ v ∈ subs := Finset.mem_sort (· ≤ ·)
  constructor
  · rintro ⟨before, t, u, after, hsplit, hbefore, ht, hu⟩
    obtain ⟨hless, hgreater⟩ := split_sort _ hsplit
    have hsplit' : subs.sort = (before ++ [t]) ++ u :: after := by simpa using hsplit
    obtain ⟨-, hafter⟩ := split_sort _ hsplit'
    refine ⟨t, hmem.mp (by simp [hsplit]), u, hmem.mp (by simp [hsplit]), hless s hbefore,
      hgreater u List.mem_cons_self, fun v hv => ?_, (first_iff hg hids).mp ht, (unreached_iff hg hids).mp hu⟩
    rw [← hmem, hsplit] at hv
    rcases List.mem_append.mp hv with hv | hv
    · exact Or.inl (hless v hv).le
    · rcases List.mem_cons.mp hv with rfl | hv
      · exact Or.inl le_rfl
      · rcases List.mem_cons.mp hv with rfl | hv
        · exact Or.inr le_rfl
        · exact Or.inr (hafter v hv).le
  · rintro ⟨t, ht, u, hu, hst, htu, hnext, hnear, hno⟩
    obtain ⟨before, rest, hsplit⟩ := List.append_of_mem (hmem.mpr ht)
    obtain ⟨hless, hgreater⟩ := split_sort _ hsplit
    have hin : ∀ v ∈ subs, v ∈ before ∨ v = t ∨ v ∈ rest := by
      intro v hv
      simpa [hsplit] using hmem.mpr hv
    have hbefore : s ∈ before := by
      rcases hin s hs with h | rfl | h
      · exact h
      · exact absurd hst (lt_irrefl s)
      · exact absurd (hgreater s h) hst.asymm
    have hrest : u ∈ rest := by
      rcases hin u hu with h | rfl | h
      · exact absurd (hless u h) htu.asymm
      · exact absurd htu (lt_irrefl u)
      · exact h
    cases rest with
    | nil => cases hrest
    | cons u' after =>
      have hsplit' : subs.sort = (before ++ [t]) ++ u' :: after := by simpa using hsplit
      have hfirst : u' ≤ u := by
        rcases List.mem_cons.mp hrest with rfl | h
        · exact le_rfl
        · exact ((split_sort _ hsplit').2 u h).le
      have hle : u ≤ u' := by
        refine (hnext u' (hmem.mp (by simp [hsplit]))).resolve_left ?_
        exact not_le.mpr (hgreater u' List.mem_cons_self)
      obtain rfl := le_antisymm hfirst hle
      exact ⟨before, t, u', after, hsplit, hbefore, (first_iff hg hids).mpr hnear,
        (unreached_iff hg hids).mpr hno⟩

/-- What the manager promises for a set of publishers and a set of subscribers. -/
structure Matches (g : TMIgraph V E) (adj : V → V → Prop) (pubs subs : Finset V)
    (result : List (V × Option Bitvector)) : Prop where
  keys : result.map Prod.fst = pubs.sort
  served : ∀ s ∈ subs, (∃ publ ∈ pubs, Relation.ReflTransGen adj publ s) →
    ∃ publ FID path, Nearest adj pubs s publ ∧ (publ, some FID) ∈ result ∧
      Walks.IsShortest adj publ s path ∧ ∀ i, g.Marks path s i → FID.getLsbD i = true
  unused : ∀ publ ∈ pubs, (∀ s ∈ subs, ¬ Nearest adj pubs s publ) → (publ, none) ∈ result
  only : ∀ publ FID, (publ, some FID) ∈ result → ∀ i, FID.getLsbD i = true →
    ∃ s ∈ subs, Nearest adj pubs s publ ∧
      ∃ path, Walks.IsShortest adj publ s path ∧ g.Marks path s i

/-- The first subscriber can be reached, and the bits of an overtaken subscriber are bits of subscribers
of its publisher that are not overtaken. -/
structure Undisturbed (g : TMIgraph V E) (adj : V → V → Prop) (pubs subs : Finset V) : Prop where
  first : ∀ u ∈ subs, (∀ v ∈ subs, u ≤ v) → ∃ publ ∈ pubs, Relation.ReflTransGen adj publ u
  covered : ∀ s ∈ subs, ∀ publ, Nearest adj pubs s publ → Overtaken adj pubs subs s publ →
    ∃ path, Walks.IsShortest adj publ s path ∧ ∀ i, g.Marks path s i →
      ∃ t ∈ subs, Nearest adj pubs t publ ∧ ¬ Overtaken adj pubs subs t publ ∧
        g.Marks (g.getShortestPath publ t) t i

omit [Fintype V] in
theorem Nearest.unique (hg : g.FindsPaths adj) (h : Nearest adj pubs s publ)
    (h' : Nearest adj pubs s publ') : publ = publ' := by
  have hp := (hg publ s).1 h.reach
  have hp' := (hg publ' s).1 h'.reach
  rcases h.least publ' h'.mem _ _ hp hp' with hlt | ⟨heq, hle⟩ <;>
    rcases h'.least publ h.mem _ _ hp' hp with hlt' | ⟨heq', hle'⟩
  · omega
  · omega
  · omega
  · exact le_antisymm hle hle'

theorem keeps_iff (hg : g.FindsPaths adj) (hids : Fintype.card V < 2 ^ 31) :
    Keeps g.route pubs.sort subs.sort publ s ↔
      s ∈ subs ∧ Nearest adj pubs s publ ∧ ¬ Overtaken adj pubs subs s publ := by
  constructor
  · rintro ⟨hmem, hfirst, hkept⟩
    have hs := (Finset.mem_sort (· ≤ ·)).mp hmem
    exact ⟨hs, (first_iff hg hids).mp hfirst, fun h => hkept ((dropped_iff hg hids hs).mpr h)⟩
  · rintro ⟨hs, hnear, hkept⟩
    exact ⟨(Finset.mem_sort (· ≤ ·)).mpr hs, (first_iff hg hids).mpr hnear,
      fun h => hkept ((dropped_iff hg hids hs).mp h)⟩

theorem exists_nearest (hg : g.FindsPaths adj) (hids : Fintype.card V < 2 ^ 31)
    (h : ∃ publ ∈ pubs, Relation.ReflTransGen adj publ s) : ∃ publ, Nearest adj pubs s publ := by
  obtain ⟨publ, hpubl, hreach⟩ := h
  have hfound := (found_iff hg hids).mpr hreach
  rcases foldl_better g.route s pubs.sort (uintMax, none, 0, []) with
    ⟨-, hall⟩ | ⟨before, best, after, hsplit, hbefore, hafter, hlt, -⟩
  · exact absurd (hall publ ((Finset.mem_sort (· ≤ ·)).mpr hpubl)) (Nat.not_le.mpr hfound)
  · exact ⟨best, (first_iff hg hids).mp ⟨hlt, before, after, hsplit, hbefore, hafter⟩⟩

omit [Fintype V] in
theorem head_sort {u : V} {rest : List V} (h : subs.sort = u :: rest) : u ∈ subs ∧ ∀ v ∈ subs, u ≤ v := by
  have hmem : ∀ {v}, v ∈ subs.sort ↔ v ∈ subs := Finset.mem_sort (· ≤ ·)
  obtain ⟨-, hgreater⟩ := split_sort [] h
  refine ⟨hmem.mp (by simp [h]), fun v hv => ?_⟩
  rw [← hmem, h] at hv
  rcases List.mem_cons.mp hv with rfl | hv
  · exact le_rfl
  · exact (hgreater v hv).le

/-- The loop comes to its end exactly when the first subscriber can be reached. -/
theorem calculateFIDs_runs (hg : g.FindsPaths adj) (hids : Fintype.card V < 2 ^ 31) :
    (∃ m, calculateFIDs g.route pubs.sort subs.sort = some m) ↔
      ∀ u ∈ subs, (∀ v ∈ subs, u ≤ v) → ∃ publ ∈ pubs, Relation.ReflTransGen adj publ u := by
  rw [calculateFIDs_some_iff (Finset.sort_nodup subs (· ≤ ·))]
  constructor
  · intro hhead u hu hleast
    cases hsort : subs.sort with
    | nil =>
      rw [← Finset.mem_sort (· ≤ ·), hsort] at hu
      cases hu
    | cons u' rest =>
      obtain ⟨hu', hleast'⟩ := head_sort hsort
      obtain rfl := le_antisymm (hleast u' hu') (hleast' u hu)
      have hreached := hhead u rest hsort
      rw [unreached_iff hg hids] at hreached
      push Not at hreached
      exact hreached
  · intro hfirst u rest hsort hno
    obtain ⟨hu, hleast⟩ := head_sort hsort
    obtain ⟨publ, hpubl, hreach⟩ := hfirst u hu hleast
    exact (unreached_iff hg hids).mp hno publ hpubl hreach

/-- The loop matches the subscribers exactly when none that can be reached is overtaken for good. -/
theorem matches_iff (hg : g.FindsPaths adj) (hids : Fintype.card V < 2 ^ 31) :
    (∃ m, calculateFIDs g.route pubs.sort subs.sort = some m ∧ Matches g adj pubs subs m.result) ↔
      Undisturbed g adj pubs subs := by
  have hnodup := Finset.sort_nodup subs (· ≤ ·)
  constructor
  · rintro ⟨m, hrun, hmatch⟩
    have hm := combined_calculateFIDs hnodup hrun
    refine ⟨(calculateFIDs_runs hg hids).mp ⟨m, hrun⟩, fun s hs publ hnear hover => ?_⟩
    · obtain ⟨publ', FID, path, hnear', hFID, hpath, hbits⟩ :=
        hmatch.served s hs ⟨publ, hnear.mem, hnear.reach⟩
      obtain rfl := hnear.unique hg hnear'
      refine ⟨path, hpath, fun i hi => ?_⟩
      obtain ⟨t, ht, hbit⟩ := (hm.bits publ FID hFID i).mp (hbits i hi)
      obtain ⟨hin, hnear, hkept⟩ := (keeps_iff hg hids).mp ht
      exact ⟨t, hin, hnear, hkept, getLsbD_route.mp hbit⟩
  · intro h
    obtain ⟨m, hrun⟩ := (calculateFIDs_runs hg hids).mpr h.first
    have hm := combined_calculateFIDs hnodup hrun
    have hentry : ∀ publ ∈ pubs, ∃ FID, (publ, FID) ∈ m.result := by
      intro publ hpubl
      rw [← Finset.mem_sort (· ≤ ·), ← hm.result] at hpubl
      obtain ⟨⟨key, FID⟩, hmem, rfl⟩ := List.mem_map.mp hpubl
      exact ⟨FID, hmem⟩
    refine ⟨m, hrun, hm.result, fun s hs hreach => ?_, fun publ hpubl hno => ?_,
      fun publ FID hFID i hi => ?_⟩
    · obtain ⟨publ, hnear⟩ := exists_nearest hg hids hreach
      obtain ⟨_ | FID, hFID⟩ := hentry publ hnear.mem
      · exact absurd ((first_iff hg hids).mpr hnear)
          (hm.null publ hFID s ((Finset.mem_sort (· ≤ ·)).mpr hs))
      · by_cases hover : Overtaken adj pubs subs s publ
        · obtain ⟨path, hpath, hbits⟩ := h.covered s hs publ hnear hover
          refine ⟨publ, FID, path, hnear, hFID, hpath, fun i hi => (hm.bits publ FID hFID i).mpr ?_⟩
          obtain ⟨t, ht, hnear', hkept, hbit⟩ := hbits i hi
          exact ⟨t, (keeps_iff hg hids).mpr ⟨ht, hnear', hkept⟩, getLsbD_route.mpr hbit⟩
        · refine ⟨publ, FID, _, hnear, hFID, (hg publ s).1 hnear.reach, fun i hi =>
            (hm.bits publ FID hFID i).mpr ⟨s, ?_, getLsbD_route.mpr hi⟩⟩
          exact (keeps_iff hg hids).mpr ⟨hs, hnear, hover⟩
    · obtain ⟨_ | FID, hFID⟩ := hentry publ hpubl
      · exact hFID
      · obtain ⟨t, ht⟩ := hm.used publ FID hFID
        obtain ⟨hin, hnear, -⟩ := (keeps_iff hg hids).mp ht
        exact absurd hnear (hno t hin)
    · obtain ⟨t, ht, hbit⟩ := (hm.bits publ FID hFID i).mp hi
      obtain ⟨hin, hnear, -⟩ := (keeps_iff hg hids).mp ht
      exact ⟨t, hin, hnear, _, (hg publ t).1 hnear.reach, getLsbD_route.mp hbit⟩

end

/-! ## A fork -/

/-- The links 0 - 1 and 0 - 2, in one direction. Node 3 has none. -/
def forkAdj (u v : Fin 4) : Prop := u.val = 0 ∧ (v.val = 1 ∨ v.val = 2)

instance : DecidableRel forkAdj := fun u v =>
  inferInstanceAs (Decidable (u.val = 0 ∧ (v.val = 1 ∨ v.val = 2)))

def fork : TMIgraph (Fin 4) (Fin 4 × Fin 4) where
  LID e := Bitvector.oneHot (10 + e.2)
  iLID v := Bitvector.oneHot v
  getShortestPath := Walks.search forkAdj (List.finRange 4)
  getEid u v := (u, v)

theorem fork_findsPaths : fork.FindsPaths forkAdj := fun _ _ =>
  ⟨Walks.isShortest_search List.mem_finRange, Walks.search_eq_nil List.mem_finRange⟩

/-- Node 0 publishes to both. -/
theorem matches_fork : ∃ m, calculateFIDs fork.route ({0} : Finset (Fin 4)).sort
      ({1, 2} : Finset (Fin 4)).sort = some m ∧ Matches fork forkAdj {0} {1, 2} m.result := by
  refine (matches_iff fork_findsPaths (by decide)).mpr ⟨fun u hu _ => ?_, fun s hs publ hnear hover => ?_⟩
  · refine ⟨0, Finset.mem_singleton_self 0, .single ⟨rfl, ?_⟩⟩
    simpa [Fin.ext_iff] using hu
  · obtain ⟨t, ht, u, hu, hst, htu, -⟩ := hover
    have htwo : ∀ s ∈ ({1, 2} : Finset (Fin 4)), ∀ t ∈ ({1, 2} : Finset (Fin 4)),
        ∀ u ∈ ({1, 2} : Finset (Fin 4)), s < t → ¬ t < u := by decide
    exact absurd htu (htwo s hs t ht u hu hst)

/-- When node 3 subscribes too, the identifier has no bit of node 1. -/
theorem not_matches : ¬ ∃ m, calculateFIDs fork.route ({0} : Finset (Fin 4)).sort
    ({1, 2, 3} : Finset (Fin 4)).sort = some m ∧ Matches fork forkAdj {0} {1, 2, 3} m.result := by
  have hlost : (calculateFIDs fork.route [0] [1, 2, 3]).all (fun m => m.result.all fun e =>
      e.2.all fun FID => FID.getLsbD 1 = false) = true := by decide +kernel
  have hpubs : ({0} : Finset (Fin 4)).sort = [0] := Finset.sort_singleton _ 0
  have hsubs : ({1, 2, 3} : Finset (Fin 4)).sort = [1, 2, 3] :=
    (List.toFinset_sort (l := [(1 : Fin 4), 2, 3]) (· ≤ ·) (by decide)).mpr (by decide)
  rw [hpubs, hsubs]
  rintro ⟨m, hrun, hmatch⟩
  obtain ⟨publ, FID, path, -, hFID, -, hbits⟩ := hmatch.served 1 (by decide)
    ⟨0, by decide, .single (by decide)⟩
  have hbit : FID.getLsbD 1 = true := hbits 1 (Or.inr (by decide +kernel))
  rw [hrun] at hlost
  have hno : FID.getLsbD 1 = false := of_decide_eq_true (List.all_eq_true.mp hlost _ hFID)
  rw [hbit] at hno
  cases hno

end TMIgraph

end Blackadder
