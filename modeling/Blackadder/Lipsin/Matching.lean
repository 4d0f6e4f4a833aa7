import Blackadder.Lib.Wire
import Blackadder.Lipsin.TMIgraph

/-!
# Publishers for subscribers

The rendezvous of the topology manager: each subscriber is given to the publisher with the least
hops, and a publisher gets one forwarding identifier for all its subscribers.
-/

namespace Blackadder

/-- `UINT_MAX`. -/
def uintMax : Nat := 2 ^ 32 - 1

namespace TMIgraph

/-- What `calculateFID` or `calculateFID_weighted` finds for one pair of nodes. -/
structure Route (V : Type*) where
  FID : Bitvector
  numberOfHops : Nat
  /-- The nodes on the path. -/
  path : List V

/-- The locals of the rendezvous. `none` is the empty string that `bestPublisher` begins with. -/
structure Matching (V : Type*) where
  /-- `NULL` for a publisher without subscribers. -/
  result : List (V × Option Bitvector)
  path_vectors : List (V × List (List V))
  bestPublisher : Option V
  bestFID : Bitvector
  best_path : List V

variable {V E : Type*}

/-- `calculateFID(source, destination, resultFID, numberOfHops, path)`. -/
def route (g : TMIgraph V E) (source destination : V) : Route V :=
  let path := g.getShortestPath source destination
  let resultFID := (g.pathEdges path).foldl (fun FID eid => FID ||| Bitvector.parse (g.LID eid)) 0
  { FID := resultFID ||| Bitvector.parse (g.iLID destination)
    numberOfHops := if path.length % 2 ^ 32 = 0 then uintMax else path.length % 2 ^ 32
    path := path }

/-- One turn of the loop over the publishers: the least hops, and what belongs to them. -/
def better (route : V → V → Route V) (sub : V) (best : Nat × Option V × Bitvector × List V) (publ : V) :
    Nat × Option V × Bitvector × List V :=
  let r := route publ sub
  if r.numberOfHops < best.1 then (r.numberOfHops, some publ, r.FID, r.path) else best

/-- What a publisher has after one more subscriber. -/
def addFID (minimumNumberOfHops : Nat) (bestFID : Bitvector) : Option Bitvector → Option Bitvector
  | none => some bestFID
  | some existingFID =>
    if minimumNumberOfHops = uintMax then some bestFID else some (existingFID ||| bestFID)

variable [DecidableEq V]

/-- The value at a key is replaced. -/
def update {A : Type*} (l : List (V × A)) (key : V) (f : A → A) : List (V × A) :=
  l.map fun e => if e.1 = key then (e.1, f e.2) else e

/-- One turn of the loop over the subscribers. `none` stands for the use of a publisher that is
not in the map. -/
def matchSubscriber (route : V → V → Route V) (publishers : List V) (m : Matching V) (sub : V) :
    Option (Matching V) := do
  let (minimumNumberOfHops, bestPublisher, bestFID, best_path) :=
    publishers.foldl (better route sub) (uintMax, m.bestPublisher, m.bestFID, m.best_path)
  let best ← bestPublisher
  if best ∈ m.result.map Prod.fst then
    return {
      result := update m.result best (addFID minimumNumberOfHops bestFID)
      path_vectors := update m.path_vectors best fun paths => paths.insert best_path
      bestPublisher := bestPublisher
      bestFID := bestFID
      best_path := best_path }
  else none

/-- `calculateFID(publishers, subscribers, result, path_vectors)`. -/
def calculateFIDs (route : V → V → Route V) (publishers subscribers : List V) : Option (Matching V) :=
  subscribers.foldlM (matchSubscriber route publishers) {
    result := publishers.map fun publ => (publ, none)
    path_vectors := publishers.map fun publ => (publ, [])
    bestPublisher := none
    bestFID := 0
    best_path := [] }

variable {f : V → V → Route V} {publishers subscribers : List V} {m m' : Matching V}

@[simp]
theorem keys_update {A : Type*} (l : List (V × A)) (key : V) (f : A → A) :
    (update l key f).map Prod.fst = l.map Prod.fst := by
  rw [update, List.map_map]
  refine List.map_congr_left fun e _ => ?_
  simp only [Function.comp_apply]
  split <;> rfl

/-! ## One subscriber -/

variable {publ sub : V} {FID : Bitvector} {path : List V}

/-- `publ` reaches `sub` by fewer than `UINT_MAX` hops. -/
def Found (f : V → V → Route V) (publ sub : V) : Prop := (f publ sub).numberOfHops < uintMax

omit [DecidableEq V] in
/-- The loop over the publishers leaves everything as it was, or finds the first of the least. -/
theorem foldl_better (f : V → V → Route V) (sub : V) (publishers : List V)
    (best : Nat × Option V × Bitvector × List V) :
    publishers.foldl (better f sub) best = best ∧
      (∀ publ ∈ publishers, best.1 ≤ (f publ sub).numberOfHops) ∨
    ∃ before publ after, publishers = before ++ publ :: after ∧
      (∀ other ∈ before, (f publ sub).numberOfHops < (f other sub).numberOfHops) ∧
      (∀ other ∈ after, (f publ sub).numberOfHops ≤ (f other sub).numberOfHops) ∧
      (f publ sub).numberOfHops < best.1 ∧
      publishers.foldl (better f sub) best =
        ((f publ sub).numberOfHops, some publ, (f publ sub).FID, (f publ sub).path) := by
  induction publishers generalizing best with
  | nil => exact Or.inl ⟨rfl, by simp⟩
  | cons publ rest ih =>
    rw [List.foldl_cons]
    by_cases hless : (f publ sub).numberOfHops < best.1
    · have hturn : better f sub best publ =
          ((f publ sub).numberOfHops, some publ, (f publ sub).FID, (f publ sub).path) := if_pos hless
      rw [hturn]
      rcases ih ((f publ sub).numberOfHops, some publ, (f publ sub).FID, (f publ sub).path) with
        ⟨hsame, hall⟩ | ⟨before, other, after, rfl, hbefore, hafter, hlt, hfound⟩
      · exact Or.inr ⟨[], publ, rest, rfl, by simp, hall, hless, hsame⟩
      · refine Or.inr ⟨publ :: before, other, after, rfl, ?_, hafter, Nat.lt_trans hlt hless, hfound⟩
        exact List.forall_mem_cons.mpr ⟨hlt, hbefore⟩
    · have hturn : better f sub best publ = best := if_neg hless
      rw [hturn]
      rcases ih best with ⟨hsame, hall⟩ | ⟨before, other, after, rfl, hbefore, hafter, hlt, hfound⟩
      · exact Or.inl ⟨hsame, List.forall_mem_cons.mpr ⟨Nat.not_lt.mp hless, hall⟩⟩
      · refine Or.inr ⟨publ :: before, other, after, rfl, ?_, hafter, hlt, hfound⟩
        exact List.forall_mem_cons.mpr ⟨Nat.lt_of_lt_of_le hlt (Nat.not_lt.mp hless), hbefore⟩

/-- What a subscriber enters for a publisher. -/
def Matching.enter (m : Matching V) (minimumNumberOfHops : Nat) (best : V) (bestFID : Bitvector)
    (best_path : List V) : Matching V where
  result := update m.result best (addFID minimumNumberOfHops bestFID)
  path_vectors := update m.path_vectors best fun paths => paths.insert best_path
  bestPublisher := some best
  bestFID := bestFID
  best_path := best_path

/-- The first of the nearest publishers. -/
structure First (f : V → V → Route V) (publishers : List V) (sub publ : V) : Prop where
  found : Found f publ sub
  split : ∃ before after, publishers = before ++ publ :: after ∧
    (∀ other ∈ before, (f publ sub).numberOfHops < (f other sub).numberOfHops) ∧
    ∀ other ∈ after, (f publ sub).numberOfHops ≤ (f other sub).numberOfHops

omit [DecidableEq V] in
theorem First.mem (h : First f publishers sub publ) : publ ∈ publishers := by
  obtain ⟨before, after, rfl, -⟩ := h.split
  simp

/-- The publisher is the best one, or, when none reaches the subscriber, that of the last subscriber. -/
theorem matchSubscriber_eq (h : matchSubscriber f publishers m sub = some m') :
    (∃ publ, First f publishers sub publ ∧
      m' = m.enter (f publ sub).numberOfHops publ (f publ sub).FID (f publ sub).path) ∨
    (∀ publ ∈ publishers, ¬ Found f publ sub) ∧
      ∃ publ, m.bestPublisher = some publ ∧ m' = m.enter uintMax publ m.bestFID m.best_path := by
  unfold matchSubscriber at h
  dsimp only at h
  obtain ⟨best, hbest, h⟩ := Option.bind_eq_some_iff.mp h
  split at h
  · obtain rfl := Option.some.inj h
    rcases foldl_better f sub publishers
      (uintMax, m.bestPublisher, m.bestFID, m.best_path) with
      ⟨hsame, hall⟩ | ⟨before, publ, after, hsplit, hbefore, hafter, hlt, hfound⟩
    · rw [hsame] at hbest ⊢
      refine Or.inr ⟨fun publ hpubl => Nat.not_lt.mpr (hall publ hpubl), best, hbest, ?_⟩
      rw [Matching.enter, ← hbest]
    · rw [hfound] at hbest ⊢
      obtain rfl := Option.some.inj hbest
      exact Or.inl ⟨publ, ⟨hlt, before, after, hsplit, hbefore, hafter⟩, rfl⟩
  · cases h

/-! ## All subscribers -/

theorem mem_update {A : Type*} {l : List (V × A)} {key k : V} {f : A → A} {a : A} :
    (k, a) ∈ update l key f ↔ k ≠ key ∧ (k, a) ∈ l ∨ k = key ∧ ∃ a', (key, a') ∈ l ∧ a = f a' := by
  unfold update
  rw [List.mem_map]
  constructor
  · rintro ⟨⟨k', a'⟩, hmem, heq⟩
    split at heq
    · next hkey =>
      obtain ⟨rfl, rfl⟩ := Prod.mk.inj heq
      obtain rfl : k' = key := hkey
      exact Or.inr ⟨rfl, a', hmem, rfl⟩
    · next hkey =>
      obtain ⟨rfl, rfl⟩ := Prod.mk.inj heq
      exact Or.inl ⟨hkey, hmem⟩
  · rintro (⟨hkey, hmem⟩ | ⟨rfl, a', hmem, rfl⟩)
    · exact ⟨(k, a), hmem, if_neg hkey⟩
    · exact ⟨(k, a'), hmem, if_pos rfl⟩

omit [DecidableEq V] in
theorem eq_of_mem {A : Type*} {l : List (V × A)} (h : (l.map Prod.fst).Nodup) {k : V} {a b : A}
    (ha : (k, a) ∈ l) (hb : (k, b) ∈ l) : a = b := by
  have heq := List.inj_on_of_nodup_map h ha hb rfl
  exact (Prod.mk.inj heq).2

omit [DecidableEq V] in
theorem lookup_eq_some [BEq V] [LawfulBEq V] {A : Type*} {l : List (V × A)} (h : (l.map Prod.fst).Nodup)
    {k : V} {a : A} : l.lookup k = some a ↔ (k, a) ∈ l := by
  have hmem : ∀ b, l.lookup k = some b → (k, b) ∈ l := by
    intro b hb
    obtain ⟨l₁, l₂, rfl, -⟩ := List.lookup_eq_some_iff.mp hb
    exact List.mem_append_right l₁ List.mem_cons_self
  refine ⟨hmem a, fun ha => ?_⟩
  cases hfind : l.lookup k with
  | none =>
    have hno := List.lookup_eq_none_iff.mp hfind (k, a) ha
    simp at hno
  | some b => rw [eq_of_mem h ha (hmem b hfind)]

/-- A match has the publishers as its keys. -/
structure Keyed (publishers : List V) (m : Matching V) : Prop where
  result : m.result.map Prod.fst = publishers
  path_vectors : m.path_vectors.map Prod.fst = publishers

theorem Keyed.enter (h : Keyed publishers m) (n : Nat) (publ : V) (FID : Bitvector) (path : List V) :
    Keyed publishers (m.enter n publ FID path) :=
  ⟨(keys_update _ _ _).trans h.result, (keys_update _ _ _).trans h.path_vectors⟩

theorem Keyed.matchSubscriber (h : Keyed publishers m)
    (hturn : matchSubscriber f publishers m sub = some m') : Keyed publishers m' := by
  rcases matchSubscriber_eq hturn with ⟨publ, -, rfl⟩ | ⟨-, publ, -, rfl⟩
  · exact h.enter _ _ _ _
  · exact h.enter _ _ _ _

/-- The locals before the first subscriber. -/
def Matching.start (publishers : List V) : Matching V where
  result := publishers.map fun publ => (publ, none)
  path_vectors := publishers.map fun publ => (publ, [])
  bestPublisher := none
  bestFID := 0
  best_path := []

omit [DecidableEq V] in
theorem keyed_start (publishers : List V) : Keyed publishers (Matching.start publishers) := by
  constructor <;> simp [Matching.start, Function.comp_def]

theorem keys_calculateFIDs (h : calculateFIDs f publishers subscribers = some m) :
    Keyed publishers m :=
  Wire.foldlM_done h (I := fun _ m => Keyed publishers m) (keyed_start publishers)
    fun _ _ _ _ _ _ hm hturn => hm.matchSubscriber hturn

/-- The subscriber has a path and its identifier at a publisher that reaches it. -/
structure Assigned (f : V → V → Route V) (m : Matching V) (publ sub : V) : Prop where
  found : Found f publ sub
  FID : ∃ FID, (publ, some FID) ∈ m.result ∧ FID.Includes (f publ sub).FID
  path : ∃ paths, (publ, paths) ∈ m.path_vectors ∧ (f publ sub).path ∈ paths

/-- An identifier only grows as long as each subscriber is found. -/
theorem Assigned.enter {best : V} {n : Nat} (h : Assigned f m publ sub) (hn : n < uintMax) :
    Assigned f (m.enter n best FID path) publ sub where
  found := h.found
  FID := by
    obtain ⟨FID', hmem, hinc⟩ := h.FID
    by_cases hbest : publ = best
    · subst hbest
      refine ⟨FID' ||| FID, mem_update.mpr (Or.inr ⟨rfl, _, hmem, ?_⟩), ?_⟩
      · rw [addFID, if_neg (by omega)]
      · exact (Bitvector.includes_or_left _ _).trans hinc
    · exact ⟨FID', mem_update.mpr (Or.inl ⟨hbest, hmem⟩), hinc⟩
  path := by
    obtain ⟨paths, hmem, hpath⟩ := h.path
    by_cases hbest : publ = best
    · subst hbest
      exact ⟨_, mem_update.mpr (Or.inr ⟨rfl, _, hmem, rfl⟩), List.mem_insert_of_mem hpath⟩
    · exact ⟨paths, mem_update.mpr (Or.inl ⟨hbest, hmem⟩), hpath⟩

theorem Keyed.assigned (h : Keyed publishers m) (hpubl : publ ∈ publishers) (hfound : Found f publ sub) :
    Assigned f (m.enter (f publ sub).numberOfHops publ (f publ sub).FID (f publ sub).path) publ sub where
  found := hfound
  FID := by
    obtain ⟨⟨key, existing⟩, hmem, hkey⟩ := List.mem_map.mp (h.result ▸ hpubl)
    obtain rfl : key = publ := hkey
    have hless : (f key sub).numberOfHops < uintMax := hfound
    cases existing with
    | none => exact ⟨_, mem_update.mpr (Or.inr ⟨rfl, none, hmem, rfl⟩), Bitvector.Includes.refl _⟩
    | some existingFID =>
      refine ⟨existingFID ||| (f key sub).FID, mem_update.mpr (Or.inr ⟨rfl, _, hmem, ?_⟩), ?_⟩
      · rw [addFID, if_neg (by omega)]
      · exact Bitvector.includes_or_right _ _
  path := by
    obtain ⟨⟨key, paths⟩, hmem, hkey⟩ := List.mem_map.mp (h.path_vectors ▸ hpubl)
    obtain rfl : key = publ := hkey
    exact ⟨_, mem_update.mpr (Or.inr ⟨rfl, paths, hmem, rfl⟩), List.mem_insert_self⟩

/-- After the subscribers in `done`, when each of them was found. -/
structure Served (f : V → V → Route V) (publishers done : List V) (m : Matching V) : Prop
    extends Keyed publishers m where
  all : ∀ sub ∈ done, ∃ publ ∈ publishers, Assigned f m publ sub
  only : ∀ publ paths path, (publ, paths) ∈ m.path_vectors → path ∈ paths →
    ∃ sub ∈ done, path = (f publ sub).path ∧ Assigned f m publ sub

theorem Served.enter {done : List V} (h : Served f publishers done m) (hpubl : publ ∈ publishers)
    (hfound : Found f publ sub) : Served f publishers (done ++ [sub])
      (m.enter (f publ sub).numberOfHops publ (f publ sub).FID (f publ sub).path) where
  toKeyed := h.toKeyed.enter _ _ _ _
  all := by
    rw [List.forall_mem_append, List.forall_mem_singleton]
    refine ⟨fun s hs => ?_, publ, hpubl, h.toKeyed.assigned hpubl hfound⟩
    obtain ⟨other, hother, hassigned⟩ := h.all s hs
    exact ⟨other, hother, hassigned.enter hfound⟩
  only := by
    intro other paths path hmem hpath
    rcases mem_update.mp hmem with ⟨-, hold⟩ | ⟨rfl, paths, hold, rfl⟩
    · obtain ⟨s, hs, hsame, hassigned⟩ := h.only other paths path hold hpath
      exact ⟨s, List.mem_append_left _ hs, hsame, hassigned.enter hfound⟩
    · rcases List.mem_insert_iff.mp hpath with rfl | hpath
      · exact ⟨sub, by simp, rfl, h.toKeyed.assigned hpubl hfound⟩
      · obtain ⟨s, hs, hsame, hassigned⟩ := h.only other paths path hold hpath
        exact ⟨s, List.mem_append_left _ hs, hsame, hassigned.enter hfound⟩

omit [DecidableEq V] in
theorem served_start (publishers : List V) : Served f publishers [] (Matching.start publishers) where
  toKeyed := keyed_start publishers
  all := nofun
  only := by
    intro publ paths path hmem hpath
    obtain ⟨_, -, heq⟩ := List.mem_map.mp hmem
    obtain ⟨-, rfl⟩ := Prod.mk.inj heq
    cases hpath

theorem matchSubscriber_some (hkeys : Keyed publishers m) (hpubl : publ ∈ publishers)
    (hfound : Found f publ sub) : ∃ m', matchSubscriber f publishers m sub = some m' := by
  unfold matchSubscriber
  dsimp only
  rcases foldl_better f sub publishers
    (uintMax, m.bestPublisher, m.bestFID, m.best_path) with
    ⟨-, hall⟩ | ⟨before, best, after, hsplit, -, -, -, heq⟩
  · exact absurd (hall publ hpubl) (Nat.not_le.mpr hfound)
  · rw [heq, hkeys.result, Option.bind_eq_bind, Option.bind_some, if_pos (by simp [hsplit])]
    exact ⟨_, rfl⟩

/-- When each subscriber is reached by some publisher, each gets one. -/
theorem served_calculateFIDs (f : V → V → Route V) (publishers subscribers : List V)
    (hfound : ∀ sub ∈ subscribers, ∃ publ ∈ publishers, Found f publ sub) :
    ∃ m, calculateFIDs f publishers subscribers = some m ∧ Served f publishers subscribers m := by
  refine Wire.foldlM_all (served_start publishers) fun done sub rest m hsplit hm => ?_
  obtain ⟨publ, hpubl, hreach⟩ := hfound sub (by simp [hsplit])
  obtain ⟨m', hturn⟩ := matchSubscriber_some hm.toKeyed hpubl hreach
  refine ⟨m', hturn, ?_⟩
  rcases matchSubscriber_eq hturn with ⟨best, hbest, rfl⟩ | ⟨hnone, -⟩
  · exact hm.enter hbest.mem hbest.found
  · exact absurd hreach (hnone publ hpubl)

/-- In every match a path leads from the first of the nearest publishers to a subscriber that is done. -/
structure Chosen (f : V → V → Route V) (publishers done : List V) (m : Matching V) : Prop
    extends Keyed publishers m where
  best : ∀ publ, m.bestPublisher = some publ →
    ∃ sub ∈ done, First f publishers sub publ ∧ m.best_path = (f publ sub).path
  only : ∀ publ paths path, (publ, paths) ∈ m.path_vectors → path ∈ paths →
    ∃ sub ∈ done, First f publishers sub publ ∧ path = (f publ sub).path

theorem Chosen.enter {done : List V} (h : Chosen f publishers done m) {n : Nat}
    (hpath : ∃ s ∈ done ++ [sub], First f publishers s publ ∧ path = (f publ s).path) :
    Chosen f publishers (done ++ [sub]) (m.enter n publ FID path) where
  toKeyed := h.toKeyed.enter _ _ _ _
  best := by
    intro other hother
    obtain rfl := Option.some.inj hother
    exact hpath
  only := by
    intro other paths path' hmem hpath'
    rcases mem_update.mp hmem with ⟨-, hold⟩ | ⟨rfl, paths, hold, rfl⟩
    · obtain ⟨s, hs, htrace⟩ := h.only other paths path' hold hpath'
      exact ⟨s, List.mem_append_left _ hs, htrace⟩
    · rcases List.mem_insert_iff.mp hpath' with rfl | hpath'
      · exact hpath
      · obtain ⟨s, hs, htrace⟩ := h.only other paths path' hold hpath'
        exact ⟨s, List.mem_append_left _ hs, htrace⟩

theorem chosen_calculateFIDs (h : calculateFIDs f publishers subscribers = some m) :
    Chosen f publishers subscribers m := by
  refine Wire.foldlM_done h (I := fun done m => Chosen f publishers done m) ?_ ?_
  · exact ⟨keyed_start publishers, nofun, fun publ paths path hmem hpath =>
      ((served_start (f := f) publishers).only publ paths path hmem hpath).elim fun _ h => nomatch h.1⟩
  · intro done sub _ m m' _ hm hturn
    rcases matchSubscriber_eq hturn with ⟨publ, hfirst, rfl⟩ | ⟨-, publ, hbest, rfl⟩
    · exact hm.enter ⟨sub, by simp, hfirst, rfl⟩
    · obtain ⟨s, hs, htrace⟩ := hm.best publ hbest
      exact hm.enter ⟨s, List.mem_append_left _ hs, htrace⟩

/-- In every match a path leads from its publisher to a subscriber that is done. -/
structure Traced (f : V → V → Route V) (publishers done : List V) (m : Matching V) : Prop
    extends Keyed publishers m where
  best : ∀ publ, m.bestPublisher = some publ →
    publ ∈ publishers ∧ ∃ sub ∈ done, Found f publ sub ∧ m.best_path = (f publ sub).path
  only : ∀ publ paths path, (publ, paths) ∈ m.path_vectors → path ∈ paths →
    ∃ sub ∈ done, Found f publ sub ∧ path = (f publ sub).path

theorem traced_calculateFIDs (h : calculateFIDs f publishers subscribers = some m) :
    Traced f publishers subscribers m where
  toKeyed := (chosen_calculateFIDs h).toKeyed
  best publ hpubl := by
    obtain ⟨s, hs, hfirst, htrace⟩ := (chosen_calculateFIDs h).best publ hpubl
    exact ⟨hfirst.mem, s, hs, hfirst.found, htrace⟩
  only publ paths path hmem hpath := by
    obtain ⟨s, hs, hfirst, htrace⟩ := (chosen_calculateFIDs h).only publ paths path hmem hpath
    exact ⟨s, hs, hfirst.found, htrace⟩

/-- How many paths are kept. -/
def Matching.pathCount (m : Matching V) : Nat := (m.path_vectors.map (·.2.length)).sum

omit [DecidableEq V] in
theorem pathCount_start (publishers : List V) : (Matching.start publishers).pathCount = 0 := by
  induction publishers with
  | nil => rfl
  | cons publ publishers ih => exact (Nat.zero_add _).trans ih

theorem sum_update_le {l : List (V × List (List V))} (hkeys : (l.map Prod.fst).Nodup) (key : V)
    (path : List V) : ((update l key (List.insert path)).map (·.2.length)).sum ≤
      (l.map (·.2.length)).sum + 1 := by
  induction l with
  | nil => exact Nat.zero_le _
  | cons e l ih =>
    rw [List.map_cons, List.nodup_cons] at hkeys
    have hcons : update (e :: l) key (List.insert path) =
        (if e.1 = key then (e.1, e.2.insert path) else e) :: update l key (List.insert path) := rfl
    rw [hcons, List.map_cons, List.map_cons, List.sum_cons, List.sum_cons]
    by_cases hkey : e.1 = key
    · -- the other entries have other keys
      have hsame : update l key (List.insert path) = l := by
        refine (List.map_congr_left fun e' he' => if_neg ?_).trans (List.map_id l)
        rintro rfl
        exact hkeys.1 (hkey ▸ List.mem_map_of_mem he')
      rw [if_pos hkey, hsame]
      have hinsert : (e.2.insert path).length ≤ e.2.length + 1 := by
        rw [List.length_insert]
        split <;> omega
      dsimp only
      omega
    · rw [if_neg hkey]
      have hrest := ih hkeys.2
      omega

/-- Each subscriber adds at most one path. -/
theorem pathCount_calculateFIDs (hpubls : publishers.Nodup)
    (h : calculateFIDs f publishers subscribers = some m) : m.pathCount ≤ subscribers.length := by
  suffices Keyed publishers m ∧ m.pathCount ≤ subscribers.length from this.2
  refine Wire.foldlM_done h (I := fun done m => Keyed publishers m ∧ m.pathCount ≤ done.length) ?_ ?_
  · exact ⟨keyed_start publishers, (pathCount_start publishers).le⟩
  · rintro done sub - m m' - ⟨hkeyed, hcount⟩ hturn
    have hkeys : (m.path_vectors.map Prod.fst).Nodup := hkeyed.path_vectors ▸ hpubls
    have henter : ∀ n publ FID path, (m.enter n publ FID path).pathCount ≤ (done ++ [sub]).length := by
      intro n publ FID path
      have hle := sum_update_le hkeys publ path
      rw [List.length_append, List.length_singleton]
      exact hle.trans (Nat.add_le_add_right hcount 1)
    refine ⟨hkeyed.matchSubscriber hturn, ?_⟩
    rcases matchSubscriber_eq hturn with ⟨publ, -, rfl⟩ | ⟨-, publ, -, rfl⟩
    · exact henter _ _ _ _
    · exact henter _ _ _ _

end TMIgraph

end Blackadder
