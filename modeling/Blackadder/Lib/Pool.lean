import Mathlib.Data.List.Nodup
import Mathlib.Logic.Function.Basic

/-!
# Objects that are handed over

A program holds objects by handles. It may use an object until it drops it or hands it over, and an
operation on an object that is gone has no result.
-/

variable {C O : Type}

/-- `out` has what was handed over. -/
structure Pool (C O : Type) where
  live : Nat → Option C
  next : Nat
  out : List O

namespace Pool

def single (c : C) : Pool C O := ⟨Function.update (fun _ => none) 0 (some c), 1, []⟩

def read (x : Pool C O) (h : Nat) : Option C := x.live h

def clone (x : Pool C O) (h : Nat) : Option (Nat × Pool C O) := do
  let c ← x.live h
  return (x.next, { x with live := Function.update x.live x.next (some c), next := x.next + 1 })

/-- The object becomes another one. -/
def renew (x : Pool C O) (h : Nat) (f : C → Option C) : Option (Nat × Pool C O) := do
  let c ← (x.live h).bind f
  return (x.next, { x with
    live := Function.update (Function.update x.live h none) x.next (some c)
    next := x.next + 1 })

/-- A write to the object in its place. -/
def modify (x : Pool C O) (h : Nat) (f : C → Option C) : Option (Pool C O) := do
  let c ← (x.live h).bind f
  return { x with live := Function.update x.live h (some c) }

def kill (x : Pool C O) (h : Nat) : Option (Pool C O) := do
  let _ ← x.live h
  return { x with live := Function.update x.live h none }

def send (x : Pool C O) (h : Nat) (f : C → O) : Option (Pool C O) := do
  let c ← x.live h
  return { x with live := Function.update x.live h none, out := x.out ++ [f c] }

def make (x : Pool C O) (c : C) : Nat × Pool C O :=
  (x.next, { x with live := Function.update x.live x.next (some c), next := x.next + 1 })

/-- These objects are live, and no others. -/
structure Owns (x : Pool C O) (l : List (Nat × C)) : Prop where
  live : ∀ h, x.live h = l.lookup h
  nodup : (l.map Prod.fst).Nodup
  below : ∀ e ∈ l, e.1 < x.next

variable {x x' : Pool C O} {h : Nat} {c c' : C} {l : List (Nat × C)} {f : C → Option C}

theorem owns_single (c : C) : (single c : Pool C O).Owns [(0, c)] where
  live h := by
    by_cases hh : h = 0
    · subst hh
      simp [single]
    · simp [single, hh, List.lookup_cons, beq_false_of_ne hh]
  nodup := by simp
  below := by simp [single]

theorem Owns.read (hx : x.Owns ((h, c) :: l)) : x.read h = some c := by
  rw [Pool.read, hx.live]
  simp

theorem lookup_eq_none (hnot : h ∉ l.map Prod.fst) : l.lookup h = none := by
  rw [List.lookup_eq_none_iff]
  intro e he
  have hne : h ≠ e.1 := fun hsame => hnot (hsame ▸ List.mem_map_of_mem he)
  simpa using hne

theorem Owns.next_not_mem (hx : x.Owns l) : x.next ∉ l.map Prod.fst := by
  intro hin
  obtain ⟨e, he, hsame⟩ := List.mem_map.mp hin
  have hlt := hx.below e he
  omega

theorem Owns.make (hx : x.Owns l) (c : C) : (x.make c).2.Owns (((x.make c).1, c) :: l) where
  live g := by
    by_cases hg : g = x.next
    · subst hg
      simp [Pool.make]
    · rw [Pool.make, List.lookup_cons, beq_false_of_ne hg]
      simpa [hg] using hx.live g
  nodup := by
    rw [List.map_cons, List.nodup_cons]
    exact ⟨hx.next_not_mem, hx.nodup⟩
  below e he := by
    rcases List.mem_cons.mp he with rfl | he
    · exact Nat.lt_succ_self _
    · exact Nat.lt_succ_of_lt (hx.below e he)

theorem Owns.clone (hx : x.Owns ((h, c) :: l)) : ∃ q x', x.clone h = some (q, x') ∧
    x'.Owns ((q, c) :: (h, c) :: l) ∧ x'.out = x.out := by
  have hlive : x.live h = some c := hx.read
  exact ⟨_, _, by rw [Pool.clone, hlive]; rfl, hx.make c, rfl⟩

theorem Owns.modify_nil (hx : x.Owns []) : x.modify h f = none := by
  have hgone : x.live h = none := hx.live h
  rw [Pool.modify, hgone]
  rfl

theorem Owns.nil_unique (hx : x.Owns []) (hx' : x.Owns ((h, c) :: l)) : False := by
  have hgone : x.live h = none := hx.live h
  have hlive : x.live h = some c := hx'.read
  rw [hgone] at hlive
  cases hlive

theorem Owns.tail_live (hx : x.Owns ((h, c) :: l)) (g : Nat) :
    Function.update x.live h none g = l.lookup g := by
  have hnot := (List.nodup_cons.mp hx.nodup).1
  by_cases hg : g = h
  · subst hg
    rw [Function.update_self, lookup_eq_none hnot]
  · rw [Function.update_of_ne hg, hx.live, List.lookup_cons, beq_false_of_ne hg]

theorem Owns.renew (hx : x.Owns ((h, c) :: l)) (hf : f c = some c') :
    ∃ q x', x.renew h f = some (q, x') ∧ x'.Owns ((q, c') :: l) ∧ x'.out = x.out := by
  have hlive : x.live h = some c := hx.read
  refine ⟨x.next, { x with
    live := Function.update (Function.update x.live h none) x.next (some c')
    next := x.next + 1 }, ?_, ⟨fun g => ?_, ?_, fun e he => ?_⟩, rfl⟩
  · simp [Pool.renew, hlive, hf]
  · by_cases hg : g = x.next
    · subst hg
      simp
    · rw [List.lookup_cons, beq_false_of_ne hg]
      simpa [hg] using hx.tail_live g
  · rw [List.map_cons, List.nodup_cons]
    exact ⟨fun hin => hx.next_not_mem (List.mem_cons_of_mem _ hin), (List.nodup_cons.mp hx.nodup).2⟩
  · rcases List.mem_cons.mp he with rfl | he
    · exact Nat.lt_succ_self _
    · exact Nat.lt_succ_of_lt (hx.below e (List.mem_cons_of_mem _ he))

theorem Owns.modify (hx : x.Owns ((h, c) :: l)) (hf : f c = some c') :
    ∃ x', x.modify h f = some x' ∧ x'.Owns ((h, c') :: l) ∧ x'.out = x.out := by
  have hlive : x.live h = some c := hx.read
  refine ⟨{ x with live := Function.update x.live h (some c') }, ?_, ⟨fun g => ?_, hx.nodup,
    fun e he => ?_⟩, rfl⟩
  · simp [Pool.modify, hlive, hf]
  · by_cases hg : g = h
    · subst hg
      simp
    · have hlookup := hx.live g
      rw [List.lookup_cons, beq_false_of_ne hg] at hlookup ⊢
      simpa [hg] using hlookup
  · rcases List.mem_cons.mp he with rfl | he
    · exact hx.below (h, c) List.mem_cons_self
    · exact hx.below e (List.mem_cons_of_mem _ he)

theorem Owns.kill (hx : x.Owns ((h, c) :: l)) :
    ∃ x', x.kill h = some x' ∧ x'.Owns l ∧ x'.out = x.out := by
  have hlive : x.live h = some c := hx.read
  refine ⟨{ x with live := Function.update x.live h none }, ?_, ⟨hx.tail_live,
    (List.nodup_cons.mp hx.nodup).2, fun e he => hx.below e (List.mem_cons_of_mem _ he)⟩, rfl⟩
  simp [Pool.kill, hlive]

theorem Owns.send (hx : x.Owns ((h, c) :: l)) (f : C → O) :
    ∃ x', x.send h f = some x' ∧ x'.Owns l ∧ x'.out = x.out ++ [f c] := by
  have hlive : x.live h = some c := hx.read
  refine ⟨{ x with live := Function.update x.live h none, out := x.out ++ [f c] }, ?_, ⟨hx.tail_live,
    (List.nodup_cons.mp hx.nodup).2, fun e he => hx.below e (List.mem_cons_of_mem _ he)⟩, rfl⟩
  simp [Pool.send, hlive]

end Pool
