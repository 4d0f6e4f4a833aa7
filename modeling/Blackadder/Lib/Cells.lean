import Mathlib.Logic.Function.Basic
import Mathlib.Data.List.Nodup
import Blackadder.Lib.Loops

/-!
# Loops over different cells

Each turn of the loop works on a cell of its own, so no turn sees what another one did.
-/

namespace Cells

universe u v

variable {S α K C O R : Type u} {ε : Type v} {turn : S → α → Except ε (S × List O)} {s s' : S}
  {l : List α} {a : α}

/-- One turn for each element, and what the turns emit. -/
def collect (turn : S → α → Except ε (S × List O)) (s : S) (l : List α) :
    Except ε (S × List O) :=
  l.foldlM (fun acc a => do
    let (s, outs) ← turn acc.1 a
    return (s, acc.2 ++ outs)) (s, [])

/-- What was emitted before the loop stays in front. -/
theorem foldlM_emitted {before : List O} {res : S × List O}
    (h : collect turn s l = .ok res) :
    l.foldlM (fun acc a => do
      let (s, outs) ← turn acc.1 a
      return (s, acc.2 ++ outs)) (s, before) = .ok (res.1, before ++ res.2) := by
  suffices ∀ (l : List α) (s : S) (o : List O) (res : S × List O),
      l.foldlM (fun acc a => do
        let (s, outs) ← turn acc.1 a
        return (s, acc.2 ++ outs)) (s, o) = .ok res →
      l.foldlM (fun acc a => do
        let (s, outs) ← turn acc.1 a
        return (s, acc.2 ++ outs)) (s, before ++ o) = Except.ok (ε := ε) (res.1, before ++ res.2) by
    have hrun := this l s [] res h
    rwa [List.append_nil] at hrun
  intro l
  induction l with
  | nil =>
    intro s o res h
    obtain rfl := Loops.pure_eq_ok.mp h
    rfl
  | cons a l ih =>
    intro s o res h
    rw [List.foldlM_cons] at h ⊢
    obtain ⟨acc, h1, h2⟩ := Loops.bind_eq_ok.mp h
    obtain ⟨⟨t, outs⟩, hturn, hacc⟩ := Loops.bind_eq_ok.mp h1
    obtain rfl := Loops.pure_eq_ok.mp hacc
    have hrest := ih t (o ++ outs) res h2
    refine Loops.bind_eq_ok.mpr ⟨(t, before ++ o ++ outs), ?_, ?_⟩
    · exact Loops.bind_eq_ok.mpr ⟨(t, outs), hturn, rfl⟩
    · rwa [List.append_assoc]

theorem collect_cons {t : S} {outs : List O} {res : S × List O} (h1 : turn s a = .ok (t, outs))
    (h2 : collect turn t l = .ok res) : collect turn s (a :: l) = .ok (res.1, outs ++ res.2) := by
  rw [collect, List.foldlM_cons]
  refine Loops.bind_eq_ok.mpr ⟨(t, [] ++ outs), ?_, ?_⟩
  · exact Loops.bind_eq_ok.mpr ⟨(t, outs), h1, rfl⟩
  · rw [List.nil_append]
    exact foldlM_emitted h2

/-- Turns that emit nothing can be left out. -/
theorem flatMap_filter {f g : α → List O} {p : α → Bool}
    (h : ∀ a ∈ l, f a = if p a then g a else []) : l.flatMap f = (l.filter p).flatMap g := by
  induction l with
  | nil => rfl
  | cons a l ih =>
    rw [List.flatMap_cons, h a List.mem_cons_self, ih fun b hb => h b (List.mem_cons_of_mem a hb),
      List.filter_cons]
    split
    · rw [List.flatMap_cons]
    · rfl

variable [DecidableEq K] {key : α → K} {cell : S → K → C} {rest : S → R}
  {ok : R → α → C → Prop} {f : R → α → C → C × List O}

/-- A turn that reads what no turn writes, and writes the cell of its key. -/
def Writes (turn : S → α → Except ε (S × List O)) (key : α → K) (cell : S → K → C) (rest : S → R)
    (ok : R → α → C → Prop) (f : R → α → C → C × List O) : Prop :=
  ∀ s a, ok (rest s) a (cell s (key a)) →
    ∃ s', turn s a = .ok (s', (f (rest s) a (cell s (key a))).2) ∧
      cell s' = Function.update (cell s) (key a) (f (rest s) a (cell s (key a))).1 ∧ rest s' = rest s

/-- Turns with different keys all work on the cells of the first state. -/
theorem collect_writes (hw : Writes turn key cell rest ok f) (hl : (l.map key).Nodup)
    (hok : ∀ a ∈ l, ok (rest s) a (cell s (key a))) :
    ∃ s', collect turn s l = .ok (s', l.flatMap fun a => (f (rest s) a (cell s (key a))).2) ∧
      (∀ a ∈ l, cell s' (key a) = (f (rest s) a (cell s (key a))).1) ∧
      (∀ k, k ∉ l.map key → cell s' k = cell s k) ∧ rest s' = rest s := by
  induction l generalizing s with
  | nil => exact ⟨s, rfl, fun a ha => (nomatch ha), fun _ _ => rfl, rfl⟩
  | cons a l ih =>
    rw [List.map_cons] at hl
    obtain ⟨hfresh, hl⟩ := List.nodup_cons.mp hl
    obtain ⟨t, hturn, hcell, hrest⟩ := hw s a (hok a List.mem_cons_self)
    have hsame : ∀ b ∈ l, cell t (key b) = cell s (key b) := by
      intro b hb
      rw [hcell, Function.update_of_ne]
      intro he
      exact hfresh (he ▸ List.mem_map_of_mem hb)
    obtain ⟨s', hrun, hdone, hothers, hrest'⟩ := ih (s := t) hl fun b hb => by
      rw [hsame b hb, hrest]
      exact hok b (List.mem_cons_of_mem a hb)
    refine ⟨s', ?_, ?_, ?_, hrest'.trans hrest⟩
    · rw [collect_cons hturn hrun, List.flatMap_cons]
      have houts : ∀ b ∈ l,
          (f (rest t) b (cell t (key b))).2 = (f (rest s) b (cell s (key b))).2 :=
        fun b hb => by rw [hsame b hb, hrest]
      rw [List.flatMap_congr houts]
    · intro b hb
      rcases List.mem_cons.mp hb with rfl | hb
      · rw [hothers (key b) hfresh, hcell, Function.update_self]
      · rw [hdone b hb, hsame b hb, hrest]
    · intro k hk
      rw [List.map_cons, List.mem_cons, not_or] at hk
      rw [hothers k hk.2, hcell, Function.update_of_ne hk.1]

end Cells
