import Mathlib.Data.List.Nodup
import Mathlib.Tactic.Common

/-!
# Cells that are written together with a mirror

A run goes through cells in order. A cell that nobody has written is written together with its
mirror; one that has been written is passed over. The log has the cells that were not passed
over, the last one first.
-/

namespace Mirror

variable {P : Type*} [DecidableEq P] {mir : P → P} {S : P → Bool} {log l : List P} {p q r : P}

/-- The cell in whose turn `r` was written last. -/
def lastWrite (mir : P → P) (log : List P) (r : P) : Option P := log.find? fun q => q = r ∨ mir q = r

/-- One turn. -/
def step (mir : P → P) (log : List P) (p : P) : List P :=
  if lastWrite mir log p = none then p :: log else log

def run (mir : P → P) (l : List P) : List P := l.foldl (step mir) []

theorem lastWrite_mem (h : lastWrite mir log r = some q) : q ∈ log := List.mem_of_find?_eq_some h

theorem lastWrite_touches (h : lastWrite mir log r = some q) : q = r ∨ mir q = r := by
  simpa using List.find?_some h

theorem lastWrite_eq_none : lastWrite mir log r = none ↔ ∀ q ∈ log, q ≠ r ∧ mir q ≠ r := by
  simp [lastWrite]

theorem lastWrite_cons : lastWrite mir (p :: log) r =
    if p = r ∨ mir p = r then some p else lastWrite mir log r := by
  by_cases h : p = r ∨ mir p = r
  · simp [lastWrite, h]
  · simp [lastWrite, h]

theorem lastWrite_append (l log : List P) (r : P) :
    lastWrite mir (l ++ log) r = (lastWrite mir l r).or (lastWrite mir log r) :=
  List.find?_append

theorem lastWrite_self (hr : r ∈ log) (h : ∀ q ∈ log, mir q ≠ r ∨ q = r) :
    lastWrite mir log r = some r := by
  cases hw : lastWrite mir log r with
  | none => exact absurd rfl (lastWrite_eq_none.mp hw r hr).1
  | some q =>
    rcases lastWrite_touches hw with rfl | hq
    · rfl
    · rcases h q (lastWrite_mem hw) with h | rfl
      · exact absurd hq h
      · rfl

/-! ## Parts that do not meet -/

/-- Only the cells of a part that is closed under the mirror write in it. -/
theorem lastWrite_filter (hS : ∀ q, S (mir q) = S q) (hr : S r = true) :
    lastWrite mir (log.filter S) r = lastWrite mir log r := by
  induction log with
  | nil => rfl
  | cons p log ih =>
    by_cases hp : S p = true
    · rw [List.filter_cons_of_pos hp, lastWrite_cons, lastWrite_cons, ih]
    · have hne : ¬ (p = r ∨ mir p = r) := by
        rintro (rfl | rfl)
        · exact hp hr
        · exact hp (hS p ▸ hr)
      rw [List.filter_cons_of_neg hp, lastWrite_cons, if_neg hne, ih]

/-- A run, seen from such a part, is the run of the part. -/
theorem run_filter (hS : ∀ q, S (mir q) = S q) (l : List P) :
    (run mir l).filter S = run mir (l.filter S) := by
  suffices ∀ log, (l.foldl (step mir) log).filter S = (l.filter S).foldl (step mir) (log.filter S) from
    this []
  induction l with
  | nil => intro log; rfl
  | cons p l ih =>
    intro log
    rw [List.foldl_cons, ih]
    by_cases hp : S p = true
    · rw [List.filter_cons_of_pos hp, List.foldl_cons]
      congr 1
      rw [step, step, lastWrite_filter hS hp]
      split
      · rw [List.filter_cons_of_pos hp]
      · rfl
    · rw [List.filter_cons_of_neg hp]
      congr 1
      rw [step]
      split
      · rw [List.filter_cons_of_neg hp]
      · rfl

theorem lastWrite_run_filter (hS : ∀ q, S (mir q) = S q) (hr : S r = true) :
    lastWrite mir (run mir l) r = lastWrite mir (run mir (l.filter S)) r := by
  rw [← run_filter hS, lastWrite_filter hS hr]

theorem mem_run (h : q ∈ run mir l) : q ∈ l := by
  suffices ∀ log, q ∈ l.foldl (step mir) log → q ∈ l ∨ q ∈ log by
    simpa using this [] h
  clear h
  induction l with
  | nil => exact fun log h => .inr h
  | cons p l ih =>
    intro log h
    rcases ih _ h with h | h
    · exact .inl (List.mem_cons_of_mem _ h)
    · rw [step] at h
      split at h
      · rcases List.mem_cons.mp h with rfl | h
        · exact .inl List.mem_cons_self
        · exact .inr h
      · exact .inr h

theorem length_run_le (l : List P) : (run mir l).length ≤ l.length := by
  suffices ∀ log, (l.foldl (step mir) log).length ≤ l.length + log.length from this []
  induction l with
  | nil => intro log; exact Nat.le_add_left _ _
  | cons p l ih =>
    intro log
    have hstep : (step mir log p).length ≤ log.length + 1 := by
      rw [step]
      split
      · exact Nat.le_refl _
      · exact Nat.le_succ _
    have := ih (step mir log p)
    rw [List.foldl_cons, List.length_cons]
    omega

/-- At the end of a run each of its cells has been written. -/
theorem lastWrite_run (hp : p ∈ l) : ∃ q, lastWrite mir (run mir l) p = some q := by
  rw [← Option.ne_none_iff_exists']
  suffices ∀ log, p ∈ l ∨ lastWrite mir log p ≠ none → lastWrite mir (l.foldl (step mir) log) p ≠ none from
    this [] (.inl hp)
  clear hp
  induction l with
  | nil =>
    intro log h
    exact h.resolve_left List.not_mem_nil
  | cons a l ih =>
    intro log h
    refine ih _ ?_
    have hkeep : lastWrite mir log p ≠ none → lastWrite mir (step mir log a) p ≠ none := by
      intro hw
      rw [step]
      split
      · rw [lastWrite_cons]
        split
        · exact Option.some_ne_none a
        · exact hw
      · exact hw
    rcases h with hp | hw
    · rcases List.mem_cons.mp hp with rfl | hp
      · refine .inr ?_
        by_cases hw : lastWrite mir log p = none
        · rw [step, if_pos hw, lastWrite_cons, if_pos (.inl rfl)]
          exact Option.some_ne_none p
        · exact hkeep hw
      · exact .inl hp
    · exact .inr (hkeep hw)

/-! ## Two sides that mirror into each other's first cell -/

/-- Cells that nobody has written when it is their turn all go into the log. -/
theorem foldl_step_fresh (h : ∀ p ∈ l, ∀ q ∈ log, q ≠ p ∧ mir q ≠ p)
    (hl : l.Pairwise fun q p => q ≠ p ∧ mir q ≠ p) : l.foldl (step mir) log = l.reverse ++ log := by
  induction l generalizing log with
  | nil => rfl
  | cons a l ih =>
    obtain ⟨ha, hl⟩ := List.pairwise_cons.mp hl
    rw [List.foldl_cons, step, if_pos (lastWrite_eq_none.mpr (h a List.mem_cons_self)), ih _ hl,
      List.reverse_cons, List.append_assoc, List.singleton_append]
    intro p hp q hq
    rcases List.mem_cons.mp hq with rfl | hq
    · exact ha p hp
    · exact h p (List.mem_cons_of_mem _ hp) q hq

variable {f b : P} {fs bs : List P}

/-- The cells of one side mirror into the first cell of the other. -/
structure Facing (mir : P → P) (f : P) (fs : List P) (b : P) (bs : List P) : Prop where
  nodup : (f :: fs ++ b :: bs).Nodup
  front : ∀ p ∈ f :: fs, mir p = b
  back : ∀ p ∈ b :: bs, mir p = f

omit [DecidableEq P] in
theorem Facing.ne (h : Facing mir f fs b bs) (hp : p ∈ f :: fs) (hq : q ∈ b :: bs) : p ≠ q :=
  (List.nodup_append.mp h.nodup).2.2 p hp q hq

/-- The first cell of the other side is passed over. -/
theorem Facing.run_eq (h : Facing mir f fs b bs) :
    run mir (f :: fs ++ b :: bs) = bs.reverse ++ (f :: fs).reverse := by
  obtain ⟨hF, hB, -⟩ := List.nodup_append.mp h.nodup
  have hfront : (f :: fs).foldl (step mir) [] = (f :: fs).reverse := by
    rw [foldl_step_fresh (by simp), List.append_nil]
    refine hF.imp_of_mem ?_
    intro q p hq hp hne
    exact ⟨hne, by rw [h.front q hq]; exact (h.ne hp List.mem_cons_self).symm⟩
  have hpass : step mir (f :: fs).reverse b = (f :: fs).reverse := by
    rw [step, if_neg]
    intro hnone
    exact (lastWrite_eq_none.mp hnone f (by simp)).2 (h.front f List.mem_cons_self)
  rw [run, List.foldl_append, hfront, List.foldl_cons, hpass]
  refine foldl_step_fresh ?_ ?_
  · intro p hp q hq
    rw [List.mem_reverse] at hq
    refine ⟨h.ne hq (List.mem_cons_of_mem _ hp), ?_⟩
    rw [h.front q hq]
    rintro rfl
    exact (List.nodup_cons.mp hB).1 hp
  · refine (List.nodup_cons.mp hB).2.imp_of_mem ?_
    intro q p hq hp hne
    refine ⟨hne, ?_⟩
    rw [h.back q (List.mem_cons_of_mem _ hq)]
    exact h.ne List.mem_cons_self (List.mem_cons_of_mem _ hp)

/-- The turn that wrote `r` last is seen at both of its ends. -/
def Settled (mir : P → P) (log : List P) (r : P) : Prop :=
  ∃ q, lastWrite mir log r = some q ∧ lastWrite mir log q = some q ∧
    lastWrite mir log (mir q) = some q ∧ mir q ≠ q

theorem settled_run_filter (hS : ∀ q, S (mir q) = S q) (hr : S r = true)
    (h : Settled mir (run mir (l.filter S)) r) : Settled mir (run mir l) r := by
  obtain ⟨q, h1, h2, h3, hne⟩ := h
  have hq : S q = true := (List.mem_filter.mp (mem_run (lastWrite_mem h1))).2
  exact ⟨q, by rw [lastWrite_run_filter hS hr, h1], by rw [lastWrite_run_filter hS hq, h2],
    by rw [lastWrite_run_filter hS (by rw [hS, hq]), h3], hne⟩

/-- With one cell on each side, or two, every write is seen at both ends. -/
theorem Facing.settled (h : Facing mir f fs b bs) (hlen : fs.length = bs.length)
    (hshort : fs.length ≤ 1) (hr : r ∈ f :: fs ++ b :: bs) :
    Settled mir (run mir (f :: fs ++ b :: bs)) r := by
  rw [h.run_eq]
  have hnodup := h.nodup
  have hf := h.front f List.mem_cons_self
  have hb := h.back b List.mem_cons_self
  match fs, bs, hlen, hshort with
  | [], [], _, _ =>
    simp only [List.cons_append, List.nil_append, List.nodup_cons, List.mem_cons,
      List.not_mem_nil, or_false] at hnodup hr
    rcases hr with rfl | rfl
    · exact ⟨r, by simp [lastWrite_cons], by simp [lastWrite_cons], by simp [lastWrite_cons],
        by rw [hf]; exact fun hbf => hnodup.1 hbf.symm⟩
    · exact ⟨f, by simp [lastWrite_cons, hf], by simp [lastWrite_cons],
        by simp [lastWrite_cons], by rw [hf]; exact fun hbf => hnodup.1 hbf.symm⟩
  | [f'], [b'], _, _ =>
    have hf' := h.front f' (by simp)
    have hb' := h.back b' (by simp)
    simp only [List.cons_append, List.nil_append, List.nodup_cons, List.mem_cons,
      List.not_mem_nil, or_false, not_or] at hnodup hr
    obtain ⟨⟨hff, hfb, hfb'⟩, ⟨hfb1, hfb2⟩, hbb, -⟩ := hnodup
    have hwf' : lastWrite mir [b', f', f] f' = some f' := by
      simp [lastWrite_cons, hb', Ne.symm hfb2, hff]
    have hwb : lastWrite mir [b', f', f] b = some f' := by
      simp [lastWrite_cons, hb', hf', Ne.symm hbb, hfb]
    have hwb' : lastWrite mir [b', f', f] b' = some b' := by simp [lastWrite_cons]
    have hwf : lastWrite mir [b', f', f] f = some b' := by simp [lastWrite_cons, hb']
    have hsecond : ∀ r, lastWrite mir [b', f', f] r = some f' → Settled mir [b', f', f] r :=
      fun r hr => ⟨f', hr, hwf', by rw [hf']; exact hwb, by rw [hf']; exact Ne.symm hfb1⟩
    have hthird : ∀ r, lastWrite mir [b', f', f] r = some b' → Settled mir [b', f', f] r :=
      fun r hr => ⟨b', hr, hwb', by rw [hb']; exact hwf, by rw [hb']; exact hfb'⟩
    rcases hr with rfl | rfl | rfl | rfl
    · exact hthird _ hwf
    · exact hsecond _ hwf'
    · exact hsecond _ hwb
    · exact hthird _ hwb'

/-- With three cells on a side the write of the second one is lost at its mirror. -/
theorem Facing.lost {f' : P} (h : Facing mir f (f' :: fs) b bs) (hlong : fs ≠ []) :
    lastWrite mir (run mir (f :: f' :: fs ++ b :: bs)) f' = some f' ∧
      lastWrite mir (run mir (f :: f' :: fs ++ b :: bs)) b ≠ some f' := by
  rw [h.run_eq]
  obtain ⟨hF, hB, -⟩ := List.nodup_append.mp h.nodup
  have hff' : f ≠ f' := fun heq => (List.nodup_cons.mp hF).1 (heq ▸ List.mem_cons_self)
  have hb : b ≠ f' := fun heq => h.ne (by simp) List.mem_cons_self heq.symm
  constructor
  · refine lastWrite_self (by simp) ?_
    intro q hq
    rw [List.mem_append, List.mem_reverse, List.mem_reverse] at hq
    rcases hq with hq | hq
    · exact .inl (by rw [h.back q (List.mem_cons_of_mem _ hq)]; exact hff')
    · exact .inl (by rw [h.front q hq]; exact hb)
  · have hnone : lastWrite mir bs.reverse b = none := by
      refine lastWrite_eq_none.mpr fun q hq => ?_
      rw [List.mem_reverse] at hq
      refine ⟨?_, ?_⟩
      · rintro rfl
        exact (List.nodup_cons.mp hB).1 hq
      · rw [h.back q (List.mem_cons_of_mem _ hq)]
        exact h.ne List.mem_cons_self List.mem_cons_self
    -- the last cell of the side has mirrored there since
    obtain ⟨g, hg⟩ := List.exists_mem_of_ne_nil fs hlong
    have hsome : lastWrite mir fs.reverse b ≠ none := by
      intro hall
      exact (lastWrite_eq_none.mp hall g (List.mem_reverse.mpr hg)).2 (h.front g (by simp [hg]))
    obtain ⟨q, hq⟩ := Option.ne_none_iff_exists'.mp hsome
    rw [lastWrite_append, hnone, Option.none_or, List.reverse_cons, List.reverse_cons,
      List.append_assoc, lastWrite_append, hq, Option.some_or]
    rintro ⟨⟩
    have hmem := List.mem_reverse.mp (lastWrite_mem hq)
    exact (List.nodup_cons.mp (List.nodup_cons.mp hF).2).1 hmem

/-- Cells that all mirror into the first of them: it is written in the last turn. -/
theorem lastWrite_turned (hnodup : (f :: fs).Nodup) (hmir : ∀ p ∈ f :: fs, mir p = f) (hfs : fs ≠ []) :
    ∃ g ∈ fs, lastWrite mir (run mir (f :: fs)) f = some g ∧
      lastWrite mir (run mir (f :: fs)) g = some g := by
  have hne : ∀ g ∈ fs, f ≠ g := by
    rintro g hg rfl
    exact (List.nodup_cons.mp hnodup).1 hg
  have hrun : run mir (f :: fs) = fs.reverse ++ [f] := by
    rw [run, foldl_step_fresh (by simp), List.append_nil, List.reverse_cons]
    refine List.pairwise_cons.mpr ⟨?_, (List.nodup_cons.mp hnodup).2.imp_of_mem ?_⟩
    · intro g hg
      exact ⟨hne g hg, by rw [hmir f List.mem_cons_self]; exact hne g hg⟩
    · intro g g' hg hg' hgg
      exact ⟨hgg, by rw [hmir g (List.mem_cons_of_mem _ hg)]; exact hne g' hg'⟩
  obtain ⟨g₀, hg₀⟩ := List.exists_mem_of_ne_nil fs hfs
  have hsome : lastWrite mir fs.reverse f ≠ none := by
    intro hall
    exact (lastWrite_eq_none.mp hall g₀ (List.mem_reverse.mpr hg₀)).2
      (hmir g₀ (List.mem_cons_of_mem _ hg₀))
  obtain ⟨g, hg⟩ := Option.ne_none_iff_exists'.mp hsome
  have hgmem : g ∈ fs := List.mem_reverse.mp (lastWrite_mem hg)
  refine ⟨g, hgmem, ?_, ?_⟩
  · rw [hrun, lastWrite_append, hg, Option.some_or]
  · refine lastWrite_self (by rw [hrun]; simp [hgmem]) ?_
    intro q hq
    rw [hrun, List.mem_append, List.mem_reverse, List.mem_singleton] at hq
    refine .inl ?_
    rw [hmir q (List.mem_cons.mpr hq.symm)]
    exact hne g hgmem

end Mirror
