import Mathlib.Data.List.Basic
import Mathlib.Data.List.Forall2
import Mathlib.Tactic.Common

/-!
# Buffers

Reads and writes that stay inside a buffer, a buffer that is filled from front to back, and loops
whose states are known in advance.
-/

namespace Wire

variable {α β S : Type*} {b b' p x post rest : List α} {a : α} {k m n : Nat}

/-! ## Reads -/

/-- `memcpy` out of a buffer. -/
def slice (b : List α) (k m : Nat) : Option (List α) :=
  if ((b.drop k).take m).length = m then some ((b.drop k).take m) else none

theorem slice_drop (h : b.drop k = x ++ post) (hlen : m = x.length) :
    slice b k m = some x := by
  subst hlen
  simp [slice, h]

theorem slice_length (h : slice b k m = some x) : x.length = m := by
  unfold slice at h
  split at h
  · obtain rfl := Option.some.inj h
    assumption
  · simp at h

theorem slice_some (h : k + m ≤ b.length) : slice b k m = some ((b.drop k).take m) := by
  rw [slice, if_pos]
  simp
  omega

theorem slice_none (hm : 0 < m) (h : b.length < k + m) : slice b k m = none := by
  rw [slice, if_neg]
  simp
  omega

theorem load_drop (h : b.drop k = a :: post) : b[k]? = some a := by
  have hzero : (b.drop k)[0]? = some a := by simp [h]
  simpa using hzero

theorem drop_next (h : b.drop k = x ++ post) (hlen : m = x.length) :
    b.drop (k + m) = post := by
  rw [← List.drop_drop, h, hlen]
  simp

theorem drop_length (h : b = p ++ post) (hoff : k = p.length) : b.drop k = post := by
  simp [h, hoff]

/-! ## Writes -/

/-- `memcpy` into a buffer. -/
def blit (b : List α) (k : Nat) (x : List α) : Option (List α) :=
  if k + x.length ≤ b.length then some (b.take k ++ x ++ b.drop (k + x.length)) else none

def store (b : List α) (k : Nat) (a : α) : Option (List α) := blit b k [a]

theorem blit_append {y : List α} (hb : b = p ++ (y ++ post)) (hoff : k = p.length)
    (hlen : x.length = y.length) : blit b k x = some (p ++ (x ++ post)) := by
  subst hb hoff
  unfold blit
  rw [if_pos (by simp [hlen]), hlen]
  simp

theorem store_inside (h : store b k a = some b') : k < b.length := by
  unfold store blit at h
  split at h
  · assumption
  · cases h

theorem store_set (h : k < b.length) : store b k a = some (b.set k a) := by
  rw [store, blit, if_pos (by simp; omega), List.set_eq_take_append_cons_drop, if_pos h]
  simp

/-- The buffer has `n` places and starts with `p`. -/
structure Filled (n : Nat) (p b : List α) : Prop where
  start : p <+: b
  length : b.length = n

theorem Filled.blit (h : Filled n p b) (hoff : k = p.length) (hroom : k + x.length ≤ n) :
    ∃ b', blit b k x = some b' ∧ Filled n (p ++ x) b' := by
  obtain ⟨⟨rest, rfl⟩, rfl⟩ := h
  subst hoff
  unfold Wire.blit
  rw [if_pos hroom]
  refine ⟨_, rfl, ⟨rest.drop x.length, ?_⟩, ?_⟩
  · simp
  · simp at hroom ⊢
    omega

theorem Filled.store (h : Filled n p b) (hoff : k = p.length) (hroom : k < n) :
    ∃ b', store b k a = some b' ∧ Filled n (p ++ [a]) b' :=
  h.blit hoff (by simp; omega)

theorem Filled.eq (h : Filled n p b) (hn : p.length = n) : b = p := by
  refine (h.start.eq_of_length ?_).symm
  rw [hn, h.length]

/-- The first `n` places start with `p`, and `post` is behind them. -/
def Front (n : Nat) (p post b : List α) : Prop := ∃ y, b = p ++ (y ++ post) ∧ p.length + y.length = n

theorem front_nil {y : List α} (hn : y.length = n) : Front n [] post (y ++ post) :=
  ⟨y, rfl, by simpa using hn⟩

theorem Front.blit (h : Front n p post b) (hoff : k = p.length) (hroom : k + x.length ≤ n) :
    ∃ b', blit b k x = some b' ∧ Front n (p ++ x) post b' := by
  obtain ⟨y, hb, hlen⟩ := h
  have hsplit : y = y.take x.length ++ y.drop x.length := (List.take_append_drop _ _).symm
  have htake : x.length = (y.take x.length).length := by
    rw [List.length_take]
    omega
  rw [hsplit, List.append_assoc] at hb
  refine ⟨_, blit_append hb hoff htake, y.drop x.length, by simp, ?_⟩
  rw [List.length_append, List.length_drop]
  omega

theorem Front.store (h : Front n p post b) (hoff : k = p.length) (hroom : k < n) :
    ∃ b', store b k a = some b' ∧ Front n (p ++ [a]) post b' :=
  h.blit hoff (by simp; omega)

theorem Front.length (h : Front n p post b) : b.length = n + post.length := by
  obtain ⟨y, rfl, hlen⟩ := h
  simp only [List.length_append]
  omega

theorem Front.shorten {y : List α} (h : Front n (p ++ y) post b) : Front n p post b := by
  obtain ⟨z, rfl, hlen⟩ := h
  refine ⟨y ++ z, by simp, ?_⟩
  rw [List.length_append] at hlen ⊢
  omega

/-- A write behind a prefix keeps it. -/
theorem prefix_blit (h : p <+: b) (hoff : p.length ≤ k) (hrun : blit b k x = some b') : p <+: b' := by
  unfold blit at hrun
  split at hrun
  · obtain rfl := Option.some.inj hrun
    have htake : p <+: b.take k := List.prefix_take_iff.mpr ⟨h, hoff⟩
    rw [List.append_assoc]
    exact htake.trans (List.prefix_append _ _)
  · cases hrun

theorem filled_iff : Filled n p b ↔ Front n p [] b := by
  constructor
  · rintro ⟨⟨y, rfl⟩, rfl⟩
    exact ⟨y, by simp, by simp⟩
  · rintro ⟨y, rfl, hlen⟩
    exact ⟨⟨y, by simp⟩, by simpa using hlen⟩

theorem Front.eq (h : Front n p post b) (hn : p.length = n) : b = p ++ post := by
  obtain ⟨y, rfl, hlen⟩ := h
  have hy : y = [] := List.eq_nil_of_length_eq_zero (by omega)
  rw [hy, List.nil_append]

/-! ## Messages -/

/-- One part behind the other. -/
def appendAll (b : List α) (k : Nat) : List (List α) → Option (List α)
  | [] => some b
  | x :: xs => (blit b k x).bind fun b => appendAll b (k + x.length) xs

variable {xs ys : List (List α)}

theorem appendAll_append :
    appendAll b k (xs ++ ys) =
      (appendAll b k xs).bind fun b => appendAll b (k + xs.flatten.length) ys := by
  induction xs generalizing b k with
  | nil => rfl
  | cons x xs ih =>
    simp only [List.cons_append, appendAll, List.flatten_cons, List.length_append, ← Nat.add_assoc, ih,
      Option.bind_assoc]

/-- The parts are written if there is room for all of them, and what is behind them stays. -/
theorem appendAll_eq (hk : k ≤ b.length) : appendAll b k xs =
    if k + xs.flatten.length ≤ b.length then
      some (b.take k ++ xs.flatten ++ b.drop (k + xs.flatten.length)) else none := by
  induction xs generalizing b k with
  | nil => simp [appendAll, hk]
  | cons x xs ih =>
    rw [appendAll, blit, List.flatten_cons, List.length_append]
    by_cases hroom : k + x.length ≤ b.length
    · have hlen : (b.take k ++ x).length = k + x.length := by simp; omega
      have hlen' : (b.take k ++ x ++ b.drop (k + x.length)).length = b.length := by simp; omega
      rw [if_pos hroom, Option.bind_some, ih (by omega), hlen', ← Nat.add_assoc]
      rw [List.take_left' hlen, ← List.drop_drop, List.drop_left' hlen, List.drop_drop]
      simp only [List.append_assoc]
    · rw [if_neg hroom, Option.bind_none, if_neg (by omega)]

theorem appendAll_zero : appendAll b 0 xs =
    if xs.flatten.length ≤ b.length then some (xs.flatten ++ b.drop xs.flatten.length) else none := by
  rw [appendAll_eq (Nat.zero_le _)]
  simp

theorem appendAll_front (h : xs.flatten.length = p.length) :
    appendAll (p ++ post) 0 xs = some (xs.flatten ++ post) := by
  rw [appendAll_zero, h, if_pos (by simp), List.drop_left]

/-! ## Loops -/

variable {l : List β}

/-- A counting loop that keeps an invariant of its counter returns. -/
theorem foldlM_range {f : S → Nat → Option S} {I : Nat → S → Prop} {s : S} (h0 : I 0 s)
    (hstep : ∀ i s, i < n → I i s → ∃ s', f s i = some s' ∧ I (i + 1) s') :
    ∃ s', (List.range n).foldlM f s = some s' ∧ I n s' := by
  induction n with
  | zero => exact ⟨s, rfl, h0⟩
  | succ n ih =>
    obtain ⟨s1, h1, hI⟩ := ih fun i s hi => hstep i s (by omega)
    obtain ⟨s2, h2, hI⟩ := hstep n s1 (by omega) hI
    refine ⟨s2, ?_, hI⟩
    rw [List.range_succ, List.foldlM_append, h1]
    simpa using h2

/-- A loop that keeps an invariant of what it has done returns and has done all. -/
theorem foldlM_all {f : S → β → Option S} {I : List β → S → Prop} {s : S} (h0 : I [] s)
    (hstep : ∀ done c rest s, l = done ++ c :: rest → I done s →
      ∃ s', f s c = some s' ∧ I (done ++ [c]) s') :
    ∃ s', l.foldlM f s = some s' ∧ I l s' := by
  suffices ∀ rest done s, l = done ++ rest → I done s →
      ∃ s', rest.foldlM f s = some s' ∧ I l s' from this l [] s rfl h0
  intro rest
  induction rest with
  | nil =>
    intro done s hl hI
    rw [List.append_nil] at hl
    exact ⟨s, rfl, hl ▸ hI⟩
  | cons c rest ih =>
    intro done s hl hI
    obtain ⟨s1, h1, hI1⟩ := hstep done c rest s hl hI
    obtain ⟨s', h', hI'⟩ := ih (done ++ [c]) s1 (by rw [hl, List.append_assoc]; rfl) hI1
    exact ⟨s', by rw [List.foldlM_cons, h1]; exact h', hI'⟩

/-- A loop that keeps a position and writes some parts for each element. -/
theorem foldlM_appendAll {f : List α × Nat → β → Option (List α × Nat)} (parts : β → List (List α))
    (hf : ∀ b i c, f (b, i) c =
      (appendAll b (k + i) (parts c)).map fun b => (b, i + (parts c).flatten.length)) (i : Nat) :
    l.foldlM f (b, i) = (appendAll b (k + i) (l.flatMap parts)).map
      fun b => (b, i + (l.flatMap parts).flatten.length) := by
  induction l generalizing b i with
  | nil => rfl
  | cons c l ih =>
    rw [List.foldlM_cons, hf, List.flatMap_cons, appendAll_append, List.flatten_append,
      List.length_append]
    cases appendAll b (k + i) (parts c) with
    | none => rfl
    | some b =>
      rw [Option.map_some, Option.bind_eq_bind, Option.bind_some, Option.bind_some, ih]
      simp only [Nat.add_assoc]

/-- A loop that returns has returned from any part of it. -/
theorem foldlM_prefix {f : S → β → Option S} {s : S} {l' : List β} (h : ∃ s', l.foldlM f s = some s')
    (hl : l' <+: l) : ∃ s', l'.foldlM f s = some s' := by
  obtain ⟨rest, rfl⟩ := hl
  obtain ⟨s', hs'⟩ := h
  rw [List.foldlM_append] at hs'
  obtain ⟨s1, hs1, -⟩ := Option.bind_eq_some_iff.mp hs'
  exact ⟨s1, hs1⟩

theorem foldlM_done {f : S → β → Option S} {I : List β → S → Prop} {s s' : S}
    (h : l.foldlM f s = some s') (h0 : I [] s)
    (hstep : ∀ done c rest s s', l = done ++ c :: rest → I done s → f s c = some s' →
      I (done ++ [c]) s') : I l s' := by
  suffices ∀ rest done s, l = done ++ rest → I done s → rest.foldlM f s = some s' → I l s' from
    this l [] s rfl h0 h
  intro rest
  induction rest with
  | nil =>
    intro done s hl hI hr
    obtain rfl := Option.some.inj hr
    rw [List.append_nil] at hl
    exact hl ▸ hI
  | cons c rest ih =>
    intro done s hl hI hr
    obtain ⟨s1, h1, hr⟩ := Option.bind_eq_some_iff.mp hr
    exact ih (done ++ [c]) s1 (by rw [hl, List.append_assoc]; rfl) (hstep done c rest s s1 hl hI h1) hr

variable {γ : Type*} {bs : List γ} {R : β → γ → Prop}

theorem mapM_all {f : β → Option γ} (h : ∀ c ∈ l, ∃ b, f c = some b ∧ R c b) :
    ∃ bs, l.mapM f = some bs ∧ List.Forall₂ R l bs := by
  induction l with
  | nil => exact ⟨[], rfl, .nil⟩
  | cons c l ih =>
    rw [List.forall_mem_cons] at h
    obtain ⟨⟨b, hb, hR⟩, hrest⟩ := h
    obtain ⟨bs, hbs, hall⟩ := ih hrest
    refine ⟨b :: bs, ?_, .cons hR hall⟩
    simp only [List.mapM_cons, hb, hbs, Option.bind_eq_bind, Option.bind_some]
    rfl

theorem mapM_places {f : Nat → Option γ} (h : ∀ i c, l[i]? = some c → ∃ b, f i = some b ∧ R c b) :
    ∃ bs, (List.range l.length).mapM f = some bs ∧ List.Forall₂ R l bs := by
  induction l generalizing f with
  | nil => exact ⟨[], rfl, .nil⟩
  | cons c l ih =>
    obtain ⟨b, hb, hR⟩ := h 0 c rfl
    obtain ⟨bs, hbs, hall⟩ := ih (f := f ∘ Nat.succ) fun i c hc => h (i + 1) c hc
    refine ⟨b :: bs, ?_, .cons hR hall⟩
    rw [List.length_cons, List.range_succ_eq_map, List.mapM_cons, List.mapM_map, hb, hbs]
    rfl

theorem mem_mapM {f : β → Option γ} {c' : γ} (h : l.mapM f = some bs) :
    c' ∈ bs ↔ ∃ c ∈ l, f c = some c' := by
  induction l generalizing bs with
  | nil =>
    obtain rfl := Option.some.inj h
    simp
  | cons c l ih =>
    rw [List.mapM_cons] at h
    obtain ⟨first, hfirst, h⟩ := Option.bind_eq_some_iff.mp h
    obtain ⟨others, hothers, h⟩ := Option.bind_eq_some_iff.mp h
    obtain rfl := Option.some.inj h
    simp only [List.mem_cons, exists_eq_or_imp, ih hothers, hfirst, Option.some.injEq]
    rw [eq_comm]

theorem exists_of_mapM {f : β → Option γ} (h : l.mapM f = some bs) : ∀ c ∈ l, ∃ b, f c = some b := by
  induction l generalizing bs with
  | nil => exact nofun
  | cons c l ih =>
    rw [List.mapM_cons] at h
    obtain ⟨first, hfirst, h⟩ := Option.bind_eq_some_iff.mp h
    obtain ⟨others, hothers, -⟩ := Option.bind_eq_some_iff.mp h
    exact List.forall_mem_cons.mpr ⟨⟨first, hfirst⟩, ih hothers⟩

theorem exists_of_forall₂ {b : γ} (h : List.Forall₂ R l bs) (hb : b ∈ bs) : ∃ c ∈ l, R c b := by
  induction h with
  | nil => cases hb
  | cons hcb _ ih =>
    rcases List.mem_cons.mp hb with rfl | hb
    · exact ⟨_, List.mem_cons_self, hcb⟩
    · obtain ⟨c, hc, hcb⟩ := ih hb
      exact ⟨c, List.mem_cons_of_mem _ hc, hcb⟩

theorem forall₂_made {c : β} (h : List.Forall₂ R l bs) (hc : c ∈ l) : ∃ b ∈ bs, R c b := by
  obtain ⟨b, hb, hcb⟩ := exists_of_forall₂ h.flip hc
  exact ⟨b, hb, hcb⟩

theorem filter_eq_nil {δ : Type*} [DecidableEq δ] {key : β → δ} {name : γ → δ} {d : δ}
    (h : List.Forall₂ R l bs) (hR : ∀ c b, R c b → name b = key c) (hd : d ∉ l.map key) :
    bs.filter (fun b => name b = d) = [] := by
  induction h with
  | nil => rfl
  | cons hcb hrest ih =>
    rw [List.map_cons, List.mem_cons, not_or] at hd
    have hother : name _ ≠ d := fun hname => hd.1 (hname.symm.trans (hR _ _ hcb))
    rw [List.filter_cons_of_neg (by simpa using hother)]
    exact ih hd.2

theorem filter_eq_singleton {δ : Type*} [DecidableEq δ] {key : β → δ} {name : γ → δ} {c : β}
    (h : List.Forall₂ R l bs) (hR : ∀ c b, R c b → name b = key c) (hkeys : (l.map key).Nodup)
    (hc : c ∈ l) : ∃ b, bs.filter (fun b => name b = key c) = [b] ∧ R c b := by
  induction h with
  | nil => cases hc
  | @cons c' b' l bs hcb hrest ih =>
    rw [List.map_cons, List.nodup_cons] at hkeys
    have hname := hR _ _ hcb
    rcases List.mem_cons.mp hc with rfl | hc
    · refine ⟨b', ?_, hcb⟩
      rw [List.filter_cons_of_pos (by simpa using hname), filter_eq_nil hrest hR hkeys.1]
    · have hother : name b' ≠ key c := by
        intro hsame
        rw [← hname, hsame] at hkeys
        exact hkeys.1 (List.mem_map_of_mem hc)
      rw [List.filter_cons_of_neg (by simpa using hother)]
      exact ih hkeys.2 hc

end Wire
