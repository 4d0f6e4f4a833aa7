import Mathlib.Tactic.Common
import Blackadder.Rendezvous.Records

/-!
# Nodes that nobody uses

An item goes with its last host. A scope that loses its last host while it has children
stays, and is not looked at again when the children go.
-/

namespace Blackadder

namespace LocalRV

variable {s s' s₁ t : LocalRV} {lab : Node → Id} {n m : Node} {X Y : Id} {h : NodeId} {role : Role}
  {r : Request} {code : ReturnCode} {o o' : Option Ptr} {f g p sc : Ptr}

/-! ## Entries -/

theorem Entered.occupied (he : s.Entered h n role X s') (hs : s.Inv lab) (ho : s.Occupied m o) :
    s'.Occupied m o := by
  obtain ⟨Y, role', h', hin, hh⟩ := ho
  exact ⟨Y, role', h', fun f hf => he.mono hs (hin f hf), (he.mem_pairAt hs).mpr (Or.inr hh)⟩

/-- A branch that an entry makes is occupied by the host that entered. -/
theorem Entered.occupied_new (he : s.Entered h n role X s') (hs : s.Inv lab) (hin : s'.InBranch o X) :
    s'.Occupied n o :=
  ⟨X, role, h, hin, (he.mem_pairAt hs).mpr (Or.inl ⟨rfl, rfl, rfl, rfl⟩)⟩

/-! ## Departures -/

theorem Inv.branch_unique (hs : s.Inv lab) (hb : s.IsBranch n o) (hb' : s.IsBranch n o')
    (hin : s.InBranch o X) (hin' : s.InBranch o' X) : o = o' := by
  cases o with
  | none =>
    cases o' with
    | none => rfl
    | some g => exact absurd hb' (hb g)
  | some f =>
    cases o' with
    | none => exact absurd hb (hb' f)
    | some g =>
      have := hs.owner_unique (hin f rfl) (hin' g rfl)
      exact congrArg (fun n => some n.ptr) this

/-- A father of some node is not deleted, so it keeps its ids. -/
theorem Pruned.mem_ids_father (hp : s.Pruned n o s') (hg : g ∈ s.fatherScopes m) :
    Y ∈ s'.ids (.scope g) ↔ Y ∈ s.ids (.scope g) := by
  cases hp with
  | kept _ _ => rfl
  | gone _ _ _ hc hd =>
    refine (hd.mem_ids (.scope g) Y).trans ⟨And.left, fun hY => ⟨hY, ?_⟩⟩
    rintro ⟨rfl, -⟩
    exact hc rfl m hg

theorem Left.mem_ids_father (hl : s.Left h n role X s') (hg : g ∈ s.fatherScopes m) :
    Y ∈ s'.ids (.scope g) ↔ Y ∈ s.ids (.scope g) := by
  obtain ⟨o, es, -, -, hh, hp⟩ := hl.split
  have hshape := (eraseHost_shape (mem_of_pairAt hh) role (s.pairAt n X) h).trans (send_shape _ es)
  rw [hp.mem_ids_father (m := m) (by rwa [hshape.fatherScopes]), hshape.mem_ids]

theorem Left.inBranch (hl : s.Left h n role X s') (hb : s.IsBranch m o) (hin : s.InBranch o Y) :
    s'.InBranch o Y := by
  rintro f rfl
  exact (hl.mem_ids_father hb).mpr (hin f rfl)

/-- The branches of other nodes, and the other branches of the node, keep their hosts. -/
theorem Left.occupied (hl : s.Left h n role X s') (hb : s.IsBranch m o)
    (hother : m = n → ¬ s.InBranch o X) (ho : s.Occupied m o) : s'.Occupied m o := by
  obtain ⟨Y, role', h', hin, hh⟩ := ho
  refine ⟨Y, role', h', hl.inBranch hb hin, hl.mem_pairAt.mpr ⟨hh, ?_⟩⟩
  rintro ⟨rfl, rfl, -, -⟩
  exact hother rfl hin

/-- The branch that the host left is gone, is still occupied, or has children below its node. -/
theorem Left.branch_after (hl : s.Left h n role X s') (hs : s.Inv lab) (hb : s.IsBranch n o)
    (hin : s.InBranch o X) (hb' : s'.IsBranch n o) (hlive : ∃ Y, Y ∈ s'.ids n) :
    s'.Occupied n o ∨ ¬ s'.Childless n := by
  obtain ⟨o', es, hbr, hin', hh, hp⟩ := hl.split
  obtain rfl := hs.branch_unique hb hbr hin hin'
  cases hp with
  | kept _ hu => exact hu
  | gone _ _ hfree hc hd =>
    obtain ⟨Y, hY⟩ := hlive
    cases o with
    | none =>
      exact absurd ⟨rfl, fun f hf => nomatch hf⟩ ((hd.mem_ids n Y).mp hY).2
    | some f =>
      exact absurd ⟨rfl, rfl⟩ ((hd.fathers n f).mp hb').2

/-! ## Items -/

/-- Somebody uses every item under each of its fathers. -/
def ItemsOccupied (s : LocalRV) : Prop :=
  ∀ p f, f ∈ s.fatherScopes (.item p) → s.Occupied (.item p) (some f)

theorem Entered.itemsOccupied (he : s.Entered h n role X s') (hs : s.Inv lab)
    (hi : s.ItemsOccupied) : s'.ItemsOccupied := by
  intro p f hf
  obtain ⟨lab', hs'⟩ := he.inv hs
  rcases he.isBranch hs (o := some f) hf (hs'.live hf) with ⟨hb, -⟩ | ⟨rfl, hin⟩
  · exact he.occupied hs (hi p f hb)
  · exact he.occupied_new hs hin

theorem Left.itemsOccupied (hl : s.Left h n role X s') (hs : s.Inv lab)
    (hi : s.ItemsOccupied) : s'.ItemsOccupied := by
  intro p f hf
  have hfs := hl.fathers_sub hf
  by_cases hsame : .item p = n ∧ s.InBranch (some f) X
  · obtain ⟨rfl, hin⟩ := hsame
    rcases hl.branch_after hs (o := some f) hfs hin hf ((hl.inv hs).live hf) with h | h
    · exact h
    · exact absurd (childless_item s' p) h
  · exact hl.occupied (o := some f) hfs (fun hn hin => hsame ⟨hn, hin⟩) (hi p f hfs)

theorem itemsOccupied_of_run {nodeID : NodeId} (hrun : Runs.Reachable Step (init nodeID) s) :
    s.ItemsOccupied := by
  refine hrun.invariant (I := ItemsOccupied) (fun p f hf => ?_) fun s a s' hrun hi hstep => ?_
  · simp [init] at hf
  · obtain ⟨lab, hs⟩ := inv_of_run hrun
    obtain ⟨code, he⟩ := hstep.effect hs
    exact he.preserves hs hi (fun hs hi he => he.itemsOccupied hs hi)
      (fun hs hi hl => hl.itemsOccupied hs hi)

/-! ## Scopes -/

/-- The last host of a branch went, and the scope has sub-scopes or items. -/
def Abandons (s s' : LocalRV) (sc : Ptr) (o : Option Ptr) : Prop :=
  s.Occupied (.scope sc) o ∧ ¬ s'.Occupied (.scope sc) o ∧ ¬ s'.Childless (.scope sc)

/-- If the scope has the branch, somebody uses it. -/
def BranchOccupied (s : LocalRV) (sc : Ptr) (o : Option Ptr) : Prop :=
  (∃ X, X ∈ s.ids (.scope sc)) → s.IsBranch (.scope sc) o → s.Occupied (.scope sc) o

theorem Entered.branchOccupied (he : s.Entered h n role X s') (hs : s.Inv lab)
    (hi : s.BranchOccupied sc o) : s'.BranchOccupied sc o := by
  intro hlive hb
  rcases he.isBranch hs hb hlive with ⟨hb, hlive⟩ | ⟨rfl, hin⟩
  · exact he.occupied hs (hi hlive hb)
  · exact he.occupied_new hs hin

theorem Left.branchOccupied (hl : s.Left h n role X s') (hs : s.Inv lab)
    (hi : s.BranchOccupied sc o) : s'.BranchOccupied sc o ∨ s.Abandons s' sc o := by
  rw [or_iff_not_imp_right]
  intro hnot hlive hb
  by_contra hfree
  have hlive₀ : ∃ Y, Y ∈ s.ids (.scope sc) := hlive.imp fun Y hY => hl.mem_ids_sub hY
  have hb₀ : s.IsBranch (.scope sc) o := by
    cases o with
    | some f => exact hl.fathers_sub hb
    | none =>
      intro f hf
      obtain ⟨Y, hY⟩ := hlive
      rcases (hl.inv hs).has_father _ Y hY with ⟨-, hroot⟩ | ⟨g, hg⟩
      · exact hs.root_fatherless sc f (hl.isRoot ▸ hroot) hf
      · exact hb g hg
  have ho := hi hlive₀ hb₀
  by_cases hsame : .scope sc = n ∧ s.InBranch o X
  · obtain ⟨rfl, hin⟩ := hsame
    rcases hl.branch_after hs hb₀ hin hb hlive with h | h
    · exact hfree h
    · exact hnot ⟨ho, hfree, h⟩
  · exact hfree (hl.occupied hb₀ (fun hn hin => hsame ⟨hn, hin⟩) ho)

theorem KeepsScopes.occupied (hk : KeepsScopes lab s s') :
    s'.Occupied (.scope sc) o ↔ s.Occupied (.scope sc) o := by
  refine exists_congr fun X => exists_congr fun role => exists_congr fun h => ?_
  rw [hk.inBranch, hk.pairAt]

theorem KeepsScopes.branchOccupied (hk : KeepsScopes lab s s') (hi : s.BranchOccupied sc o) :
    s'.BranchOccupied sc o := by
  rintro ⟨X, hX⟩ hb
  exact hk.occupied.mpr (hi ⟨X, (hk.mem_ids sc X).mp hX⟩ (hk.isBranch.mp hb))

/-- A request keeps a branch occupied, or abandons it. -/
theorem Effect.branchOccupied (he : Effect s h r code s') (hs : s.Inv lab)
    (hi : s.BranchOccupied sc o) : s'.BranchOccupied sc o ∨ s.Abandons s' sc o := by
  cases he with
  | refused => exact Or.inl hi
  | entered _ he =>
    obtain ⟨p, he, -⟩ := he
    exact Or.inl (he.branchOccupied hs hi)
  | left _ _ hl =>
    obtain ⟨p, hl, -⟩ := hl
    exact hl.branchOccupied hs hi
  | unpublished _ _ _ hw hl =>
    have hk := hw.keepsScopes hs
    exact (hl.branchOccupied hk.inv (hk.branchOccupied hi)).imp_right
      fun ⟨h1, h2⟩ => ⟨hk.occupied.mp h1, h2⟩
  | onlyItems _ _ _ hw _ => exact Or.inl ((hw.keepsScopes hs).branchOccupied hi)

/-- A run in which no request abandons the branch. -/
def StepKeeping (sc : Ptr) (o : Option Ptr) (s : LocalRV) (a : NodeId × Request) (s' : LocalRV) :
    Prop :=
  s.Step a s' ∧ ¬ s.Abandons s' sc o

theorem branchOccupied_of_run {nodeID : NodeId}
    (hrun : Runs.Reachable (StepKeeping sc o) (init nodeID) s) : s.BranchOccupied sc o := by
  refine hrun.invariant (I := fun t => t.BranchOccupied sc o) ?_ fun s a s' hrun hi hstep => ?_
  · rintro ⟨X, hX⟩
    simp [init] at hX
  · obtain ⟨lab, hs⟩ := inv_of_run (hrun.mono fun _ _ _ h => h.1)
    obtain ⟨code, he⟩ := hstep.1.effect hs
    exact (he.branchOccupied hs hi).resolve_right hstep.2

/-! ## Everything withdrawn -/

/-- No host is registered anywhere. -/
def Idle (s : LocalRV) : Prop := ∀ h role k, s.record h role k = ∅

theorem Idle.not_occupied (hidle : s.Idle) (hr : s.RecordsAgree) : ¬ s.Occupied n o := by
  rintro ⟨X, role, h, -, hh⟩
  have hX := (hr h role n.kind X).mpr ⟨n.ptr, hh⟩
  rw [hidle] at hX
  exact Finset.notMem_empty X hX

theorem Idle.pubIndex_eq_none (hidle : s.Idle) (hs : s.Inv lab) (hr : s.RecordsAgree)
    (hi : s.ItemsOccupied) (X : Id) : s.pubIndex X = none := by
  cases hX : s.pubIndex X with
  | none => rfl
  | some p =>
    rcases hs.has_father _ X (hs.of_index hX) with ⟨hk, -⟩ | ⟨f, hf⟩
    · cases hk
    · exact absurd (hi p f hf) (hidle.not_occupied hr)

theorem Idle.scopeIndex_eq_none (hidle : s.Idle) (hs : s.Inv lab) (hr : s.RecordsAgree)
    (hi : ∀ sc o, s.BranchOccupied sc o) (X : Id) : s.scopeIndex X = none := by
  cases hX : s.scopeIndex X with
  | none => rfl
  | some sc =>
    have hlive := hs.of_index hX
    by_cases hf : ∃ f, f ∈ s.fatherScopes (.scope sc)
    · obtain ⟨f, hf⟩ := hf
      exact absurd (hi sc (some f) ⟨X, hlive⟩ hf) (hidle.not_occupied hr)
    · exact absurd (hi sc none ⟨X, hlive⟩ (not_exists.mp hf)) (hidle.not_occupied hr)

/-- Every item is used under each of its fathers, and every branch of a scope is, unless some
request took its last host while the scope had sub-scopes or items. When everything is withdrawn,
no item is left, and without such requests no scope either. -/
theorem no_orphans (nodeID : NodeId) :
    (∀ s, Runs.Reachable Step (init nodeID) s →
      s.ItemsOccupied ∧ (s.Idle → ∀ X, s.pubIndex X = none)) ∧
    (∀ s sc o, Runs.Reachable (StepKeeping sc o) (init nodeID) s → s.BranchOccupied sc o) ∧
    ∀ s, Runs.Reachable (fun s a s' => s.Step a s' ∧ ∀ sc o, ¬ s.Abandons s' sc o) (init nodeID) s →
      s.Idle → ∀ X, s.scopeIndex X = none ∧ s.pubIndex X = none := by
  have hitems : ∀ s, Runs.Reachable Step (init nodeID) s →
      s.ItemsOccupied ∧ (s.Idle → ∀ X, s.pubIndex X = none) := by
    intro s hrun
    obtain ⟨lab, hs⟩ := inv_of_run hrun
    have hi := itemsOccupied_of_run hrun
    exact ⟨hi, fun hidle =>
      hidle.pubIndex_eq_none hs (recordsAgree_of_reachable ⟨nodeID, hrun⟩) hi⟩
  refine ⟨hitems, fun s sc o hrun => branchOccupied_of_run hrun, fun s hrun hidle X => ?_⟩
  have hrun' : Runs.Reachable Step (init nodeID) s := hrun.mono fun _ _ _ h => h.1
  obtain ⟨lab, hs⟩ := inv_of_run hrun'
  refine ⟨hidle.scopeIndex_eq_none hs (recordsAgree_of_reachable ⟨nodeID, hrun'⟩) (fun sc o => ?_) X,
    (hitems s hrun').2 hidle X⟩
  exact branchOccupied_of_run (hrun.mono fun _ _ _ h => ⟨h.1, h.2 sc o⟩)

theorem Step.not_abandons_of_enters (hstep : s.Step (h, r) s') (hs : s.Inv lab)
    (ht : r.type.enters = true) : ¬ s.Abandons s' sc o := by
  rintro ⟨ho, hfree, -⟩
  obtain ⟨code, he⟩ := hstep.effect hs
  cases he with
  | refused => exact hfree ho
  | entered _ he =>
    obtain ⟨p, he, -⟩ := he
    exact hfree (he.occupied hs ho)
  | left hno => simp [ht] at hno
  | unpublished hno =>
    have hno : r.type = .unpublishScope := hno
    rw [hno] at ht
    cases ht
  | onlyItems hno =>
    have hno : r.type = .unpublishScope := hno
    rw [hno] at ht
    cases ht

theorem not_abandons_of_childless (hc : ∀ sc m, ¬ sc ∈ s'.fatherScopes m) : ¬ s.Abandons s' sc o :=
  fun h => h.2.2 fun _ => hc sc

/-- A scope and an item in it, which two hosts use and withdraw. -/
def withdrawnRun : List (NodeId × Request) :=
  [([1], ⟨.publishScope, frag 1, [], domainLocal⟩), ([2], ⟨.subscribeScope, frag 1, [], domainLocal⟩),
    ([1], ⟨.publishInfo, frag 2, frag 1, domainLocal⟩), ([1], ⟨.unpublishInfo, frag 2, frag 1, domainLocal⟩),
    ([2], ⟨.unsubscribeScope, frag 1, [], domainLocal⟩), ([1], ⟨.unpublishScope, frag 1, [], domainLocal⟩)]

/-- Once the item is withdrawn, no node has a father. -/
theorem childless_withdrawnRun (m : Node) :
    (afterRun 1 [0] (withdrawnRun.take 4)).fatherScopes m = ∅ ∧
    (afterRun 1 [0] (withdrawnRun.take 5)).fatherScopes m = ∅ ∧
    (afterRun 1 [0] withdrawnRun).fatherScopes m = ∅ := by
  by_cases hitem : m = .item 1
  · rw [hitem]
    exact ⟨rfl, rfl, rfl⟩
  refine ⟨(if_neg hitem).trans (if_neg hitem), (if_neg hitem).trans (if_neg hitem), ?_⟩
  by_cases hscope : m = .scope 0
  · rw [hscope]
    rfl
  · exact (if_neg hscope).trans ((if_neg hitem).trans (if_neg hitem))

theorem idle_withdrawnRun : (afterRun 1 [0] withdrawnRun).Idle := by
  intro h role k
  by_cases h1 : h = [1] ∧ role = .publisher ∧ k = .scope
  · obtain ⟨rfl, rfl, rfl⟩ := h1
    decide
  by_cases h2 : h = [2] ∧ role = .subscriber ∧ k = .scope
  · obtain ⟨rfl, rfl, rfl⟩ := h2
    decide
  by_cases h3 : h = [1] ∧ role = .publisher ∧ k = .item
  · obtain ⟨rfl, rfl, rfl⟩ := h3
    decide
  exact (if_neg h1).trans ((if_neg h2).trans ((if_neg h3).trans ((if_neg h3).trans
    ((if_neg h2).trans (if_neg h1)))))

theorem keeps_withdrawnRun {k : Nat} (hk : k ≤ 6) :
    Runs.Reachable (fun s a s' => s.Step a s' ∧ ∀ sc o, ¬ s.Abandons s' sc o) (init [0])
      (afterRun 1 [0] (withdrawnRun.take k)) := by
  induction k with
  | zero => exact .start
  | succ k ih =>
    have hlt : k < withdrawnRun.length := hk
    have htake : withdrawnRun.take k ++ [withdrawnRun[k]] = withdrawnRun.take (k + 1) :=
      List.take_append_getElem hlt
    have hwf : ∀ a ∈ withdrawnRun, a.2.WellFormed := by decide
    have hok : ∀ k : Fin 6, (run 1 (init [0]) (withdrawnRun.take (k + 1))).isOk = true := by decide
    have hstep := step_afterRun 1 [0] (withdrawnRun.take k) withdrawnRun[k]
      (hwf _ (List.getElem_mem hlt)) (htake ▸ hok ⟨k, hk⟩)
    rw [htake] at hstep
    refine .next (ih (Nat.le_of_succ_le hk)) (a := withdrawnRun[k]) ⟨hstep, fun sc o => ?_⟩
    obtain ⟨lab, hs⟩ := Reachable.inv (reachable_afterRun 1 [0] fun a ha =>
      hwf a (List.mem_of_mem_take (i := k) ha))
    have hchildless : 3 ≤ k →
        ∀ sc m, ¬ sc ∈ (afterRun 1 [0] (withdrawnRun.take (k + 1))).fatherScopes m := by
      intro h3 sc m hm
      obtain ⟨h4, h5, h6⟩ := childless_withdrawnRun m
      obtain rfl | rfl | rfl : k = 3 ∨ k = 4 ∨ k = 5 := by omega
      · exact ListSet.not_mem_empty sc (h4 ▸ hm)
      · exact ListSet.not_mem_empty sc (h5 ▸ hm)
      · exact ListSet.not_mem_empty sc (h6 ▸ hm)
    rcases Nat.lt_or_ge k 3 with h3 | h3
    · refine hstep.not_abandons_of_enters hs ?_
      have henters : ∀ k : Fin 3, withdrawnRun[k].2.type.enters = true := by decide
      exact henters ⟨k, h3⟩
    · exact not_abandons_of_childless (hchildless h3)

/-- The item is in use while it is published, and so is the scope. In the end nothing is left. -/
theorem no_orphans_withdrawn :
    (afterRun 1 [0] (withdrawnRun.take 3)).ItemsOccupied ∧
    (afterRun 1 [0] (withdrawnRun.take 3)).BranchOccupied 0 none ∧
    ∀ X, (afterRun 1 [0] withdrawnRun).scopeIndex X = none ∧
      (afterRun 1 [0] withdrawnRun).pubIndex X = none := by
  obtain ⟨hitems, hbranch, hleft⟩ := no_orphans [0]
  have hused := keeps_withdrawnRun (k := 3) (by decide)
  exact ⟨(hitems _ (hused.mono fun _ _ _ h => h.1)).1,
    hbranch _ 0 none (hused.mono fun _ _ _ h => ⟨h.1, h.2 0 none⟩),
    hleft _ (keeps_withdrawnRun (k := 6) le_rfl) idle_withdrawnRun⟩

/-- The father is withdrawn before its sub-scope. -/
def parentFirstRun : List (NodeId × Request) :=
  [([1], ⟨.publishScope, frag 1, [], domainLocal⟩),
    ([1], ⟨.publishScope, frag 2, frag 1, domainLocal⟩),
    ([1], ⟨.unpublishScope, frag 1, [], domainLocal⟩),
    ([1], ⟨.unpublishScope, frag 2, frag 1, domainLocal⟩)]

/-- Nothing is registered any more, and the father is still there, without sub-scopes and items. -/
theorem orphan_left : (afterRun 1 [0] parentFirstRun).Reachable ∧
    (afterRun 1 [0] parentFirstRun).Idle ∧
    (afterRun 1 [0] parentFirstRun).scopeIndex (frag 1) = some 0 ∧
    (afterRun 1 [0] parentFirstRun).childrenScopes 0 = ∅ ∧
    (afterRun 1 [0] parentFirstRun).informationitems 0 = ∅ := by
  refine ⟨reachable_afterRun 1 [0] (by decide : ∀ a ∈ parentFirstRun, a.2.WellFormed), ?_,
    by decide, rfl, rfl⟩
  intro h role k
  change (if h = [1] ∧ role = .publisher ∧ k = .scope then (∅ : Finset Id)
    else if h = [1] ∧ role = .publisher ∧ k = .scope then {frag 1 ++ frag 2}
    else if h = [1] ∧ role = .publisher ∧ k = .scope then {frag 1 ++ frag 2, frag 1}
    else if h = [1] ∧ role = .publisher ∧ k = .scope then {frag 1} else ∅) = ∅
  split <;> rfl

end LocalRV

end Blackadder
