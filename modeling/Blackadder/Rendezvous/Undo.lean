import Mathlib.Data.List.AList
import Mathlib.Tactic.Common
import Blackadder.Rendezvous.Homogeneous

/-!
# What was registered can be withdrawn

A registration compares its strategy with that of the father, or of the object that is there. A
withdrawal compares it with that of the scope, and for an item with that of the father.
-/

namespace Blackadder

namespace LocalRV

open Request

variable {s s' s₁ : LocalRV} {lab : Node → Id} {n m : Node} {X Y P ID : Id} {h h' : NodeId}
  {role role' : Role} {k : Kind} {f p sc : Ptr} {r : Request} {code : ReturnCode} {fuel : Nat}
  {strategy : Strategy} {res : ReturnCode × LocalRV}

/-! ## What a registration compares -/

/-- The strategy of an accepted request is the one of the scope `X`, or of the father of a scope
that gets this id, or a new root has it. -/
def ComparedScope (s : LocalRV) (X : Id) (strategy : Strategy) (res : ReturnCode × LocalRV) : Prop :=
  res.1 = .success →
    (∃ sc, s.scopeIndex X = some sc ∧ s.strategy (.scope sc) = strategy) ∨
      (s.scopeIndex X = none ∧
        ((∃ f, s.scopeIndex (fatherOf X) = some f ∧ s.strategy (.scope f) = strategy) ∨
          (fatherOf X = [] ∧ res.2.strategy (.scope s.next) = strategy)))

/-- The strategy of an accepted request is the one of the father. -/
def ComparedItem (s : LocalRV) (X : Id) (strategy : Strategy) (res : ReturnCode × LocalRV) : Prop :=
  res.1 = .success → ∃ f, s.scopeIndex (fatherOf X) = some f ∧ s.strategy (.scope f) = strategy

theorem publishExistingScope_compares (hsc : s.scopeIndex X = some sc) :
    s.ComparedScope X strategy (s.publishExistingScope h sc X strategy) := by
  unfold publishExistingScope
  split
  · next hst => exact fun _ => Or.inl ⟨sc, hsc, hst⟩
  · exact nofun

theorem subscribeExistingScope_compares (hsc : s.scopeIndex X = some sc) :
    s.ComparedScope X strategy (s.subscribeExistingScope h sc X strategy) := by
  unfold subscribeExistingScope
  split
  · next hst => exact fun _ => Or.inl ⟨sc, hsc, hst⟩
  · exact nofun

theorem registered_root_strategy (s : LocalRV) (strategy : Strategy) (X : Id) (role : Role) (h : NodeId) :
    (((s.newRootScope strategy).setIndex .scope X s.next).register (.scope s.next) role X
      h).2.strategy (.scope s.next) = strategy := by
  rw [(register_links _ _ _ _ _).2]
  exact if_pos rfl

theorem publishRootScope_compares (hX : X.length = pursuitIdLen) :
    s.ComparedScope X strategy (s.publishRootScope h X strategy) := by
  unfold publishRootScope
  split
  · next hsc =>
    have hst := registered_root_strategy s strategy X .publisher h
    dsimp only
    split
    · next t hreg =>
      rw [hreg] at hst
      exact fun _ => Or.inr ⟨hsc, Or.inr ⟨fatherOf_append (F := []) hX, hst⟩⟩
    · exact nofun
  · next sc hsc => exact publishExistingScope_compares hsc

theorem subscribeRootScope_compares (hX : X.length = pursuitIdLen) :
    s.ComparedScope X strategy (s.subscribeRootScope h X strategy) := by
  unfold subscribeRootScope
  split
  · next hsc =>
    have hst := registered_root_strategy s strategy X .subscriber h
    dsimp only
    split
    · next t hreg =>
      rw [hreg] at hst
      exact fun _ => Or.inr ⟨hsc, Or.inr ⟨fatherOf_append (F := []) hX, hst⟩⟩
    · exact nofun
  · next sc hsc => exact subscribeExistingScope_compares hsc

theorem publishInnerScope_compares (hID : ID.length = pursuitIdLen)
    (hr : s.publishInnerScope fuel h ID P strategy = .ok res) :
    s.ComparedScope (P ++ ID) strategy res := by
  unfold publishInnerScope at hr
  dsimp only at hr
  split at hr
  · exact Loops.pure_eq_ok.mp hr ▸ nofun
  split at hr
  · exact Loops.pure_eq_ok.mp hr ▸ nofun
  · next f hP =>
    split at hr
    · next hsc =>
      split at hr
      · next hst => exact fun _ => Or.inr ⟨hsc, Or.inl ⟨f, by rwa [fatherOf_append hID], hst⟩⟩
      · exact Loops.pure_eq_ok.mp hr ▸ nofun
    · next sc hsc => exact Loops.pure_eq_ok.mp hr ▸ publishExistingScope_compares hsc

theorem subscribeInnerScope_compares (hID : ID.length = pursuitIdLen)
    (hr : s.subscribeInnerScope fuel h ID P strategy = .ok res) :
    s.ComparedScope (P ++ ID) strategy res := by
  unfold subscribeInnerScope at hr
  dsimp only at hr
  split at hr
  · exact Loops.pure_eq_ok.mp hr ▸ nofun
  split at hr
  · exact Loops.pure_eq_ok.mp hr ▸ nofun
  · next f hP =>
    split at hr
    · next hsc =>
      split at hr
      · next hst => exact fun _ => Or.inr ⟨hsc, Or.inl ⟨f, by rwa [fatherOf_append hID], hst⟩⟩
      · exact Loops.pure_eq_ok.mp hr ▸ nofun
    · next sc hsc => exact Loops.pure_eq_ok.mp hr ▸ subscribeExistingScope_compares hsc

theorem republishInnerScope_compares (hID : pursuitIdLen ≤ ID.length)
    (hr : s.republishInnerScope fuel h ID P strategy = .ok res) :
    s.ComparedScope (P ++ suffixOf ID) strategy res := by
  unfold republishInnerScope at hr
  dsimp only at hr
  split at hr
  · exact Loops.pure_eq_ok.mp hr ▸ nofun
  split at hr
  · exact Loops.pure_eq_ok.mp hr ▸ nofun
  · next f hP =>
    split at hr
    · exact Loops.pure_eq_ok.mp hr ▸ nofun
    split at hr
    · next hsc =>
      split at hr
      · next hst => exact fun _ => Or.inr ⟨hsc, Or.inl ⟨f, by rwa [fatherOf_append (suffixOf_length hID)], hst⟩⟩
      · exact Loops.pure_eq_ok.mp hr ▸ nofun
    · next sc hsc => exact Loops.pure_eq_ok.mp hr ▸ publishExistingScope_compares hsc

theorem publishScope_compares (hr : s.publishScope fuel h ID P strategy = .ok res) :
    s.ComparedScope (P ++ suffixOf ID) strategy res := by
  unfold publishScope at hr
  split at hr
  · next hlen =>
    obtain rfl := List.length_eq_zero_iff.mp hlen.1
    rw [suffixOf_of_length hlen.2, List.nil_append]
    exact Loops.pure_eq_ok.mp hr ▸ publishRootScope_compares hlen.2
  split at hr
  · next hlen =>
    rw [suffixOf_of_length hlen.2]
    exact publishInnerScope_compares hlen.2 hr
  split at hr
  · next hlen => exact republishInnerScope_compares hlen.2.le hr
  · exact Loops.pure_eq_ok.mp hr ▸ nofun

theorem subscribeScope_compares (hr : s.subscribeScope fuel h ID P strategy = .ok res) :
    s.ComparedScope (P ++ suffixOf ID) strategy res := by
  unfold subscribeScope at hr
  split at hr
  · next hlen =>
    obtain rfl := List.length_eq_zero_iff.mp hlen.1
    rw [suffixOf_of_length hlen.2, List.nil_append]
    exact Loops.pure_eq_ok.mp hr ▸ subscribeRootScope_compares hlen.2
  split at hr
  · next hlen =>
    rw [suffixOf_of_length hlen.2]
    exact subscribeInnerScope_compares hlen.2 hr
  · exact Loops.pure_eq_ok.mp hr ▸ nofun

theorem publishExistingInfo_compares (hP : s.scopeIndex (fatherOf X) = some f) :
    s.ComparedItem X strategy (s.publishExistingInfo h p f X strategy) := by
  unfold publishExistingInfo
  split
  · next hst => exact fun _ => ⟨f, hP, hst⟩
  · exact nofun

theorem advertiseInfo_compares (hID : ID.length = pursuitIdLen) :
    s.ComparedItem (P ++ ID) strategy (s.advertiseInfo h ID P strategy) := by
  unfold advertiseInfo
  dsimp only
  split
  · exact nofun
  · next f hP =>
    rw [← fatherOf_append (F := P) hID] at hP
    split
    · split
      · exact nofun
      split
      · next hst => exact fun _ => ⟨f, hP, hst⟩
      · exact nofun
    · exact publishExistingInfo_compares hP

theorem readvertiseInfo_compares (hID : pursuitIdLen ≤ ID.length) :
    s.ComparedItem (P ++ suffixOf ID) strategy (s.readvertiseInfo h ID P strategy) := by
  unfold readvertiseInfo
  dsimp only
  split
  · exact nofun
  split
  · exact nofun
  · next f hP =>
    rw [← fatherOf_append (F := P) (suffixOf_length hID)] at hP
    split
    · exact nofun
    split
    · split
      · next hst => exact fun _ => ⟨f, hP, hst⟩
      · exact nofun
    · exact publishExistingInfo_compares hP

theorem publishInfo_compares :
    s.ComparedItem (P ++ suffixOf ID) strategy (s.publishInfo h ID P strategy) := by
  unfold publishInfo
  split
  · next hlen =>
    rw [suffixOf_of_length hlen.2]
    exact advertiseInfo_compares hlen.2
  split
  · next hlen => exact readvertiseInfo_compares hlen.2.le
  · exact nofun

theorem subscribeInfo_compares :
    s.ComparedItem (P ++ ID) strategy (s.subscribeInfo h ID P strategy) := by
  unfold subscribeInfo
  split
  · next hlen =>
    dsimp only
    split
    · exact nofun
    · next f hP =>
      rw [← fatherOf_append (F := P) hlen.2] at hP
      split
      · split
        · exact nofun
        split
        · next hst => exact fun _ => ⟨f, hP, hst⟩
        · exact nofun
      · split
        · next hst => exact fun _ => ⟨f, hP, hst⟩
        · exact nofun
  · exact nofun

/-! ## The strategy of a registration -/

/-- The strategy that a withdrawal from `X` has to name. -/
def Names (s : LocalRV) (n : Node) (X : Id) (strategy : Strategy) : Prop :=
  match n.kind with
  | .scope => s.strategy n = strategy
  | .item => s.FatherStrategy X strategy

theorem Entered.keeps_strategy (he : s.Entered h n role X s') (hY : Y ∈ s.ids m) :
    s'.strategy m = s.strategy m := by
  cases he with
  | existing => rfl
  | root ha => exact ha.strategy m Y hY
  | newScope _ ha _ ht =>
    subst ht
    exact ha.strategy m Y hY
  | linkedScope _ _ ha _ _ ht =>
    subst ht
    exact ha.strategy m Y hY
  | newItem _ ha _ ht =>
    subst ht
    exact ha.strategy m Y hY
  | linkedItem _ _ ha _ _ ht =>
    subst ht
    exact ha.strategy m Y hY

/-- The father of an old id stays its father. -/
theorem Entered.keepsFatherStrategy (he : s.Entered h n role X s') (hs : s.Inv lab)
    (hF : fatherOf Y ∈ s.ids (.scope f)) :
    s'.FatherStrategy Y strategy ↔ s.strategy (.scope f) = strategy := by
  obtain ⟨lab', hs'⟩ := he.inv hs
  have hidx : s'.scopeIndex (fatherOf Y) = some f := hs'.index_of_mem (he.mono hs hF)
  rw [← he.keeps_strategy hF]
  exact ⟨fun h => h f hidx, fun hst g hg => Option.some.inj (hidx.symm.trans hg) ▸ hst⟩

theorem Entered.names (he : s.Entered h n role X s') (hs : s.Inv lab) (hY : Y ∈ s.ids m)
    (hn : s.Names m Y strategy) : s'.Names m Y strategy := by
  obtain ⟨k, p⟩ := m
  cases k with
  | scope => exact (he.keeps_strategy hY).trans hn
  | item =>
    obtain ⟨f, hf⟩ : ∃ f, f ∈ s.fatherScopes (.item p) := by
      rcases hs.has_father _ _ hY with ⟨hk, -⟩ | hf
      · cases hk
      · exact hf
    obtain ⟨g, -, F, hF, rfl⟩ := hs.below hf hY
    rw [← fatherOf_append (F := F) (hs.lab_length (.item p))] at hF
    exact (he.keepsFatherStrategy hs hF).mpr (hn g (hs.index_of_mem hF))

theorem Left.names (hl : s.Left h n role X s') (hs : s.Inv lab) (hn : s.Names m Y strategy) :
    s'.Names m Y strategy := by
  obtain ⟨k, p⟩ := m
  cases k with
  | scope => exact (congrFun hl.strategy _).trans hn
  | item =>
    intro f hf
    rw [hl.strategy]
    exact hn f (hs.index_of_mem (hl.mem_ids_sub ((hl.inv hs).of_index hf)))

/-! ## What a registration can be withdrawn with -/

/-- A republication of a scope that has another strategy than its new father. -/
def MixesScopes (s : LocalRV) (r : Request) : Prop := r.type = .publishScope ∧ s.Mixes r

theorem handle_comparesScope (ht : r.type.enters = true) (hk : r.type.kind = .scope)
    (hr : r.WellFormed) (hrun : handle fuel s h r = .ok (code, s')) :
    s.ComparedScope r.fullID r.strategy (code, s') := by
  obtain ⟨type, ID, P, strategy⟩ := r
  cases type with
  | publishScope => exact publishScope_compares hrun
  | subscribeScope => exact subscribeScope_compares hrun
  | publishInfo | subscribeInfo | unpublishInfo | unsubscribeInfo => cases hk
  | unpublishScope | unsubscribeScope => cases ht

theorem handle_comparesItem (ht : r.type.enters = true) (hk : r.type.kind = .item)
    (hr : r.WellFormed) (hrun : handle fuel s h r = .ok (code, s')) :
    s.ComparedItem r.fullID r.strategy (code, s') := by
  obtain ⟨type, ID, P, strategy⟩ := r
  cases type with
  | publishInfo => exact Loops.pure_eq_ok.mp hrun ▸ publishInfo_compares
  | subscribeInfo =>
    rw [fullID_of_single (hr.single nofun nofun)]
    exact Loops.pure_eq_ok.mp hrun ▸ subscribeInfo_compares
  | publishScope | subscribeScope | unpublishScope | unsubscribeScope => cases hk
  | unpublishInfo | unsubscribeInfo => cases ht

theorem Inv.nil_not_mem (hs : s.Inv lab) : ¬ [] ∈ s.ids n := by
  intro h
  have hlen := hs.ids_length h
  simp [pursuitIdLen] at hlen

theorem Entered.new_strategy (he : s.Entered h (.scope p) role X s') (hs : s.Inv lab)
    (hnone : ∀ Y, ¬ Y ∈ s.ids (.scope p)) (hF : fatherOf X ∈ s.ids (.scope f)) :
    s'.strategy (.scope p) = s.strategy (.scope f) := by
  cases he with
  | existing hX => exact absurd hX (hnone X)
  | root ha hX =>
    obtain ⟨lab', hs₁⟩ := ha.inv
    have hroot : ∀ g, ¬ g ∈ _ := fun g hg => by
      rcases (ha.fathers (.scope s.next) g).mp hg with hg | ⟨-, ho⟩
      · obtain ⟨Y, hY⟩ := hs.live hg
        exact hnone Y hY
      · cases ho
    have hnil : fatherOf X = [] := by
      rw [hs₁.root_ids hroot hX]
      exact fatherOf_append (F := []) (hs₁.lab_length _)
    exact absurd (hnil ▸ hF) hs.nil_not_mem
  | newScope hP ha hX ht hst =>
    subst ht
    obtain rfl : f = _ := congrArg Node.ptr (hs.owner_unique hF hP)
    exact hst
  | linkedScope hE => exact absurd hE (hnone _)

theorem Entered.root_eq (he : s.Entered h (.scope p) role X s') (hs : s.Inv lab)
    (hX : ¬ X ∈ s.ids (.scope p)) (hF : fatherOf X = []) : p = s.next := by
  cases he with
  | existing hX' => exact absurd hX' hX
  | root | newScope => rfl
  | linkedScope _ hP => exact absurd (hF ▸ hP) hs.nil_not_mem

theorem registered_names (hs : s.Inv lab) (hr : r.WellFormed) (ht : r.type.enters = true)
    (hmix : ¬ s.MixesScopes r) (hrun : handle fuel s h r = .ok (.success, s')) :
    ∃ p, s.Entered h ⟨r.type.kind, p⟩ r.type.role r.fullID s' ∧
      s'.Names ⟨r.type.kind, p⟩ r.fullID r.strategy := by
  obtain ⟨p, he, hnew⟩ : s.Enters h r.type.kind r.type.role r.fullID r.ID r.strategy s' := by
    cases handle_effect hs hr hrun with
    | refused hc => exact absurd rfl hc
    | entered _ he => exact he
    | left ht' => exact absurd (ht.symm.trans ht') nofun
    | unpublished ht' => rw [ht'] at ht; cases ht
  refine ⟨p, he, ?_⟩
  cases hk : r.type.kind with
  | item =>
    obtain ⟨f, hf, hst⟩ := handle_comparesItem ht hk hr hrun rfl
    exact (he.keepsFatherStrategy hs (hs.of_index hf)).mpr hst
  | scope =>
    rw [hk] at he hnew
    show s'.strategy (.scope p) = r.strategy
    obtain ⟨lab', hs'⟩ := he.inv hs
    rcases handle_comparesScope ht hk hr hrun rfl with ⟨sc, hsc, hst⟩ | ⟨hsc, hfather⟩
    · have hX := hs.of_index hsc
      obtain rfl : p = sc := congrArg Node.ptr (hs'.owner_unique (he.mem_ids hs) (he.mono hs hX))
      exact (he.keeps_strategy hX).trans hst
    have hX : ¬ r.fullID ∈ s.ids (.scope p) := hs.index_none hsc
    rcases hfather with ⟨f, hf, hst⟩ | ⟨hroot, hst⟩
    · have hF := hs.of_index hf
      by_cases hold : ∃ Y, Y ∈ s.ids (.scope p)
      · -- The scope was there and gets the new father.
        obtain ⟨hlong, hE, -⟩ := hnew hold hX
        rw [he.keeps_strategy hE]
        by_contra hne
        have htype : r.type = .publishScope := by
          by_contra htype
          refine absurd (hr.single htype fun hinfo => ?_) hlong.ne'
          rw [hinfo] at hk
          cases hk
        refine hmix ⟨htype, Or.inl htype, hlong, hsc, he.index_none hs hX .item, f, p, ?_, hst, ?_, ?_⟩
        · rwa [fatherOf_fullID hlong.le] at hf
        · rw [hk]
          exact hs.index_of_mem hE
        · rwa [hk]
      · rw [he.new_strategy hs (not_exists.mp hold) hF, hst]
    · rw [he.root_eq hs hX hroot]
      exact hst

/-! ## Withdrawals -/

/-- The request that withdraws. -/
def withdrawal : Kind → Role → RequestType
  | .scope, .publisher => .unpublishScope
  | .scope, .subscriber => .unsubscribeScope
  | .item, .publisher => .unpublishInfo
  | .item, .subscriber => .unsubscribeInfo

/-- The host leaves the pair of `X`. A publisher of a scope also leaves the items directly
under it. -/
def Withdrawn (s : LocalRV) (h : NodeId) (n : Node) (role : Role) (X : Id) (s' : LocalRV) : Prop :=
  ∀ h' m Y role', h' ∈ s'.pairAt m Y role' ↔ h' ∈ s.pairAt m Y role' ∧
    ¬ (h' = h ∧ role' = role ∧ ((m = n ∧ Y = X) ∨
      (n.kind = .scope ∧ role = .publisher ∧ m.kind = .item ∧ fatherOf Y ∈ s.ids n)))

theorem Left.withdrawn (hl : s.Left h n role X s') (hn : ¬ (n.kind = .scope ∧ role = .publisher)) :
    s.Withdrawn h n role X s' := by
  intro h' m Y role'
  rw [hl.mem_pairAt]
  tauto

/-- The publications that are gone are those of the items directly under the scope. -/
theorem ItemsWithdrawn.mem_pairAt (hw : ItemsWithdrawn h sc s s₁) (hs : s.Inv lab)
    (hclear : ∀ p, sc ∈ s.fatherScopes (.item p) → ∀ F ∈ s.ids (.scope sc),
      ¬ h ∈ s₁.pairAt (.item p) (F ++ lab (.item p)) .publisher) :
    h' ∈ s₁.pairAt m Y role' ↔ h' ∈ s.pairAt m Y role' ∧
      ¬ (h' = h ∧ role' = .publisher ∧ m.kind = .item ∧ fatherOf Y ∈ s.ids (.scope sc)) := by
  constructor
  · intro hh
    have hh₀ := hw.pairAt_sub hh
    refine ⟨hh₀, ?_⟩
    rintro ⟨rfl, rfl, hk, hF⟩
    obtain ⟨k, p⟩ := m
    cases hk
    have hY := mem_of_pairAt hh₀
    have hsuffix := hs.suffix _ Y hY
    rw [← fatherOf_append_suffixOf Y, hsuffix] at hh hY
    exact hclear p (hs.child_of_ext (hs.lab_length _) hF hY).1 _ hF hh
  · rintro ⟨hh, hnot⟩
    clear hclear
    induction hw with
    | refl => exact hh
    | tail hw hstep ih =>
      obtain ⟨p, X, -, -, hin, hl⟩ := hstep
      refine hl.mem_pairAt.mpr ⟨ih, ?_⟩
      rintro ⟨rfl, rfl, rfl, rfl⟩
      have hk := ItemsWithdrawn.keepsScopes hw hs
      exact hnot ⟨rfl, rfl, rfl, (hk.mem_ids sc _).mp (hin sc rfl)⟩

theorem unpublishScope_withdrawn (hs : s.Inv lab) (hID : ID.length = pursuitIdLen)
    (hh : h ∈ s.pairAt (.scope sc) (P ++ ID) .publisher) (hst : s.strategy (.scope sc) = strategy) :
    ∃ s', s.unpublishScope h ID P strategy = .ok (.success, s') ∧
      s.Withdrawn h (.scope sc) .publisher (P ++ ID) s' := by
  obtain ⟨code, s', hrun, hout⟩ := unpublishScope_spec hs hID h P strategy
  obtain rfl := unpublishScope_accepted hs hh hst hrun
  refine ⟨s', hrun, ?_⟩
  rcases hout with ⟨hc, -⟩ | ⟨sc', s₁, hX, -, hw, hclear, ⟨hc, -⟩ | ⟨-, hl⟩⟩
  · exact absurd rfl hc
  · cases hc
  obtain rfl : sc = sc' := congrArg Node.ptr (hs.owner_unique (mem_of_pairAt hh) hX)
  intro h' m Y role'
  rw [hl.mem_pairAt, hw.mem_pairAt hs hclear, and_assoc]
  refine and_congr_right fun _ => ?_
  tauto

theorem unsubscribeScope_withdrawn (hs : s.Inv lab) (hID : ID.length = pursuitIdLen)
    (hh : h ∈ s.pairAt (.scope sc) (P ++ ID) .subscriber) (hst : s.strategy (.scope sc) = strategy) :
    ∃ s', s.unsubscribeScope h ID P strategy = .ok (.success, s') ∧
      s.Withdrawn h (.scope sc) .subscriber (P ++ ID) s' := by
  obtain ⟨⟨code, s'⟩, hrun, hout⟩ := unsubscribeScope_spec hs hID h P strategy
  obtain rfl := unsubscribeScope_accepted hs hh hst hrun
  refine ⟨s', hrun, ?_⟩
  rcases hout with ⟨hc, -⟩ | ⟨-, sc', hl, -⟩
  · exact absurd rfl hc
  obtain rfl : sc = sc' := congrArg Node.ptr (hs.owner_unique (mem_of_pairAt hh) (mem_of_pairAt hl.mem))
  exact hl.withdrawn nofun

theorem unpublishInfo_withdrawn (hs : s.Inv lab) (hID : ID.length = pursuitIdLen)
    (hh : h ∈ s.pairAt (.item p) (P ++ ID) .publisher) (hst : s.FatherStrategy (P ++ ID) strategy) :
    ∃ s', s.unpublishInfo h ID P strategy = .ok (.success, s') ∧
      s.Withdrawn h (.item p) .publisher (P ++ ID) s' := by
  obtain ⟨⟨code, s'⟩, hrun, hout⟩ := unpublishInfo_spec hs hID h P strategy
  obtain rfl := unpublishInfo_accepted hs hID hh hst hrun
  refine ⟨s', hrun, ?_⟩
  rcases hout with ⟨hc, -⟩ | ⟨-, q, hl, -⟩
  · exact absurd rfl hc
  obtain rfl : p = q := congrArg Node.ptr (hs.owner_unique (mem_of_pairAt hh) (mem_of_pairAt hl.mem))
  exact hl.withdrawn nofun

theorem unsubscribeInfo_withdrawn (hs : s.Inv lab) (hID : ID.length = pursuitIdLen)
    (hh : h ∈ s.pairAt (.item p) (P ++ ID) .subscriber) (hst : s.FatherStrategy (P ++ ID) strategy) :
    ∃ s', s.unsubscribeInfo h ID P strategy = .ok (.success, s') ∧
      s.Withdrawn h (.item p) .subscriber (P ++ ID) s' := by
  obtain ⟨⟨code, s'⟩, hrun, hout⟩ := unsubscribeInfo_spec hs hID h P strategy
  obtain rfl := unsubscribeInfo_accepted hs hID hh hst hrun
  refine ⟨s', hrun, ?_⟩
  rcases hout with ⟨hc, -⟩ | ⟨-, q, hl, -⟩
  · exact absurd rfl hc
  obtain rfl : p = q := congrArg Node.ptr (hs.owner_unique (mem_of_pairAt hh) (mem_of_pairAt hl.mem))
  exact hl.withdrawn nofun

/-! ## Runs -/

/-- The strategy of the last request that registered a host under an id. -/
abbrev Strategies := NodeId → Kind → Role → Id → Strategy

def Strategies.note (σ : Strategies) (h : NodeId) (r : Request) : Strategies := fun h' k role X =>
  if h' = h ∧ k = r.type.kind ∧ role = r.type.role ∧ X = r.fullID then r.strategy else σ h' k role X

/-- A step, with the strategies of the registrations. -/
def NotedStep (x : LocalRV × Strategies) (a : NodeId × Request) (y : LocalRV × Strategies) : Prop :=
  a.2.WellFormed ∧ ∃ fuel code, handle fuel x.1 a.1 a.2 = .ok (code, y.1) ∧
    y.2 = if a.2.type.enters = true ∧ code = .success then x.2.note a.1 a.2 else x.2

/-- Every host can withdraw from what it is registered under, with the strategy of then. -/
def Withdrawable (s : LocalRV) (σ : Strategies) : Prop :=
  ∀ h n role P ID, ID.length = pursuitIdLen → h ∈ s.pairAt n (P ++ ID) role →
    ∃ s', (∀ fuel, handle fuel s h ⟨withdrawal n.kind role, ID, P, σ h n.kind role (P ++ ID)⟩ =
      .ok (.success, s')) ∧ s.Withdrawn h n role (P ++ ID) s'

/-- The strategies are those that the withdrawals compare. -/
def Noted (s : LocalRV) (σ : Strategies) : Prop :=
  ∀ h n role X, h ∈ s.pairAt n X role → s.Names n X (σ h n.kind role X)

theorem Noted.withdraws {σ : Strategies} (hσ : s.Noted σ) (hs : s.Inv lab) : s.Withdrawable σ := by
  intro h n role P ID hID hh
  have hst := hσ h n role _ hh
  obtain ⟨k, p⟩ := n
  cases k with
  | scope =>
    cases role with
    | publisher =>
      obtain ⟨s', hrun, hw⟩ := unpublishScope_withdrawn hs hID hh hst
      exact ⟨s', fun _ => hrun, hw⟩
    | subscriber =>
      obtain ⟨s', hrun, hw⟩ := unsubscribeScope_withdrawn hs hID hh hst
      exact ⟨s', fun _ => hrun, hw⟩
  | item =>
    cases role with
    | publisher =>
      obtain ⟨s', hrun, hw⟩ := unpublishInfo_withdrawn hs hID hh hst
      exact ⟨s', fun _ => hrun, hw⟩
    | subscriber =>
      obtain ⟨s', hrun, hw⟩ := unsubscribeInfo_withdrawn hs hID hh hst
      exact ⟨s', fun _ => hrun, hw⟩

theorem NotedStep.step {x y : LocalRV × Strategies} {a : NodeId × Request} (h : NotedStep x a y) :
    x.1.Step a y.1 := by
  obtain ⟨hr, fuel, code, hrun, -⟩ := h
  exact ⟨hr, fuel, code, hrun⟩

theorem Step.noted {a : NodeId × Request} (hstep : s.Step a s') (σ : Strategies) :
    ∃ σ', NotedStep (s, σ) a (s', σ') := by
  obtain ⟨hr, fuel, code, hrun⟩ := hstep
  exact ⟨_, hr, fuel, code, hrun, rfl⟩

theorem exists_noted {nodeID : NodeId} {ok : LocalRV → NodeId × Request → Prop}
    (hrun : Runs.Reachable (Runs.Guarded Step ok) (init nodeID) s) (σ₀ : Strategies) :
    ∃ σ, Runs.Reachable (Runs.Guarded NotedStep fun x a => ok x.1 a) (init nodeID, σ₀) (s, σ) := by
  refine hrun.invariant (I := fun t => ∃ σ,
    Runs.Reachable (Runs.Guarded NotedStep fun x a => ok x.1 a) (init nodeID, σ₀) (t, σ))
    ⟨σ₀, .start⟩ fun s a s' _ ih hstep => ?_
  obtain ⟨σ, hσ⟩ := ih
  obtain ⟨σ', hnoted⟩ := hstep.1.noted σ
  exact ⟨σ', hσ.next ⟨hnoted, hstep.2⟩⟩

theorem Entered.noted {σ : Strategies} (he : s.Entered h ⟨r.type.kind, p⟩ r.type.role r.fullID s')
    (hs : s.Inv lab) (hσ : s.Noted σ) (hn : s'.Names ⟨r.type.kind, p⟩ r.fullID r.strategy) :
    s'.Noted (σ.note h r) := by
  intro h' m role' Y hh
  by_cases hsame : h' = h ∧ m.kind = r.type.kind ∧ role' = r.type.role ∧ Y = r.fullID
  · obtain ⟨lab', hs'⟩ := he.inv hs
    obtain ⟨rfl, hk, rfl, rfl⟩ := hsame
    obtain rfl := hs'.owner_unique (he.mem_ids hs) (mem_of_pairAt hh)
    rwa [Strategies.note, if_pos ⟨rfl, rfl, rfl, rfl⟩]
  · rw [Strategies.note, if_neg hsame]
    rcases (he.mem_pairAt hs).mp hh with ⟨rfl, rfl, rfl, rfl⟩ | hh
    · exact absurd ⟨rfl, rfl, rfl, rfl⟩ hsame
    · exact he.names hs (mem_of_pairAt hh) (hσ h' m role' Y hh)

theorem Left.noted {σ : Strategies} (hl : s.Left h n role X s') (hs : s.Inv lab) (hσ : s.Noted σ) :
    s'.Noted σ := fun h' m role' Y hh =>
  hl.names hs (hσ h' m role' Y (hl.mem_pairAt.mp hh).1)

theorem ItemsWithdrawn.noted {σ : Strategies} (hw : ItemsWithdrawn h sc s s₁) (hs : s.Inv lab)
    (hσ : s.Noted σ) : s₁.Noted σ := by
  induction hw with
  | refl => exact hσ
  | tail hw hstep ih =>
    obtain ⟨p, X, -, -, -, hl⟩ := hstep
    exact hl.noted (ItemsWithdrawn.keepsScopes hw hs).inv ih

theorem NotedStep.noted {σ σ' : Strategies} {a : NodeId × Request}
    (hstep : NotedStep (s, σ) a (s', σ')) (hs : s.Inv lab) (hmix : ¬ s.MixesScopes a.2)
    (hσ : s.Noted σ) : s'.Noted σ' := by
  obtain ⟨hr, fuel, code, hrun, hnote⟩ := hstep
  dsimp only at hrun hnote
  split at hnote
  · next hreg =>
    obtain ⟨ht, rfl⟩ := hreg
    obtain ⟨p, he, hn⟩ := registered_names hs hr ht hmix hrun
    exact hnote ▸ he.noted hs hσ hn
  · next hreg =>
    subst hnote
    cases handle_effect hs hr hrun with
    | refused => exact hσ
    | entered ht => exact absurd ⟨ht, rfl⟩ hreg
    | left _ _ hl =>
      obtain ⟨p, hl, -⟩ := hl
      exact hl.noted hs hσ
    | unpublished _ _ _ hw hl => exact hl.noted (hw.keepsScopes hs).inv (hw.noted hs hσ)
    | onlyItems _ _ _ hw => exact hw.noted hs hσ

theorem noted_init (nodeID : NodeId) (σ : Strategies) : (init nodeID).Noted σ := by
  intro h n role X hh
  simp [init, pairAt] at hh

/-! ## The registration that cannot be withdrawn -/

theorem republishInnerScope_linked (hs : s.Inv lab) (hlong : pursuitIdLen < ID.length)
    (hii : s.pubIndex (P ++ suffixOf ID) = none) (hsc : s.scopeIndex (P ++ suffixOf ID) = none)
    (hP : s.scopeIndex P = some f) (hE : s.scopeIndex ID = some p)
    (hst : s.strategy (.scope f) = strategy)
    (hrun : s.republishInnerScope fuel h ID P strategy = .ok res) :
    res.1 = .success ∧ s.Entered h (.scope p) .publisher (P ++ suffixOf ID) res.2 := by
  simp only [republishInnerScope, hii, hP, hE, hsc, if_pos hst] at hrun
  obtain ⟨s₁, hids, hrun⟩ := Loops.bind_eq_ok.mp hrun
  have hE := hs.of_index hE
  obtain ⟨hreg, ha, hnew, hX⟩ := republished_entered hs hlong hE hii hsc (hs.of_index hP) h hids
  simp only [hreg, Loops.pure_eq_ok, notifySubscribers_eq, fatherOf_append_suffixOf] at hrun
  subst hrun
  refine ⟨rfl, .linkedScope hE ?_ ha hnew hX rfl⟩
  rw [fatherOf_append (suffixOf_length hlong.le)]
  exact hs.of_index hP

theorem unpublishScope_mismatch (hX : s.scopeIndex (P ++ ID) = some sc)
    (hst : s.strategy (.scope sc) ≠ strategy) :
    s.unpublishScope h ID P strategy = .ok (.strategyMismatch, s) := by
  simp only [unpublishScope, hX, if_pos hst]
  rfl

theorem NotedStep.not_withdrawable {σ σ' : Strategies} {a : NodeId × Request}
    (hstep : NotedStep (s, σ) a (s', σ')) (hs : s.Inv lab) (hmix : s.MixesScopes a.2) :
    ¬ s'.Withdrawable σ' := by
  obtain ⟨h, ⟨type, ID, P, strategy⟩⟩ := a
  obtain ⟨htype, -, hlong, hsc, hii, f, p, hP, hst, hE, hne⟩ := hmix
  obtain rfl : type = .publishScope := htype
  obtain ⟨-, fuel, code, hrun, hnote⟩ := hstep
  have hPlen : 0 < P.length := Nat.lt_of_lt_of_le (by decide) (hs.ids_length (hs.of_index hP))
  have hPlen' : P.length ≠ 0 := hPlen.ne'
  have hIDlen : ID.length ≠ pursuitIdLen := hlong.ne'
  have hrun : s.publishScope fuel h ID P strategy = .ok (code, s') := hrun
  rw [publishScope, if_neg (by tauto), if_neg (by tauto), if_pos ⟨hPlen, hlong⟩] at hrun
  obtain ⟨hcode, he⟩ := republishInnerScope_linked hs hlong hii hsc hP hE hst hrun
  obtain rfl : code = .success := hcode
  have hh : h ∈ s'.pairAt (.scope p) (P ++ suffixOf ID) .publisher :=
    (he.mem_pairAt hs).mpr (Or.inl ⟨rfl, rfl, rfl, rfl⟩)
  obtain ⟨lab', hs'⟩ := he.inv hs
  have hX : s'.scopeIndex (P ++ suffixOf ID) = some p := hs'.index_of_mem (mem_of_pairAt hh)
  have hst' : s'.strategy (.scope p) ≠ strategy := fun heq =>
    hne ((he.keeps_strategy (hs.of_index hE)).symm.trans heq)
  intro hall
  obtain ⟨s'', hundo, -⟩ := hall h (.scope p) .publisher P (suffixOf ID) (suffixOf_length hlong.le) hh
  have hσ : σ' h .scope .publisher (P ++ suffixOf ID) = strategy := by
    have hnote : σ' = _ := hnote
    rw [hnote, if_pos ⟨rfl, rfl⟩, Strategies.note, if_pos ⟨rfl, rfl, rfl, rfl⟩]
  have hundo := hundo 0
  rw [hσ] at hundo
  have hmismatch := hundo.symm.trans (unpublishScope_mismatch hX hst')
  cases (Prod.mk.inj (Except.ok.inj hmismatch)).1

/-- In a run that republishes no scope under a father of another strategy all registrations can
be withdrawn, and the first such republication ends that. -/
theorem withdrawable {nodeID : NodeId} {σ₀ σ : Strategies}
    (hrun : Runs.Reachable (Runs.Guarded NotedStep fun x a => ¬ x.1.MixesScopes a.2)
      (init nodeID, σ₀) (s, σ)) :
    s.Withdrawable σ ∧ ∀ a s' σ', NotedStep (s, σ) a (s', σ') →
      (s'.Withdrawable σ' ↔ ¬ s.MixesScopes a.2) := by
  obtain ⟨hreach, hσ⟩ := hrun.invariant
    (I := fun x => Runs.Reachable Step (init nodeID) x.1 ∧ x.1.Noted x.2) ⟨.start, noted_init nodeID σ₀⟩
    fun x a y _ hI hstep => by
      obtain ⟨hreach, hσ⟩ := hI
      obtain ⟨lab, hs⟩ := inv_of_run hreach
      exact ⟨hreach.next hstep.1.step, hstep.1.noted hs hstep.2 hσ⟩
  obtain ⟨lab, hs⟩ := inv_of_run hreach
  refine ⟨hσ.withdraws hs, fun a s' σ' hstep => ⟨fun hall hmix => hstep.not_withdrawable hs hmix hall,
    fun hmix => ?_⟩⟩
  obtain ⟨lab', hs'⟩ := inv_of_run (hreach.next hstep.step)
  exact (hstep.noted hs hmix hσ).withdraws hs'

/-- Two scopes of two strategies, and a scope below the first. -/
def nestedScopesRun : List (NodeId × Request) :=
  [([1], ⟨.publishScope, frag 1, [], domainLocal⟩),
    ([1], ⟨.publishScope, frag 2, [], nodeLocal⟩),
    ([1], ⟨.publishScope, frag 3, frag 1, domainLocal⟩)]

theorem withdrawable_nestedScopes : ∃ σ, (afterRun 1 [0] nestedScopesRun).Withdrawable σ ∧
    ∀ a s' σ', NotedStep (afterRun 1 [0] nestedScopesRun, σ) a (s', σ') →
      (s'.Withdrawable σ' ↔ ¬ (afterRun 1 [0] nestedScopesRun).MixesScopes a.2) := by
  have hshort : ∀ a ∈ nestedScopesRun, a.2.WellFormed ∧ a.2.ID.length ≤ pursuitIdLen := by decide
  have hrun : Runs.Reachable (Runs.Guarded Step fun s a => ¬ s.MixesScopes a.2) (init [0])
      (afterRun 1 [0] nestedScopesRun) := guarded_afterRun 1 [0] fun a ha =>
    ⟨(hshort a ha).1, fun s hmix => absurd hmix.2.2.1 (Nat.not_lt.mpr (hshort a ha).2)⟩
  obtain ⟨σ, hσ⟩ := exists_noted hrun fun _ _ _ _ => domainLocal
  exact ⟨σ, withdrawable hσ⟩

/-- The scope goes below the second one too, and the host cannot withdraw from there. -/
theorem not_withdrawable : ∃ s σ, Runs.Reachable NotedStep (init [0], fun _ _ _ _ => domainLocal) (s, σ) ∧
    ¬ s.Withdrawable σ := by
  have hwf : ∀ a ∈ nestedScopesRun, a.2.WellFormed := by decide
  have hrun : Runs.Reachable (Runs.Guarded Step fun _ _ => True) (init [0])
      (afterRun 1 [0] nestedScopesRun) :=
    guarded_afterRun 1 [0] fun a ha => ⟨hwf a ha, fun _ => True.intro⟩
  obtain ⟨lab, hs⟩ := inv_of_run hrun.of_guarded
  obtain ⟨σ, hσ⟩ := exists_noted hrun fun _ _ _ _ => domainLocal
  have hstep := step_afterRun 1 [0] nestedScopesRun
    ([1], ⟨.publishScope, frag 1 ++ frag 3, frag 2, nodeLocal⟩) (by decide) (by decide)
  obtain ⟨σ', hnoted⟩ := hstep.noted σ
  exact ⟨_, σ', hσ.of_guarded.next hnoted, hnoted.not_withdrawable hs
    ⟨rfl, Or.inl rfl, by decide, by decide, by decide, 1, 2, by decide, by decide, by decide, by decide⟩⟩

end LocalRV

end Blackadder
