import Mathlib.Tactic.Common
import Blackadder.Rendezvous.Steps

/-!
# The records of the hosts

Each `RemoteHost` keeps the ids under which it is registered.
-/

namespace Blackadder

namespace LocalRV

variable {s s' : LocalRV} {lab lab' : Node → Id} {n : Node} {X : Id} {h : NodeId} {role : Role}
  {r : Request} {code : ReturnCode}

/-- A host's records and the pairs of the graph name the same registrations. -/
def RecordsAgree (s : LocalRV) : Prop :=
  ∀ h role k X, X ∈ s.record h role k ↔ ∃ p, h ∈ s.pairAt ⟨k, p⟩ X role

theorem Entered.recordsAgree (he : s.Entered h n role X s') (hs : s.Inv lab)
    (hr : s.RecordsAgree) : s'.RecordsAgree := by
  intro h' role' k Y
  rw [he.mem_record hs, hr]
  constructor
  · rintro (⟨rfl, rfl, rfl, rfl⟩ | ⟨p, hp⟩)
    · exact ⟨n.ptr, (he.mem_pairAt hs).mpr (Or.inl ⟨rfl, rfl, rfl, rfl⟩)⟩
    · exact ⟨p, (he.mem_pairAt hs).mpr (Or.inr hp)⟩
  · rintro ⟨p, hp⟩
    rcases (he.mem_pairAt hs).mp hp with ⟨hn, hrest⟩ | hp
    · exact Or.inl ⟨congrArg Node.kind hn, hrest⟩
    · exact Or.inr ⟨p, hp⟩

/-- The id that leaves the record had one owner, so no other pair keeps the host. -/
theorem Left.recordsAgree (hl : s.Left h n role X s') (hs : s.Inv lab)
    (hr : s.RecordsAgree) : s'.RecordsAgree := by
  intro h' role' k Y
  rw [hl.mem_record, hr]
  constructor
  · rintro ⟨⟨p, hp⟩, hnot⟩
    refine ⟨p, hl.mem_pairAt.mpr ⟨hp, ?_⟩⟩
    rintro ⟨hn, hrest⟩
    exact hnot ⟨congrArg Node.kind hn, hrest⟩
  · rintro ⟨p, hp⟩
    obtain ⟨hp, hnot⟩ := hl.mem_pairAt.mp hp
    refine ⟨⟨p, hp⟩, ?_⟩
    rintro ⟨rfl, rfl, rfl, rfl⟩
    have hn := hs.owner_unique (mem_of_pairAt hp) (mem_of_pairAt hl.mem)
    exact hnot ⟨hn, rfl, rfl, rfl⟩

theorem recordsAgree_of_reachable (hs : s.Reachable) : s.RecordsAgree := by
  obtain ⟨nodeID, hrun⟩ := hs
  refine hrun.invariant (I := RecordsAgree) (fun h role k X => ?_) fun s a s' hrun hr hstep => ?_
  · simp [init, pairAt]
  · obtain ⟨lab, hs⟩ := inv_of_run hrun
    obtain ⟨code, he⟩ := hstep.effect hs
    exact he.preserves hs hr (fun hs hr he => he.recordsAgree hs hr)
      (fun hs hr hl => hl.recordsAgree hs hr)

/-! ## What a request takes from the records -/

/-- The registrations that a request of `h` may end. -/
def MayEnd (s : LocalRV) (h : NodeId) (r : Request) (h' : NodeId) (role : Role) (k : Kind) (X : Id) :
    Prop :=
  h' = h ∧ role = r.type.role ∧ r.type.enters = false ∧
    ((k = r.type.kind ∧ X = r.fullID) ∨
      (r.type = .unpublishScope ∧ k = .item ∧
        ∃ sc, r.fullID ∈ s.ids (.scope sc) ∧ fatherOf X ∈ s.ids (.scope sc)))

theorem ItemsWithdrawn.ended {sc : Ptr} {s₁ : LocalRV} (hw : ItemsWithdrawn h sc s s₁)
    (hs : s.Inv lab) {h' : NodeId} {role' : Role} {k : Kind} {Y : Id}
    (hY : Y ∈ s.record h' role' k) (hY' : ¬ Y ∈ s₁.record h' role' k) :
    h' = h ∧ role' = .publisher ∧ k = .item ∧ fatherOf Y ∈ s.ids (.scope sc) := by
  induction hw with
  | refl => exact absurd hY hY'
  | @tail b c hw hstep ih =>
    have hk := ItemsWithdrawn.keepsScopes hw hs
    by_cases hb : Y ∈ b.record h' role' k
    · obtain ⟨p, X, -, -, hin, hl⟩ := hstep
      rw [hl.mem_record, not_and_not_right] at hY'
      obtain ⟨rfl, rfl, rfl, rfl⟩ := hY' hb
      exact ⟨rfl, rfl, rfl, (hk.mem_ids sc _).mp (hin sc rfl)⟩
    · exact ih hb

theorem Effect.ended (he : Effect s h r code s') (hs : s.Inv lab) {h' : NodeId} {role' : Role}
    {k : Kind} {Y : Id} (hY : Y ∈ s.record h' role' k) (hY' : ¬ Y ∈ s'.record h' role' k) :
    s.MayEnd h r h' role' k Y := by
  cases he with
  | refused => exact absurd hY hY'
  | entered _ he =>
    obtain ⟨p, he, -⟩ := he
    exact absurd ((he.mem_record hs).mpr (Or.inr hY)) hY'
  | left ht _ hl =>
    obtain ⟨p, hl, -⟩ := hl
    rw [hl.mem_record, not_and_not_right] at hY'
    obtain ⟨rfl, rfl, rfl, rfl⟩ := hY' hY
    exact ⟨rfl, rfl, ht, Or.inl ⟨rfl, rfl⟩⟩
  | @unpublished sc s₁ _ ht hX _ hw hl =>
    have hrole : r.type.role = .publisher := by rw [ht]; rfl
    have hent : r.type.enters = false := by rw [ht]; rfl
    by_cases h1 : Y ∈ s₁.record h' role' k
    · rw [hl.mem_record, not_and_not_right] at hY'
      obtain ⟨rfl, rfl, rfl, rfl⟩ := hY' h1
      exact ⟨rfl, hrole.symm, hent, Or.inl ⟨by rw [ht]; rfl, rfl⟩⟩
    · obtain ⟨rfl, rfl, rfl, hF⟩ := hw.ended hs hY h1
      exact ⟨rfl, hrole.symm, hent, Or.inr ⟨ht, rfl, sc, hX, hF⟩⟩
  | @onlyItems sc _ ht hX _ hw _ =>
    obtain ⟨rfl, rfl, rfl, hF⟩ := hw.ended hs hY hY'
    exact ⟨rfl, by rw [ht]; rfl, by rw [ht]; rfl, Or.inr ⟨ht, rfl, sc, hX, hF⟩⟩

/-- An id is recorded for scopes or for items, not for both. -/
theorem RecordsAgree.kind_unique (hr : s.RecordsAgree) (hs : s.Inv lab) {k k' : Kind}
    (hk : X ∈ s.record h role k) (hk' : X ∈ s.record h role k') : k = k' := by
  obtain ⟨p, hp⟩ := (hr h role k X).mp hk
  obtain ⟨p', hp'⟩ := (hr h role k' X).mp hk'
  exact congrArg Node.kind (hs.owner_unique (mem_of_pairAt hp) (mem_of_pairAt hp'))

theorem ItemsWithdrawn.record_sub {sc : Ptr} {s₁ : LocalRV} (hw : ItemsWithdrawn h sc s s₁)
    {h' : NodeId} {role' : Role} {k : Kind} {Y : Id} (hY : Y ∈ s₁.record h' role' k) :
    Y ∈ s.record h' role' k := by
  induction hw with
  | refl => exact hY
  | tail _ hstep ih =>
    obtain ⟨p, X, -, -, -, hl⟩ := hstep
    exact ih (hl.mem_record.mp hY).1

theorem Effect.begun (he : Effect s h r code s') (hs : s.Inv lab) {h' : NodeId} {role' : Role}
    {k : Kind} {Y : Id} (hY : ¬ Y ∈ s.record h' role' k) (hY' : Y ∈ s'.record h' role' k) :
    h' = h ∧ role' = r.type.role ∧ k = r.type.kind ∧ Y = r.fullID := by
  cases he with
  | refused => exact absurd hY' hY
  | entered _ he =>
    obtain ⟨p, he, -⟩ := he
    rcases (he.mem_record hs).mp hY' with ⟨hk, hY, hrole, hh⟩ | hold
    · exact ⟨hh, hrole, hk, hY⟩
    · exact absurd hold hY
  | left _ _ hl =>
    obtain ⟨p, hl, -⟩ := hl
    exact absurd (hl.mem_record.mp hY').1 hY
  | unpublished _ _ _ hw hl => exact absurd (hw.record_sub (hl.mem_record.mp hY').1) hY
  | onlyItems _ _ _ hw _ => exact absurd (hw.record_sub hY') hY

/-- A request that succeeds leaves its id recorded exactly when it is a registration. -/
theorem Effect.settled (he : Effect s h r .success s') (hs : s.Inv lab) (hs' : s'.Inv lab')
    (hr : s.RecordsAgree) (hr' : s'.RecordsAgree) {k : Kind} :
    r.fullID ∈ s'.record h r.type.role k ↔ r.type.enters = true ∧ k = r.type.kind := by
  cases he with
  | refused hc => exact absurd rfl hc
  | entered ht he =>
    obtain ⟨p, he, -⟩ := he
    have hnew : r.fullID ∈ s'.record h r.type.role r.type.kind :=
      (he.mem_record hs).mpr (Or.inl ⟨rfl, rfl, rfl, rfl⟩)
    refine ⟨fun hk => ⟨ht, hr'.kind_unique hs' hk hnew⟩, ?_⟩
    rintro ⟨-, rfl⟩
    exact hnew
  | left ht _ hl =>
    obtain ⟨p, hl, -⟩ := hl
    refine iff_of_false (fun hk => ?_) (by simp [ht])
    obtain ⟨hold, hnot⟩ := hl.mem_record.mp hk
    have hmem := (hr _ _ _ _).mpr ⟨p, hl.mem⟩
    exact hnot ⟨hr.kind_unique hs hold hmem, rfl, rfl, rfl⟩
  | @unpublished sc s₁ _ ht hX _ hw hl =>
    have hrole : r.type.role = .publisher := by rw [ht]; rfl
    refine iff_of_false (fun hk => ?_) (by simp [ht, RequestType.enters])
    obtain ⟨hold, hnot⟩ := hl.mem_record.mp hk
    obtain ⟨p, hp⟩ := (hr _ _ _ _).mp (hw.record_sub hold)
    have hkind : k = .scope := congrArg Node.kind (hs.owner_unique (mem_of_pairAt hp) hX)
    exact hnot ⟨hkind, rfl, hrole, rfl⟩

/-- A host's records are its registrations in the graph. No request ends a registration that
it was not asked to end, whatever it deletes. -/
theorem records_agree (hs : s.Reachable) :
    (∀ h role k X, X ∈ s.record h role k ↔
      ∃ p, s.index k X = some p ∧ h ∈ s.pairAt ⟨k, p⟩ X role) ∧
    ∀ h r s', s.Step (h, r) s' → ∀ h' role k X, X ∈ s.record h' role k →
      ¬ X ∈ s'.record h' role k → s.MayEnd h r h' role k X := by
  obtain ⟨lab, hinv⟩ := hs.inv
  constructor
  · intro h role k X
    rw [recordsAgree_of_reachable hs]
    refine exists_congr fun p => ⟨fun hp => ⟨?_, hp⟩, And.right⟩
    exact hinv.index_of_mem (n := ⟨k, p⟩) (mem_of_pairAt hp)
  · intro h r s' hstep h' role k X hX hX'
    obtain ⟨code, he⟩ := hstep.effect hinv
    exact he.ended hinv hX hX'

/-- A scope that a second host subscribes to, with an item of both. -/
def sharedRun : List (NodeId × Request) :=
  [([1], ⟨.publishScope, frag 1, [], domainLocal⟩), ([2], ⟨.subscribeScope, frag 1, [], domainLocal⟩),
    ([1], ⟨.publishInfo, frag 2, frag 1, domainLocal⟩), ([2], ⟨.publishInfo, frag 2, frag 1, domainLocal⟩)]

/-- The first host withdraws the scope, and with it the item. -/
theorem records_agree_shared :
    (∃ p, (afterRun 1 [0] sharedRun).scopeIndex (frag 1) = some p ∧
      [2] ∈ (afterRun 1 [0] sharedRun).pairAt (.scope p) (frag 1) .subscriber) ∧
    (∃ p, (afterRun 1 [0] sharedRun).pubIndex (frag 1 ++ frag 2) = some p ∧
      [2] ∈ (afterRun 1 [0] sharedRun).pairAt (.item p) (frag 1 ++ frag 2) .publisher) ∧
    (afterRun 1 [0] sharedRun).MayEnd [1] ⟨.unpublishScope, frag 1, [], domainLocal⟩ [1] .publisher
      .item (frag 1 ++ frag 2) := by
  obtain ⟨hagree, hend⟩ :=
    records_agree (reachable_afterRun 1 [0] (by decide : ∀ a ∈ sharedRun, a.2.WellFormed))
  exact ⟨(hagree [2] .subscriber .scope (frag 1)).mp (by decide),
    (hagree [2] .publisher .item (frag 1 ++ frag 2)).mp (by decide),
    hend [1] ⟨.unpublishScope, frag 1, [], domainLocal⟩ _
      (step_afterRun 1 [0] sharedRun _ (by decide) (by decide)) [1] .publisher .item
      (frag 1 ++ frag 2) (by decide) (by decide)⟩

end LocalRV

end Blackadder
