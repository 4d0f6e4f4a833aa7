import Mathlib.Data.List.AList
import Mathlib.Tactic.Common
import Blackadder.Lib.Runs
import Blackadder.Rendezvous.Withdrawals

/-!
# Runs of the rendezvous element
-/

namespace Blackadder

namespace LocalRV

open Request

/-- All that a request of `h` can do, with its code. -/
inductive Effect (s : LocalRV) (h : NodeId) (r : Request) : ReturnCode → LocalRV → Prop
  | refused {code : ReturnCode} (hc : code ≠ .success) : Effect s h r code s
  | entered {s' : LocalRV} (ht : r.type.enters = true)
      (he : s.Enters h r.type.kind r.type.role r.fullID r.ID r.strategy s') : Effect s h r .success s'
  | left {s' : LocalRV} (ht : r.type.enters = false) (hne : r.type ≠ .unpublishScope)
      (hl : s.Leaves h r.type.kind r.type.role r.fullID r.strategy s') : Effect s h r .success s'
  | unpublished {sc : Ptr} {s₁ s' : LocalRV} (ht : r.type = .unpublishScope)
      (hX : r.fullID ∈ s.ids (.scope sc)) (hst : s.strategy (.scope sc) = r.strategy)
      (hw : ItemsWithdrawn h sc s s₁)
      (hl : s₁.Left h (.scope sc) .publisher r.fullID s') : Effect s h r .success s'
  | onlyItems {sc : Ptr} {s₁ : LocalRV} (ht : r.type = .unpublishScope)
      (hX : r.fullID ∈ s.ids (.scope sc)) (hst : s.strategy (.scope sc) = r.strategy)
      (hw : ItemsWithdrawn h sc s s₁)
      (hh : ¬ h ∈ s.pairAt (.scope sc) r.fullID .publisher) : Effect s h r .doesNotExist s₁

variable {s s' s₀ : LocalRV} {lab : Node → Id} {h h' : NodeId} {r : Request} {code : ReturnCode}
  {fuel : Nat} {E : LocalRV → Prop}

theorem fatherOf_fullID (hID : pursuitIdLen ≤ r.ID.length) : fatherOf r.fullID = r.prefixID :=
  fatherOf_append (suffixOf_length hID)

theorem Outcome.effect (ho : s.Outcome E (code, s')) (hE : E s' → Effect s h r .success s') :
    Effect s h r code s' := by
  rcases ho with ⟨hc, hs⟩ | ⟨hc, he⟩
  · obtain rfl : s' = s := hs
    exact .refused hc
  · obtain rfl : code = .success := hc
    exact hE he

theorem handle_effect (hs : s.Inv lab) (hr : r.WellFormed)
    (hrun : handle fuel s h r = .ok (code, s')) : Effect s h r code s' := by
  obtain ⟨type, ID, P, strategy⟩ := r
  cases type with
  | publishScope => exact (publishScope_spec hs hrun).effect fun he => .entered rfl he
  | publishInfo =>
    obtain hrun := Loops.pure_eq_ok.mp hrun
    exact (hrun ▸ publishInfo_spec hs).effect fun he => .entered rfl he
  | subscribeScope => exact (subscribeScope_spec hs hrun).effect fun he => .entered rfl he
  | subscribeInfo =>
    have hID : ID.length = pursuitIdLen := hr.single nofun nofun
    obtain hrun := Loops.pure_eq_ok.mp hrun
    refine (hrun ▸ subscribeInfo_spec (E := ID) hs).effect fun he => .entered rfl ?_
    rw [fullID_of_single hID]
    exact he
  | unpublishInfo =>
    have hID : ID.length = pursuitIdLen := hr.single nofun nofun
    obtain ⟨res, hres, ho⟩ := unpublishInfo_spec hs hID h P strategy
    obtain rfl := Except.ok.inj (hres.symm.trans hrun)
    refine ho.effect fun hl => .left rfl nofun ?_
    rw [fullID_of_single hID]
    exact hl
  | unsubscribeInfo =>
    have hID : ID.length = pursuitIdLen := hr.single nofun nofun
    obtain ⟨res, hres, ho⟩ := unsubscribeInfo_spec hs hID h P strategy
    obtain rfl := Except.ok.inj (hres.symm.trans hrun)
    refine ho.effect fun hl => .left rfl nofun ?_
    rw [fullID_of_single hID]
    exact hl
  | unsubscribeScope =>
    have hID : ID.length = pursuitIdLen := hr.single nofun nofun
    obtain ⟨res, hres, ho⟩ := unsubscribeScope_spec hs hID h P strategy
    obtain rfl := Except.ok.inj (hres.symm.trans hrun)
    refine ho.effect fun hl => .left rfl nofun ?_
    rw [fullID_of_single hID]
    exact hl
  | unpublishScope =>
    have hID : ID.length = pursuitIdLen := hr.single nofun nofun
    have hfull := fullID_of_single (r := ⟨.unpublishScope, ID, P, strategy⟩) hID
    obtain ⟨code', t, hres, ho⟩ := unpublishScope_spec hs hID h P strategy
    obtain ⟨rfl, rfl⟩ := Prod.mk.inj (Except.ok.inj (hres.symm.trans hrun))
    rcases ho with ⟨hc, rfl⟩ | ⟨sc, s₁, hX, hst, hw, -, ⟨rfl, hh, rfl⟩ | ⟨rfl, hl⟩⟩
    · exact .refused hc
    · exact .onlyItems rfl (by rwa [hfull]) hst hw (by rwa [hfull])
    · exact .unpublished rfl (by rwa [hfull]) hst hw (by rwa [hfull])

/-- What every single change keeps, every request keeps. -/
theorem Effect.preserves {I : LocalRV → Prop} (he : Effect s h r code s') (hs : s.Inv lab) (hI : I s)
    (henter : ∀ {s lab n role X s'}, s.Inv lab → I s → s.Entered h n role X s' → I s')
    (hleave : ∀ {s lab n role X s'}, s.Inv lab → I s → s.Left h n role X s' → I s') : I s' := by
  have hitems : ∀ {sc s₁}, ItemsWithdrawn h sc s s₁ → I s₁ := by
    intro sc s₁ hw
    induction hw with
    | refl => exact hI
    | tail hw hstep ih =>
      obtain ⟨p, X, -, -, -, hl⟩ := hstep
      exact hleave (ItemsWithdrawn.keepsScopes hw hs).inv ih hl
  cases he with
  | refused => exact hI
  | entered _ he =>
    obtain ⟨p, he, -⟩ := he
    exact henter hs hI he
  | left _ _ hl =>
    obtain ⟨p, hl, -⟩ := hl
    exact hleave hs hI hl
  | unpublished _ _ _ hw hl => exact hleave (hw.keepsScopes hs).inv (hitems hw) hl
  | onlyItems _ _ _ hw _ => exact hitems hw

theorem Effect.inv (he : Effect s h r code s') (hs : s.Inv lab) : ∃ lab, s'.Inv lab := by
  refine he.preserves (I := fun t => ∃ lab, t.Inv lab) hs ⟨lab, hs⟩ ?_ ?_
  · intro s lab n role X s' hs _ he
    exact he.inv hs
  · intro s lab n role X s' hs _ hl
    exact ⟨lab, hl.inv hs⟩

/-! ## Runs -/

/-- A request of a host that the client library let through, answered. -/
def Step (s : LocalRV) (a : NodeId × Request) (s' : LocalRV) : Prop :=
  a.2.WellFormed ∧ ∃ fuel code, handle fuel s a.1 a.2 = .ok (code, s')

/-- The states of the rendezvous element of a node. -/
def Reachable (s : LocalRV) : Prop :=
  ∃ nodeID, Runs.Reachable Step (init nodeID) s

theorem Reachable.next (hs : s.Reachable) {a : NodeId × Request} (h : s.Step a s') : s'.Reachable := by
  obtain ⟨nodeID, hs⟩ := hs
  exact ⟨nodeID, Runs.Reachable.next hs h⟩

theorem Step.effect {a : NodeId × Request} (h : Step s a s') (hs : s.Inv lab) :
    ∃ code, Effect s a.1 a.2 code s' := by
  obtain ⟨hr, fuel, code, hrun⟩ := h
  exact ⟨code, handle_effect hs hr hrun⟩

theorem inv_of_run {nodeID : NodeId} (h : Runs.Reachable Step (init nodeID) s) :
    ∃ lab, s.Inv lab := by
  refine h.invariant (I := fun t => ∃ lab, t.Inv lab) ⟨_, inv_init nodeID⟩
    fun s a s' _ hI hstep => ?_
  obtain ⟨lab, hs⟩ := hI
  obtain ⟨code, he⟩ := hstep.effect hs
  exact he.inv hs

theorem Reachable.inv (h : s.Reachable) : ∃ lab, s.Inv lab := by
  obtain ⟨nodeID, h⟩ := h
  exact inv_of_run h

/-- The requests one after the other, for runs on fixed inputs. -/
def run (fuel : Nat) (s : LocalRV) (requests : List (NodeId × Request)) : Result LocalRV :=
  requests.foldlM (fun s a => do
    let (_, s) ← handle fuel s a.1 a.2
    return s) s

/-- The state after a run that returns. -/
def afterRun (fuel : Nat) (nodeID : NodeId) (requests : List (NodeId × Request)) : LocalRV :=
  ((run fuel (init nodeID) requests).toOption).getD (init nodeID)

theorem guarded_afterRun {ok : LocalRV → NodeId × Request → Prop} (fuel : Nat) (nodeID : NodeId)
    {requests : List (NodeId × Request)} (hr : ∀ a ∈ requests, a.2.WellFormed ∧ ∀ s, ok s a) :
    Runs.Reachable (Runs.Guarded Step ok) (init nodeID) (afterRun fuel nodeID requests) := by
  unfold afterRun
  cases hrun : run fuel (init nodeID) requests with
  | error e => exact .start
  | ok s =>
    refine Loops.foldlM_invariant hrun .start fun a t t' ha ht hb => ?_
    obtain ⟨⟨code, t₁⟩, h1, h2⟩ := Loops.bind_eq_ok.mp hb
    obtain rfl : t₁ = t' := Loops.pure_eq_ok.mp h2
    exact ht.next ⟨⟨(hr a ha).1, fuel, code, h1⟩, (hr a ha).2 t⟩

theorem reachable_afterRun (fuel : Nat) (nodeID : NodeId) {requests : List (NodeId × Request)}
    (hr : ∀ a ∈ requests, a.2.WellFormed) : (afterRun fuel nodeID requests).Reachable :=
  ⟨nodeID, Runs.Reachable.of_guarded (guarded_afterRun fuel nodeID
    fun a ha => ⟨hr a ha, fun _ => True.intro⟩)⟩

theorem step_afterRun (fuel : Nat) (nodeID : NodeId) (requests : List (NodeId × Request))
    (a : NodeId × Request) (hr : a.2.WellFormed)
    (hok : (run fuel (init nodeID) (requests ++ [a])).isOk = true) :
    (afterRun fuel nodeID requests).Step a (afterRun fuel nodeID (requests ++ [a])) := by
  cases hrun : run fuel (init nodeID) (requests ++ [a]) with
  | error e =>
    rw [hrun] at hok
    cases hok
  | ok s' =>
    have hlast := hrun
    rw [run, List.foldlM_append] at hlast
    obtain ⟨s, hs, hlast⟩ := Loops.bind_eq_ok.mp hlast
    rw [List.foldlM_cons] at hlast
    obtain ⟨t, ht, hlast⟩ := Loops.bind_eq_ok.mp hlast
    obtain rfl : t = s' := Loops.pure_eq_ok.mp hlast
    obtain ⟨⟨code, t₁⟩, h1, h2⟩ := Loops.bind_eq_ok.mp ht
    obtain rfl : t₁ = t := Loops.pure_eq_ok.mp h2
    have hs' : afterRun fuel nodeID requests = s := by
      rw [afterRun, run, hs]
      rfl
    rw [hs', afterRun, hrun]
    exact ⟨hr, fuel, code, h1⟩

end LocalRV

end Blackadder
