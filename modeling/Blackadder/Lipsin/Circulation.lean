import Blackadder.Lib.Spread
import Blackadder.Lipsin.Topology

/-!
# Packets that go round

A forwarder keeps no state and there is no hop count: a packet dies out exactly if no cycle of links that its
identifier includes can be reached, and then all orders have the same outcome.
-/

namespace Blackadder

namespace Topology

variable {V Addr : Type*} [DecidableEq V] [DecidableEq Addr] {t : Topology V Addr} {s : V} {p : Packet}
  {e e' : Link V Addr} {σ σ' : NetState V Addr} {frame : Frame Addr}

/-- The forwarder at the end of `e` sends the packet out on `e'`, which does not lead back to the interface it came
from. -/
def PassesOn (t : Topology V Addr) (p : Packet) (e e' : Link V Addr) : Prop :=
  e' ∈ t.links ∧ e'.source = e.target ∧ p.FID ≠ BitVec.allOnes fidBits ∧
    p.FID.Includes (Bitvector.parse e'.LID) ∧ ¬(e.src = e'.dst ∧ e.dst = e'.src)

/-- The links that take the packet of `s`, at some time. -/
inductive Takes (t : Topology V Addr) (s : V) (p : Packet) : Link V Addr → Prop
  | first {e : Link V Addr} (he : e ∈ t.links) (hsource : e.source = s)
      (hinc : p.FID.Includes (Bitvector.parse e.LID)) : Takes t s p e
  | next {e e' : Link V Addr} (h : Takes t s p e) (hpass : t.PassesOn p e e') : Takes t s p e'

/-- The packet comes back to a link that has carried it. -/
def GoesRound (t : Topology V Addr) (s : V) (p : Packet) : Prop :=
  ∃ e, t.Takes s p e ∧ Relation.TransGen (t.PassesOn p) e e

/-! ## Frames -/

/-- The frames that a forwarder sends on when `frame` arrives. -/
def following (t : Topology V Addr) (frame : Frame Addr) : Multiset (Frame Addr) :=
  (((t.forwarder (t.owner frame.dst)).pushNetwork frame).filterMap Output.frame? : List (Frame Addr))

/-- What is sent and delivered when `frame` arrives. -/
def outcome (t : Topology V Addr) (frame : Frame Addr) :
    Multiset (Transmission V Addr) × Multiset (V × List UInt8) :=
  let v := t.owner frame.dst
  ((((t.forwarder v).pushNetwork frame).filterMap (Output.transmission? v) : List (Transmission V Addr)),
    (((t.forwarder v).pushNetwork frame).filterMap (Output.delivery? v) : List (V × List UInt8)))

/-- What is on its way, and what has become of the rest. -/
def NetState.spread (σ : NetState V Addr) :
    Spread.State (Frame Addr) (Multiset (Transmission V Addr) × Multiset (V × List UInt8)) :=
  ⟨σ.inFlight, (σ.sent, σ.delivered)⟩

omit [DecidableEq V] [DecidableEq Addr] in
theorem spread_injective : Function.Injective (NetState.spread : NetState V Addr → _) := by
  rintro ⟨inFlight, sent, delivered⟩ ⟨inFlight', sent', delivered'⟩ h
  cases h
  rfl

/-- The network is a system of things on their way. -/
theorem step_spread (h : t.Step σ frame σ') :
    Spread.Step t.following t.outcome (NetState.spread σ) frame (NetState.spread σ') := by
  obtain ⟨hmem, rfl⟩ := h
  exact ⟨hmem, rfl⟩

theorem reachable_spread (h : Runs.Reachable t.Step σ σ') :
    Runs.Reachable (Spread.Step t.following t.outcome) (NetState.spread σ) (NetState.spread σ') :=
  h.invariant (I := fun σ' => Runs.Reachable (Spread.Step t.following t.outcome) (NetState.spread σ)
    (NetState.spread σ')) .start fun _ _ _ _ ih hs => ih.next (step_spread hs)

/-- What follows a frame are the frames of the links that it is passed on to. -/
theorem mem_following (he : e ∈ t.links) :
    frame ∈ t.following (e.frame p) ↔ ∃ e', t.PassesOn p e e' ∧ frame = e'.frame p := by
  have howner : t.owner (e.frame p).dst = e.target := t.dst_owner e he
  have hout : ∀ out : Output Addr, out.frame? = some frame ↔ ∃ port, out = .network port frame := by
    intro out
    cases out with
    | network port frame' => simp [Output.frame?]
    | localProxy payload => simp [Output.frame?]
  rw [following, howner, Multiset.mem_coe, List.mem_filterMap]
  constructor
  · rintro ⟨out, hmem, hframe⟩
    obtain ⟨port, rfl⟩ := (hout out).mp hframe
    unfold Forwarder.pushNetwork at hmem
    rcases List.mem_append.mp hmem with hnetwork | hlocal
    · obtain ⟨fe, hfe, hsend⟩ := List.mem_map.mp hnetwork
      split at hfe
      · cases hfe
      · next hones =>
        obtain ⟨htable, hcond⟩ := List.mem_filter.mp hfe
        obtain ⟨hinc, hreverse⟩ := of_decide_eq_true hcond
        obtain ⟨e', he', hsource, rfl⟩ := (mem_fwTable fe).mp htable
        cases hsend
        exact ⟨e', ⟨he', hsource, hones, hinc, hreverse⟩, rfl⟩
    · split at hlocal
      · cases List.mem_singleton.mp hlocal
      · cases hlocal
  · rintro ⟨e', ⟨he', hsource, hones, hinc, hreverse⟩, rfl⟩
    have hentry : e'.toLinkConf.entry ∈ (t.forwarder e.target).fwTable := hsource ▸ entry_mem he'
    exact ⟨_, Forwarder.network_mem_pushNetwork hentry hinc hones hreverse, rfl⟩

omit [DecidableEq Addr] in
theorem mem_inject : frame ∈ (t.inject s p).inFlight ↔
    ∃ e ∈ t.links, e.source = s ∧ p.FID.Includes (Bitvector.parse e.LID) ∧ frame = e.frame p := by
  rw [inject, emit_inFlight, Multiset.mem_add, Multiset.mem_coe, Forwarder.pushLocal, List.filterMap_map,
    List.mem_filterMap]
  constructor
  · rintro (hnone | ⟨fe, hfe, hframe⟩)
    · cases hnone
    · obtain ⟨htable, hinc⟩ := List.mem_filter.mp hfe
      obtain ⟨e, he, hsource, rfl⟩ := (mem_fwTable fe).mp htable
      exact ⟨e, he, hsource, of_decide_eq_true hinc, (Option.some.inj hframe).symm⟩
  · rintro ⟨e, he, rfl, hinc, rfl⟩
    exact .inr ⟨_, List.mem_filter.mpr ⟨entry_mem he, decide_eq_true hinc⟩, rfl⟩

/-! ## Cycles -/

omit [DecidableEq V] [DecidableEq Addr] in
theorem Takes.mem_links (h : t.Takes s p e) : e ∈ t.links := by
  cases h with
  | first he _ _ => exact he
  | next _ hpass => exact hpass.1

omit [DecidableEq V] [DecidableEq Addr] in
theorem Takes.trans (h : t.Takes s p e) (hpass : Relation.ReflTransGen (t.PassesOn p) e e') :
    t.Takes s p e' := by
  induction hpass with
  | refl => exact h
  | tail _ hstep ih => exact .next ih hstep

/-- A frame leads to an end if its link leads to no cycle. -/
theorem acc_following (h : t.Takes s p e) (hround : ¬t.GoesRound s p) :
    Acc (fun f' f => f' ∈ t.following f) (e.frame p) := by
  have hlinks : Acc (fun e' e => t.PassesOn p e e') e := by
    refine Spread.acc_of_no_cycle (S := {e | e ∈ t.links}) (List.finite_toSet t.links) ?_ h.mem_links ?_
    · intro _ _ _ hpass
      exact hpass.1
    · intro x hx hcycle
      exact hround ⟨x, h.trans hx, hcycle⟩
  have hmem := h.mem_links
  clear h
  induction hlinks with
  | intro e _ ih =>
    refine .intro _ ?_
    intro f' hf'
    obtain ⟨e', hpass, rfl⟩ := (mem_following hmem).mp hf'
    exact ih e' hpass hpass.1

/-- The frames of links from which a cycle can be reached. -/
def Lasting (t : Topology V Addr) (p : Packet) (frame : Frame Addr) : Prop :=
  ∃ e ∈ t.links, frame = e.frame p ∧ ∃ e', Relation.ReflTransGen (t.PassesOn p) e e' ∧
    Relation.TransGen (t.PassesOn p) e' e'

theorem Lasting.next (h : t.Lasting p frame) : ∃ frame' ∈ t.following frame, t.Lasting p frame' := by
  obtain ⟨e, he, rfl, e', hreach, hcycle⟩ := h
  have hpass : ∃ e₁, t.PassesOn p e e₁ ∧ Relation.ReflTransGen (t.PassesOn p) e₁ e' := by
    rcases hreach.cases_head with rfl | hfirst
    · obtain ⟨e₁, hfirst, hrest⟩ := Relation.TransGen.head'_iff.mp hcycle
      exact ⟨e₁, hfirst, hrest⟩
    · exact hfirst
  obtain ⟨e₁, hfirst, hrest⟩ := hpass
  exact ⟨e₁.frame p, (mem_following he).mpr ⟨e₁, hfirst, rfl⟩, e₁, hfirst.1, rfl, e', hrest, hcycle⟩

omit [DecidableEq V] [DecidableEq Addr] in
theorem Takes.exists_first (h : t.Takes s p e) : ∃ e₀ ∈ t.links, e₀.source = s ∧
    p.FID.Includes (Bitvector.parse e₀.LID) ∧ Relation.ReflTransGen (t.PassesOn p) e₀ e := by
  induction h with
  | first he hsource hinc => exact ⟨_, he, hsource, hinc, .refl⟩
  | next _ hpass ih =>
    obtain ⟨e₀, he₀, hsource, hinc, hreach⟩ := ih
    exact ⟨e₀, he₀, hsource, hinc, hreach.tail hpass⟩

/-- A packet that goes round is on its way for ever, in every order. -/
theorem never_idle (hround : t.GoesRound s p) (h : Runs.Reachable t.Step (t.inject s p) σ) :
    σ.inFlight ≠ 0 := by
  obtain ⟨e, htakes, hcycle⟩ := hround
  obtain ⟨e₀, he₀, hsource, hinc, hreach⟩ := htakes.exists_first
  have hstart : ∃ f ∈ (t.inject s p).inFlight, t.Lasting p f :=
    ⟨e₀.frame p, mem_inject.mpr ⟨e₀, he₀, hsource, hinc, rfl⟩, e₀, he₀, rfl, e, hreach, hcycle⟩
  obtain ⟨f, hf, -⟩ := Spread.endless (fun _ => Lasting.next) (reachable_spread h) hstart
  intro hidle
  have hwaiting : f ∈ σ.inFlight := hf
  rw [hidle] at hwaiting
  cases hwaiting

theorem acc_inject (hround : ¬t.GoesRound s p) :
    Acc (fun σ' σ => ∃ frame, t.Step σ frame σ') (t.inject s p) := by
  have hacc : Acc (fun σ' σ => ∃ f, Spread.Step t.following t.outcome σ f σ') (NetState.spread (t.inject s p)) := by
    refine Spread.acc_step ?_
    intro f hf
    obtain ⟨e, he, hsource, hinc, rfl⟩ := mem_inject.mp hf
    exact acc_following (.first he hsource hinc) hround
  refine Subrelation.accessible ?_ (InvImage.accessible NetState.spread hacc)
  rintro _ _ ⟨frame, h⟩
  exact ⟨frame, step_spread h⟩

/-- Unless a packet goes round, every order of the network ends, and all of them with the same transmissions and
deliveries. One that goes round never leaves the network idle. -/
theorem dies_out_iff (t : Topology V Addr) (s : V) (p : Packet) :
    ((∃ σ, Runs.Reachable t.Step (t.inject s p) σ ∧ σ.inFlight = 0) ↔ ¬t.GoesRound s p) ∧
      ((∃ r : Nat → NetState V Addr, r 0 = t.inject s p ∧ ∀ k, ∃ frame, t.Step (r k) frame (r (k + 1))) ↔
        t.GoesRound s p) ∧
      ∀ σ σ', Runs.Reachable t.Step (t.inject s p) σ → Runs.Reachable t.Step (t.inject s p) σ' →
        σ.inFlight = 0 → σ'.inFlight = 0 → σ = σ' := by
  refine ⟨⟨?_, ?_⟩, ⟨?_, ?_⟩, ?_⟩
  · rintro ⟨σ, hreach, hidle⟩ hround
    exact never_idle hround hreach hidle
  · intro hround
    have hends : ∀ σ, Acc (fun σ' σ => ∃ frame, t.Step σ frame σ') σ →
        ∃ σ', Runs.Reachable t.Step σ σ' ∧ σ'.inFlight = 0 := by
      intro σ hacc
      induction hacc with
      | intro σ _ ih =>
        by_cases hidle : σ.inFlight = 0
        · exact ⟨σ, .start, hidle⟩
        · obtain ⟨frame, hframe⟩ := Multiset.exists_mem_of_ne_zero hidle
          obtain ⟨σ', hreach, hidle'⟩ := ih _ ⟨frame, hframe, rfl⟩
          exact ⟨σ', Relation.ReflTransGen.head ⟨frame, hframe, rfl⟩ hreach, hidle'⟩
    exact hends _ (acc_inject hround)
  · rintro ⟨r, h0, hrun⟩
    by_contra hround
    exact not_acc_iff_exists_descending_chain.mpr ⟨r, h0, hrun⟩ (acc_inject hround)
  · intro hround
    -- some frame can always be taken up
    have hgo : ∀ σ : { σ // Runs.Reachable t.Step (t.inject s p) σ },
        ∃ σ' : { σ // Runs.Reachable t.Step (t.inject s p) σ }, ∃ frame, t.Step σ.1 frame σ'.1 := by
      rintro ⟨σ, hσ⟩
      obtain ⟨frame, hframe⟩ := Multiset.exists_mem_of_ne_zero (never_idle hround hσ)
      exact ⟨⟨_, hσ.next ⟨hframe, rfl⟩⟩, frame, hframe, rfl⟩
    choose next hnext using hgo
    refine ⟨fun k => (next^[k] ⟨_, .start⟩).1, rfl, ?_⟩
    intro k
    dsimp only
    rw [Function.iterate_succ_apply']
    exact hnext _
  · intro σ σ' hσ hσ' hidle hidle'
    exact spread_injective (Spread.outcome_unique (reachable_spread hσ) (reachable_spread hσ') hidle hidle')

end Topology

end Blackadder
