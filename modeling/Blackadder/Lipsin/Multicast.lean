import Mathlib.Tactic.Common
import Blackadder.Lib.Flood
import Blackadder.Lipsin.Topology

/-!
# Delivery along a tree

With identifiers of one bit each, a forwarding identifier names a set of links and nodes.
-/

namespace Blackadder

namespace Topology

open Bitvector

variable {V Addr : Type*}

/-- All link identifiers and internal identifiers are different vectors with one bit. -/
structure SingleBits (t : Topology V Addr) : Prop where
  link : ∀ e ∈ t.links, ∃ i < fidBits, parse e.LID = BitVec.twoPow fidBits i
  node : ∀ v, ∃ i < fidBits, parse (t.iLID v) = BitVec.twoPow fidBits i
  link_inj : ∀ e ∈ t.links, ∀ e' ∈ t.links, parse e.LID = parse e'.LID → e = e'
  node_inj : ∀ v v', parse (t.iLID v) = parse (t.iLID v') → v = v'
  link_ne_node : ∀ e ∈ t.links, ∀ v, parse e.LID ≠ parse (t.iLID v)

/-- The identifier of the links `T` and the nodes `D`. -/
def treeFID (t : Topology V Addr) (T : Finset (Link V Addr)) (D : Finset V) : Bitvector :=
  orAll T (fun e => parse e.LID) ||| orAll D (fun v => parse (t.iLID v))

variable {t : Topology V Addr} {T : Finset (Link V Addr)} {D : Finset V} {e e' : Link V Addr}
  {s v : V} {p : Packet}

theorem eq_of_shared_bit {u w : Bitvector} {i : Nat}
    (hu : ∃ j < fidBits, u = BitVec.twoPow fidBits j) (hw : ∃ j < fidBits, w = BitVec.twoPow fidBits j)
    (hi : u.getLsbD i = true) (hi' : w.getLsbD i = true) : u = w := by
  obtain ⟨j, -, rfl⟩ := hu
  obtain ⟨j', -, rfl⟩ := hw
  simp only [BitVec.getLsbD_twoPow, Bool.and_eq_true, decide_eq_true_eq] at hi hi'
  rw [hi.2, hi'.2]

theorem includes_link_iff (hb : t.SingleBits) (hT : ∀ e ∈ T, e ∈ t.links) (he : e ∈ t.links) :
    (t.treeFID T D).Includes (parse e.LID) ↔ e ∈ T := by
  obtain ⟨i, hi, hLID⟩ := hb.link e he
  have hbit : (parse e.LID).getLsbD i = true := by simp [hLID, hi]
  rw [hLID, includes_twoPow hi, treeFID, BitVec.getLsbD_or, Bool.or_eq_true, getLsbD_orAll,
    getLsbD_orAll]
  constructor
  · rintro (⟨e', he', h⟩ | ⟨v, -, h⟩)
    · have heq := eq_of_shared_bit (hb.link e he) (hb.link e' (hT e' he')) hbit h
      rwa [hb.link_inj e he e' (hT e' he') heq]
    · exact absurd (eq_of_shared_bit (hb.link e he) (hb.node v) hbit h) (hb.link_ne_node e he v)
  · exact fun he => Or.inl ⟨e, he, hbit⟩

theorem includes_node_iff (hb : t.SingleBits) (hT : ∀ e ∈ T, e ∈ t.links) :
    (t.treeFID T D).Includes (parse (t.iLID v)) ↔ v ∈ D := by
  obtain ⟨i, hi, hLID⟩ := hb.node v
  have hbit : (parse (t.iLID v)).getLsbD i = true := by simp [hLID, hi]
  rw [hLID, includes_twoPow hi, treeFID, BitVec.getLsbD_or, Bool.or_eq_true, getLsbD_orAll,
    getLsbD_orAll]
  constructor
  · rintro (⟨e, he, h⟩ | ⟨v', hv', h⟩)
    · exact absurd (eq_of_shared_bit (hb.link e (hT e he)) (hb.node v) h hbit)
        (hb.link_ne_node e (hT e he) v)
    · rwa [hb.node_inj v v' (eq_of_shared_bit (hb.node v) (hb.node v') hbit h)]
  · exact fun hv => Or.inr ⟨v, hv, hbit⟩

/-! ## One forwarder -/

variable [DecidableEq V] {l : List (Link V Addr)}

/-- The outputs for some links. -/
def sends (p : Packet) (l : List (Link V Addr)) : List (Output Addr) :=
  l.map (fun e => .network e.port (e.frame p))

theorem pushLocal_eq : (t.forwarder v).pushLocal p =
    sends p (t.links.filter (fun e => e.source = v ∧ p.FID.Includes (parse e.LID))) := by
  simp only [Forwarder.pushLocal, forwarder, Forwarder.configure, List.filter_map, List.map_map,
    List.filter_filter, sends]
  congr 1
  refine List.filter_congr fun e _ => ?_
  rw [Bool.decide_and, Bool.and_comm]
  rfl

omit [DecidableEq V] in
theorem frames_sends : (sends p l).filterMap Output.frame? = l.map (Link.frame · p) := by
  rw [sends, List.filterMap_map, ← List.filterMap_eq_map]
  rfl

omit [DecidableEq V] in
theorem deliveries_sends : (sends p l).filterMap (Output.delivery? v) = [] := by
  rw [sends, List.filterMap_map, List.filterMap_eq_nil_iff]
  exact fun _ _ => rfl

omit [DecidableEq V] in
theorem transmissions_sends (hl : ∀ e ∈ l, e.source = v) :
    (sends p l).filterMap (Output.transmission? v) = l.map Link.transmission := by
  rw [sends, List.filterMap_map, ← List.filterMap_eq_map]
  refine List.filterMap_congr fun e he => ?_
  simp [Output.transmission?, Link.frame, Link.transmission, hl e he]

theorem links_filter_eq [DecidableEq Addr] {P : Link V Addr → Prop} [DecidablePred P]
    (hP : ∀ e, (e ∈ t.links ∧ P e) ↔ e ∈ Flood.out Link.source T v) :
    (t.links.filter P : Multiset (Link V Addr)) = (Flood.out Link.source T v).val := by
  refine (Multiset.Nodup.ext (Multiset.coe_nodup.mpr (t.nodup.filter _))
    (Flood.out Link.source T v).nodup).mpr fun e => ?_
  rw [Multiset.mem_coe, List.mem_filter, decide_eq_true_eq, hP, Finset.mem_val]

variable [DecidableEq Addr]

theorem pushNetwork_eq {frame : Frame Addr} (hones : frame.FID ≠ BitVec.allOnes fidBits) :
    (t.forwarder v).pushNetwork frame =
      sends ⟨frame.FID, frame.payload⟩ (t.links.filter (fun e => e.source = v ∧
        frame.FID.Includes (parse e.LID) ∧ ¬ Forwarder.Reverse e.entry frame)) ++
      if frame.FID.Includes (parse (t.iLID v)) then [.localProxy frame.payload] else [] := by
  rw [Forwarder.pushNetwork, if_neg hones, forwarder_iLID]
  congr 1
  simp only [forwarder, Forwarder.configure, List.filter_map, List.map_map, List.filter_filter, sends]
  congr 1
  refine List.filter_congr fun e _ => ?_
  rw [Bool.decide_and (e.source = v), Bool.and_comm]
  rfl

/-! ## The network follows the tree -/

/-- The network carries one copy for each copy that floods the tree. -/
structure Carries (T : Finset (Link V Addr)) (D : Finset V) (p : Packet)
    (φ : Flood.State (Link V Addr)) (σ : NetState V Addr) : Prop where
  inFlight : σ.inFlight = φ.flying.val.map (Link.frame · p)
  sent : σ.sent = φ.sent.val.map Link.transmission
  delivered : σ.delivered =
    (φ.arrived.filter (fun e => e.target ∈ D)).val.map (fun e => (e.target, p.payload))

theorem carries_inject (hb : t.SingleBits) (hT : ∀ e ∈ T, e ∈ t.links) (hFID : p.FID = t.treeFID T D) :
    Carries T D p (Flood.start Link.source T s) (t.inject s p) := by
  have hout : ∀ e, (e ∈ t.links ∧ (e.source = s ∧ p.FID.Includes (parse e.LID))) ↔
      e ∈ Flood.out Link.source T s := by
    intro e
    rw [Flood.mem_out, hFID]
    constructor
    · rintro ⟨he, hs, hinc⟩
      exact ⟨(includes_link_iff hb hT he).mp hinc, hs⟩
    · rintro ⟨he, hs⟩
      exact ⟨hT e he, hs, (includes_link_iff hb hT (hT e he)).mpr he⟩
  have hlinks := links_filter_eq hout
  have hsrc : ∀ e ∈ t.links.filter (fun e => e.source = s ∧ p.FID.Includes (parse e.LID)),
      e.source = s := fun e he => (of_decide_eq_true (List.mem_filter.mp he).2).1
  constructor
  · rw [inject, emit_inFlight, pushLocal_eq, frames_sends, ← Multiset.map_coe, hlinks]
    exact Multiset.zero_add _
  · rw [inject, emit_sent, pushLocal_eq, transmissions_sends hsrc, ← Multiset.map_coe, hlinks]
    exact Multiset.zero_add _
  · rw [inject, emit_delivered, pushLocal_eq, deliveries_sends]
    simp [Flood.start, Flood.State.arrived]

omit [DecidableEq V] [DecidableEq Addr] in
theorem locals_frames (b : Prop) [Decidable b] (payload : List UInt8) :
    (if b then [Output.localProxy payload] else [] : List (Output Addr)).filterMap Output.frame? = [] := by
  split <;> rfl

omit [DecidableEq V] [DecidableEq Addr] in
theorem locals_transmissions (b : Prop) [Decidable b] (payload : List UInt8) :
    (if b then [Output.localProxy payload] else [] : List (Output Addr)).filterMap
      (Output.transmission? v) = [] := by
  split <;> rfl

theorem union_val {A B : Finset (Link V Addr)} (h : ∀ e ∈ B, e ∉ A) : (A ∪ B).val = A.val + B.val := by
  have hdisj : Disjoint A B := Finset.disjoint_right.mpr h
  rw [← Finset.disjUnion_eq_union A B hdisj]
  rfl

variable {φ : Flood.State (Link V Addr)} {σ σ' : NetState V Addr} {frame : Frame Addr}

omit [DecidableEq Addr] in
theorem forwards_iff (hb : t.SingleBits) (hT : ∀ e ∈ T, e ∈ t.links)
    (harb : Flood.IsArborescence Link.source Link.target T s) (hFID : p.FID = t.treeFID T D)
    (he : e ∈ T) (e' : Link V Addr) : (e' ∈ t.links ∧ (e'.source = e.target ∧ p.FID.Includes (parse e'.LID) ∧
      ¬ Forwarder.Reverse e'.entry (e.frame p))) ↔ e' ∈ Flood.out Link.source T e.target := by
  rw [Flood.mem_out, hFID]
  constructor
  · rintro ⟨he', hs, hinc, -⟩
    exact ⟨(includes_link_iff hb hT he').mp hinc, hs⟩
  · rintro ⟨he', hs⟩
    refine ⟨hT e' he', hs, (includes_link_iff hb hT (hT e' he')).mpr he', ?_⟩
    -- A reverse link would lead back to the node that the copy came from.
    rintro ⟨hsrc, -⟩
    have hsrc : e.src = e'.dst := hsrc
    refine harb.no_return he he' hs ?_
    rw [← t.dst_owner e' (hT e' he'), ← hsrc, t.src_owner e (hT e he)]

theorem Carries.step (hc : Carries T D p φ σ) (hb : t.SingleBits) (hT : ∀ e ∈ T, e ∈ t.links)
    (harb : Flood.IsArborescence Link.source Link.target T s) (hFID : p.FID = t.treeFID T D)
    (hones : p.FID ≠ BitVec.allOnes fidBits) (hφ : φ.Inv Link.source Link.target T s)
    (hstep : t.Step σ frame σ') :
    ∃ e ∈ φ.flying, Carries T D p (φ.arrive Link.source Link.target T e) σ' := by
  obtain ⟨hmem, rfl⟩ := hstep
  rw [hc.inFlight] at hmem
  obtain ⟨e, he, rfl⟩ := Multiset.mem_map.mp hmem
  have heT : e ∈ T := hφ.sent_sub (hφ.flying_sub he)
  have howner : t.owner (e.frame p).dst = e.target := t.dst_owner e (hT e heT)
  have hlinks := links_filter_eq fun e' => forwards_iff hb hT harb hFID heT e'
  have hpush : (t.forwarder e.target).pushNetwork (e.frame p) =
      sends p (t.links.filter (fun e' => e'.source = e.target ∧ p.FID.Includes (parse e'.LID) ∧
        ¬ Forwarder.Reverse e'.entry (e.frame p))) ++
      if p.FID.Includes (parse (t.iLID e.target)) then [.localProxy p.payload] else [] :=
    pushNetwork_eq (show (e.frame p).FID ≠ _ from hones)
  have hfresh := hφ.out_fresh harb he
  have hsrc : ∀ e' ∈ t.links.filter (fun e' => e'.source = e.target ∧
      p.FID.Includes (parse e'.LID) ∧ ¬ Forwarder.Reverse e'.entry (e.frame p)),
      e'.source = e.target := fun e' he' => (of_decide_eq_true (List.mem_filter.mp he').2).1
  rw [howner, hpush]
  refine ⟨e, he, ?_, ?_, ?_⟩
  · rw [emit_inFlight, List.filterMap_append, frames_sends, locals_frames, List.append_nil,
      ← Multiset.map_coe, Flood.State.arrive, union_val fun e' he' h =>
        hfresh e' he' (hφ.flying_sub (Finset.mem_of_mem_erase h)), Multiset.map_add, Finset.erase_val,
      Multiset.map_erase_of_mem _ _ he, ← hc.inFlight, ← hlinks]
  · rw [emit_sent, List.filterMap_append, transmissions_sends hsrc, locals_transmissions,
      List.append_nil, ← Multiset.map_coe, Flood.State.arrive, union_val hfresh, Multiset.map_add,
      ← hc.sent, ← hlinks]
  · rw [emit_delivered, List.filterMap_append, deliveries_sends, List.nil_append,
      hφ.arrived_arrive harb he, Finset.filter_insert]
    have hnot : e ∉ φ.arrived.filter (fun e => e.target ∈ D) := fun h =>
      (Finset.mem_sdiff.mp (Finset.mem_filter.mp h).1).2 he
    have hlocal : p.FID.Includes (parse (t.iLID e.target)) ↔ e.target ∈ D := by
      rw [hFID]
      exact includes_node_iff hb hT
    by_cases hD : e.target ∈ D
    · rw [if_pos hD, if_pos (hlocal.mpr hD), Finset.insert_val_of_notMem hnot, Multiset.map_cons,
        ← hc.delivered, ← Multiset.singleton_add, Multiset.add_comm]
      rfl
    · rw [if_neg hD, if_neg (mt hlocal.mp hD), ← hc.delivered]
      exact Multiset.add_zero _

/-- After `n` steps the copies of some flood have arrived on `n` links. -/
theorem carries_steps (hb : t.SingleBits) (hT : ∀ e ∈ T, e ∈ t.links)
    (harb : Flood.IsArborescence Link.source Link.target T s) (hFID : p.FID = t.treeFID T D)
    (hones : p.FID ≠ BitVec.allOnes fidBits) {n : Nat}
    (hrun : Runs.Steps t.Step (t.inject s p) n σ) :
    ∃ φ : Flood.State (Link V Addr), φ.Inv Link.source Link.target T s ∧ Carries T D p φ σ ∧
      φ.arrived.card = n := by
  apply hrun.invariant (I := fun n σ => ∃ φ : Flood.State (Link V Addr),
    φ.Inv Link.source Link.target T s ∧ Carries T D p φ σ ∧ φ.arrived.card = n)
  · refine ⟨_, Flood.inv_start, carries_inject hb hT hFID, ?_⟩
    simp [Flood.start, Flood.State.arrived]
  · rintro n σ frame σ' ⟨φ, hφ, hc, hn⟩ hstep
    obtain ⟨e, he, hc'⟩ := hc.step hb hT harb hFID hones hφ hstep
    have hnot : e ∉ φ.arrived := fun h => (Finset.mem_sdiff.mp h).2 he
    refine ⟨_, hφ.arrive harb he, hc', ?_⟩
    rw [hφ.arrived_arrive harb he, Finset.card_insert_of_notMem hnot, hn]

/-- A packet for the tree `T` is sent once on each of its links and handed once to each
member of `D`. Every run is as short as the tree is small, and ends only then. -/
theorem multicast_exact (hb : t.SingleBits)
    (hports : ∀ e ∈ t.links, ∀ e' ∈ t.links, e.transmission = e'.transmission → e = e')
    (hT : ∀ e ∈ T, e ∈ t.links) (harb : Flood.IsArborescence Link.source Link.target T s)
    (hD : ∀ d ∈ D, ∃ e ∈ T, e.target = d) (hFID : p.FID = t.treeFID T D)
    (hones : p.FID ≠ BitVec.allOnes fidBits) {n : Nat}
    (hrun : Runs.Steps t.Step (t.inject s p) n σ) :
    n ≤ T.card ∧
    (σ.inFlight ≠ 0 → ∃ frame σ', t.Step σ frame σ') ∧
    (σ.inFlight = 0 →
      (∀ e ∈ t.links, σ.sent.count e.transmission = if e ∈ T then 1 else 0) ∧
      (∀ x ∈ σ.sent, ∃ e ∈ T, e.transmission = x) ∧
      (∀ v, σ.delivered.count (v, p.payload) = if v ∈ D then 1 else 0) ∧
      ∀ x ∈ σ.delivered, x.2 = p.payload) := by
  obtain ⟨φ, hφ, hc, hn⟩ := carries_steps hb hT harb hFID hones hrun
  refine ⟨?_, ?_, ?_⟩
  · rw [← hn]
    exact Finset.card_le_card (Finset.sdiff_subset.trans hφ.sent_sub)
  · intro hne
    obtain ⟨frame, hframe⟩ := Multiset.exists_mem_of_ne_zero hne
    exact ⟨frame, _, hframe, rfl⟩
  · intro hidle
    rw [hc.inFlight, Multiset.map_eq_zero, Finset.val_eq_zero] at hidle
    have hsent : φ.sent = T := hφ.complete harb hidle
    have harrived : φ.arrived = T := by rw [Flood.State.arrived, hidle, Finset.sdiff_empty, hsent]
    have hsentNodup : σ.sent.Nodup := by
      rw [hc.sent, hsent]
      exact T.nodup.map_on fun e he e' he' => hports e (hT e he) e' (hT e' he')
    have hdelNodup : σ.delivered.Nodup := by
      rw [hc.delivered, harrived]
      refine (Finset.nodup _).map_on fun e he e' he' h => ?_
      rw [Finset.mem_val, Finset.mem_filter] at he he'
      exact harb.unique e he.1 e' he'.1 (congrArg Prod.fst h)
    have hmemSent : ∀ x, x ∈ σ.sent ↔ ∃ e ∈ T, e.transmission = x := by
      intro x
      rw [hc.sent, hsent, Multiset.mem_map]
      rfl
    have hmemDel : ∀ x, x ∈ σ.delivered ↔ ∃ e ∈ T, e.target ∈ D ∧ (e.target, p.payload) = x := by
      intro x
      rw [hc.delivered, harrived, Multiset.mem_map]
      simp only [Finset.mem_val, Finset.mem_filter, and_assoc]
    refine ⟨fun e he => ?_, fun x hx => (hmemSent x).mp hx, fun v => ?_, fun x hx => ?_⟩
    · rw [Multiset.count_eq_of_nodup hsentNodup]
      refine if_congr ((hmemSent _).trans ⟨?_, fun h => ⟨e, h, rfl⟩⟩) rfl rfl
      rintro ⟨e', he', h⟩
      rwa [← hports e' (hT e' he') e he h]
    · rw [Multiset.count_eq_of_nodup hdelNodup]
      refine if_congr ((hmemDel _).trans ⟨?_, fun h => ?_⟩) rfl rfl
      · rintro ⟨e, -, he, h⟩
        rwa [← (Prod.mk.inj h).1]
      · obtain ⟨e, he, rfl⟩ := hD v h
        exact ⟨e, he, h, rfl⟩
    · obtain ⟨e, -, -, rfl⟩ := (hmemDel x).mp hx
      rfl

/-! ## A star of three nodes -/

def starLID (u v : Fin 3) : List Char := oneHot (3 * u + v)

theorem link_bit (u v : Fin 3) : 3 * (u : Nat) + v < fidBits := by
  unfold fidBits
  omega

theorem node_bit (v : Fin 3) : 9 + (v : Nat) < fidBits := by
  unfold fidBits
  omega

/-- Links from node 0 to the others, and one back from node 1. -/
def star : Topology (Fin 3) (Fin 3) :=
  ofEdges [(0, 1), (0, 2), (1, 0)] (by decide) starLID (fun v => oneHot (9 + v))
    (fun u v => length_oneHot (link_bit u v)) (fun v => length_oneHot (node_bit v))

theorem star_link {e : Link (Fin 3) (Fin 3)} (he : e ∈ star.links) :
    ∃ u v : Fin 3, e = wire starLID u v := by
  obtain ⟨x, -, rfl⟩ := List.mem_map.mp he
  exact ⟨x.1, x.2, rfl⟩

theorem star_singleBits : star.SingleBits where
  link e he := by
    obtain ⟨u, v, rfl⟩ := star_link he
    exact ⟨3 * u + v, link_bit u v, parse_oneHot (link_bit u v)⟩
  node v := ⟨9 + v, node_bit v, parse_oneHot (node_bit v)⟩
  link_inj e he e' he' h := by
    obtain ⟨u, v, rfl⟩ := star_link he
    obtain ⟨u', v', rfl⟩ := star_link he'
    simp only [wire, starLID, parse_oneHot (link_bit _ _)] at h
    have hbit := twoPow_inj (link_bit u v) h
    obtain rfl : u = u' := by omega
    obtain rfl : v = v' := by omega
    rfl
  node_inj v v' h := by
    simp only [star, ofEdges, parse_oneHot (node_bit _)] at h
    have hbit := twoPow_inj (node_bit v) h
    omega
  link_ne_node e he w h := by
    obtain ⟨u, v, rfl⟩ := star_link he
    simp only [wire, starLID, star, ofEdges, parse_oneHot (link_bit _ _), parse_oneHot (node_bit _)] at h
    have hbit := twoPow_inj (link_bit u v) h
    omega

theorem star_arborescence : Flood.IsArborescence Link.source Link.target
    {wire starLID 0 1, wire starLID 0 2} 0 where
  unique := by simp [wire]
  no_entry := by simp [wire]
  reach e he := by
    rw [Finset.mem_insert, Finset.mem_singleton] at he
    obtain rfl | rfl := he <;> exact .refl

/-- Both nodes at the ends of the star get one copy, and the link back stays idle. -/
theorem multicast_exact_star : ∃ n σ,
    Runs.Steps star.Step (star.inject 0 ⟨star.treeFID {wire starLID 0 1, wire starLID 0 2} {1, 2}, [1]⟩) n σ ∧
    n ≤ 2 ∧ σ.inFlight = 0 ∧ σ.delivered.count (1, [1]) = 1 ∧
    σ.delivered.count (2, [1]) = 1 ∧ σ.sent.count (wire starLID 1 0).transmission = 0 := by
  have hT : ∀ e ∈ ({wire starLID 0 1, wire starLID 0 2} : Finset (Link (Fin 3) (Fin 3))), e ∈ star.links := by
    simp [star, ofEdges]
  have hports : ∀ e ∈ star.links, ∀ e' ∈ star.links, e.transmission = e'.transmission → e = e' := by
    intro e he e' he' h
    obtain ⟨u, v, rfl⟩ := star_link he
    obtain ⟨u', v', rfl⟩ := star_link he'
    rw [Link.transmission, Link.transmission, Transmission.mk.injEq] at h
    obtain ⟨rfl, -, -, rfl⟩ := h
    rfl
  have hD : ∀ d ∈ ({1, 2} : Finset (Fin 3)),
      ∃ e ∈ ({wire starLID 0 1, wire starLID 0 2} : Finset (Link (Fin 3) (Fin 3))), e.target = d := by
    simp [wire]
  have hones : star.treeFID {wire starLID 0 1, wire starLID 0 2} {1, 2} ≠ BitVec.allOnes fidBits := by
    intro h
    have hnode := includes_node_iff (D := {1, 2}) (v := 0) star_singleBits hT
    rw [h] at hnode
    exact absurd (hnode.mp (allOnes_includes _)) (by decide)
  have hmain := fun n σ => multicast_exact (n := n) (σ := σ) star_singleBits hports hT star_arborescence hD
    (p := ⟨star.treeFID {wire starLID 0 1, wire starLID 0 2} {1, 2}, [1]⟩) rfl hones
  obtain ⟨n, σ, hrun, hstuck⟩ := Runs.Steps.exists_stuck fun n σ hrun => (hmain n σ hrun).1
  obtain ⟨hn, hgo, hend⟩ := hmain n σ hrun
  have hidle : σ.inFlight = 0 := by
    by_contra hne
    obtain ⟨frame, σ', hstep⟩ := hgo hne
    exact hstuck frame σ' hstep
  obtain ⟨hsent, -, hdel, -⟩ := hend hidle
  refine ⟨n, σ, hrun, hn.trans Finset.card_le_two, hidle, ?_, ?_, ?_⟩
  · exact hdel 1
  · exact hdel 2
  · rw [hsent _ (by simp [star, ofEdges])]
    simp [wire]

end Topology

end Blackadder
