import Mathlib.Algebra.BigOperators.Group.Finset.Basic
import Blackadder.Api.Relay

/-!
# The rendezvous relay as a whole

What the rendezvous element asks of the manager, and what the nodes get to read of the answer.
-/

namespace Blackadder

open Wire
open TMIgraph (calculateFIDs keys_calculateFIDs)

/-- A hash table or a set in the order in which it is walked. -/
structure Walked {α : Type} [DecidableEq α] (l : List α) (s : Finset α) : Prop where
  nodup : l.Nodup
  eq : l.toFinset = s

/-- The bounds of a message about these ids and nodes. -/
structure Small (nodes : Finset NodeId) (IDs : Finset Id) : Prop where
  hosts : ∀ l ∈ nodes, l.length = nodeIDLen
  hostCount : nodes.card ≤ 255
  whole : ∀ ID ∈ IDs, pursuitIdLen ∣ ID.length
  short : ∀ ID ∈ IDs, ID.length < 32 * pursuitIdLen
  idCount : IDs.card ≤ 255
  total : ∑ ID ∈ IDs, ID.length < 256
  item : IDs.Nonempty

/-- The node of the rendezvous element, the node of the manager and the manager. -/
structure Site where
  gcRV : GlobalConf
  gcTM : GlobalConf
  TMFID : Bitvector
  tm : Manager
  /-- What is in memory that nobody has written. -/
  fresh : Nat → UInt8
  pid : Nat
  host : HostId

namespace Site

/-- The node labels have their length, and the way to the manager is known. -/
structure Configured (w : Site) : Prop where
  nodeID : w.gcRV.nodeID.length = nodeIDLen
  TMFID : w.gcRV.TMFID = some w.TMFID

/-- The proxy of the rendezvous element publishes the payload to the manager. -/
def Publishes (w : Site) (p payload : List UInt8) : Prop :=
  LocalProxy.readLocal w.gcRV .clickElement rvElement [] [] p = some (some
    (.publication .clickElement rvElement w.gcRV.nodeTMScope implicitRendezvous w.TMFID payload))

/-- The notifications that the proxy of a node reads, `none` for reads that fail. -/
def notices (w : Site) (gcP : GlobalConf) (pubs : List Publication) : List (Option Notification) :=
  (pubs.filter fun pub => pub.id = gcP.notificationIID).map fun pub => do
    let i ← LocalProxy.receives w.fresh w.pid w.host w.gcTM gcP pub
    (← i).notification?

/-- The round trip of a match: the sets that the manager sees, and one notification for each
publisher by what the match assigned it. `beyond` is the memory behind the request. -/
def RelaysMatch (w : Site) (beyond : List UInt8) (strategy : Strategy)
    (publishers subscribers : Finset NodeId) (IDs : Finset Id) : Prop :=
  ∀ P S I, Walked P publishers → Walked S subscribers → Walked I IDs → ∃ p payload r,
    LocalRV.requestTMAssistanceForRendezvous w.fresh w.gcRV strategy P S I = some p ∧
    w.Publishes p payload ∧
    Manager.readMatch (payload ++ beyond) payload.length = some r ∧
    Walked r.publishers publishers ∧ Walked r.subscribers subscribers ∧
    ∀ m, calculateFIDs (w.tm.route r.ids_str) r.publishers r.subscribers = some m →
      ∃ pubs, w.tm.handleRequest w.fresh (payload ++ beyond) payload.length = some pubs ∧
        ∀ gcP, (gcP.nodeID ∉ publishers → w.notices gcP pubs = []) ∧
          (gcP.nodeID ∈ publishers → ∃ FID ids, (gcP.nodeID, FID) ∈ m.result ∧ Walked ids IDs ∧
            w.notices gcP pubs = [some (answer ids FID)])

/-- The round trip of a scope event. -/
def RelaysScope (w : Site) (beyond : List UInt8) (event : ScopeEvent) (IDs : Finset Id)
    (subscribers : Finset NodeId) (strategy : Strategy) : Prop :=
  ∀ S I, Walked S subscribers → Walked I IDs → ∃ p payload pubs,
    LocalRV.requestTMAssistanceForNotifyingSubscribers w.fresh w.gcRV event.code I S strategy =
      some p ∧
    w.Publishes p payload ∧
    w.tm.handleRequest w.fresh (payload ++ beyond) payload.length = some pubs ∧
    ∀ gcP, (gcP.nodeID ∉ subscribers → w.notices gcP pubs = []) ∧
      (gcP.nodeID ∈ subscribers → ∃ ids, Walked ids IDs ∧
        w.notices gcP pubs = [some (event.notification ids)])

end Site

namespace Emission

/-- The messages for the manager. -/
def Relays (w : Site) (beyond : List UInt8) : Emission → Prop
  | .matchPubSubs _ strategy publishers subscribers IDs =>
    w.RelaysMatch beyond strategy publishers subscribers IDs
  | .scopeToTM event IDs subscribers strategy => w.RelaysScope beyond event IDs subscribers strategy
  | _ => False

def Fits : Emission → Prop
  | .matchPubSubs _ _ publishers subscribers IDs => Small publishers IDs ∧ Small subscribers IDs
  | .scopeToTM _ IDs subscribers _ => Small subscribers IDs
  | _ => False

def IsScope : Emission → Prop
  | .scopeToTM _ _ _ _ => True
  | _ => False

end Emission

variable {w : Site} {P S nodes : List NodeId} {I : List Id} {IDs : Finset Id} {s : Finset NodeId}
  {gcP : GlobalConf} {pubs : List Publication} {strategy : Strategy} {beyond : List UInt8}
  {p : List UInt8} {publishers subscribers : Finset NodeId}

theorem Walked.mem {α : Type} [DecidableEq α] {l : List α} {s : Finset α} (h : Walked l s) {a : α} :
    a ∈ l ↔ a ∈ s := by
  rw [← h.eq, List.mem_toFinset]

theorem Walked.length {α : Type} [DecidableEq α] {l : List α} {s : Finset α} (h : Walked l s) :
    l.length = s.card := by
  rw [← h.eq, List.toFinset_card_of_nodup h.nodup]

theorem Walked.toList {α : Type} [DecidableEq α] (s : Finset α) : Walked s.toList s :=
  ⟨s.nodup_toList, s.toList_toFinset⟩

theorem Small.fits (h : Small s IDs) (hnodes : Walked nodes s) (hI : Walked I IDs) : Fits I nodes where
  hosts l hl := h.hosts l (hnodes.mem.mp hl)
  hostCount := hnodes.length ▸ h.hostCount
  whole ID hID := h.whole ID (hI.mem.mp hID)
  short ID hID := h.short ID (hI.mem.mp hID)
  idCount := hI.length ▸ h.idCount
  total := by
    have htotal := h.total
    rw [← hI.eq, List.sum_toFinset _ hI.nodup] at htotal
    rwa [List.length_flatten]

theorem Fits.sendable (h : Fits I nodes) : ∀ ID ∈ I, Sendable ID := by
  intro ID hID
  have hshort := h.short ID hID
  exact ⟨h.whole ID hID, by omega⟩

theorem sendable_nodeTMScope {gc : GlobalConf} (hgc : gc.nodeID.length = nodeIDLen) :
    Sendable gc.nodeTMScope := by
  have hlen := length_nodeTMScope hgc
  exact ⟨hlen ▸ by decide, hlen ▸ by decide⟩

theorem publishes (hw : w.Configured) (payload : List UInt8) :
    w.Publishes (publicationBytes w.gcRV.nodeTMScope w.TMFID payload) payload := by
  have hother : w.gcRV.nodeTMScope ≠ w.gcRV.notificationIID := by
    intro h
    have hhead := congrArg (List.take 8) h
    simp [GlobalConf.nodeTMScope, GlobalConf.notificationIID, GlobalConf.TMScope,
      GlobalConf.notificationScope] at hhead
  have hread := readLocal_publication w.TMFID payload w.gcRV .clickElement rvElement
    (sendable_nodeTMScope hw.nodeID)
  rw [if_neg hother] at hread
  simpa [Site.Publishes, publicationBytes] using hread

/-! ## What the nodes get -/

section

variable {α : Type} {node : α → NodeId} {n : α → Notification} {l : List α}

/-- Only the publication under the id of a node counts for it. -/
theorem notices_none
    (h : List.Forall₂ (fun e pub => Manager.Tells (node e) (n e) pub) l pubs)
    (hnode : gcP.nodeID ∉ l.map node) : w.notices gcP pubs = [] := by
  have hkey : gcP.notificationIID ∉ l.map fun e => GlobalConf.notificationScope ++ node e := by
    intro hmem
    obtain ⟨e, he, hid⟩ := List.mem_map.mp hmem
    exact hnode (List.append_cancel_left hid ▸ List.mem_map_of_mem he)
  rw [Site.notices, filter_eq_nil h (fun e pub htell => htell.id) hkey]
  rfl

theorem notices_one
    (h : List.Forall₂ (fun e pub => Manager.Tells (node e) (n e) pub) l pubs)
    (hkeys : (l.map node).Nodup) {e : α} (he : e ∈ l) (hnode : gcP.nodeID = node e)
    (hlen : gcP.nodeID.length = nodeIDLen) : w.notices gcP pubs = [some (n e)] := by
  have hkeys' : (l.map fun e => GlobalConf.notificationScope ++ node e).Nodup := by
    have hinj := hkeys.map (f := fun X => GlobalConf.notificationScope ++ X)
      (List.append_right_injective _)
    rwa [List.map_map] at hinj
  obtain ⟨pub, hfilter, htell⟩ := filter_eq_singleton h (fun e pub htell => htell.id) hkeys' he
  have hid : pub.id = gcP.notificationIID := by rw [htell.id, ← hnode]; rfl
  obtain ⟨i, hread, hi⟩ := receives_notification hlen hid htell.strategy htell.data w.pid w.host
  have hkey : gcP.notificationIID = GlobalConf.notificationScope ++ node e := by
    rw [← hnode]
    rfl
  rw [Site.notices, hkey, hfilter, List.map_singleton, hread]
  simp [hi]

end

theorem keys_match {m : TMIgraph.Matching NodeId} {f : NodeId → NodeId → TMIgraph.Route NodeId}
    (hP : Walked P publishers) (hm : calculateFIDs f P S = some m) :
    (m.result.map Prod.fst).Nodup ∧ ∀ node, node ∈ m.result.map Prod.fst ↔ node ∈ publishers := by
  rw [(keys_calculateFIDs hm).result]
  exact ⟨hP.nodup, fun node => hP.mem⟩

theorem walked_nodeSet (h : Walked P publishers) : Walked (Manager.nodeSet P) publishers :=
  ⟨Manager.nodup_nodeSet, Manager.toFinset_nodeSet.trans h.eq⟩

theorem relaysMatch (hw : w.Configured) (hpubs : Small publishers IDs) (hsubs : Small subscribers IDs)
    (hbeyond : 2 ≤ beyond.length) : w.RelaysMatch beyond strategy publishers subscribers IDs := by
  intro P S I hP hS hI
  have hfitP := hpubs.fits hP hI
  have hfitS := hsubs.fits hS hI
  have hsend := hfitS.sendable
  obtain ⟨ID, I, rfl⟩ : ∃ ID I', I = ID :: I' := by
    obtain ⟨X, hX⟩ := hpubs.item
    exact List.exists_cons_of_ne_nil (List.ne_nil_of_mem (hI.mem.mpr hX))
  obtain ⟨r, hread, hrP, hrS, hlen, hdrop⟩ := Manager.readMatch_eq hfitP.hostCount hfitP.hosts
    hfitS.hostCount hfitS.hosts (hsend ID (by simp)) hbeyond
    (rfl : matchBytes strategy P S (ID :: I) ++ beyond = _)
  refine ⟨_, _, r, requestTMAssistanceForRendezvous_eq hw.nodeID hw.TMFID hfitP.hosts hfitS,
    publishes hw _, hread, hrP ▸ walked_nodeSet hP, hrS ▸ walked_nodeSet hS, fun m hm => ?_⟩
  obtain ⟨pubs, hrun, hall⟩ := Manager.handleRequest_match w.tm w.fresh hfitP.idCount hsend rfl hread
    hlen hdrop hm
  obtain ⟨hkeys, hmem⟩ := keys_match (hrP ▸ walked_nodeSet hP) hm
  refine ⟨pubs, hrun, fun gcP => ⟨fun hout => ?_, fun hin => ?_⟩⟩
  · exact notices_none hall ((hmem _).not.mpr hout)
  · obtain ⟨e, he, hnode⟩ := List.mem_map.mp ((hmem _).mpr hin)
    refine ⟨e.2, ID :: I, hnode ▸ he, hI, ?_⟩
    exact notices_one hall hkeys he hnode.symm (hpubs.hosts _ hin)

theorem not_relaysMatch (hw : w.Configured) (hpubs : Small publishers IDs)
    (hsubs : Small subscribers IDs) : ¬ w.RelaysMatch [] strategy publishers subscribers IDs := by
  intro h
  have hP := Walked.toList publishers
  have hS := Walked.toList subscribers
  have hI := Walked.toList IDs
  have hfitP := hpubs.fits hP hI
  have hfitS := hsubs.fits hS hI
  obtain ⟨p, payload, r, hrun, hpass, hread, -⟩ := h _ _ _ hP hS hI
  rw [requestTMAssistanceForRendezvous_eq hw.nodeID hw.TMFID hfitP.hosts hfitS] at hrun
  obtain rfl := Option.some.inj hrun
  have hsame := (publishes hw _).symm.trans hpass
  simp only [Option.some.injEq, LocalProxy.Input.publication.injEq, true_and] at hsame
  rw [← hsame, List.append_nil, Manager.readMatch_none hfitP.hostCount hfitP.hosts hfitS.hostCount
    hfitS.hosts] at hread
  cases hread

theorem relaysScope (hw : w.Configured) (hsubs : Small subscribers IDs) (beyond : List UInt8)
    (event : ScopeEvent) : w.RelaysScope beyond event IDs subscribers strategy := by
  intro S I hS hI
  have hfit := hsubs.fits hS hI
  obtain ⟨pubs, hrun, hall⟩ := Manager.handleRequest_scope w.tm w.fresh hfit.idCount hfit.sendable
    hfit.hostCount hfit.hosts event (rfl : scopeBytes event.code strategy S I ++ beyond = _)
  have hall' : List.Forall₂ (fun node pub => Manager.Tells (id node) (event.notification I) pub) S
      pubs := hall
  refine ⟨_, _, pubs, requestTMAssistanceForNotifyingSubscribers_eq hw.nodeID hw.TMFID hfit,
    publishes hw _, hrun, fun gcP => ⟨fun hout => ?_, fun hin => ?_⟩⟩
  · refine notices_none hall' ?_
    rw [List.map_id, hS.mem]
    exact hout
  · refine ⟨I, hI, notices_one hall' ?_ (hS.mem.mpr hin) rfl (hsubs.hosts _ hin)⟩
    rw [List.map_id]
    exact hS.nodup

/-- A scope event goes the whole way. A match does too as far as the values go, but the manager reads
two bytes behind each one. -/
theorem relays_iff (hw : w.Configured) {e : Emission} (hfit : e.Fits) :
    (e.Relays w [] ↔ e.IsScope) ∧ ∀ beyond, 2 ≤ beyond.length → e.Relays w beyond := by
  cases e with
  | matchPubSubs pub strategy publishers subscribers IDs =>
    obtain ⟨hpubs, hsubs⟩ := hfit
    refine ⟨⟨fun h => not_relaysMatch hw hpubs hsubs h, False.elim⟩, fun beyond hbeyond => ?_⟩
    exact relaysMatch hw hpubs hsubs hbeyond
  | scopeToTM event IDs subscribers strategy =>
    exact ⟨⟨fun _ => trivial, fun _ => relaysScope hw hfit [] event⟩,
      fun beyond _ => relaysScope hw hfit beyond event⟩
  | startPublish | stopPublish | scopeToProxy => exact hfit.elim

/-- One node is everything, and every route has one bit. -/
def exampleSite : Site where
  gcRV := ⟨true, frag 9, 0, 0, some 4⟩
  gcTM := ⟨true, frag 9, 0, 0, some 4⟩
  TMFID := 4
  tm := ⟨fun _ => 2, fun _ _ _ => ⟨1, 2, []⟩⟩
  fresh := fun _ => 77
  pid := 5
  host := 7

/-- An item with two ids, two publishers and two subscribers. -/
def exampleMatch : Emission :=
  .matchPubSubs 0 domainLocal {frag 1, frag 2} {frag 3, frag 4} {frag 5 ++ frag 6, frag 7 ++ frag 8 ++ frag 6}

theorem relays_iff_match : exampleMatch.Relays exampleSite [0, 0] :=
  (relays_iff (w := exampleSite) ⟨by decide, rfl⟩ (e := exampleMatch)
    ⟨⟨by decide, by decide, by decide, by decide, by decide, by decide, by decide⟩,
      ⟨by decide, by decide, by decide, by decide, by decide, by decide, by decide⟩⟩).2 [0, 0] (by decide)

theorem not_relays_match : exampleMatch.Fits ∧ ¬ exampleMatch.Relays exampleSite [] := by
  have hpubs : Small {frag 1, frag 2} {frag 5 ++ frag 6, frag 7 ++ frag 8 ++ frag 6} :=
    ⟨by decide, by decide, by decide, by decide, by decide, by decide, by decide⟩
  have hsubs : Small {frag 3, frag 4} {frag 5 ++ frag 6, frag 7 ++ frag 8 ++ frag 6} :=
    ⟨by decide, by decide, by decide, by decide, by decide, by decide, by decide⟩
  exact ⟨⟨hpubs, hsubs⟩, not_relaysMatch ⟨by decide, rfl⟩ hpubs hsubs⟩

end Blackadder
