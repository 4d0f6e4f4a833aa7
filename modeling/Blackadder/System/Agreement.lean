import Blackadder.Proxy.Forwarding
import Blackadder.Rendezvous.Records

/-!
# A node and its rendezvous point

The requests that the proxy forwards reach the rendezvous element in order. Other nodes send it
requests of their own.
-/

namespace Blackadder

open LocalProxy (Key held registration requestsOf keyOf)

/-- The proxy of `node`, its requests in flight and the rendezvous element. -/
structure System where
  proxy : LocalProxy
  /-- The oldest request first. -/
  wire : List Request
  rv : LocalRV
  /-- No request about the key was forwarded yet, or the last one that was delivered succeeded,
  and no later `unpublish_scope` of the node withdrew the id. -/
  accepted : Key → Prop

namespace System

def init (gc : GlobalConf) (nodeID : NodeId) : System :=
  ⟨LocalProxy.init gc, [], LocalRV.init nodeID, fun _ => True⟩

/-- A request to unpublish a scope took an item of the node from its record. -/
def Withdrew (node : NodeId) (rv rv' : LocalRV) (r : Request) (k : Key) : Prop :=
  r.type = .unpublishScope ∧ k.1 = .publisher ∧ k.2 ∈ rv.record node .publisher .item ∧
    ¬ k.2 ∈ rv'.record node .publisher .item

/-- An input of the proxy, the delivery of the oldest request, or a request of another node. The
hosts ask what the client library lets through. -/
inductive Step (node : NodeId) (s : System) : System → Prop
  | locally {a : LocalProxy.Input × List ProxyOutput} {proxy' : LocalProxy}
      (h : s.proxy.Step a proxy') (ha : a.1.Accepted) :
      Step node s { s with proxy := proxy', wire := s.wire ++ requestsOf a.2 }
  | deliver {r : Request} {rest : List Request} {fuel : Nat} {code : ReturnCode} {rv' : LocalRV}
      (hw : s.wire = r :: rest) (h : LocalRV.handle fuel s.rv node r = .ok (code, rv')) :
      Step node s { s with
        wire := rest
        rv := rv'
        accepted := fun k => if k = keyOf r then code = .success
          else s.accepted k ∧ ¬ Withdrew node s.rv rv' r k }
  | other {h : NodeId} {r : Request} {fuel : Nat} {code : ReturnCode} {rv' : LocalRV}
      (hne : h ≠ node) (hr : r.WellFormed)
      (hh : LocalRV.handle fuel s.rv h r = .ok (code, rv')) : Step node s { s with rv := rv' }

/-- All runs, whatever happens in which order. -/
def Reachable (node : NodeId) (s : System) : Prop :=
  ∃ gc nodeID, Runs.Reachable (fun s (_ : Unit) s' => Step node s s') (init gc nodeID) s

variable {s s' : System} {node : NodeId} {k : Key} {done : Key → Option Kind} {r : Request}
  {code : ReturnCode} {rv rv' : LocalRV} {fuel : Nat} {h : NodeId}

/-- `done` is what the requests that were delivered say. The rest of them leads from there to
what the proxy holds, and the element has it right where the last request succeeded. -/
structure Tracks (node : NodeId) (s : System) (done : Key → Option Kind) : Prop where
  named : s.proxy.Named
  rv : s.rv.Reachable
  wellFormed : ∀ r ∈ s.wire, r.WellFormed
  wire : s.proxy.held = Registers.replay done (s.wire.map registration)
  right : ∀ k, s.accepted k → ∀ kd, k.2 ∈ s.rv.record node k.1 kd ↔ done k = some kd

/-- A request of one node changes the record of no other key. -/
theorem record_of_ne (hrv : rv.Reachable) (hr : r.WellFormed)
    (hh : LocalRV.handle fuel rv h r = .ok (code, rv')) {role : Role} {X : Id}
    (hk : h ≠ node ∨ (role, X) ≠ keyOf r)
    (hw : h = node → ¬ Withdrew node rv rv' r (role, X)) (kd : Kind) :
    X ∈ rv'.record node role kd ↔ X ∈ rv.record node role kd := by
  obtain ⟨lab, hinv⟩ := hrv.inv
  have he := LocalRV.handle_effect hinv hr hh
  constructor
  · intro hX'
    by_contra hX
    obtain ⟨rfl, rfl, -, rfl⟩ := he.begun hinv hX hX'
    exact hk.elim (fun h => h rfl) fun h => h rfl
  · intro hX
    by_contra hX'
    obtain ⟨rfl, rfl, -, ⟨-, rfl⟩ | ⟨hty, rfl, -⟩⟩ := he.ended hinv hX hX'
    · exact hk.elim (fun h => h rfl) fun h => h rfl
    · have hrole : r.type.role = .publisher := by rw [hty]; rfl
      rw [hrole] at hX hX' hw
      exact hw rfl ⟨hty, rfl, hX, hX'⟩

theorem Tracks.deliver {rest : List Request} (ht : Tracks node s done) (hw : s.wire = r :: rest)
    (hh : LocalRV.handle fuel s.rv node r = .ok (code, rv')) :
    Tracks node { s with
      wire := rest
      rv := rv'
      accepted := fun k => if k = keyOf r then code = .success
        else s.accepted k ∧ ¬ Withdrew node s.rv rv' r k }
      (Registers.write done (registration r)) := by
  have hr : r.WellFormed := ht.wellFormed r (by simp [hw])
  have hstep : s.rv.Step (node, r) rv' := ⟨hr, fuel, code, hh⟩
  have hrv' : rv'.Reachable := ht.rv.next hstep
  exact {
    named := ht.named
    rv := hrv'
    wellFormed := fun r' hr' => ht.wellFormed r' (by simp [hw, hr'])
    wire := by
      have hwire := ht.wire
      rw [hw, List.map_cons, Registers.replay_cons] at hwire
      exact hwire
    right := fun k hacc kd => by
      obtain ⟨role, X⟩ := k
      dsimp only at hacc ⊢
      by_cases hk : (role, X) = keyOf r
      · rw [if_pos hk] at hacc
        obtain ⟨rfl, rfl⟩ := Prod.mk.inj hk
        obtain rfl : code = .success := hacc
        obtain ⟨lab, hinv⟩ := ht.rv.inv
        obtain ⟨lab', hinv'⟩ := hrv'.inv
        have he := LocalRV.handle_effect hinv hr hh
        rw [he.settled hinv hinv' (LocalRV.recordsAgree_of_reachable ht.rv)
          (LocalRV.recordsAgree_of_reachable hrv')]
        have hwrite : Registers.write done (registration r) (r.type.role, r.fullID) =
            if r.type.enters then some r.type.kind else none := Function.update_self _ _ _
        rw [hwrite]
        cases r.type.enters <;> simp [eq_comm]
      · rw [if_neg hk] at hacc
        have hwrite : Registers.write done (registration r) (role, X) = done (role, X) :=
          Function.update_of_ne hk _ _
        rw [hwrite, ← ht.right (role, X) hacc.1]
        exact record_of_ne ht.rv hr hh (Or.inr hk) (fun _ => hacc.2) kd }

theorem Step.tracks (hstep : Step node s s') (ht : Tracks node s done) :
    ∃ done', Tracks node s' done' := by
  cases hstep with
  | locally h ha =>
    obtain ⟨hheld, hwf⟩ := h.held ht.named ha
    refine ⟨done, h.named ht.named ha, ht.rv, fun r hr => ?_, ?_, ht.right⟩
    · exact (List.mem_append.mp hr).elim (ht.wellFormed r) (hwf r)
    · rw [hheld, ht.wire, List.map_append, Registers.replay_append]
  | deliver hw h => exact ⟨_, ht.deliver hw h⟩
  | @other h r fuel code rv' hne hr hh =>
    have hrv' : rv'.Reachable := ht.rv.next (a := (h, r)) ⟨hr, fuel, code, hh⟩
    refine ⟨done, ht.named, hrv', ht.wellFormed, ht.wire, ?_⟩
    intro k hacc kd
    rw [← ht.right k hacc]
    exact record_of_ne ht.rv hr hh (Or.inl hne) (fun h => absurd h hne) kd

theorem Reachable.tracks (hs : Reachable node s) : ∃ done, Tracks node s done := by
  obtain ⟨gc, nodeID, hrun⟩ := hs
  refine hrun.invariant (I := fun s => ∃ done, Tracks node s done) ⟨fun _ => none, ?_⟩
    fun s _ s' _ hI hstep => ?_
  · exact {
      named := LocalProxy.named_init gc
      rv := ⟨nodeID, .start⟩
      wellFormed := fun r hr => nomatch hr
      wire := by
        funext k
        exact LocalProxy.held_of_none (by obtain ⟨_ | _, X⟩ := k <;> rfl)
      right := fun k _ kd => by simp [init, LocalRV.init] }
  · obtain ⟨done, ht⟩ := hI
    exact hstep.tracks ht

theorem kindOf_eq (a : LocalProxy.Attr) (kd : Kind) :
    LocalProxy.kindOf a = kd ↔ a.isScope = decide (kd = .scope) := by
  unfold LocalProxy.kindOf
  cases kd <;> cases a.isScope <;> simp

theorem held_publisher {p : LocalProxy} {X : Id} {kd : Kind} :
    p.held (.publisher, X) = some kd ↔ ∃ ap, p.activePublicationIndex X = some ap ∧
      ap.isScope = decide (kd = .scope) ∧ (ap.strategy = nodeLocal ∨ ap.strategy = domainLocal) := by
  cases hX : p.activePublicationIndex X with
  | none =>
    rw [LocalProxy.held_of_none (by simp [hX])]
    simp
  | some ap =>
    rw [LocalProxy.held_of_some (e := .inl ap) (by simp [hX])]
    have hkind := kindOf_eq (LocalProxy.Entry.attr (.inl ap)) kd
    simp only [LocalProxy.forwards, Option.some.injEq, exists_eq_left', Option.ite_none_right_eq_some,
      decide_eq_true_eq, hkind]
    exact and_comm

theorem held_subscriber {p : LocalProxy} {X : Id} {kd : Kind} :
    p.held (.subscriber, X) = some kd ↔ ∃ sub, p.activeSubscriptionIndex X = some sub ∧
      sub.isScope = decide (kd = .scope) ∧ LocalProxy.staysLocal sub.strategy = false := by
  cases hX : p.activeSubscriptionIndex X with
  | none =>
    rw [LocalProxy.held_of_none (by simp [hX])]
    simp
  | some sub =>
    rw [LocalProxy.held_of_some (e := .inr sub) (by simp [hX])]
    have hkind := kindOf_eq (LocalProxy.Entry.attr (.inr sub)) kd
    simp only [LocalProxy.forwards, Option.some.injEq, exists_eq_left', Option.ite_none_right_eq_some,
      Bool.not_eq_true', hkind]
    exact and_comm

/-- With no request in flight, the rendezvous element and the proxy agree on every id whose last
request succeeded and was not undone. -/
theorem proxy_agrees (hs : Reachable node s) (hw : s.wire = []) :
    (∀ X kd, s.accepted (.publisher, X) → (X ∈ s.rv.record node .publisher kd ↔
      ∃ ap, s.proxy.activePublicationIndex X = some ap ∧ ap.isScope = decide (kd = .scope) ∧
        (ap.strategy = nodeLocal ∨ ap.strategy = domainLocal))) ∧
    ∀ X kd, s.accepted (.subscriber, X) → (X ∈ s.rv.record node .subscriber kd ↔
      ∃ sub, s.proxy.activeSubscriptionIndex X = some sub ∧ sub.isScope = decide (kd = .scope) ∧
        LocalProxy.staysLocal sub.strategy = false) := by
  obtain ⟨done, ht⟩ := hs.tracks
  have hwire := ht.wire
  rw [hw, List.map_nil, Registers.replay_nil] at hwire
  constructor
  · intro X kd hacc
    rw [ht.right _ hacc, ← hwire]
    exact held_publisher
  · intro X kd hacc
    rw [ht.right _ hacc, ← hwire]
    exact held_subscriber

/-! ## Runs on fixed inputs -/

/-- A request of an application, which is in flight if it is forwarded. -/
def request (s : System) (host : HostId) (r : Request) : System :=
  { s with
    proxy := (s.proxy.pushRequest .localProcess host r).1
    wire := s.wire ++ requestsOf (s.proxy.pushRequest .localProcess host r).2 }

/-- The oldest request arrives. -/
def arrive (fuel : Nat) (node : NodeId) (s : System) : System :=
  match s.wire with
  | [] => s
  | r :: rest =>
    match LocalRV.handle fuel s.rv node r with
    | .error _ => s
    | .ok (code, rv') => { s with
        wire := rest
        rv := rv'
        accepted := fun k => if k = keyOf r then code = .success
          else s.accepted k ∧ ¬ Withdrew node s.rv rv' r k }

theorem Reachable.next (hs : Reachable node s) (h : Step node s s') : Reachable node s' := by
  obtain ⟨gc, nodeID, hs⟩ := hs
  exact ⟨gc, nodeID, Runs.Reachable.next hs (a := ()) h⟩

theorem reachable_request (hs : Reachable node s) (host : HostId) (hr : r.Accepted) :
    Reachable node (s.request host r) :=
  hs.next (.locally (a := (.request .localProcess host r, _)) ⟨hr.toWhole, rfl⟩ hr)

theorem reachable_arrive (hs : Reachable node s) : Reachable node (s.arrive fuel node) := by
  unfold arrive
  split
  · exact hs
  · next r rest hw =>
    split
    · exact hs
    · next code rv' hh => exact hs.next (.deliver hw hh)

/-- Requests of applications, each of which arrives before the next one. -/
def requests (node : NodeId) (l : List (HostId × Request)) : System :=
  l.foldl (fun s a => (s.request a.1 a.2).arrive 5 node) (init LocalProxy.exampleConf [0])

theorem reachable_requests (node : NodeId) {l : List (HostId × Request)}
    (hl : ∀ a ∈ l, a.2.Accepted) : Reachable node (requests node l) := by
  refine List.foldlRecOn l _ (motive := Reachable node) ⟨_, _, .start⟩ fun s hs a ha => ?_
  exact reachable_arrive (reachable_request hs a.1 (hl a ha))

/-- A scope of one application, in which two applications publish an item. -/
def sharedRun : List (HostId × Request) :=
  [(1, ⟨.publishScope, frag 1, [], domainLocal⟩), (1, ⟨.publishInfo, frag 2, frag 1, domainLocal⟩),
    (2, ⟨.publishInfo, frag 2, frag 1, domainLocal⟩)]

theorem proxy_agrees_shared :
    (requests [1] sharedRun).accepted (.publisher, frag 1 ++ frag 2) ∧
      (frag 1 ++ frag 2 ∈ (requests [1] sharedRun).rv.record [1] .publisher .item ↔
        ∃ ap, (requests [1] sharedRun).proxy.activePublicationIndex (frag 1 ++ frag 2) = some ap ∧
          ap.isScope = decide (Kind.item = .scope) ∧
          (ap.strategy = nodeLocal ∨ ap.strategy = domainLocal)) := by
  have hacc : (requests [1] sharedRun).accepted (.publisher, frag 1 ++ frag 2) := rfl
  have hagree := proxy_agrees (reachable_requests [1] (l := sharedRun) (by decide)) (by decide)
  exact ⟨hacc, hagree.1 _ _ hacc⟩

/-- An item whose father does not exist. -/
def refusedRun : List (HostId × Request) := [(1, ⟨.publishInfo, frag 2, frag 1, domainLocal⟩)]

/-- The scope of a shared item is withdrawn by its only publisher. -/
def withdrawnRun : List (HostId × Request) :=
  sharedRun ++ [(1, ⟨.unpublishScope, frag 1, [], domainLocal⟩)]

/-- A scope is withdrawn as if it were an item. -/
def wrongKindRun : List (HostId × Request) :=
  [(1, ⟨.publishScope, frag 1, [], domainLocal⟩), (1, ⟨.publishScope, frag 2, frag 1, domainLocal⟩),
    (1, ⟨.unpublishInfo, frag 2, frag 1, domainLocal⟩)]

/-- A subscription with a strategy that nobody knows. -/
def oddStrategyRun : List (HostId × Request) := [(1, ⟨.subscribeScope, frag 1, [], 7⟩)]

/-- The proxy and the rendezvous element disagree with nothing in flight: the proxy holds what
was refused or withdrawn with its scope, and the element records what was withdrawn as another
kind or has another strategy than the two. -/
theorem proxy_disagrees :
    (Reachable [1] (requests [1] refusedRun) ∧ (requests [1] refusedRun).wire = [] ∧
      (∃ ap, (requests [1] refusedRun).proxy.activePublicationIndex (frag 1 ++ frag 2) = some ap ∧
        ap.isScope = false ∧ ap.strategy = domainLocal) ∧
      ¬ frag 1 ++ frag 2 ∈ (requests [1] refusedRun).rv.record [1] .publisher .item) ∧
    (Reachable [1] (requests [1] withdrawnRun) ∧ (requests [1] withdrawnRun).wire = [] ∧
      (∃ ap, (requests [1] withdrawnRun).proxy.activePublicationIndex (frag 1 ++ frag 2) = some ap ∧
        ap.isScope = false ∧ ap.strategy = domainLocal) ∧
      ¬ frag 1 ++ frag 2 ∈ (requests [1] withdrawnRun).rv.record [1] .publisher .item) ∧
    (Reachable [1] (requests [1] wrongKindRun) ∧ (requests [1] wrongKindRun).wire = [] ∧
      (requests [1] wrongKindRun).proxy.publishersOf (frag 1 ++ frag 2) = none ∧
      frag 1 ++ frag 2 ∈ (requests [1] wrongKindRun).rv.record [1] .publisher .scope) ∧
    Reachable [1] (requests [1] oddStrategyRun) ∧ (requests [1] oddStrategyRun).wire = [] ∧
      (∃ sub, (requests [1] oddStrategyRun).proxy.activeSubscriptionIndex (frag 1) = some sub ∧
        sub.strategy = 7) ∧
      frag 1 ∈ (requests [1] oddStrategyRun).rv.record [1] .subscriber .scope := by
  refine ⟨⟨reachable_requests [1] (by decide), by decide, ⟨_, rfl, rfl, rfl⟩, by decide⟩,
    ⟨reachable_requests [1] (by decide), by decide, ⟨_, rfl, rfl, rfl⟩, by decide⟩,
    ⟨reachable_requests [1] (by decide), by decide, rfl, by decide⟩,
    reachable_requests [1] (by decide), by decide, ⟨_, rfl, rfl⟩, by decide⟩

end System

end Blackadder
