import Blackadder.Api.Requests

/-!
# Requests that are built inside Click

Elements of the router build the packets of their requests themselves. A request with a prefix is
laid out with its two ids the other way round.
-/

namespace Blackadder

open Wire

/-- `bapi_makepacket`. `fresh` is what was in the memory of the packet. -/
def bapiMakepacket (fresh : Nat → UInt8) (type : UInt8) (prefixID id : Id) (strategy : Strategy) :
    Option (List UInt8) := do
  let id_len := fragments id
  let prefix_len := fragments prefixID
  let p := LocalProxy.room fresh (1 + 1 + 1 + id.length + prefixID.length + 1) []
  let p ← store p 0 type
  let p ← if prefix_len > 0 then do
      let p ← store p 1 prefix_len
      let p ← blit p (1 + 1) prefixID
      let p ← store p (1 + 1 + prefixID.length) id_len
      blit p (1 + 1 + prefixID.length + 1) id
    else do
      let p ← store p 1 id_len
      let p ← blit p (1 + 1) id
      store p (1 + 1 + id.length) prefix_len
  store p (1 + 1 + id.length + 1 + prefixID.length) strategy

def bapiPublishScope (fresh : Nat → UInt8) (prefixID id : Id) (strategy : Strategy) :
    Option (List UInt8) :=
  bapiMakepacket fresh RequestType.publishScope.code prefixID id strategy

def bapiPublishInfo (fresh : Nat → UInt8) (prefixID id : Id) (strategy : Strategy) :
    Option (List UInt8) :=
  bapiMakepacket fresh RequestType.publishInfo.code prefixID id strategy

def bapiUnpublishScope (fresh : Nat → UInt8) (prefixID id : Id) (strategy : Strategy) :
    Option (List UInt8) :=
  bapiMakepacket fresh RequestType.unpublishScope.code prefixID id strategy

def bapiUnpublishInfo (fresh : Nat → UInt8) (prefixID id : Id) (strategy : Strategy) :
    Option (List UInt8) :=
  bapiMakepacket fresh RequestType.unpublishInfo.code prefixID id strategy

variable {fresh : Nat → UInt8} {p : List UInt8} {ID prefixID : Id} {t : UInt8} {k : Nat}
  {strategy : Strategy} {r r' : Request} {gc : GlobalConf}

theorem fragments_pos (h : Sendable prefixID) : fragments prefixID > 0 ↔ prefixID ≠ [] := by
  have hlen := h.toNat_fragments
  have hpos : fragments prefixID > 0 ↔ 0 < (fragments prefixID).toNat := UInt8.lt_iff_toNat_lt
  rw [hpos, ← List.length_pos_iff]
  simp only [pursuitIdLen] at hlen
  omega

/-- The request whose bytes are in the packet. -/
def swapped (prefixID ID : Id) : Id × Id := if prefixID = [] then (ID, []) else (prefixID, ID)

theorem bapiMakepacket_eq (hpre : Sendable prefixID) : bapiMakepacket fresh t prefixID ID strategy =
    some (requestBytes t (swapped prefixID ID).1 (swapped prefixID ID).2 strategy) := by
  unfold bapiMakepacket
  generalize hsize : 1 + 1 + 1 + ID.length + prefixID.length + 1 = size
  obtain ⟨p1, hrun1, h1⟩ := (front_room fresh size []).store (a := t) (k := 0) rfl (by omega)
  by_cases hne : prefixID = []
  · have hzero : ¬ fragments prefixID > 0 := fun h => (fragments_pos hpre).mp h hne
    subst hne
    obtain ⟨p2, hrun2, h2⟩ := h1.store (a := fragments ID) (k := 1) rfl (by omega)
    obtain ⟨p3, hrun3, h3⟩ := h2.blit (x := ID) (k := 1 + 1) rfl (by omega)
    obtain ⟨p4, hrun4, h4⟩ := h3.store (a := fragments []) (k := 1 + 1 + ID.length)
      (by simp; omega) (by omega)
    obtain ⟨p5, hrun5, h5⟩ := h4.store (a := strategy) (k := 1 + 1 + ID.length + 1 + 0)
      (by simp; omega) (by rw [List.length_nil] at hsize; omega)
    have hp5 := h5.eq (by simp at hsize ⊢; omega)
    simp only [if_neg hzero, hrun1, hrun2, hrun3, hrun4, List.length_nil, hrun5, hp5,
      Option.bind_eq_bind, Option.bind_some]
    simp [requestBytes, idBytes, swapped]
  · have hpos : fragments prefixID > 0 := (fragments_pos hpre).mpr hne
    obtain ⟨p2, hrun2, h2⟩ := h1.store (a := fragments prefixID) (k := 1) rfl (by omega)
    obtain ⟨p3, hrun3, h3⟩ := h2.blit (x := prefixID) (k := 1 + 1) rfl (by omega)
    obtain ⟨p4, hrun4, h4⟩ := h3.store (a := fragments ID) (k := 1 + 1 + prefixID.length)
      (by simp; omega) (by omega)
    obtain ⟨p5, hrun5, h5⟩ := h4.blit (x := ID) (k := 1 + 1 + prefixID.length + 1)
      (by simp; omega) (by omega)
    obtain ⟨p6, hrun6, h6⟩ := h5.store (a := strategy) (k := 1 + 1 + ID.length + 1 + prefixID.length)
      (by simp; omega) (by omega)
    have hp6 := h6.eq (by simp; omega)
    simp only [if_pos hpos, hrun1, hrun2, hrun3, hrun4, hrun5, hrun6, hp6, Option.bind_eq_bind,
      Option.bind_some]
    simp [requestBytes, idBytes, swapped, hne]

/-! ## What the proxy can read -/

theorem length_readId (h : readId p k = some ID) : ID.length ≤ 255 * pursuitIdLen := by
  obtain ⟨count, -, hslice⟩ := Option.bind_eq_some_iff.mp h
  rw [slice_length hslice]
  exact Nat.mul_le_mul_right _ (Nat.le_of_lt_succ count.toNat_lt)

theorem length_readRequest {raw : RawRequest} (h : readRequest p k = some raw) :
    raw.ID.length ≤ 255 * pursuitIdLen ∧ raw.prefixID.length ≤ 255 * pursuitIdLen := by
  obtain ⟨t, -, h⟩ := Option.bind_eq_some_iff.mp h
  obtain ⟨ID, hID, h⟩ := Option.bind_eq_some_iff.mp h
  obtain ⟨prefixID, hpre, h⟩ := Option.bind_eq_some_iff.mp h
  obtain ⟨strategy, -, h⟩ := Option.bind_eq_some_iff.mp h
  cases h
  exact ⟨length_readId hID, length_readId hpre⟩

variable {type type' : HostType} {host host' : HostId} {pubOrder subOrder : List Id}

theorem readPublication_ne : LocalProxy.readPublication gc type host p ≠
    some (some (.request type' host' r)) := by
  intro h
  obtain ⟨ID, -, h⟩ := Option.bind_eq_some_iff.mp h
  obtain ⟨strategy, -, h⟩ := Option.bind_eq_some_iff.mp h
  split at h
  · obtain ⟨FID, -, h⟩ := Option.bind_eq_some_iff.mp h
    split at h
    · obtain ⟨n, -, h⟩ := Option.bind_eq_some_iff.mp h
      cases n <;> simp [pure] at h
    · simp [pure] at h
  · split at h
    · obtain ⟨FID, -, h⟩ := Option.bind_eq_some_iff.mp h
      simp [pure] at h
    · simp [pure] at h

theorem readRequest_of_readLocal (h : LocalProxy.readLocal gc type host pubOrder subOrder p =
    some (some (.request type' host' r))) :
    ∃ raw, readRequest p 0 = some raw ∧ raw.request? = some r := by
  obtain ⟨code, -, h⟩ := Option.bind_eq_some_iff.mp h
  split at h
  · simp [pure] at h
  split at h
  · exact absurd h readPublication_ne
  obtain ⟨raw, hraw, h⟩ := Option.bind_eq_some_iff.mp h
  refine ⟨raw, hraw, ?_⟩
  split at h
  · next r' hr' =>
    cases h
    exact hr'
  · simp [pure] at h

/-- A request that the proxy reads has ids that a byte can count. -/
theorem length_readLocal (h : LocalProxy.readLocal gc type host pubOrder subOrder p =
    some (some (.request type' host' r))) :
    r.ID.length ≤ 255 * pursuitIdLen ∧ r.prefixID.length ≤ 255 * pursuitIdLen := by
  obtain ⟨raw, hraw, hr⟩ := readRequest_of_readLocal h
  have hlen := length_readRequest hraw
  obtain ⟨t, -, rfl⟩ := Option.map_eq_some_iff.mp hr
  exact hlen

/-! ## The same request -/

/-- A request from Click is read as what was asked, and so is the call of the client library, if
the library takes it. -/
def DecodesAsAsked (fresh : Nat → UInt8) (gc : GlobalConf) (r : Request) : Prop :=
  ∃ p, bapiMakepacket fresh r.type.code r.prefixID r.ID r.strategy = some p ∧
    ∀ type host pubOrder subOrder,
      LocalProxy.readLocal gc type host pubOrder subOrder p = some (some (.request type host r)) ∧
      ∀ pid d, Library.send pid r [] = .ok d →
        LocalProxy.readLocal gc type host pubOrder subOrder (FromNetlink.selected d) =
          some (some (.request type host r))

theorem readLocal_requestBytes (hID : Sendable ID) (hpre : Sendable prefixID) (r : Request) :
    LocalProxy.readLocal gc type host pubOrder subOrder
      (requestBytes r.type.code ID prefixID r.strategy) =
      some (some (.request type host { r with ID := ID, prefixID := prefixID })) := by
  rw [← List.append_nil (requestBytes r.type.code ID prefixID r.strategy)]
  exact readLocal_request (r := { r with ID := ID, prefixID := prefixID }) hID hpre type host pubOrder
    subOrder

/-- With a prefix the request is read with its ids the other way round. -/
theorem readLocal_swapped (hID : Sendable r.ID) (hpre : Sendable r.prefixID) (hne : r.prefixID ≠ [])
    (hp : bapiMakepacket fresh r.type.code r.prefixID r.ID r.strategy = some p) (gc : GlobalConf)
    (type : HostType) (host : HostId) (pubOrder subOrder : List Id) :
    LocalProxy.readLocal gc type host pubOrder subOrder p =
      some (some (.request type host { r with ID := r.prefixID, prefixID := r.ID })) := by
  rw [bapiMakepacket_eq hpre, swapped, if_neg hne] at hp
  obtain rfl := Option.some.inj hp
  exact readLocal_requestBytes hpre hID r

theorem decodesAsAsked_iff (hID : pursuitIdLen ∣ r.ID.length) (hpre : pursuitIdLen ∣ r.prefixID.length)
    (hne : r.ID ≠ []) : DecodesAsAsked fresh gc r ↔
      r.ID.length ≤ 255 * pursuitIdLen ∧ (r.prefixID = [] ∨ r.prefixID = r.ID) := by
  have hcalls : Sendable r.ID → Sendable r.prefixID → ∀ type host pubOrder subOrder pid d,
      Library.send pid r [] = .ok d →
      LocalProxy.readLocal gc type host pubOrder subOrder (FromNetlink.selected d) =
        some (some (.request type host r)) := by
    intro hID hpre type host pubOrder subOrder pid d hd
    rw [(send_ok_iff.mp hd).2, selected_createAndSendBuffers]
    exact readLocal_request hID hpre type host pubOrder subOrder
  constructor
  · rintro ⟨p, hp, hall⟩
    have hdecoded := (hall .clickElement 0 [] []).1
    obtain ⟨hIDlen, hprelen⟩ := length_readLocal hdecoded
    refine ⟨hIDlen, or_iff_not_imp_left.mpr fun hprefixed => ?_⟩
    rw [readLocal_swapped ⟨hID, hIDlen⟩ ⟨hpre, hprelen⟩ hprefixed hp] at hdecoded
    exact congrArg Request.ID (LocalProxy.Input.request.inj (Option.some.inj (Option.some.inj hdecoded))).2.2
  · rintro ⟨hlen, hcase⟩
    have hsendable : Sendable r.ID := ⟨hID, hlen⟩
    rcases hcase with hempty | hsame
    · have hpre' : Sendable r.prefixID := by
        rw [hempty]
        exact ⟨Nat.dvd_zero _, Nat.zero_le _⟩
      refine ⟨_, bapiMakepacket_eq hpre', fun type host pubOrder subOrder => ⟨?_, ?_⟩⟩
      · rw [swapped, if_pos hempty, readLocal_requestBytes hsendable (hempty ▸ hpre'), ← hempty]
      · exact hcalls hsendable hpre' type host pubOrder subOrder
    · have hpre' : Sendable r.prefixID := hsame ▸ hsendable
      have hprefixed : r.prefixID ≠ [] := hsame ▸ hne
      obtain ⟨p, hp⟩ : ∃ p, bapiMakepacket fresh r.type.code r.prefixID r.ID r.strategy = some p :=
        ⟨_, bapiMakepacket_eq hpre'⟩
      refine ⟨_, hp, fun type host pubOrder subOrder => ⟨?_, ?_⟩⟩
      · have hsym : { r with ID := r.prefixID, prefixID := r.ID } = r := by
          cases r
          cases hsame
          rfl
        have hread := readLocal_swapped hsendable hpre' hprefixed hp gc type host pubOrder subOrder
        rwa [hsym] at hread
      · exact hcalls hsendable hpre' type host pubOrder subOrder

/-- A scope of two fragments without prefix, and a subscription with one id twice. -/
theorem decodesAsAsked_scope : DecodesAsAsked (fun _ => 0) ⟨true, frag 9, 1, 1, none⟩
      ⟨.publishScope, frag 1 ++ frag 2, [], domainLocal⟩ ∧
    DecodesAsAsked (fun _ => 0) ⟨true, frag 9, 1, 1, none⟩
      ⟨.subscribeInfo, frag 1 ++ frag 2, frag 1 ++ frag 2, domainLocal⟩ :=
  ⟨(decodesAsAsked_iff (by decide) (by decide) (by decide)).mpr ⟨by decide, .inl rfl⟩,
    (decodesAsAsked_iff (by decide) (by decide) (by decide)).mpr ⟨by decide, .inr rfl⟩⟩

/-- An item under a scope: the scope is read as an item under the item. -/
theorem not_decodesAsAsked : ¬ ∀ (fresh : Nat → UInt8) (gc : GlobalConf) (r : Request),
    pursuitIdLen ∣ r.ID.length → pursuitIdLen ∣ r.prefixID.length → r.ID ≠ [] →
      DecodesAsAsked fresh gc r := by
  intro h
  obtain ⟨p, hp, hall⟩ := h (fun _ => 0) ⟨true, frag 9, 1, 1, none⟩
    ⟨.publishInfo, frag 2, frag 1, domainLocal⟩ (by decide) (by decide) (by decide)
  have hdecoded := (hall .clickElement 0 [] []).1
  rw [readLocal_swapped ⟨by decide, by decide⟩ ⟨by decide, by decide⟩ (by decide) hp] at hdecoded
  have hID := congrArg Request.ID
    (LocalProxy.Input.request.inj (Option.some.inj (Option.some.inj hdecoded))).2.2
  exact absurd hID (by decide)

end Blackadder
