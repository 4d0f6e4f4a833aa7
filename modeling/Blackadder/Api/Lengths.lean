import Blackadder.Api.Relay
import Blackadder.Rendezvous.Records

/-!
# Messages of the rendezvous element and the packets for them

The length of a packet is computed first and the message is written behind that. Some of the lengths
are kept in one byte.
-/

namespace Blackadder

open Wire
open LocalProxy (room)

namespace LocalRV

/-- The loop over `numberOfIDs` ids. It writes as many bytes as `IDLength` says. -/
def putFragments (p : List UInt8) (k : Nat) (IDs : List Id) : Option (List UInt8 × Nat) :=
  IDs.foldlM (fun (p, index) ID => do
    let IDLength := UInt8.ofNat (ID.length % 256 / pursuitIdLen)
    let p ← store p (k + index) IDLength
    let fragments ← slice ID 0 (IDLength.toNat * pursuitIdLen)
    let p ← blit p (k + index + 1) fragments
    return (p, index + (1 + IDLength.toNat * pursuitIdLen))) (p, 0)

/-- What `notifyLocalPublisher` and `notifyLocalSubscriber` do alike. -/
def notifyLocal (fresh : Nat → UInt8) (gc : GlobalConf) (type : UInt8) (IDs : List Id)
    (FID : Option Bitvector) : Option (List UInt8) := do
  let numberOfIDs := UInt8.ofNat IDs.length
  let totalIDsLength := IDs.flatten.length
  let packet_len := 1 + 1 + gc.notificationIID.length + 1 + fidLen + 1 + 1 + numberOfIDs.toNat * 1 +
    totalIDsLength + (if FID.isSome then fidLen else 0)
  let p ← store (room fresh packet_len []) 0 Code.publishData
  let p ← store p 1 (fragments gc.notificationIID)
  let p ← blit p (1 + 1) gc.notificationIID
  let p ← store p (1 + 1 + gc.notificationIID.length) implicitRendezvous
  let p ← blit p (1 + 1 + gc.notificationIID.length + 1) gc.iLID.data
  let k := 1 + 1 + gc.notificationIID.length + 1 + fidLen
  let p ← store p k type
  let p ← store p (k + 1) numberOfIDs
  let (p, index) ← putFragments p (k + 1 + 1) (IDs.take numberOfIDs.toNat)
  match FID with
  | some FID => blit p (k + 1 + 1 + index) FID.data
  | none => some p

/-- `FID` is `NULL` for `STOP_PUBLISH`. -/
def notifyLocalPublisher (fresh : Nat → UInt8) (gc : GlobalConf) (IDs : List Id)
    (FID : Option Bitvector) : Option (List UInt8) :=
  notifyLocal fresh gc (if FID.isSome then Code.startPublish else Code.stopPublish) IDs FID

def notifyLocalSubscriber (fresh : Nat → UInt8) (gc : GlobalConf) (type : UInt8) (IDs : List Id) :
    Option (List UInt8) :=
  notifyLocal fresh gc type IDs none

end LocalRV

variable {p : List UInt8} {k n : Nat} {gc : GlobalConf} {TMFID : Bitvector} {fresh : Nat → UInt8}
  {xs : List (List UInt8)} {IDs : List Id} {ID : Id} {P S : List NodeId} {type : UInt8}
  {strategy : Strategy} {FID : Option Bitvector} {f : (Nat → UInt8) → Option (List UInt8)}
  {good : List UInt8 → Prop}

/-! ## Exact packets -/

/-- The message is written into the packet and not beyond, and all of the packet is written. -/
def Exact (f : (Nat → UInt8) → Option (List UInt8)) (good : List UInt8 → Prop) : Prop :=
  ∃ message, good message ∧ ∀ fresh, f fresh = some message

theorem exact_iff (hf : ∀ fresh, f fresh = appendAll (room fresh n []) 0 xs) :
    Exact f good ↔ xs.flatten.length = n ∧ good xs.flatten := by
  constructor
  · rintro ⟨message, hgood, hall⟩
    have hroom (fresh) : (room fresh n []).length = n := by simp [room]
    have hwrite (fresh) := (hf fresh).symm.trans (hall fresh)
    simp only [appendAll_zero, hroom] at hwrite
    by_cases hle : xs.flatten.length ≤ n
    · simp only [if_pos hle, Option.some.injEq] at hwrite
      have hlen : xs.flatten.length = n := by
        by_contra hne
        have htail := (hwrite fun _ => 0).trans (hwrite fun _ => 1).symm
        rw [List.append_cancel_left_eq] at htail
        -- nobody wrote the bytes behind the message
        have hbehind := congrArg List.head? htail
        rw [room, room, List.append_nil, List.append_nil, List.map_const', List.map_const',
          List.length_range, List.drop_replicate, List.drop_replicate, List.head?_replicate,
          List.head?_replicate, if_neg (by omega), if_neg (by omega)] at hbehind
        cases hbehind
      refine ⟨hlen, ?_⟩
      have hmessage := hwrite fun _ => 0
      rw [List.drop_eq_nil_of_le (by rw [hroom]; omega), List.append_nil] at hmessage
      exact hmessage ▸ hgood
    · simp only [if_neg hle] at hwrite
      cases hwrite fun _ => 0
  · rintro ⟨hlen, hgood⟩
    refine ⟨xs.flatten, hgood, fun fresh => ?_⟩
    rw [hf, appendAll_room fresh [] hlen, List.append_nil]

/-! ## The parts of each message -/

def fragmentParts (IDs : List Id) : List (List UInt8) :=
  IDs.flatMap fun ID => [[UInt8.ofNat (ID.length % 256 / pursuitIdLen)],
    ID.take (ID.length % 256 / pursuitIdLen * pursuitIdLen)]

theorem toNat_cast (n : Nat) :
    (UInt8.ofNat (n % 256 / pursuitIdLen)).toNat = n % 256 / pursuitIdLen := by
  rw [UInt8.toNat_ofNat', Nat.mod_eq_of_lt (by simp only [pursuitIdLen]; omega)]

theorem cast_le (n : Nat) : n % 256 / pursuitIdLen * pursuitIdLen ≤ n := by
  simp only [pursuitIdLen]
  omega

theorem putFragments_eq (p : List UInt8) (k : Nat) (IDs : List Id) :
    LocalRV.putFragments p k IDs = (appendAll p k (fragmentParts IDs)).map
      fun p => (p, (fragmentParts IDs).flatten.length) := by
  have hloop := foldlM_appendAll (k := k) (b := p) (l := IDs) (f := fun (p, index) ID => do
      let IDLength := UInt8.ofNat (ID.length % 256 / pursuitIdLen)
      let p ← store p (k + index) IDLength
      let fragments ← slice ID 0 (IDLength.toNat * pursuitIdLen)
      let p ← blit p (k + index + 1) fragments
      return (p, index + (1 + IDLength.toNat * pursuitIdLen)))
    (fun ID => [[UInt8.ofNat (ID.length % 256 / pursuitIdLen)],
      ID.take (ID.length % 256 / pursuitIdLen * pursuitIdLen)]) (fun p i ID => by
        have hlen : (ID.take (ID.length % 256 / pursuitIdLen * pursuitIdLen)).length =
            ID.length % 256 / pursuitIdLen * pursuitIdLen := by
          rw [List.length_take, Nat.min_eq_left (cast_le _)]
        have hslice : slice ID 0 (ID.length % 256 / pursuitIdLen * pursuitIdLen) =
            some (ID.take (ID.length % 256 / pursuitIdLen * pursuitIdLen)) := by
          rw [slice, List.drop_zero, if_pos hlen]
        simp only [appendAll, store, Option.bind_fun_some, Option.map_bind, toNat_cast, hslice]
        cases blit p (k + i) [UInt8.ofNat (ID.length % 256 / pursuitIdLen)] with
        | none => rfl
        | some p =>
          simp only [Option.bind_eq_bind, Option.bind_some, List.length_singleton, Function.comp_apply]
          cases blit p (k + i + 1) (ID.take (ID.length % 256 / pursuitIdLen * pursuitIdLen)) with
          | none => rfl
          | some p => simp [hlen, Nat.add_comm 1]) 0
  simpa [LocalRV.putFragments, fragmentParts] using hloop

def localParts (gc : GlobalConf) (type : UInt8) (IDs : List Id) (FID : Option Bitvector) :
    List (List UInt8) :=
  [[Code.publishData], [fragments gc.notificationIID], gc.notificationIID, [implicitRendezvous],
    gc.iLID.data] ++ ([[type], [UInt8.ofNat IDs.length]] ++
      (fragmentParts (IDs.take (UInt8.ofNat IDs.length).toNat) ++ (FID.map Bitvector.data).toList))

theorem notifyLocal_parts (fresh : Nat → UInt8) (gc : GlobalConf) (type : UInt8) (IDs : List Id)
    (FID : Option Bitvector) : LocalRV.notifyLocal fresh gc type IDs FID =
      appendAll (room fresh (1 + 1 + gc.notificationIID.length + 1 + fidLen + 1 + 1 +
        (UInt8.ofNat IDs.length).toNat * 1 + IDs.flatten.length +
        (if FID.isSome then fidLen else 0)) []) 0 (localParts gc type IDs FID) := by
  cases FID with
  | none =>
    simp only [LocalRV.notifyLocal, localParts, putFragments_eq, appendAll_append, appendAll, store,
      Option.bind_eq_bind, List.flatten_cons, List.flatten_nil, List.length_append, List.length_nil,
      List.length_singleton, Bitvector.length_data, fidLen, Option.bind_map, Function.comp_def,
      Option.bind_fun_some, Option.bind_assoc, Nat.zero_add, Nat.add_zero, Nat.add_assoc,
      Option.map_none, Option.toList_none]
  | some FID =>
    simp only [LocalRV.notifyLocal, localParts, putFragments_eq, appendAll_append, appendAll, store,
      Option.bind_eq_bind, List.flatten_cons, List.flatten_nil, List.length_append, List.length_nil,
      List.length_singleton, Bitvector.length_data, fidLen, Option.bind_map, Function.comp_def,
      Option.bind_fun_some, Option.bind_assoc, Nat.zero_add, Nat.add_zero, Nat.add_assoc,
      Option.map_some, Option.toList_some]

/-! ## What a message says -/

/-- A number of ids, and the ids with their lengths in fragments. -/
structure Counts (count : UInt8) (entries : List (UInt8 × Id)) : Prop where
  count : count.toNat = entries.length
  lengths : ∀ e ∈ entries, e.1.toNat * pursuitIdLen = e.2.length

def entriesBytes (count : UInt8) (entries : List (UInt8 × Id)) : List UInt8 :=
  count :: entries.flatMap fun e => e.1 :: e.2

/-- The counts of a match are the numbers of labels and ids behind them. -/
def TellsMatch (gc : GlobalConf) (TMFID : Bitvector) (strategy : Strategy) (P S : List NodeId)
    (IDs : List Id) (message : List UInt8) : Prop :=
  ∃ no_publishers no_subscribers no_ids entries, message = publicationBytes gc.nodeTMScope TMFID
      ([Code.matchPubSubs, strategy, no_publishers] ++ P.flatten ++ [no_subscribers] ++ S.flatten ++
        entriesBytes no_ids entries) ∧
    no_publishers.toNat = P.length ∧ no_subscribers.toNat = S.length ∧ Counts no_ids entries ∧
    entries.map Prod.snd = IDs

def TellsScope (gc : GlobalConf) (TMFID : Bitvector) (request_type : UInt8) (strategy : Strategy)
    (S : List NodeId) (IDs : List Id) (message : List UInt8) : Prop :=
  ∃ no_subscribers no_ids entries, message = publicationBytes gc.nodeTMScope TMFID
      ([request_type, strategy, no_subscribers] ++ S.flatten ++ entriesBytes no_ids entries) ∧
    no_subscribers.toNat = S.length ∧ Counts no_ids entries ∧ entries.map Prod.snd = IDs

def TellsLocal (gc : GlobalConf) (type : UInt8) (IDs : List Id) (FID : Option Bitvector)
    (message : List UInt8) : Prop :=
  ∃ numberOfIDs entries, message = publicationBytes gc.notificationIID gc.iLID
      ([type] ++ entriesBytes numberOfIDs entries ++ (FID.map Bitvector.data).toList.flatten) ∧
    Counts numberOfIDs entries ∧ entries.map Prod.snd = IDs

/-- One fragment or more, and whole ones. -/
structure Named (ID : Id) : Prop where
  whole : pursuitIdLen ∣ ID.length
  pos : pursuitIdLen ≤ ID.length

def castEntries (IDs : List Id) : List (UInt8 × Id) :=
  IDs.map fun ID => (UInt8.ofNat (ID.length % 256 / pursuitIdLen), ID)

theorem entriesBytes_cast (count : UInt8) (IDs : List Id) :
    entriesBytes count (castEntries IDs) = count :: IDs.flatMap castBytes := by
  rw [entriesBytes, castEntries, List.flatMap_map]
  rfl

theorem snd_castEntries (IDs : List Id) : (castEntries IDs).map Prod.snd = IDs := by
  rw [castEntries, List.map_map]
  exact List.map_id _

theorem counts_cast (hIDs : ∀ ID ∈ IDs, Named ID) (hcount : IDs.length ≤ 255)
    (hshort : ∀ ID ∈ IDs, ID.length < 256) :
    Counts (UInt8.ofNat IDs.length) (castEntries IDs) where
  count := by rw [toNat_count hcount, castEntries, List.length_map]
  lengths := by
    intro e he
    obtain ⟨ID, hID, rfl⟩ := List.mem_map.mp he
    rw [toNat_cast, Nat.mod_eq_of_lt (hshort ID hID), Nat.div_mul_cancel (hIDs ID hID).whole]

theorem publicationBytes_append (ID : Id) (FID : Bitvector) (payload : List UInt8) :
    publicationBytes ID FID payload = publicationBytes ID FID [] ++ payload := by
  simp [publicationBytes]

theorem length_le_flatten (hIDs : ∀ ID ∈ IDs, Named ID) : IDs.length ≤ IDs.flatten.length := by
  induction IDs with
  | nil => simp
  | cons ID IDs ih =>
    rw [List.forall_mem_cons] at hIDs
    have hpos := hIDs.1.pos
    have hrest := ih hIDs.2
    rw [List.flatten_cons, List.length_append, List.length_cons]
    simp only [pursuitIdLen] at hpos
    omega

/-- Ids of a small total length are few and short. -/
theorem short_of_total (hIDs : ∀ ID ∈ IDs, Named ID) (htotal : IDs.flatten.length < 256) :
    IDs.length ≤ 255 ∧ ∀ ID ∈ IDs, ID.length < 256 := by
  refine ⟨(length_le_flatten hIDs).trans (by omega), fun ID hID => ?_⟩
  have hle := (List.sublist_flatten_of_mem hID).length_le
  omega

theorem le_of_toNat {n : Nat} (h : (UInt8.ofNat n).toNat = n) : n ≤ 255 := by
  rw [UInt8.toNat_ofNat'] at h
  omega

theorem match_exact_iff (hgc : gc.nodeID.length = nodeIDLen) (hTM : gc.TMFID = some TMFID)
    (hP : ∀ l ∈ P, l.length = nodeIDLen) (hS : ∀ l ∈ S, l.length = nodeIDLen)
    (hIDs : ∀ ID ∈ IDs, Named ID) (strategy : Strategy) :
    Exact (fun fresh => LocalRV.requestTMAssistanceForRendezvous fresh gc strategy P S IDs)
      (TellsMatch gc TMFID strategy P S IDs) ↔
    IDs.flatten.length < 256 ∧ P.length ≤ 255 ∧ S.length ≤ 255 := by
  rw [exact_iff fun fresh => requestTMAssistanceForRendezvous_parts hTM]
  have hflat : (matchParts gc TMFID strategy P S IDs).flatten = publicationBytes gc.nodeTMScope TMFID
      ([Code.matchPubSubs, strategy, UInt8.ofNat P.length] ++ P.flatten ++ [UInt8.ofNat S.length] ++
        S.flatten ++ entriesBytes (UInt8.ofNat IDs.length) (castEntries IDs)) := by
    rw [publicationBytes_append, ← flatten_apiParts hgc, entriesBytes_cast, ← flatten_idParts]
    simp [matchParts]
  have hlen : (matchParts gc TMFID strategy P S IDs).flatten.length =
      1 + 1 + 2 * pursuitIdLen + 1 + fidLen + 1 + 1 + 1 + P.length * nodeIDLen + 1 +
        S.length * nodeIDLen + 1 + IDs.length * 1 + IDs.flatten.length := by
    simp only [matchParts, List.flatten_append, List.length_append, length_apiParts, flatten_idParts,
      length_flatMap_castBytes, length_nodeTMScope hgc, length_flatten hP, length_flatten hS]
    simp [pursuitIdLen]
    omega
  rw [hlen, hflat, toNat_IDsTotalBytes]
  constructor
  · rintro ⟨hsize, np, ns, ni, entries, hmessage, hnp, hns, -, -⟩
    rw [publicationBytes_append, publicationBytes_append _ _ (_ ++ _), List.append_cancel_left_eq] at hmessage
    simp only [List.cons_append, List.nil_append, List.append_assoc, List.cons.injEq, true_and] at hmessage
    obtain ⟨rfl, hmessage⟩ := hmessage
    rw [List.append_cancel_left_eq, List.cons.injEq] at hmessage
    obtain ⟨rfl, -⟩ := hmessage
    exact ⟨by omega, le_of_toNat hnp, le_of_toNat hns⟩
  · rintro ⟨htotal, hp, hs⟩
    obtain ⟨hcount, hshort⟩ := short_of_total hIDs htotal
    refine ⟨by rw [Nat.mod_eq_of_lt htotal], _, _, _, _, rfl, ?_, ?_, counts_cast hIDs hcount hshort,
      snd_castEntries IDs⟩
    · rw [UInt8.toNat_ofNat', Nat.mod_eq_of_lt (by omega)]
    · rw [UInt8.toNat_ofNat', Nat.mod_eq_of_lt (by omega)]

theorem scope_exact_iff (hgc : gc.nodeID.length = nodeIDLen) (hTM : gc.TMFID = some TMFID)
    (hS : ∀ l ∈ S, l.length = nodeIDLen) (hIDs : ∀ ID ∈ IDs, Named ID) (type : UInt8)
    (strategy : Strategy) :
    Exact (fun fresh => LocalRV.requestTMAssistanceForNotifyingSubscribers fresh gc type IDs S strategy)
      (TellsScope gc TMFID type strategy S IDs) ↔ IDs.flatten.length < 256 ∧ S.length ≤ 255 := by
  rw [exact_iff fun fresh => requestTMAssistanceForNotifyingSubscribers_parts hTM]
  have hflat : (scopeParts gc TMFID type strategy S IDs).flatten = publicationBytes gc.nodeTMScope TMFID
      ([type, strategy, UInt8.ofNat S.length] ++ S.flatten ++
        entriesBytes (UInt8.ofNat IDs.length) (castEntries IDs)) := by
    rw [publicationBytes_append, ← flatten_apiParts hgc, entriesBytes_cast, ← flatten_idParts]
    simp [scopeParts]
  have hlen : (scopeParts gc TMFID type strategy S IDs).flatten.length =
      1 + 1 + gc.nodeTMScope.length + 1 + fidLen + 1 + 1 + 1 + S.length * nodeIDLen + 1 +
        IDs.length * 1 + IDs.flatten.length := by
    simp only [scopeParts, List.flatten_append, List.length_append, length_apiParts, flatten_idParts,
      length_flatMap_castBytes, length_flatten hS]
    simp
    omega
  rw [hlen, hflat, toNat_IDsTotalBytes]
  constructor
  · rintro ⟨hsize, ns, ni, entries, hmessage, hns, -, -⟩
    rw [publicationBytes_append, publicationBytes_append _ _ (_ ++ _), List.append_cancel_left_eq] at hmessage
    simp only [List.cons_append, List.nil_append, List.cons.injEq, true_and] at hmessage
    obtain ⟨rfl, -⟩ := hmessage
    exact ⟨by omega, le_of_toNat hns⟩
  · rintro ⟨htotal, hs⟩
    obtain ⟨hcount, hshort⟩ := short_of_total hIDs htotal
    refine ⟨by rw [Nat.mod_eq_of_lt htotal], _, _, _, rfl, ?_, counts_cast hIDs hcount hshort,
      snd_castEntries IDs⟩
    rw [UInt8.toNat_ofNat', Nat.mod_eq_of_lt (by omega)]

/-- The fragments that the loop writes. -/
def written (IDs : List Id) : Nat := (IDs.map fun ID => ID.length % 256 / pursuitIdLen * pursuitIdLen).sum

theorem length_fragmentParts (IDs : List Id) :
    (fragmentParts IDs).flatten.length = IDs.length + written IDs := by
  induction IDs with
  | nil => rfl
  | cons ID IDs ih =>
    have hle := cast_le ID.length
    simp only [fragmentParts, written] at ih
    simp only [fragmentParts, written, List.flatMap_cons, List.flatten_append, List.length_append, ih,
      List.flatten_cons, List.flatten_nil, List.length_nil, List.length_take,
      List.length_cons, List.map_cons, List.sum_cons, Nat.min_eq_left hle]
    omega

theorem written_le (IDs : List Id) : written IDs ≤ IDs.flatten.length := by
  induction IDs with
  | nil => exact le_rfl
  | cons ID IDs ih =>
    have hle := cast_le ID.length
    simp only [written] at ih
    simp only [written, List.map_cons, List.sum_cons, List.flatten_cons, List.length_append]
    omega

theorem written_eq_iff (hIDs : ∀ ID ∈ IDs, Named ID) :
    written IDs = IDs.flatten.length ↔ ∀ ID ∈ IDs, ID.length < 256 := by
  induction IDs with
  | nil => simp [written]
  | cons ID IDs ih =>
    rw [List.forall_mem_cons] at hIDs ⊢
    have hrest := written_le IDs
    have hle := cast_le ID.length
    obtain ⟨m, hm⟩ := hIDs.1.whole
    rw [← ih hIDs.2]
    simp only [written, pursuitIdLen] at hrest hle hm ⊢
    simp only [List.map_cons, List.sum_cons, List.flatten_cons, List.length_append]
    omega

theorem flatten_fragmentParts (hIDs : ∀ ID ∈ IDs, Named ID) (hshort : ∀ ID ∈ IDs, ID.length < 256) :
    (fragmentParts IDs).flatten = IDs.flatMap castBytes := by
  induction IDs with
  | nil => rfl
  | cons ID IDs ih =>
    rw [List.forall_mem_cons] at hIDs hshort
    have htake : ID.take (ID.length % 256 / pursuitIdLen * pursuitIdLen) = ID := by
      rw [Nat.mod_eq_of_lt hshort.1, Nat.div_mul_cancel hIDs.1.whole, List.take_length]
    have hrest := ih hIDs.2 hshort.2
    rw [fragmentParts] at hrest
    simp only [fragmentParts, List.flatMap_cons, List.flatten_append, hrest, htake, castBytes]
    simp

theorem local_exact_iff (hIDs : ∀ ID ∈ IDs, Named ID) (gc : GlobalConf) (type : UInt8)
    (FID : Option Bitvector) :
    Exact (fun fresh => LocalRV.notifyLocal fresh gc type IDs FID) (TellsLocal gc type IDs FID) ↔
      IDs.length ≤ 255 ∧ ∀ ID ∈ IDs, ID.length < 256 := by
  rw [exact_iff fun fresh => notifyLocal_parts fresh gc type IDs FID]
  have hcount : (UInt8.ofNat IDs.length).toNat = IDs.length % 256 := UInt8.toNat_ofNat'
  have hlen : (localParts gc type IDs FID).flatten.length = 1 + 1 + gc.notificationIID.length + 1 +
      fidLen + 1 + 1 + (IDs.length % 256 + written (IDs.take (IDs.length % 256))) +
      (if FID.isSome then fidLen else 0) := by
    have htake : (IDs.take (IDs.length % 256)).length = IDs.length % 256 := by
      rw [List.length_take]
      omega
    simp only [localParts, List.flatten_append, List.length_append, length_fragmentParts, hcount, htake]
    cases FID <;> simp [fidLen] <;> omega
  constructor
  · rintro ⟨hsize, -⟩
    rw [hlen, hcount] at hsize
    have hsplit := congrArg List.length (congrArg List.flatten (List.take_append_drop (IDs.length % 256) IDs))
    rw [List.flatten_append, List.length_append] at hsplit
    have hle := written_le (IDs.take (IDs.length % 256))
    have hrest : ∀ ID ∈ IDs.drop (IDs.length % 256), Named ID := fun ID hID =>
      hIDs ID (List.mem_of_mem_drop hID)
    have hdrop := length_le_flatten hrest
    rw [List.length_drop] at hdrop
    have hfew : IDs.length ≤ 255 := by omega
    refine ⟨hfew, (written_eq_iff hIDs).mp ?_⟩
    rw [Nat.mod_eq_of_lt (by omega), List.take_length] at hsize
    omega
  · rintro ⟨hfew, hshort⟩
    have hwritten := (written_eq_iff hIDs).mpr hshort
    rw [Nat.mod_eq_of_lt (by omega), List.take_length] at hlen
    rw [Nat.mod_eq_of_lt (by omega)] at hcount
    refine ⟨by rw [hlen, hcount]; omega, UInt8.ofNat IDs.length, castEntries IDs, ?_,
      counts_cast hIDs hfew hshort, snd_castEntries IDs⟩
    rw [localParts, hcount, List.take_length, publicationBytes_append, entriesBytes_cast,
      ← flatten_fragmentParts hIDs hshort]
    simp [publicationBytes, idBytes]

/-! ## Reachable states -/

namespace LocalRV

variable {s s' : LocalRV} {lab : Node → Id} {n : Node} {X : Id} {nodeID : NodeId}

/-- The ids of an object are made of whole fragments, one for each scope above it. -/
theorem Consistent.named (hs : s.Consistent lab) (hX : X ∈ s.ids n) : Named X := by
  refine ⟨?_, hs.ids_length hX⟩
  induction hlen : X.length using Nat.strong_induction_on generalizing n X with
  | _ len ih =>
    have hroot (hr : ∀ f, ¬ f ∈ s.fatherScopes n) : pursuitIdLen ∣ len := by
      rw [← hlen, hs.root_ids hr hX, hs.lab_length]
    rcases hs.has_father n X hX with ⟨hkind, hr⟩ | ⟨f, hf⟩
    · obtain ⟨k, p⟩ := n
      cases hkind
      exact hroot fun f hf => hs.root_fatherless p f hr hf
    · obtain ⟨g, -, F, hF, rfl⟩ := hs.below hf hX
      rw [List.length_append, hs.lab_length] at hlen
      have hF' := ih F.length (by simp only [pursuitIdLen] at hlen; omega) hF rfl
      rw [← hlen]
      exact (Nat.dvd_add_right hF').mpr (Nat.dvd_refl _)

/-- The hosts have labels of `NODEID_LEN` bytes, as the local proxies write them. -/
def Labelled (s : LocalRV) : Prop :=
  ∀ h n X role, h ∈ s.pairAt n X role → h.length = nodeIDLen

/-- A run of requests from nodes with such labels. -/
def LabelledRun (nodeID : NodeId) (s : LocalRV) : Prop :=
  Runs.Reachable (Runs.Guarded Step fun _ a => a.1.length = nodeIDLen) (init nodeID) s

theorem labelled_of_run (hrun : LabelledRun nodeID s) : s.Labelled := by
  refine hrun.invariant (I := Labelled) (fun h n X role hh => ?_) fun s a s' hrun hI hstep => ?_
  · simp [init, pairAt] at hh
  · obtain ⟨hstep, hlen⟩ := hstep
    obtain ⟨lab, hs⟩ := inv_of_run (Runs.Reachable.of_guarded hrun)
    obtain ⟨code, he⟩ := hstep.effect hs
    refine he.preserves hs hI (fun hs hI he h' m Y role' hh => ?_) fun hs hI hl h' m Y role' hh => ?_
    · rcases (he.mem_pairAt hs).mp hh with ⟨-, -, -, rfl⟩ | hh
      · exact hlen
      · exact hI h' m Y role' hh
    · exact hI h' m Y role' (hl.mem_pairAt.mp hh).1

/-- When the four messages fit their packets. -/
theorem packets_exact_iff (hrun : LabelledRun nodeID s) (hgc : gc.nodeID.length = nodeIDLen)
    (hTM : gc.TMFID = some TMFID) (hIDs : ∀ ID ∈ IDs, ∃ n, ID ∈ s.ids n)
    (hP : ∀ l ∈ P, ∃ n X role, l ∈ s.pairAt n X role)
    (hS : ∀ l ∈ S, ∃ n X role, l ∈ s.pairAt n X role) :
    (∀ strategy, Exact (fun fresh => requestTMAssistanceForRendezvous fresh gc strategy P S IDs)
        (TellsMatch gc TMFID strategy P S IDs) ↔
      IDs.flatten.length < 256 ∧ P.length ≤ 255 ∧ S.length ≤ 255) ∧
    (∀ type strategy, Exact
        (fun fresh => requestTMAssistanceForNotifyingSubscribers fresh gc type IDs S strategy)
        (TellsScope gc TMFID type strategy S IDs) ↔ IDs.flatten.length < 256 ∧ S.length ≤ 255) ∧
    (∀ FID, Exact (fun fresh => notifyLocalPublisher fresh gc IDs FID)
        (TellsLocal gc (if FID.isSome then Code.startPublish else Code.stopPublish) IDs FID) ↔
      IDs.length ≤ 255 ∧ ∀ ID ∈ IDs, ID.length ≤ 31 * pursuitIdLen) ∧
    ∀ type, Exact (fun fresh => notifyLocalSubscriber fresh gc type IDs)
        (TellsLocal gc type IDs none) ↔
      IDs.length ≤ 255 ∧ ∀ ID ∈ IDs, ID.length ≤ 31 * pursuitIdLen := by
  obtain ⟨lab, hs⟩ := inv_of_run (Runs.Reachable.of_guarded hrun)
  have hnamed : ∀ ID ∈ IDs, Named ID := fun ID hID => (hIDs ID hID).elim fun n hn => hs.named hn
  have hlabels {L : List NodeId} (hL : ∀ l ∈ L, ∃ n X role, l ∈ s.pairAt n X role) :
      ∀ l ∈ L, l.length = nodeIDLen := by
    intro l hl
    obtain ⟨n, X, role, hh⟩ := hL l hl
    exact labelled_of_run hrun l n X role hh
  have hshort : (∀ ID ∈ IDs, ID.length ≤ 31 * pursuitIdLen) ↔ ∀ ID ∈ IDs, ID.length < 256 := by
    refine forall₂_congr fun ID hID => ?_
    obtain ⟨m, hm⟩ := (hnamed ID hID).whole
    simp only [pursuitIdLen] at hm ⊢
    omega
  rw [hshort]
  exact ⟨match_exact_iff hgc hTM (hlabels hP) (hlabels hS) hnamed,
    scope_exact_iff hgc hTM (hlabels hS) hnamed, fun FID => local_exact_iff hnamed gc _ FID,
    fun type => local_exact_iff hnamed gc type none⟩

def singleScope : List (NodeId × Request) := [(frag 9, ⟨.publishScope, frag 1, [], domainLocal⟩)]

theorem labelledRun_singleScope : LabelledRun (frag 9) (afterRun 1 (frag 9) singleScope) :=
  guarded_afterRun 1 (frag 9) (List.forall_mem_singleton.mpr ⟨by decide, fun _ => rfl⟩)

theorem packets_exact_single : Exact
    (fun fresh => requestTMAssistanceForRendezvous fresh ⟨true, frag 9, 0, 0, some 1⟩ domainLocal
      [frag 9] [] [frag 1])
    (TellsMatch ⟨true, frag 9, 0, 0, some 1⟩ 1 domainLocal [frag 9] [] [frag 1]) :=
  ((packets_exact_iff labelledRun_singleScope rfl rfl
    (List.forall_mem_singleton.mpr ⟨.scope 0, by decide⟩)
    (List.forall_mem_singleton.mpr ⟨.scope 0, frag 1, .publisher, by decide⟩)
    (List.forall_mem_nil _)).1 domainLocal).mpr (by decide)

/-- A scope under four roots, with scopes below each other in it. -/
def broadRun : List (NodeId × Request) :=
  ((List.range 4).map fun k => (frag 9, ⟨.publishScope, frag (UInt8.ofNat k), [], domainLocal⟩)) ++
  [(frag 9, ⟨.publishScope, frag 5, frag 0, domainLocal⟩)] ++
  ((List.range 3).map fun k =>
    (frag 9, ⟨.publishScope, frag 0 ++ frag 5, frag (UInt8.ofNat (k + 1)), domainLocal⟩)) ++
  (List.range 6).map fun k =>
    (frag 9, ⟨.publishScope, frag 5, frag 0 ++ (List.replicate (k + 1) (frag 5)).flatten, domainLocal⟩)

theorem labelledRun_broad : LabelledRun (frag 9) (afterRun 9 (frag 9) broadRun) :=
  guarded_afterRun 9 (frag 9) fun a ha => by
    have hok : ∀ a ∈ broadRun, a.2.WellFormed ∧ a.1.length = nodeIDLen := by decide
    exact ⟨(hok a ha).1, fun _ => (hok a ha).2⟩

/-- The four ids of a scope seven scopes below have 256 bytes. -/
theorem not_packets_exact : ∃ (s : LocalRV) (n : Node) (gc : GlobalConf) (TMFID : Bitvector)
    (IDs : List Id),
    LabelledRun (frag 9) s ∧ gc.nodeID.length = nodeIDLen ∧ gc.TMFID = some TMFID ∧
    (∀ ID ∈ IDs, ID ∈ s.ids n) ∧
    (∀ strategy, ¬ Exact (fun fresh => requestTMAssistanceForRendezvous fresh gc strategy [] [] IDs)
      (TellsMatch gc TMFID strategy [] [] IDs)) ∧
    ∀ type strategy, ¬ Exact
      (fun fresh => requestTMAssistanceForNotifyingSubscribers fresh gc type IDs [] strategy)
      (TellsScope gc TMFID type strategy [] IDs) := by
  have hmem : ((afterRun 9 (frag 9) broadRun).ids (.scope 10)).keys.flatten.length = 256 := by
    decide +kernel
  have hrun := labelledRun_broad
  generalize afterRun 9 (frag 9) broadRun = s at hmem hrun
  obtain ⟨lab, hs⟩ := inv_of_run (Runs.Reachable.of_guarded hrun)
  have hin : ∀ ID ∈ (s.ids (.scope 10)).keys, ID ∈ s.ids (.scope 10) := fun ID hID => hID
  have hnamed : ∀ ID ∈ (s.ids (.scope 10)).keys, Named ID := fun ID hID => hs.named (hin ID hID)
  have hlong : ¬ (s.ids (.scope 10)).keys.flatten.length < 256 := by omega
  refine ⟨s, _, ⟨true, frag 9, 0, 0, some 1⟩, 1, _, hrun, rfl, rfl, hin, fun strategy h => ?_,
    fun type strategy h => ?_⟩
  · exact hlong ((match_exact_iff rfl rfl (List.forall_mem_nil _) (List.forall_mem_nil _) hnamed
      strategy).mp h).1
  · exact hlong ((scope_exact_iff rfl rfl (List.forall_mem_nil _) hnamed type strategy).mp h).1

end LocalRV

end Blackadder
