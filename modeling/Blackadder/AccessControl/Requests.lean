import Blackadder.AccessControl.PubSub

/-!
# Requests at the rendezvous point

`BaseRV.cpp`: what a rendezvous point makes of the messages behind its scope, and which requests come back from there
as they were made.
-/

namespace Blackadder

namespace BaseRV

open Code (startPublish publishedData)
open PubSub (semicolon cString field substr find Operation Publication Event getResponseRId publicationFor)
open Delimited (upTo)

/-- What the upper layer is told of a request. -/
structure RVEvent where
  type : UInt8
  id : Id
  data : List UInt8
  data_len : Nat
  RIdtoEP : Id
  OPId : Id
  prefix_id : Id
deriving DecidableEq

/-- What is asked of `tp`, and what the upper layer is told. -/
inductive Output
  | publishData (id : Id) (strategy : Strategy) (data : List UInt8) (data_len : Nat)
  | unpublishInfo (id prefix_id : Id) (strategy : Strategy)
  | fromLowerLayer (ev : RVEvent)
deriving DecidableEq

structure State where
  payloadRVSId : Id
  buffer : Id → Option Publication

/-- `NEW_PUB_SCOPE`, `NEW_PUB_INFO`, `NEW_SUB_INFO`. -/
def eventType : Operation → UInt8
  | .publishScope => 200
  | .publishInfo => 201
  | .subscribeInfo => 203

/-- `extractRId`. `substr` throws where the identifier is shorter than the scope's. -/
def extractRId (s : State) (id : Id) : Option Id :=
  if s.payloadRVSId.length ≤ id.length then some (id.drop s.payloadRVSId.length) else none

/-- The operation of a message, by the code it begins with. -/
def operationOf (type : List UInt8) : Option Operation :=
  if type = Operation.publishScope.code then some .publishScope
  else if type = Operation.publishInfo.code then some .publishInfo
  else if type = Operation.subscribeInfo.code then some .subscribeInfo
  else none

/-- A message that a request has sent. -/
def onData (s : State) (id : Id) (data : List UInt8) : Option (State × List Output) := do
  let type := field data 0
  let cId := field data type.2
  let prefix_id := field data cId.2
  let payload := data.drop prefix_id.2
  let responseRId := getResponseRId (← extractRId s id)
  match operationOf type.1 with
  | some op => return (s, [.fromLowerLayer {
      type := eventType op
      id := id
      data := payload
      data_len := payload.length
      RIdtoEP := responseRId
      OPId := cId.1
      prefix_id := prefix_id.1 }])
  | none => return (s, [])

def fromLowerLayer (s : State) (ev : Event) : Option (State × List Output) :=
  if ev.type = startPublish then
    match s.buffer ev.id with
    | none => some (s, [])
    | some pub =>
      let sent := Output.publishData ev.id pub.strategy pub.payload pub.size
      if pub.immutable then some (s, [sent])
      else some ({ s with buffer := Function.update s.buffer ev.id none },
        [sent, .unpublishInfo pub.RId s.payloadRVSId pub.strategy])
  else if ev.type = publishedData then do
    let data ← ev.data
    onData s ev.id (cString data)
  else some (s, [])

/-! ## Fields -/

variable {data before x rest header payload beyond id prefix_id RId : List UInt8} {si : Nat}

/-- With a separator or without, a field goes as far as there is none. -/
theorem field_fst (data : List UInt8) (si : Nat) :
    (field data si).1 = (data.drop si).takeWhile (· ≠ semicolon) := by
  unfold field substr find
  split
  · have hle : (si : Int) ≤ si + ((data.drop si).takeWhile (· ≠ semicolon)).length := by omega
    have hlen : ((si : Int) + ((data.drop si).takeWhile (· ≠ semicolon)).length - si).toNat =
        ((data.drop si).takeWhile (· ≠ semicolon)).length := by omega
    simp only [if_pos hle, hlen]
    exact (List.prefix_iff_eq_take.mp (List.takeWhile_prefix _)).symm
  · next hnone =>
    have hneg : ¬(si : Int) ≤ -1 := by omega
    simp only [if_neg hneg]
    exact (Delimited.takeWhile_self hnone).symm

theorem semicolon_not_mem_field (data : List UInt8) (si : Nat) : semicolon ∉ (field data si).1 := by
  rw [field_fst]
  exact Delimited.not_mem_takeWhile _ _

theorem not_mem_field (h : 0 ∉ data) (si : Nat) : 0 ∉ (field data si).1 := by
  rw [field_fst]
  intro hmem
  exact h (List.mem_of_mem_drop ((List.takeWhile_sublist _).mem hmem))

theorem field_eq (before rest : List UInt8) (hx : semicolon ∉ x) :
    field (before ++ (x ++ ([semicolon] ++ rest))) before.length =
      (x, (before ++ (x ++ [semicolon])).length) := by
  have hdrop : (before ++ (x ++ ([semicolon] ++ rest))).drop before.length = x ++ semicolon :: rest :=
    List.drop_left
  refine Prod.ext ?_ ?_
  · rw [field_fst, hdrop, Delimited.takeWhile_eq hx]
  · have hmem : semicolon ∈ x ++ semicolon :: rest := by simp
    simp only [field, find, hdrop, if_pos hmem, Delimited.takeWhile_eq hx, List.length_append,
      List.length_singleton]
    omega

/-- What a request stores, where its header and payload are C strings. -/
theorem publicationFor_eq_some {op : Operation} {payloadRVSId : Id} {strategy : Strategy}
    {pub : Publication} :
    publicationFor op payloadRVSId id prefix_id payload beyond RId strategy = some pub ↔
      ∃ text, upTo 0 (payload ++ beyond) = some text ∧ pub = ⟨RId, payloadRVSId,
        cString (op.code ++ [semicolon] ++ id ++ [semicolon] ++ prefix_id ++ [semicolon]) ++ text,
        strategy,
        (op.code ++ [semicolon] ++ id ++ [semicolon] ++ prefix_id ++ [semicolon]).length + payload.length,
        false⟩ := by
  unfold publicationFor
  rw [Option.bind_eq_bind, Option.bind_eq_some_iff]
  simp only [Option.pure_def, Option.some.injEq, eq_comm]

theorem wpl_buffer {op : Operation} (s : PubSub.State) {payloadRVSId : Id} {strategy : Strategy}
    {pub : Publication}
    (h : publicationFor op payloadRVSId id prefix_id payload beyond RId strategy = some pub) :
    ∃ r, op.wpl s payloadRVSId id prefix_id payload beyond RId strategy = some r ∧
      r.1.buffer (payloadRVSId ++ RId) = some pub := by
  cases op <;>
  · refine ⟨_, Option.bind_eq_some_iff.mpr ⟨pub, h, rfl⟩, ?_⟩
    exact Function.update_self _ _ _

theorem wpl_some {op : Operation} {s : PubSub.State} {payloadRVSId : Id} {strategy : Strategy}
    {r : PubSub.State × List PubSub.Output}
    (h : op.wpl s payloadRVSId id prefix_id payload beyond RId strategy = some r) :
    ∃ pub, publicationFor op payloadRVSId id prefix_id payload beyond RId strategy = some pub ∧
      r.1.buffer (payloadRVSId ++ RId) = some pub := by
  cases op <;>
  · obtain ⟨pub, hpub, hr⟩ := Option.bind_eq_some_iff.mp h
    cases hr
    exact ⟨pub, hpub, Function.update_self _ _ _⟩

/-! ## The round trip -/

/-- The upper layer is told of the request as it was made. -/
structure Reports (op : Operation) (id prefix_id payload : List UInt8) (ev : RVEvent) : Prop where
  type : ev.type = eventType op
  OPId : ev.OPId = id
  prefix_id : ev.prefix_id = prefix_id
  data : ev.data = payload
  data_len : ev.data_len = payload.length

/-- The message that is stored for the request, delivered intact. -/
def RoundTrip (op : Operation) (s : PubSub.State) (rv : State) (id prefix_id payload beyond RId : List UInt8)
    (strategy : Strategy) : Prop :=
  ∃ r pub message ev,
    op.wpl s rv.payloadRVSId id prefix_id payload beyond RId strategy = some r ∧
    r.1.buffer (rv.payloadRVSId ++ RId) = some pub ∧
    Transport.readBytes pub.payload pub.size = some message ∧
    fromLowerLayer rv ⟨publishedData, rv.payloadRVSId ++ RId, some message⟩ =
      some (rv, [.fromLowerLayer ev]) ∧
    Reports op id prefix_id payload ev

/-- Neither an end of a string nor a separator. -/
def Plain (x : List UInt8) : Prop := 0 ∉ x ∧ semicolon ∉ x

theorem fromLowerLayer_data (rv : State) (id : Id) (message : List UInt8) :
    fromLowerLayer rv ⟨publishedData, id, some message⟩ = onData rv id (cString message) := rfl

/-- Whatever comes, what is told has no zero in it, and its fields have no separator. -/
theorem onData_plain {rv : State} {r : State × List Output} {ev : RVEvent} (hdata : 0 ∉ data)
    (h : onData rv id data = some r) (hev : .fromLowerLayer ev ∈ r.2) :
    Plain ev.OPId ∧ Plain ev.prefix_id ∧ 0 ∉ ev.data := by
  obtain ⟨RId, -, hreport⟩ := Option.bind_eq_some_iff.mp h
  split at hreport
  · cases hreport
    obtain rfl : ev = _ := by simpa using hev
    refine ⟨⟨not_mem_field hdata _, semicolon_not_mem_field _ _⟩,
      ⟨not_mem_field hdata _, semicolon_not_mem_field _ _⟩, ?_⟩
    intro hmem
    exact hdata (List.mem_of_mem_drop hmem)
  · cases hreport
    cases hev

/-- Of a longer string, as much is read as the message is long. -/
theorem readBytes_eq (x y z : List UInt8) :
    Transport.readBytes (x ++ (y ++ z)) (x.length + y.length) = some (x ++ y) := by
  have hlength : x.length + y.length ≤ (x ++ (y ++ z)).length + 1 := by
    simp only [List.length_append]
    omega
  rw [Transport.readBytes, if_pos hlength, ← List.append_assoc, List.append_assoc,
    ← List.length_append, List.take_left]

theorem operationOf_code (op : Operation) : operationOf op.code = some op := by
  cases op <;> rfl

theorem code_plain (op : Operation) : Plain op.code := by
  cases op <;> exact ⟨by decide, by decide⟩

/-- What a request sends is read as it was made. -/
theorem onData_message (rv : State) (op : Operation) (hid : semicolon ∉ id) (hpath : semicolon ∉ prefix_id) :
    onData rv (rv.payloadRVSId ++ RId)
        (op.code ++ [semicolon] ++ id ++ [semicolon] ++ prefix_id ++ [semicolon] ++ payload) =
      some (rv, [.fromLowerLayer ⟨eventType op, rv.payloadRVSId ++ RId, payload, payload.length,
        RId.reverse, id, prefix_id⟩]) := by
  obtain ⟨-, hcode⟩ := code_plain op
  have htype := field_eq [] (id ++ ([semicolon] ++ (prefix_id ++ ([semicolon] ++ payload)))) hcode
  have hcId := field_eq (op.code ++ [semicolon]) (prefix_id ++ ([semicolon] ++ payload)) hid
  have hprefixId := field_eq (op.code ++ [semicolon] ++ id ++ [semicolon]) payload hpath
  have hpayload : (op.code ++ [semicolon] ++ id ++ [semicolon] ++ prefix_id ++ [semicolon] ++ payload).drop
      (op.code ++ [semicolon] ++ id ++ [semicolon] ++ prefix_id ++ [semicolon]).length = payload :=
    List.drop_left
  have hRId : extractRId rv (rv.payloadRVSId ++ RId) = some RId := by simp [extractRId]
  simp only [List.append_assoc, List.nil_append, List.length_nil] at htype hcId hprefixId hpayload
  simp only [onData, List.append_assoc, htype, hcId, hprefixId, hpayload, hRId, Option.bind_eq_bind,
    Option.bind_some, operationOf_code, Option.pure_def]
  rfl

/-- A separator or a zero in a field, or a zero in the payload, is not read back. -/
theorem operation_roundTrip_iff (op : Operation) (s : PubSub.State) (rv : State)
    (id prefix_id payload beyond RId : List UInt8) (strategy : Strategy) :
    RoundTrip op s rv id prefix_id payload beyond RId strategy ↔
      Plain id ∧ Plain prefix_id ∧ 0 ∉ payload ∧ 0 ∈ beyond := by
  constructor
  · rintro ⟨r, pub, message, ev, hwpl, -, -, hreport, hev⟩
    obtain ⟨pub, hpub, -⟩ := wpl_some hwpl
    obtain ⟨text, htext, -⟩ := publicationFor_eq_some.mp hpub
    rw [fromLowerLayer_data] at hreport
    obtain ⟨hid, hpath, hpayload⟩ := onData_plain (Delimited.not_mem_takeWhile 0 message) hreport
      List.mem_cons_self
    rw [hev.OPId] at hid
    rw [hev.prefix_id] at hpath
    rw [hev.data] at hpayload
    have hmem : 0 ∈ payload ++ beyond := by
      by_contra hnone
      rw [upTo, if_neg hnone] at htext
      cases htext
    exact ⟨hid, hpath, hpayload, (List.mem_append.mp hmem).resolve_left hpayload⟩
  · rintro ⟨⟨hid, hidSep⟩, ⟨hpath, hprefixSep⟩, hpayload, hbeyond⟩
    obtain ⟨b, rest, rfl, hb⟩ := List.eq_append_cons_of_mem hbeyond
    have htext : upTo 0 (payload ++ (b ++ 0 :: rest)) = some (payload ++ b) := by
      rw [← List.append_assoc]
      exact Delimited.upTo_append (by simp [hpayload, hb]) rest
    have hheader : 0 ∉ op.code ++ [semicolon] ++ id ++ [semicolon] ++ prefix_id ++ [semicolon] := by
      have hsep : (0 : UInt8) ∉ [semicolon] := by decide
      simp only [List.mem_append, not_or]
      exact ⟨⟨⟨⟨⟨(code_plain op).1, hsep⟩, hid⟩, hsep⟩, hpath⟩, hsep⟩
    have hpub : publicationFor op rv.payloadRVSId id prefix_id payload (b ++ 0 :: rest) RId strategy =
        some _ := publicationFor_eq_some.mpr ⟨_, htext, rfl⟩
    obtain ⟨r, hr, hbuffer⟩ := wpl_buffer s hpub
    rw [cString, Delimited.takeWhile_self hheader] at hbuffer
    have hmessage : 0 ∉ op.code ++ [semicolon] ++ id ++ [semicolon] ++ prefix_id ++ [semicolon] ++ payload := by
      rw [List.mem_append, not_or]
      exact ⟨hheader, hpayload⟩
    refine ⟨r, _, _, ⟨eventType op, rv.payloadRVSId ++ RId, payload, payload.length, RId.reverse, id, prefix_id⟩,
      hr, hbuffer, readBytes_eq _ _ b, ?_, ⟨rfl, rfl, rfl, rfl, rfl⟩⟩
    rw [fromLowerLayer_data, cString, Delimited.takeWhile_self hmessage]
    exact onData_message rv op hidSep hprefixSep

/-- An identifier of eight bytes that begins with zeros. -/
theorem zeros_lost : ¬RoundTrip .publishInfo (PubSub.State.init 2) ⟨[7], fun _ => none⟩
    [0, 0, 0, 0, 0, 0, 0, 1] [] [0x41] [0] [0x61] 2 := by
  rintro ⟨r, pub, message, ev, -, -, -, hreport, hev⟩
  rw [fromLowerLayer_data] at hreport
  obtain ⟨hid, -⟩ := onData_plain (Delimited.not_mem_takeWhile 0 message) hreport List.mem_cons_self
  rw [hev.OPId] at hid
  exact hid.1 (by decide)

end BaseRV

end Blackadder
