import Blackadder.Api.Manager
import Blackadder.Api.Requests

/-!
# The two client libraries

`Blackadder` sends a datagram within the call, and `NB_Blackadder` puts it into a queue.
-/

namespace Blackadder

open Wire (blit store appendAll)

/-- A call of a client library. A `str_opt` of `none` is the null pointer. -/
inductive ApiCall where
  | request (r : Request) (strOpt : Option (List UInt8))
  | publishData (id : Id) (strategy : Strategy) (strOpt : Option (List UInt8)) (data : List UInt8)

namespace Library

/-- `publish_data`, of which `publishData` is the call of the manager. -/
def publishAny (pid : Nat) (id : Id) (strategy : Strategy) (strOpt : Option (List UInt8))
    (data : List UInt8) : Except String (List UInt8) :=
  if id.length % pursuitIdLen ≠ 0 then .error "Blackadder Library: Could not send  - wrong ID size"
  else
    let nlmsg_len := 16 + 1 + 1 + id.length + 1 + (strOpt.getD []).length + data.length
    .ok (nlmsghdr nlmsg_len pid ++ [Code.publishData] ++ [fragments id] ++ id ++ [strategy] ++
      strOpt.getD [] ++ data)

/-- The datagram of a call, or the message that it is refused with. -/
def call (pid : Nat) : ApiCall → Except String (List UInt8)
  | .request r strOpt => send pid r (strOpt.getD [])
  | .publishData id strategy strOpt data => publishAny pid id strategy strOpt data

end Library

/-! ## `NB_Blackadder` -/

namespace NBLibrary

def couldNotSend (name reason : String) : String :=
  "NB_Blackadder Library: Could not send " ++ name ++ " request - " ++ reason

def checkSizes (name : String) (id prefixID : Id) : Except String Unit :=
  if id.length % pursuitIdLen ≠ 0 then .error (couldNotSend name "wrong ID size")
  else if prefixID.length % pursuitIdLen ≠ 0 then
    .error (couldNotSend name "wrong prefix_id size")
  else .ok ()

def checkId (name : String) (id : Id) : Except String Unit :=
  if id.length = 0 then .error (couldNotSend name "id cannot be empty") else .ok ()

def checkPrefix (name : String) (prefixID : Id) : Except String Unit :=
  if prefixID.length = 0 then .error (couldNotSend name "prefix_id cannot be empty") else .ok ()

def checkSingle (name : String) (id : Id) : Except String Unit :=
  if 1 < id.length / pursuitIdLen then
    .error (couldNotSend name "id cannot consist of multiple fragments")
  else .ok ()

def checkScope (name : String) (id prefixID : Id) : Except String Unit := do
  checkSizes name id prefixID
  checkId name id
  checkSingle name id

def checkInfo (name : String) (id prefixID : Id) : Except String Unit := do
  checkSizes name id prefixID
  checkId name id
  checkPrefix name prefixID
  checkSingle name id

def publishScope (id prefixID : Id) : Except String Unit := do
  checkSizes "PUBLISH_SCOPE" id prefixID
  checkId "PUBLISH_SCOPE" id

/-- The prefix is tested twice here, too. -/
def publishInfo (id prefixID : Id) : Except String Unit := do
  checkSizes "PUBLISH_INFO" id prefixID
  checkPrefix "PUBLISH_INFO" prefixID
  checkPrefix "PUBLISH_INFO" prefixID

def unpublishScope := checkScope "UNPUBLISH_SCOPE"
def unpublishInfo := checkInfo "UNPUBLISH_INFO"
def subscribeScope := checkScope "SUBSCRIBE_SCOPE"
def subscribeInfo := checkInfo "SUBSCRIBE_INFO"
def unsubscribeScope := checkScope "UNSUBSCRIBE_SCOPE"
def unsubscribeInfo := checkInfo "UNSUBSCRIBE_INFO"

def check : RequestType → Id → Id → Except String Unit
  | .publishScope => publishScope
  | .publishInfo => publishInfo
  | .unpublishScope => unpublishScope
  | .unpublishInfo => unpublishInfo
  | .subscribeScope => subscribeScope
  | .subscribeInfo => subscribeInfo
  | .unsubscribeScope => unsubscribeScope
  | .unsubscribeInfo => unsubscribeInfo

/-- `malloc` of an `int`. A negative one is a size that no memory has, and what it returns is not
tested. `fresh` is what was in memory. -/
def malloc (fresh : Nat → UInt8) (n : Int32) : Option (List UInt8) :=
  if n < 0 then none else some ((List.range n.toInt.toNat).map fresh)

/-- The fields of the header, without the sequence number. -/
def fillHeader (buffer : List UInt8) (nlmsg_len : UInt32) (pid : Nat) : Option (List UInt8) := do
  let buffer ← blit buffer 0 (littleEndian 4 nlmsg_len.toNat)
  let buffer ← blit buffer (4 + 2 + 2 + 4) (littleEndian 4 pid)
  let buffer ← blit buffer (4 + 2) (littleEndian 2 1)
  blit buffer 4 (littleEndian 2 0)

/-- The size of a null `str_opt` does not count. -/
def optLen (strOpt : Option (List UInt8)) : Nat := (strOpt.getD []).length

def blitOpt (buffer : List UInt8) (k : Nat) : Option (List UInt8) → Option (List UInt8)
  | none => some buffer
  | some strOpt => blit buffer k strOpt

/-- The datagram that `push` puts into the queue. `none` is an access outside of the buffer. -/
def push (fresh : Nat → UInt8) (pid : Nat) (type : UInt8) (id prefixID : Id) (strategy : Strategy)
    (strOpt : Option (List UInt8)) : Option (List UInt8) := do
  let buffer_length :=
    Int32.ofNat (16 + 1 + 1 + id.length + 1 + prefixID.length + 1 + optLen strOpt)
  let buffer ← malloc fresh buffer_length
  let buffer ← fillHeader buffer buffer_length.toUInt32 pid
  let buffer ← store buffer 16 type
  let buffer ← store buffer (16 + 1) (fragments id)
  let buffer ← blit buffer (16 + 1 + 1) id
  let buffer ← store buffer (16 + 1 + 1 + id.length) (fragments prefixID)
  let buffer ← blit buffer (16 + 1 + 1 + id.length + 1) prefixID
  let buffer ← store buffer (16 + 1 + 1 + id.length + 1 + prefixID.length) strategy
  blitOpt buffer (16 + 1 + 1 + id.length + 1 + prefixID.length + 1) strOpt

/-- `publish_data` has no test. The data is an `iov` of its own. -/
def publishData (fresh : Nat → UInt8) (pid : Nat) (id : Id) (strategy : Strategy)
    (strOpt : Option (List UInt8)) (data : List UInt8) : Option (List UInt8) := do
  let buffer_length := Int32.ofNat (16 + 1 + 1 + id.length + 1 + optLen strOpt)
  let buffer ← malloc fresh buffer_length
  let buffer ← fillHeader buffer (buffer_length.toUInt32 + UInt32.ofNat data.length) pid
  let buffer ← store buffer 16 Code.publishData
  let buffer ← store buffer (16 + 1) (fragments id)
  let buffer ← blit buffer (16 + 1 + 1) id
  let buffer ← store buffer (16 + 1 + 1 + id.length) strategy
  let buffer ← blitOpt buffer (16 + 1 + 1 + id.length + 1) strOpt
  return buffer ++ data

/-- The datagram for the queue, or the message that the call is refused with. -/
def call (fresh : Nat → UInt8) (pid : Nat) : ApiCall → Option (Except String (List UInt8))
  | .request r strOpt =>
    match check r.type r.ID r.prefixID with
    | .error msg => some (.error msg)
    | .ok () => (push fresh pid r.type.code r.ID r.prefixID r.strategy strOpt).map .ok
  | .publishData id strategy strOpt data =>
    (publishData fresh pid id strategy strOpt data).map .ok

end NBLibrary

/-! ## The tests -/

variable {fresh : Nat → UInt8} {pid n : Nat} {b : List UInt8} {parts : List (List UInt8)}

namespace NBLibrary

/-- The messages of the one library are those of the other with another name. -/
def renamed (x : Except String Unit) : Except String Unit := x.mapError ("NB_" ++ ·)

theorem append_five (s₁ s₂ s₃ s₄ s₅ : String) :
    s₁ ++ s₂ ++ s₃ ++ s₄ ++ s₅ = s₁ ++ (s₂ ++ s₃ ++ s₄ ++ s₅) := by
  simp only [String.append_assoc]

theorem couldNotSend_eq (name reason : String) :
    couldNotSend name reason = "NB_" ++ Library.couldNotSend name reason :=
  have hlibrary : "NB_Blackadder Library: Could not send " =
      "NB_" ++ "Blackadder Library: Could not send " := by decide
  (congrArg (fun s => s ++ name ++ " request - " ++ reason) hlibrary).trans (append_five _ _ _ _ _)

theorem renamed_bind (x y : Except String Unit) :
    renamed (do x; y) = (do renamed x; renamed y) := by
  cases x <;> rfl

theorem checkSizes_eq (name : String) (id prefixID : Id) :
    checkSizes name id prefixID = renamed (Library.checkSizes name id prefixID) := by
  unfold checkSizes Library.checkSizes
  simp only [couldNotSend_eq]
  split <;> [rfl; split <;> rfl]

theorem checkId_eq (name : String) (id : Id) : checkId name id = renamed (Library.checkId name id) := by
  unfold checkId Library.checkId
  simp only [couldNotSend_eq]
  split <;> rfl

theorem checkPrefix_eq (name : String) (prefixID : Id) :
    checkPrefix name prefixID = renamed (Library.checkPrefix name prefixID) := by
  unfold checkPrefix Library.checkPrefix
  simp only [couldNotSend_eq]
  split <;> rfl

theorem checkSingle_eq (name : String) (id : Id) :
    checkSingle name id = renamed (Library.checkSingle name id) := by
  unfold checkSingle Library.checkSingle
  simp only [couldNotSend_eq]
  split <;> rfl

theorem checkScope_eq (name : String) (id prefixID : Id) :
    checkScope name id prefixID = renamed (Library.checkScope name id prefixID) := by
  simp only [checkScope, Library.checkScope, renamed_bind, checkSizes_eq, checkId_eq, checkSingle_eq]

theorem checkInfo_eq (name : String) (id prefixID : Id) :
    checkInfo name id prefixID = renamed (Library.checkInfo name id prefixID) := by
  simp only [checkInfo, Library.checkInfo, renamed_bind, checkSizes_eq, checkId_eq, checkPrefix_eq,
    checkSingle_eq]

theorem check_eq (t : RequestType) (id prefixID : Id) :
    check t id prefixID = renamed (Library.check t id prefixID) := by
  cases t with
  | publishScope =>
    simp only [check, Library.check, publishScope, Library.publishScope, renamed_bind, checkSizes_eq,
      checkId_eq]
  | publishInfo =>
    simp only [check, Library.check, publishInfo, Library.publishInfo, renamed_bind, checkSizes_eq,
      checkPrefix_eq]
  | unpublishScope => exact checkScope_eq _ _ _
  | unpublishInfo => exact checkInfo_eq _ _ _
  | subscribeScope => exact checkScope_eq _ _ _
  | subscribeInfo => exact checkInfo_eq _ _ _
  | unsubscribeScope => exact checkScope_eq _ _ _
  | unsubscribeInfo => exact checkInfo_eq _ _ _

/-! ## The buffer -/

/-- The header, with the sequence number that was in memory. -/
def header (nlmsg_len : UInt32) (seq : List UInt8) (pid : Nat) : List UInt8 :=
  littleEndian 4 nlmsg_len.toNat ++ (littleEndian 2 0 ++ (littleEndian 2 1 ++ (seq ++ littleEndian 4 pid)))

theorem fillHeader_append {y₁ y₂ y₃ seq y₄ rest : List UInt8} (nlmsg_len : UInt32)
    (h₁ : y₁.length = 4) (h₂ : y₂.length = 2) (h₃ : y₃.length = 2) (hseq : seq.length = 4)
    (h₄ : y₄.length = 4) :
    fillHeader (y₁ ++ (y₂ ++ (y₃ ++ (seq ++ (y₄ ++ rest))))) nlmsg_len pid =
      some (header nlmsg_len seq pid ++ rest) := by
  have hlen : blit (y₁ ++ (y₂ ++ (y₃ ++ (seq ++ (y₄ ++ rest))))) 0 (littleEndian 4 nlmsg_len.toNat) =
      some ([] ++ (littleEndian 4 nlmsg_len.toNat ++ (y₂ ++ (y₃ ++ (seq ++ (y₄ ++ rest)))))) :=
    Wire.blit_append rfl rfl (by simp [h₁])
  have hpid : blit (littleEndian 4 nlmsg_len.toNat ++ (y₂ ++ (y₃ ++ (seq ++ (y₄ ++ rest)))))
      (4 + 2 + 2 + 4) (littleEndian 4 pid) =
      some ((littleEndian 4 nlmsg_len.toNat ++ y₂ ++ y₃ ++ seq) ++ (littleEndian 4 pid ++ rest)) :=
    Wire.blit_append (y := y₄) (by simp only [List.append_assoc]) (by simp [h₂, h₃, hseq]) (by simp [h₄])
  have hflags : blit ((littleEndian 4 nlmsg_len.toNat ++ y₂ ++ y₃ ++ seq) ++
      (littleEndian 4 pid ++ rest)) (4 + 2) (littleEndian 2 1) =
      some ((littleEndian 4 nlmsg_len.toNat ++ y₂) ++
        (littleEndian 2 1 ++ (seq ++ (littleEndian 4 pid ++ rest)))) :=
    Wire.blit_append (y := y₃) (by simp only [List.append_assoc]) (by simp [h₂]) (by simp [h₃])
  have htype : blit ((littleEndian 4 nlmsg_len.toNat ++ y₂) ++
      (littleEndian 2 1 ++ (seq ++ (littleEndian 4 pid ++ rest)))) 4 (littleEndian 2 0) =
      some (littleEndian 4 nlmsg_len.toNat ++
        (littleEndian 2 0 ++ (littleEndian 2 1 ++ (seq ++ (littleEndian 4 pid ++ rest))))) :=
    Wire.blit_append (y := y₂) (by simp only [List.append_assoc]) (by simp) (by simp [h₂])
  have hheader : header nlmsg_len seq pid ++ rest = littleEndian 4 nlmsg_len.toNat ++
      (littleEndian 2 0 ++ (littleEndian 2 1 ++ (seq ++ (littleEndian 4 pid ++ rest)))) := by
    simp only [header, List.append_assoc]
  rw [hheader]
  exact Option.bind_eq_some_iff.2 ⟨_, hlen, Option.bind_eq_some_iff.2 ⟨_, hpid,
    Option.bind_eq_some_iff.2 ⟨_, hflags, htype⟩⟩⟩

theorem fillHeader_some (nlmsg_len : UInt32) (pid : Nat) (h : 16 ≤ b.length) :
    ∃ seq, seq.length = 4 ∧ fillHeader b nlmsg_len pid = some (header nlmsg_len seq pid ++ b.drop 16) := by
  have hb : b = b.take 4 ++ ((b.drop 4).take 2 ++ ((b.drop 6).take 2 ++ ((b.drop 8).take 4 ++
      ((b.drop 12).take 4 ++ b.drop 16)))) := by
    have hdrop : ∀ k m, (b.drop k).take m ++ b.drop (k + m) = b.drop k := fun k m => by
      rw [← List.drop_drop, List.take_append_drop]
    rw [hdrop 12 4, hdrop 8 4, hdrop 6 2, hdrop 4 2, List.take_append_drop]
  have hlen : ∀ k m, k + m ≤ 16 → ((b.drop k).take m).length = m := fun k m hkm => by
    rw [List.length_take, List.length_drop]
    omega
  refine ⟨(b.drop 8).take 4, hlen 8 4 (by omega), ?_⟩
  conv_lhs => rw [hb]
  exact fillHeader_append nlmsg_len (hlen 0 4 (by omega)) (hlen 4 2 (by omega)) (hlen 6 2 (by omega))
    (hlen 8 4 (by omega)) (hlen 12 4 (by omega))

theorem length_header {seq : List UInt8} (nlmsg_len : UInt32) (pid : Nat) (h : seq.length = 4) :
    (header nlmsg_len seq pid).length = 16 := by
  simp [header, h]

theorem fillHeader_none {nlmsg_len : UInt32} (h : b.length < 16) : fillHeader b nlmsg_len pid = none := by
  have hstop : ∀ buffer : List UInt8, buffer.length = b.length →
      blit buffer (4 + 2 + 2 + 4) (littleEndian 4 pid) = none := by
    intro buffer hbuffer
    refine if_neg ?_
    rw [hbuffer, length_littleEndian]
    omega
  simp only [fillHeader, Option.bind_eq_bind]
  refine Option.bind_eq_none_iff.2 fun buffer hbuffer => ?_
  rw [hstop buffer, Option.bind_none]
  unfold blit at hbuffer
  split at hbuffer
  · next hroom =>
    obtain rfl := Option.some.inj hbuffer
    simp only [length_littleEndian] at hroom
    simp
    omega
  · cases hbuffer

/-- What `push` and `publish_data` have in common. -/
def flat (fresh : Nat → UInt8) (pid n : Nat) (nlmsg_len : UInt32) (parts : List (List UInt8)) :
    Option (List UInt8) :=
  (malloc fresh (Int32.ofNat n)).bind fun b =>
    (fillHeader b nlmsg_len pid).bind fun b => appendAll b 16 parts

theorem flat_some (fresh : Nat → UInt8) (pid : Nat) (nlmsg_len : UInt32)
    (hn : n = 16 + parts.flatten.length) (hfit : n < 2 ^ 31) :
    ∃ seq, seq.length = 4 ∧
      flat fresh pid n nlmsg_len parts = some (header nlmsg_len seq pid ++ parts.flatten) := by
  have hint : (Int32.ofNat n).toInt = n := Int32.toInt_ofNat_of_lt hfit
  have hmalloc : malloc fresh (Int32.ofNat n) = some ((List.range n).map fresh) := by
    rw [malloc, if_neg, hint, Int.toNat_natCast]
    rw [Int32.lt_iff_toInt_lt, hint]
    exact not_lt.2 (Int.natCast_nonneg n)
  have hlen : ((List.range n).map fresh).length = n := by simp
  obtain ⟨seq, hseq, hfill⟩ := fillHeader_some nlmsg_len pid (hlen.symm ▸ hn ▸ Nat.le_add_right 16 _)
  refine ⟨seq, hseq, ?_⟩
  have hheader := length_header nlmsg_len pid hseq
  have hbuffer : (header nlmsg_len seq pid ++ ((List.range n).map fresh).drop 16).length = n := by
    rw [List.length_append, hheader, List.length_drop, hlen]
    omega
  rw [flat, hmalloc, Option.bind_some, hfill, Option.bind_some, Wire.appendAll_eq (by omega),
    if_pos (by omega), List.take_left' hheader, List.drop_of_length_le (by omega), List.append_nil]

theorem flat_none {nlmsg_len : UInt32} (hn : n = 16 + parts.flatten.length) (hfit : ¬ n < 2 ^ 31) :
    flat fresh pid n nlmsg_len parts = none := by
  refine Option.bind_eq_none_iff.2 fun b hb => Option.bind_eq_none_iff.2 fun b' hb' => ?_
  have hlen : b.length < n := by
    unfold malloc at hb
    split at hb
    · cases hb
    · obtain rfl := Option.some.inj hb
      have hint := (Int32.ofNat n).toInt_lt
      rw [List.length_map, List.length_range]
      omega
  by_cases h16 : 16 ≤ b.length
  · obtain ⟨seq, hseq, hfill⟩ := fillHeader_some nlmsg_len pid h16
    obtain rfl := Option.some.inj (hfill.symm.trans hb')
    have hheader := length_header nlmsg_len pid hseq
    have hbuffer : (header nlmsg_len seq pid ++ b.drop 16).length = b.length := by
      rw [List.length_append, hheader, List.length_drop]
      omega
    rw [Wire.appendAll_eq (by omega), if_neg (by omega)]
  · rw [fillHeader_none (by omega)] at hb'
    cases hb'

theorem push_eq (fresh : Nat → UInt8) (pid : Nat) (type : UInt8) (id prefixID : Id)
    (strategy : Strategy) (strOpt : Option (List UInt8)) :
    push fresh pid type id prefixID strategy strOpt =
      flat fresh pid (16 + 1 + 1 + id.length + 1 + prefixID.length + 1 + optLen strOpt)
        (Int32.ofNat (16 + 1 + 1 + id.length + 1 + prefixID.length + 1 + optLen strOpt)).toUInt32
        ([[type], [fragments id], id, [fragments prefixID], prefixID, [strategy]] ++ strOpt.toList) := by
  cases strOpt <;>
    simp only [push, flat, blitOpt, appendAll, store, Option.toList_none, Option.toList_some,
      List.append_nil, List.cons_append, List.nil_append, List.length_singleton,
      Option.bind_eq_bind, Option.bind_fun_some]

theorem publishData_eq (fresh : Nat → UInt8) (pid : Nat) (id : Id) (strategy : Strategy)
    (strOpt : Option (List UInt8)) (data : List UInt8) :
    publishData fresh pid id strategy strOpt data =
      (flat fresh pid (16 + 1 + 1 + id.length + 1 + optLen strOpt)
        ((Int32.ofNat (16 + 1 + 1 + id.length + 1 + optLen strOpt)).toUInt32 +
          UInt32.ofNat data.length)
        ([[Code.publishData], [fragments id], id, [strategy]] ++ strOpt.toList)).map (· ++ data) := by
  cases strOpt <;>
    simp only [publishData, flat, blitOpt, appendAll, store, Option.toList_none, Option.toList_some,
      List.append_nil, List.cons_append, List.nil_append, List.length_singleton,
      Option.bind_eq_bind, Option.bind_some, Option.bind_fun_some, Option.pure_def, Option.map_eq_bind,
      Option.bind_assoc, Function.comp_apply]

end NBLibrary

/-! ## Agreement -/

/-- Both libraries refuse the call, or both send the same bytes behind the header and the same
`nlmsg_len`, which are the first four bytes. -/
def ApiCall.Agree (fresh : Nat → UInt8) (pid : Nat) (c : ApiCall) : Prop :=
  match Library.call pid c, NBLibrary.call fresh pid c with
  | .error _, some (.error _) => True
  | .ok d, some (.ok d') => d'.drop 16 = d.drop 16 ∧ d'.take 4 = d.take 4
  | _, _ => False

/-- An accepted request fits into a buffer with a size in an `int`. Data is published under an id
of whole fragments, and what is in front of the data fits. -/
def ApiCall.Suits : ApiCall → Prop
  | .request r strOpt => r.Accepted →
    16 + 1 + 1 + r.ID.length + 1 + r.prefixID.length + 1 + NBLibrary.optLen strOpt < 2 ^ 31
  | .publishData id _ strOpt _ =>
    pursuitIdLen ∣ id.length ∧ 16 + 1 + 1 + id.length + 1 + NBLibrary.optLen strOpt < 2 ^ 31

theorem littleEndian_mod (n v : Nat) : littleEndian n (v % 256 ^ n) = littleEndian n v := by
  have h := littleEndian_foldr (littleEndian n v)
  rwa [foldr_littleEndian, length_littleEndian] at h

theorem toUInt32_toNat {n : Nat} : (Int32.ofNat n).toUInt32.toNat = n % 2 ^ 32 := by
  rw [Int32.toUInt32_ofNat', UInt32.toNat_ofNat']

theorem header_cut (nlmsg_len : UInt32) (pid : Nat) {seq : List UInt8} (rest : List UInt8)
    (h : seq.length = 4) :
    (NBLibrary.header nlmsg_len seq pid ++ rest).drop 16 = rest ∧
      (NBLibrary.header nlmsg_len seq pid ++ rest).take 4 = littleEndian 4 nlmsg_len.toNat := by
  refine ⟨Wire.drop_length rfl (NBLibrary.length_header _ _ h).symm, ?_⟩
  rw [NBLibrary.header, List.append_assoc, List.take_left' (length_littleEndian 4 _)]

theorem nlmsghdr_cut (nlmsg_len pid : Nat) (rest : List UInt8) :
    (nlmsghdr nlmsg_len pid ++ rest).drop 16 = rest ∧
      (nlmsghdr nlmsg_len pid ++ rest).take 4 = littleEndian 4 nlmsg_len := by
  refine ⟨Wire.drop_length rfl (length_nlmsghdr _ _).symm, ?_⟩
  simp only [nlmsghdr, List.append_assoc]
  exact List.take_left' (length_littleEndian 4 _)

theorem cuts_agree {nlmsg_len : UInt32} {n : Nat} {seq rest : List UInt8} (h : seq.length = 4)
    (hn : nlmsg_len.toNat = n % 2 ^ 32) :
    (NBLibrary.header nlmsg_len seq pid ++ rest).drop 16 = (nlmsghdr n pid ++ rest).drop 16 ∧
      (NBLibrary.header nlmsg_len seq pid ++ rest).take 4 = (nlmsghdr n pid ++ rest).take 4 := by
  obtain ⟨hdrop, htake⟩ := header_cut nlmsg_len pid rest h
  obtain ⟨hdrop', htake'⟩ := nlmsghdr_cut n pid rest
  have hmod : littleEndian 4 (n % 2 ^ 32) = littleEndian 4 n := littleEndian_mod 4 n
  exact ⟨hdrop.trans hdrop'.symm, by rw [htake, htake', hn, hmod]⟩

theorem agree_request (fresh : Nat → UInt8) (pid : Nat) (r : Request) (strOpt : Option (List UInt8)) :
    (ApiCall.request r strOpt).Agree fresh pid ↔ (ApiCall.request r strOpt).Suits := by
  by_cases hacc : r.Accepted
  · have hcheck : NBLibrary.check r.type r.ID r.prefixID = .ok () := by
      rw [NBLibrary.check_eq, check_ok_iff.2 hacc]
      rfl
    have hcall : Library.call pid (.request r strOpt) = .ok _ := send_ok_iff.2 ⟨hacc, rfl⟩
    have hlen : 16 + 1 + 1 + r.ID.length + 1 + r.prefixID.length + 1 + NBLibrary.optLen strOpt =
        16 + ([[r.type.code], [fragments r.ID], r.ID, [fragments r.prefixID], r.prefixID,
          [r.strategy]] ++ strOpt.toList).flatten.length := by
      cases strOpt <;> simp [NBLibrary.optLen] <;> omega
    rw [ApiCall.Agree, hcall]
    simp only [NBLibrary.call, hcheck, NBLibrary.push_eq, ApiCall.Suits, hacc, true_imp_iff]
    by_cases hfit : 16 + 1 + 1 + r.ID.length + 1 + r.prefixID.length + 1 + NBLibrary.optLen strOpt <
        2 ^ 31
    · obtain ⟨seq, hseq, hflat⟩ := NBLibrary.flat_some fresh pid (Int32.ofNat (16 + 1 + 1 +
        r.ID.length + 1 + r.prefixID.length + 1 + NBLibrary.optLen strOpt)).toUInt32 hlen hfit
      have hsent : Library.createAndSendBuffers pid r.type.code r.ID r.prefixID r.strategy
          (strOpt.getD []) = nlmsghdr (16 + 1 + 1 + r.ID.length + 1 + r.prefixID.length + 1 +
            NBLibrary.optLen strOpt) pid ++ ([[r.type.code], [fragments r.ID], r.ID,
              [fragments r.prefixID], r.prefixID, [r.strategy]] ++ strOpt.toList).flatten := by
        cases strOpt <;> simp [Library.createAndSendBuffers, NBLibrary.optLen]
      rw [hflat, hsent]
      exact iff_of_true (cuts_agree hseq toUInt32_toNat) hfit
    · rw [NBLibrary.flat_none hlen hfit]
      exact iff_of_false id hfit
  · have hcheck : ∃ msg, Library.check r.type r.ID r.prefixID = .error msg := by
      cases h : Library.check r.type r.ID r.prefixID with
      | error msg => exact ⟨msg, rfl⟩
      | ok u => exact absurd (check_ok_iff.1 h) hacc
    obtain ⟨msg, hmsg⟩ := hcheck
    have hcall : Library.call pid (.request r strOpt) = .error msg := by
      simp only [Library.call, Library.send, hmsg]
      rfl
    have hnb : NBLibrary.check r.type r.ID r.prefixID = .error ("NB_" ++ msg) := by
      rw [NBLibrary.check_eq, hmsg]
      rfl
    rw [ApiCall.Agree, hcall]
    simp only [NBLibrary.call, hnb]
    exact iff_of_true trivial fun h => absurd h hacc

theorem agree_publishData (fresh : Nat → UInt8) (pid : Nat) (id : Id) (strategy : Strategy)
    (strOpt : Option (List UInt8)) (data : List UInt8) :
    (ApiCall.publishData id strategy strOpt data).Agree fresh pid ↔
      (ApiCall.publishData id strategy strOpt data).Suits := by
  have hlen : 16 + 1 + 1 + id.length + 1 + NBLibrary.optLen strOpt =
      16 + ([[Code.publishData], [fragments id], id, [strategy]] ++ strOpt.toList).flatten.length := by
    cases strOpt <;> simp [NBLibrary.optLen] <;> omega
  have hnb : NBLibrary.call fresh pid (.publishData id strategy strOpt data) = _ :=
    congrArg (Option.map Except.ok) (NBLibrary.publishData_eq fresh pid id strategy strOpt data)
  by_cases hfit : 16 + 1 + 1 + id.length + 1 + NBLibrary.optLen strOpt < 2 ^ 31
  · obtain ⟨seq, hseq, hflat⟩ := NBLibrary.flat_some fresh pid ((Int32.ofNat (16 + 1 + 1 + id.length +
      1 + NBLibrary.optLen strOpt)).toUInt32 + UInt32.ofNat data.length) hlen hfit
    rw [hflat, Option.map_some, Option.map_some, List.append_assoc] at hnb
    by_cases hid : pursuitIdLen ∣ id.length
    · have hcall : Library.call pid (.publishData id strategy strOpt data) =
          .ok (nlmsghdr (16 + 1 + 1 + id.length + 1 + NBLibrary.optLen strOpt + data.length) pid ++
            (([[Code.publishData], [fragments id], id, [strategy]] ++ strOpt.toList).flatten ++
              data)) := by
        rw [Library.call, Library.publishAny, if_neg (not_not.2 (Nat.mod_eq_zero_of_dvd hid))]
        cases strOpt <;> simp [NBLibrary.optLen]
      rw [ApiCall.Agree, hcall, hnb]
      refine iff_of_true (cuts_agree hseq ?_) ⟨hid, hfit⟩
      rw [UInt32.toNat_add, toUInt32_toNat, UInt32.toNat_ofNat', ← Nat.add_mod]
    · have hcall : Library.call pid (.publishData id strategy strOpt data) =
          .error "Blackadder Library: Could not send  - wrong ID size" := by
        rw [Library.call, Library.publishAny, if_pos (fun h => hid (Nat.dvd_of_mod_eq_zero h))]
      rw [ApiCall.Agree, hcall, hnb]
      exact iff_of_false (fun h => h) fun h => hid h.1
  · rw [NBLibrary.flat_none hlen hfit] at hnb
    refine iff_of_false ?_ fun h => hfit h.2
    rw [ApiCall.Agree, hnb]
    split <;> simp_all

theorem ApiCall.agree_iff_suits (fresh : Nat → UInt8) (pid : Nat) (c : ApiCall) :
    c.Agree fresh pid ↔ c.Suits := by
  cases c with
  | request r strOpt => exact agree_request fresh pid r strOpt
  | publishData id strategy strOpt data => exact agree_publishData fresh pid id strategy strOpt data

end Blackadder
