import Mathlib.Data.List.AList
import Mathlib.Tactic.Common
import Blackadder.Rendezvous.Attach

/-!
# Registrations and messages

A host enters or leaves one pair, and the element sends. The graph keeps its shape.
-/

namespace Blackadder

namespace LocalRV

variable {s s' t : LocalRV} {lab : Node → Id} {n m : Node} {X Y : Id} {h h' : NodeId}
  {role role' : Role} {k : Kind} {es : List Emission}

/-- Only pairs, records and messages differ. -/
structure SameShape (s s' : LocalRV) : Prop where
  mem_ids : ∀ n X, X ∈ s'.ids n ↔ X ∈ s.ids n
  rest : s' = { s with ids := s'.ids, record := s'.record, out := s'.out }

namespace SameShape

theorem refl (s : LocalRV) : s.SameShape s := ⟨fun _ _ => Iff.rfl, rfl⟩

theorem trans (h : s.SameShape s') (h' : s'.SameShape t) : s.SameShape t where
  mem_ids n X := (h'.mem_ids n X).trans (h.mem_ids n X)
  rest := by rw [h'.rest, h.rest]

theorem nodeID (h : s.SameShape s') : s'.nodeID = s.nodeID := (congrArg LocalRV.nodeID h.rest :)
theorem index (h : s.SameShape s') : s'.index = s.index := (congrArg LocalRV.index h.rest :)
theorem fatherScopes (h : s.SameShape s') : s'.fatherScopes = s.fatherScopes :=
  (congrArg LocalRV.fatherScopes h.rest :)
theorem strategy (h : s.SameShape s') : s'.strategy = s.strategy :=
  (congrArg LocalRV.strategy h.rest :)
theorem children (h : s.SameShape s') : s'.children = s.children :=
  (congrArg LocalRV.children h.rest :)
theorem isRoot (h : s.SameShape s') : s'.isRoot = s.isRoot := (congrArg LocalRV.isRoot h.rest :)
theorem next (h : s.SameShape s') : s'.next = s.next := (congrArg LocalRV.next h.rest :)

theorem names (h : s.SameShape s') (lab : Node → Id) : s'.names lab = s.names lab := by
  unfold LocalRV.names
  rw [h.fatherScopes]
  congr 1
  funext n X
  exact propext (h.mem_ids n X)

theorem inv (h : s.SameShape s') (hs : s.Inv lab) : s'.Inv lab where
  lab_length := hs.lab_length
  sound := by rw [h.names]; exact hs.sound
  suffix n X hX := hs.suffix n X ((h.mem_ids n X).mp hX)
  index_iff n X := by rw [h.index, h.mem_ids]; exact hs.index_iff n X
  child_iff := by rw [h.children, h.fatherScopes]; exact hs.child_iff
  father_live n f hf := by
    rw [h.fatherScopes] at hf
    obtain ⟨F, hF⟩ := hs.father_live n f hf
    exact ⟨F, (h.mem_ids _ _).mpr hF⟩
  has_father n X hX := by
    rw [h.fatherScopes, h.isRoot]
    exact hs.has_father n X ((h.mem_ids n X).mp hX)
  root_fatherless := by rw [h.fatherScopes, h.isRoot]; exact hs.root_fatherless
  ids_lt n X hX := by rw [h.next]; exact hs.ids_lt n X ((h.mem_ids n X).mp hX)
  father_lt := by rw [h.fatherScopes, h.next]; exact hs.father_lt
  root_lt := by rw [h.isRoot, h.next]; exact hs.root_lt
  complete n := by
    rw [CompleteAt, h.names]
    exact hs.complete n

end SameShape

/-! ## A host enters -/

/-- The host in the pair and the id in the host's record. -/
def enter (s : LocalRV) (n : Node) (role : Role) (X : Id) (h : NodeId) : LocalRV :=
  (s.setIds n ((s.ids n).insert X (fun role' =>
    if role' = role then insert h (s.pairAt n X role') else s.pairAt n X role'))).addRecord
      h role n.kind X

theorem register_new (hX : X ∈ s.ids n) (hh : ¬ h ∈ s.pairAt n X role) :
    s.register n role X h = (true, s.enter n role X h) := by
  rw [register, updateHosts, lookup_of_mem hX]
  simp only [hh, if_false]
  rfl

theorem register_old (hh : h ∈ s.pairAt n X role) : s.register n role X h = (false, s) := by
  rw [register, updateHosts, lookup_of_mem (mem_of_pairAt hh)]
  simp only [hh, if_true]

theorem setIds_setIds (ids ids' : IdsHashMap) :
    (s.setIds n ids).setIds n ids' = s.setIds n ids' := by
  simp only [setIds, LocalRV.mk.injEq, true_and, and_true]
  funext m
  by_cases hm : m = n <;> simp [hm]

/-- A first registration makes the pair that `addID` would have made. -/
theorem register_addID (hX : ¬ X ∈ s.ids n) :
    (s.setIndex n.kind X n.ptr).register n role X h = (true, (s.addID n X).enter n role X h) := by
  have hpair : (s.addID n X).pairAt n X = .new := by rw [pairAt_addID, pairAt_of_not_mem hX]
  have hids : ((s.setIndex n.kind X n.ptr).ids n).lookup X = none := AList.lookup_eq_none.mpr hX
  rw [register, updateHosts, hids, enter, hpair, addID_of_not_mem hX, setIds_setIds]
  simp [RemoteHostPair.new, AList.insert_insert]

/-! ## A host leaves -/

theorem setIds_insert_shape (hX : X ∈ s.ids n) (pair : RemoteHostPair) :
    s.SameShape (s.setIds n ((s.ids n).insert X pair)) where
  mem_ids m Y := by
    rw [mem_ids_setIds_insert]
    constructor
    · rintro (⟨rfl, rfl⟩ | h)
      · exact hX
      · exact h
    · exact Or.inr
  rest := rfl

theorem setRecord_shape (s : LocalRV) (h : NodeId) (role : Role) (k : Kind) (IDs : Finset Id) :
    s.SameShape (s.setRecord h role k IDs) := ⟨fun _ _ => Iff.rfl, rfl⟩

theorem enter_shape (hX : X ∈ s.ids n) (role : Role) (h : NodeId) :
    s.SameShape (s.enter n role X h) :=
  (setIds_insert_shape hX _).trans (setRecord_shape ..)

theorem eraseHost_shape (hX : X ∈ s.ids n) (role : Role) (pair : RemoteHostPair) (h : NodeId) :
    s.SameShape (s.eraseHost n role X pair h) :=
  (setIds_insert_shape hX _).trans (setRecord_shape ..)

theorem mem_pairAt_enter : h' ∈ (s.enter n role X h).pairAt m Y role' ↔
    (m = n ∧ Y = X ∧ role' = role ∧ h' = h) ∨ h' ∈ s.pairAt m Y role' := by
  have : (s.enter n role X h).pairAt m Y = (s.setIds n ((s.ids n).insert X (fun role' =>
      if role' = role then insert h (s.pairAt n X role') else s.pairAt n X role'))).pairAt m Y := rfl
  rw [this, pairAt_setIds_insert]
  by_cases hn : m = n ∧ Y = X
  · obtain ⟨rfl, rfl⟩ := hn
    by_cases hr : role' = role <;> simp [hr]
  · have : ¬ (m = n ∧ Y = X ∧ role' = role ∧ h' = h) := fun ⟨h1, h2, _⟩ => hn ⟨h1, h2⟩
    simp [hn, this]

theorem mem_pairAt_eraseHost :
    h' ∈ (s.eraseHost n role X (s.pairAt n X) h).pairAt m Y role' ↔
      h' ∈ s.pairAt m Y role' ∧ ¬ (m = n ∧ Y = X ∧ role' = role ∧ h' = h) := by
  have : (s.eraseHost n role X (s.pairAt n X) h).pairAt m Y =
      (s.setIds n ((s.ids n).insert X (fun role' => if role' = role then
        (s.pairAt n X role').erase h else s.pairAt n X role'))).pairAt m Y := rfl
  rw [this, pairAt_setIds_insert]
  by_cases hn : m = n ∧ Y = X
  · obtain ⟨rfl, rfl⟩ := hn
    by_cases hr : role' = role <;> simp [hr, and_comm]
  · have : ¬ (m = n ∧ Y = X ∧ role' = role ∧ h' = h) := fun ⟨h1, h2, _⟩ => hn ⟨h1, h2⟩
    simp [hn, this]

theorem mem_record_enter : Y ∈ (s.enter n role X h).record h' role' k ↔
    (k = n.kind ∧ Y = X ∧ role' = role ∧ h' = h) ∨ Y ∈ s.record h' role' k := by
  by_cases hr : h' = h ∧ role' = role ∧ k = n.kind
  · obtain ⟨rfl, rfl, rfl⟩ := hr
    simp [enter, addRecord]
  · have : ¬ (k = n.kind ∧ Y = X ∧ role' = role ∧ h' = h) := fun ⟨h1, _, h3, h4⟩ => hr ⟨h4, h3, h1⟩
    simp [enter, addRecord, hr, this]

theorem mem_record_eraseHost (pair : RemoteHostPair) :
    Y ∈ (s.eraseHost n role X pair h).record h' role' k ↔
      Y ∈ s.record h' role' k ∧ ¬ (k = n.kind ∧ Y = X ∧ role' = role ∧ h' = h) := by
  by_cases hr : h' = h ∧ role' = role ∧ k = n.kind
  · obtain ⟨rfl, rfl, rfl⟩ := hr
    simp [eraseHost, and_comm]
  · have : ¬ (k = n.kind ∧ Y = X ∧ role' = role ∧ h' = h) := fun ⟨h1, _, h3, h4⟩ => hr ⟨h4, h3, h1⟩
    simp [eraseHost, hr, this]

@[simp]
theorem enter_out : (s.enter n role X h).out = s.out := rfl

@[simp]
theorem eraseHost_out (pair : RemoteHostPair) : (s.eraseHost n role X pair h).out = s.out := rfl

/-! ## Messages -/

/-- Puts `es`, latest first, on the output. -/
@[simps -fullyApplied]
def send (s : LocalRV) (es : List Emission) : LocalRV := { s with out := es ++ s.out }

theorem send_nil : s.send [] = s := rfl

theorem send_send (es' : List Emission) : (s.send es).send es' = s.send (es' ++ es) := by
  simp [send]

theorem send_shape (s : LocalRV) (es : List Emission) : s.SameShape (s.send es) :=
  ⟨fun _ _ => Iff.rfl, rfl⟩

@[simp]
theorem pairAt_send : (s.send es).pairAt n X = s.pairAt n X := rfl

/-- The message of `rendezvousItem`. -/
def currentMessage (s : LocalRV) (pub : Ptr) : Option Emission :=
  s.rendezvousMessage pub (s.allSubscribers pub)

theorem currentMessage_send (pub : Ptr) : (s.send es).currentMessage pub = s.currentMessage pub := rfl

theorem rendezvous_eq (pub : Ptr) (subscribers : Finset NodeId) :
    s.rendezvous pub subscribers = s.send (s.rendezvousMessage pub subscribers).toList := by
  unfold rendezvous
  cases s.rendezvousMessage pub subscribers <;> rfl

theorem rendezvousItem_eq (pub : Ptr) :
    s.rendezvousItem pub = s.send (s.currentMessage pub).toList := rendezvous_eq ..

theorem foldl_rendezvousItem (l : List Ptr) :
    l.foldl rendezvousItem s = s.send (l.filterMap s.currentMessage).reverse := by
  induction l generalizing s with
  | nil => rfl
  | cons p l ih =>
    have hcm : (s.send (s.currentMessage p).toList).currentMessage = s.currentMessage :=
      funext currentMessage_send
    rw [List.foldl_cons, ih, rendezvousItem_eq, hcm, send_send, List.filterMap_cons]
    cases s.currentMessage p <;> simp

theorem rendezvousItems_eq (sc : Ptr) : s.rendezvousItems sc =
    s.send ((s.informationitems sc).toList.filterMap s.currentMessage).reverse :=
  foldl_rendezvousItem _

/-- The message of `notifySubscribers`. -/
def notice (s : LocalRV) (event : ScopeEvent) (IDs : Finset Id) (strategy : Strategy)
    (subscribers : Finset NodeId) : Option Emission :=
  if strategy = nodeLocal then
    if s.nodeID ∈ subscribers then some (.scopeToProxy event IDs) else none
  else if subscribers = ∅ then none
  else some (.scopeToTM event IDs subscribers strategy)

theorem notifySubscribers_eq (event : ScopeEvent) (IDs : Finset Id) (strategy : Strategy)
    (subscribers : Finset NodeId) : s.notifySubscribers event IDs strategy subscribers =
      s.send (s.notice event IDs strategy subscribers).toList := by
  unfold notifySubscribers notice
  split <;> split <;> rfl

/-- The message of `notifySubscopes` about one subscope. -/
def subscopeNotice (s : LocalRV) (subscriber : NodeId) (subscope : Ptr) : Option Emission :=
  s.notice .scopePublished (s.getIDs (.scope subscope)) (s.strategy (.scope subscope)) {subscriber}

theorem foldl_notifySubscopes (subscriber : NodeId) (l : List Ptr) :
    l.foldl (fun s subscope => s.notifySubscribers .scopePublished (s.getIDs (.scope subscope))
      (s.strategy (.scope subscope)) {subscriber}) s =
      s.send (l.filterMap (s.subscopeNotice subscriber)).reverse := by
  induction l generalizing s with
  | nil => rfl
  | cons p l ih =>
    have hsn : ∀ es, (s.send es).subscopeNotice subscriber = s.subscopeNotice subscriber :=
      fun _ => rfl
    rw [List.foldl_cons, ih, notifySubscribers_eq, hsn, send_send, List.filterMap_cons]
    unfold subscopeNotice
    cases s.notice .scopePublished (s.getIDs (.scope p)) (s.strategy (.scope p)) {subscriber} <;>
      simp

theorem notifySubscopes_eq (sc : Ptr) (subscriber : NodeId) : s.notifySubscopes sc subscriber =
    s.send ((s.childrenScopes sc).toList.filterMap (s.subscopeNotice subscriber)).reverse :=
  foldl_notifySubscopes ..

end LocalRV

end Blackadder
