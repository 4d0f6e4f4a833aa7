import Mathlib.Data.List.AList
import Mathlib.Tactic.Common
import Blackadder.Rendezvous.Detach

/-!
# What a successful request does

`Entered` and `Left` list all ways in which one host enters or leaves one pair, with the
change of the graph that comes with it and the messages that are sent.
-/

namespace Blackadder

namespace LocalRV

/-- The messages of a registration at a node that was there before. -/
def entryMessages (s : LocalRV) (n : Node) (role : Role) (h : NodeId) : List Emission :=
  match n.kind, role with
  | .scope, .publisher => []
  | .scope, .subscriber =>
    ((s.informationitems n.ptr).toList.filterMap s.currentMessage).reverse ++
      ((s.childrenScopes n.ptr).toList.filterMap (s.subscopeNotice h)).reverse
  | .item, _ => (s.currentMessage n.ptr).toList

/-- The message of a new item. Only its one father is asked for subscribers. -/
def newItemMessages (s : LocalRV) (p f : Ptr) : Role → List Emission
  | .publisher =>
    (s.rendezvousMessage p (s.getSubscribers (.item p) ∪ s.getSubscribers (.scope f))).toList
  | .subscriber => []

def publicationNotice (s : LocalRV) (sc f : Ptr) (IDs : Finset Id) : List Emission :=
  (s.notice .scopePublished IDs (s.strategy (.scope sc)) (s.getSubscribers (.scope f))).toList

/-- A host enters the pair of `X` at a node. -/
inductive Entered (s : LocalRV) (h : NodeId) : Node → Role → Id → LocalRV → Prop
  | existing {n : Node} {role : Role} {X : Id} (hX : X ∈ s.ids n)
      (hh : ¬ h ∈ s.pairAt n X role) :
      Entered s h n role X
        ((s.enter n role X h).send ((s.enter n role X h).entryMessages n role h))
  | root {role : Role} {X : Id} {s₁ : LocalRV} (ha : s.Attached (.scope s.next) none s₁)
      (hX : X ∈ s₁.ids (.scope s.next)) :
      Entered s h (.scope s.next) role X (s₁.enter (.scope s.next) role X h)
  | newScope {role : Role} {X : Id} {f : Ptr} {s₁ t : LocalRV}
      (hP : fatherOf X ∈ s.ids (.scope f)) (ha : s.Attached (.scope s.next) (some f) s₁)
      (hX : X ∈ s₁.ids (.scope s.next)) (ht : t = s₁.enter (.scope s.next) role X h)
      (hst : s₁.strategy (.scope s.next) = s.strategy (.scope f)) :
      Entered s h (.scope s.next) role X
        (t.send (t.publicationNotice s.next f (t.getIDs (.scope s.next))))
  | linkedScope {sc f : Ptr} {X E : Id} {s₁ t : LocalRV} (hE : E ∈ s.ids (.scope sc))
      (hP : fatherOf X ∈ s.ids (.scope f)) (ha : s.Attached (.scope sc) (some f) s₁) (hnew : ¬ X ∈ s.ids (.scope sc))
      (hX : X ∈ s₁.ids (.scope sc)) (ht : t = s₁.enter (.scope sc) .publisher X h) :
      Entered s h (.scope sc) .publisher X
        (t.send (t.publicationNotice sc f ((t.getIDs (.scope sc)).erase E)))
  | newItem {role : Role} {X : Id} {f : Ptr} {s₁ t : LocalRV}
      (hP : fatherOf X ∈ s.ids (.scope f)) (ha : s.Attached (.item s.next) (some f) s₁)
      (hX : X ∈ s₁.ids (.item s.next)) (ht : t = s₁.enter (.item s.next) role X h)
      (hst : s₁.strategy (.item s.next) = s.strategy (.scope f)) :
      Entered s h (.item s.next) role X (t.send (t.newItemMessages s.next f role))
  | linkedItem {p f : Ptr} {X : Id} {s₁ t : LocalRV} (hE : ∃ E, E ∈ s.ids (.item p))
      (hP : fatherOf X ∈ s.ids (.scope f)) (ha : s.Attached (.item p) (some f) s₁) (hnew : ¬ X ∈ s.ids (.item p))
      (hX : X ∈ s₁.ids (.item p)) (ht : t = s₁.enter (.item p) .publisher X h) :
      Entered s h (.item p) .publisher X (t.send (t.currentMessage p).toList)

def withdrawalNotice (s : LocalRV) (sc : Ptr) (o : Option Ptr) (X : Id) : List Emission :=
  match o with
  | none => []
  | some f =>
    (s.notice .scopeUnpublished
      (if (s.fatherScopes (.scope sc)).size = 1 then s.getIDs (.scope sc)
        else (s.getIDs (.scope sc)).filter (· = X))
      (s.strategy (.scope sc)) (s.getSubscribers (.scope f))).toList

/-- A branch of a scope goes when the scope is childless and the branch is free. -/
inductive ScopePruned (s : LocalRV) (sc : Ptr) (o : Option Ptr) (X : Id) : LocalRV → Prop
  | kept (hu : s.Occupied (.scope sc) o ∨ ¬ s.Childless (.scope sc)) : ScopePruned s sc o X s
  | gone {s' : LocalRV} (hfree : ¬ s.Occupied (.scope sc) o) (hc : s.Childless (.scope sc))
      (hd : (s.send (s.withdrawalNotice sc o X)).Detached (.scope sc) o s') :
      ScopePruned s sc o X s'

/-- A branch of an item goes when it is free. -/
inductive ItemPruned (s : LocalRV) (p f : Ptr) : Role → LocalRV → Prop
  | unpublished (hu : s.Occupied (.item p) (some f)) :
      ItemPruned s p f .publisher (s.send (s.currentMessage p).toList)
  | deleted {s' : LocalRV} (hfree : ¬ s.Occupied (.item p) (some f))
      (hone : (s.fatherScopes (.item p)).size = 1) (hd : s.Detached (.item p) (some f) s') :
      ItemPruned s p f .publisher s'
  | cut {s' : LocalRV} (hfree : ¬ s.Occupied (.item p) (some f))
      (hmany : ¬ (s.fatherScopes (.item p)).size = 1) (hd : s.Detached (.item p) (some f) s') :
      ItemPruned s p f .publisher (s'.send (s'.currentMessage p).toList)
  | unsubscribed (hu : s.Occupied (.item p) (some f)) :
      ItemPruned s p f .subscriber (s.send (s.currentMessage p).toList)
  | dropped {s' : LocalRV} (hfree : ¬ s.Occupied (.item p) (some f))
      (hd : (s.send (s.currentMessage p).toList).Detached (.item p) (some f) s') :
      ItemPruned s p f .subscriber s'

/-- The messages before the deletion of a scope is tried. -/
def leaveMessages (s : LocalRV) (sc : Ptr) : Role → List Emission
  | .publisher => []
  | .subscriber => ((s.informationitems sc).toList.filterMap s.currentMessage).reverse

/-- A host leaves the pair of `X` at a node. -/
inductive Left (s : LocalRV) (h : NodeId) : Node → Role → Id → LocalRV → Prop
  | scope {sc : Ptr} {o : Option Ptr} {role : Role} {X : Id} {t s' : LocalRV}
      (hb : s.IsBranch (.scope sc) o) (hin : s.InBranch o X)
      (hh : h ∈ s.pairAt (.scope sc) X role)
      (ht : t = s.eraseHost (.scope sc) role X (s.pairAt (.scope sc) X) h)
      (hp : (t.send (t.leaveMessages sc role)).ScopePruned sc o X s') :
      Left s h (.scope sc) role X s'
  | item {p f : Ptr} {role : Role} {X : Id} {t s' : LocalRV}
      (hb : f ∈ s.fatherScopes (.item p)) (hin : s.InBranch (some f) X)
      (hh : h ∈ s.pairAt (.item p) X role)
      (ht : t = s.eraseHost (.item p) role X (s.pairAt (.item p) X) h)
      (hp : t.ItemPruned p f role s') :
      Left s h (.item p) role X s'

variable {s s' t : LocalRV} {lab : Node → Id} {n m : Node} {X Y : Id} {h h' : NodeId}
  {role role' : Role} {k : Kind} {o : Option Ptr} {f g p sc : Ptr} {es : List Emission}

/-! ## Pruning keeps the invariant, the pairs and the records -/

/-- What pruning can have done to the graph. -/
inductive Pruned (s : LocalRV) (n : Node) (o : Option Ptr) : LocalRV → Prop
  | kept (es : List Emission) (hu : s.Occupied n o ∨ ¬ s.Childless n) : Pruned s n o (s.send es)
  | gone (es es' : List Emission) {s' : LocalRV} (hfree : ¬ s.Occupied n o) (hc : s.Childless n)
      (hd : (s.send es).Detached n o s') : Pruned s n o (s'.send es')

theorem childless_item (s : LocalRV) (p : Ptr) : s.Childless (.item p) := fun h => by cases h

theorem ScopePruned.pruned (hp : s.ScopePruned sc o X s') : s.Pruned (.scope sc) o s' := by
  cases hp with
  | kept hu => exact Pruned.kept [] hu
  | gone hfree hc hd => exact Pruned.gone _ [] hfree hc hd

theorem ItemPruned.pruned (hp : s.ItemPruned p f role s') : s.Pruned (.item p) (some f) s' := by
  have hc := childless_item s p
  cases hp with
  | unpublished hu => exact .kept _ (Or.inl hu)
  | deleted hfree _ hd => exact Pruned.gone [] [] hfree hc hd
  | cut hfree _ hd => exact Pruned.gone [] _ hfree hc hd
  | unsubscribed hu => exact .kept _ (Or.inl hu)
  | dropped hfree hd => exact Pruned.gone _ [] hfree hc hd

theorem Pruned.inv (hp : s.Pruned n o s') (hs : s.Inv lab) : s'.Inv lab := by
  cases hp with
  | kept _ _ => exact (send_shape s _).inv hs
  | gone _ _ _ _ hd => exact (send_shape _ _).inv (hd.inv lab ((send_shape s _).inv hs))

theorem Pruned.pairAt (hp : s.Pruned n o s') : s'.pairAt m Y = s.pairAt m Y := by
  cases hp with
  | kept _ _ => rfl
  | gone _ _ _ _ hd => exact hd.pairAt m Y

theorem Pruned.record (hp : s.Pruned n o s') : s'.record = s.record := by
  cases hp with
  | kept _ _ => rfl
  | gone _ _ _ _ hd => exact hd.record

theorem Pruned.nodeID (hp : s.Pruned n o s') : s'.nodeID = s.nodeID := by
  cases hp with
  | kept _ _ => rfl
  | gone _ _ _ _ hd => exact hd.nodeID

/-- Other nodes keep their fathers and their ids. -/
theorem Pruned.fathers_of_ne (hp : s.Pruned n o s') (hm : m ≠ n) :
    f ∈ s'.fatherScopes m ↔ f ∈ s.fatherScopes m := by
  cases hp with
  | kept _ _ => rfl
  | gone _ _ _ _ hd =>
    refine (hd.fathers m f).trans ⟨And.left, fun hf => ⟨hf, fun hh => hm hh.1⟩⟩

theorem Pruned.mem_ids_of_ne (hp : s.Pruned n o s') (hm : m ≠ n) :
    Y ∈ s'.ids m ↔ Y ∈ s.ids m := by
  cases hp with
  | kept _ _ => rfl
  | gone _ _ _ _ hd =>
    refine (hd.mem_ids m Y).trans ⟨And.left, fun hf => ⟨hf, fun hh => hm hh.1⟩⟩

theorem Pruned.strategy (hp : s.Pruned n o s') : s'.strategy = s.strategy := by
  cases hp with
  | kept _ _ => rfl
  | gone _ _ _ _ hd => exact hd.strategy

theorem Pruned.isRoot (hp : s.Pruned n o s') : s'.isRoot = s.isRoot := by
  cases hp with
  | kept _ _ => rfl
  | gone _ _ _ _ hd => exact hd.isRoot

theorem Left.split (hl : s.Left h n role X s') : ∃ o es, s.IsBranch n o ∧ s.InBranch o X ∧
    h ∈ s.pairAt n X role ∧
    ((s.eraseHost n role X (s.pairAt n X) h).send es).Pruned n o s' := by
  cases hl with
  | scope hb hin hh ht hp =>
    subst ht
    exact ⟨_, _, hb, hin, hh, hp.pruned⟩
  | item hb hin hh ht hp =>
    subst ht
    exact ⟨some _, [], hb, hin, hh, hp.pruned⟩

theorem Left.inv (hl : s.Left h n role X s') (hs : s.Inv lab) : s'.Inv lab := by
  obtain ⟨o, es, -, -, hh, hp⟩ := hl.split
  exact hp.inv ((send_shape _ _).inv ((eraseHost_shape (mem_of_pairAt hh) _ _ _).inv hs))

theorem Left.fathers_of_ne (hl : s.Left h n role X s') (hm : m ≠ n) :
    f ∈ s'.fatherScopes m ↔ f ∈ s.fatherScopes m := by
  obtain ⟨o, es, -, -, -, hp⟩ := hl.split
  exact hp.fathers_of_ne hm

theorem Left.mem_ids_of_ne (hl : s.Left h n role X s') (hm : m ≠ n) :
    Y ∈ s'.ids m ↔ Y ∈ s.ids m := by
  obtain ⟨o, es, -, -, hh, hp⟩ := hl.split
  exact (hp.mem_ids_of_ne hm).trans ((eraseHost_shape (mem_of_pairAt hh) _ _ _).mem_ids m Y)

theorem Left.strategy (hl : s.Left h n role X s') : s'.strategy = s.strategy := by
  obtain ⟨o, es, -, -, -, hp⟩ := hl.split
  exact hp.strategy

theorem Left.nodeID (hl : s.Left h n role X s') : s'.nodeID = s.nodeID := by
  obtain ⟨o, es, -, -, -, hp⟩ := hl.split
  exact hp.nodeID

theorem Left.isRoot (hl : s.Left h n role X s') : s'.isRoot = s.isRoot := by
  obtain ⟨o, es, -, -, -, hp⟩ := hl.split
  exact hp.isRoot

/-- A departure only takes fathers and ids away. -/
theorem Left.fathers_sub (hl : s.Left h n role X s') (hf : f ∈ s'.fatherScopes m) :
    f ∈ s.fatherScopes m := by
  obtain ⟨o, es, -, -, -, hp⟩ := hl.split
  cases hp with
  | kept _ _ => exact hf
  | gone _ _ _ _ hd => exact ((hd.fathers m f).mp hf).1

theorem Left.mem_ids_sub (hl : s.Left h n role X s') (hY : Y ∈ s'.ids m) : Y ∈ s.ids m := by
  obtain ⟨o, es, -, -, hh, hp⟩ := hl.split
  refine ((eraseHost_shape (mem_of_pairAt hh) role (s.pairAt n X) h).mem_ids m Y).mp ?_
  cases hp with
  | kept _ _ => exact hY
  | gone _ _ _ _ hd => exact ((hd.mem_ids m Y).mp hY).1

theorem Left.mem_pairAt (hl : s.Left h n role X s') : h' ∈ s'.pairAt m Y role' ↔
    h' ∈ s.pairAt m Y role' ∧ ¬ (m = n ∧ Y = X ∧ role' = role ∧ h' = h) := by
  obtain ⟨o, es, -, -, -, hp⟩ := hl.split
  rw [hp.pairAt, pairAt_send]
  exact mem_pairAt_eraseHost

theorem Left.mem_record (hl : s.Left h n role X s') : Y ∈ s'.record h' role' k ↔
    Y ∈ s.record h' role' k ∧ ¬ (k = n.kind ∧ Y = X ∧ role' = role ∧ h' = h) := by
  obtain ⟨o, es, -, -, -, hp⟩ := hl.split
  rw [hp.record]
  exact mem_record_eraseHost _

/-! ## The common shape of all entries -/

/-- The graph of an entry: as it was, or with one more link. -/
inductive Placed (s : LocalRV) (n : Node) (X : Id) : LocalRV → Prop
  | existing (hX : X ∈ s.ids n) : Placed s n X s
  | attached {o : Option Ptr} {s₁ : LocalRV} (ha : s.Attached n o s₁) (hX : X ∈ s₁.ids n)
      (hin : s₁.InBranch o X) (hnew : ¬ X ∈ s.ids n) : Placed s n X s₁

theorem Placed.mem (hp : s.Placed n X t) : X ∈ t.ids n := by
  cases hp with
  | existing hX => exact hX
  | attached _ hX _ _ => exact hX

theorem Placed.inv (hp : s.Placed n X t) (hs : s.Inv lab) : ∃ lab, t.Inv lab := by
  cases hp with
  | existing _ => exact ⟨lab, hs⟩
  | attached ha _ _ _ => exact ha.inv

theorem Placed.pairAt (hp : s.Placed n X t) : t.pairAt m Y = s.pairAt m Y := by
  cases hp with
  | existing _ => rfl
  | attached ha _ _ _ => exact ha.pairAt m Y

theorem Placed.record (hp : s.Placed n X t) : t.record = s.record := by
  cases hp with
  | existing _ => rfl
  | attached ha _ _ _ => exact ha.record

theorem Placed.nodeID (hp : s.Placed n X t) : t.nodeID = s.nodeID := by
  cases hp with
  | existing _ => rfl
  | attached ha _ _ _ => exact ha.nodeID

theorem Placed.mono (hp : s.Placed n X t) (hY : Y ∈ s.ids m) : Y ∈ t.ids m := by
  cases hp with
  | existing _ => exact hY
  | attached ha _ _ _ => exact ha.mono m Y hY

theorem Placed.fathers_mono (hp : s.Placed n X t) (hf : f ∈ s.fatherScopes m) :
    f ∈ t.fatherScopes m := by
  cases hp with
  | existing _ => exact hf
  | attached ha _ _ _ => exact (ha.fathers m f).mpr (Or.inl hf)

/-- A new link is one under which the host enters. -/
theorem Placed.fathers (hp : s.Placed n X t) (hf : f ∈ t.fatherScopes m) :
    f ∈ s.fatherScopes m ∨ (m = n ∧ t.InBranch (some f) X) := by
  cases hp with
  | existing _ => exact Or.inl hf
  | attached ha _ hin _ =>
    refine ((ha.fathers m f).mp hf).imp_right ?_
    rintro ⟨rfl, rfl⟩
    exact ⟨rfl, hin⟩

/-- New ids lie below the node, so a root scope with new ids is the node. -/
theorem Placed.root (hp : s.Placed n X t) (hY : Y ∈ t.ids m) (hr : ∀ f, ¬ f ∈ t.fatherScopes m) :
    Y ∈ s.ids m ∨ m = n := by
  cases hp with
  | existing _ => exact Or.inl hY
  | attached ha _ _ _ =>
    refine (ha.only m Y hY).imp_right fun hu => ?_
    rcases Relation.ReflTransGen.cases_head hu with h | ⟨c, hc, -⟩
    · exact h
    · exact absurd hc.2 (hr c.ptr)

theorem Attached.inBranch (ha : s.Attached n (some f) t) (hP : fatherOf X ∈ s.ids (.scope f)) :
    t.InBranch (some f) X := by
  intro g hg
  rw [← Option.some.inj hg]
  exact ha.mono _ _ hP

theorem Entered.split (he : s.Entered h n role X s') (hs : s.Inv lab) : ∃ t es,
    s.Placed n X t ∧ ¬ h ∈ s.pairAt n X role ∧ s' = (t.enter n role X h).send es := by
  have hfresh : ∀ {k Y}, ¬ Y ∈ s.ids ⟨k, s.next⟩ := hs.fresh_ids
  have hnone : ∀ {t : LocalRV}, t.InBranch none X := fun f hf => nomatch hf
  cases he with
  | existing hX hh => exact ⟨s, _, .existing hX, hh, rfl⟩
  | root ha hX =>
    exact ⟨_, [], .attached ha hX hnone hfresh, fun hh => hfresh (mem_of_pairAt hh), rfl⟩
  | newScope hP ha hX ht =>
    exact ⟨_, _, .attached ha hX (ha.inBranch hP) hfresh, fun hh => hfresh (mem_of_pairAt hh),
      by rw [ht]⟩
  | linkedScope _ hP ha hnew hX ht =>
    exact ⟨_, _, .attached ha hX (ha.inBranch hP) hnew, fun hh => hnew (mem_of_pairAt hh),
      by rw [ht]⟩
  | newItem hP ha hX ht =>
    exact ⟨_, _, .attached ha hX (ha.inBranch hP) hfresh, fun hh => hfresh (mem_of_pairAt hh),
      by rw [ht]⟩
  | linkedItem _ hP ha hnew hX ht =>
    exact ⟨_, _, .attached ha hX (ha.inBranch hP) hnew, fun hh => hnew (mem_of_pairAt hh),
      by rw [ht]⟩

theorem Entered.inv (he : s.Entered h n role X s') (hs : s.Inv lab) : ∃ lab, s'.Inv lab := by
  obtain ⟨t, es, hp, -, rfl⟩ := he.split hs
  obtain ⟨lab', ht⟩ := hp.inv hs
  exact ⟨lab', (send_shape _ _).inv ((enter_shape hp.mem _ _).inv ht)⟩

theorem Entered.mem_pairAt (he : s.Entered h n role X s') (hs : s.Inv lab) :
    h' ∈ s'.pairAt m Y role' ↔
      (m = n ∧ Y = X ∧ role' = role ∧ h' = h) ∨ h' ∈ s.pairAt m Y role' := by
  obtain ⟨t, es, hp, -, rfl⟩ := he.split hs
  rw [pairAt_send, mem_pairAt_enter, hp.pairAt]

theorem Entered.mem_record (he : s.Entered h n role X s') (hs : s.Inv lab) :
    Y ∈ s'.record h' role' k ↔
      (k = n.kind ∧ Y = X ∧ role' = role ∧ h' = h) ∨ Y ∈ s.record h' role' k := by
  obtain ⟨t, es, hp, -, rfl⟩ := he.split hs
  rw [send_record, mem_record_enter, hp.record]

theorem Left.mem (hl : s.Left h n role X s') : h ∈ s.pairAt n X role := by
  obtain ⟨o, es, -, -, hh, -⟩ := hl.split
  exact hh

theorem Entered.mono (he : s.Entered h n role X s') (hs : s.Inv lab) (hY : Y ∈ s.ids m) :
    Y ∈ s'.ids m := by
  obtain ⟨t, es, hp, -, rfl⟩ := he.split hs
  exact ((enter_shape hp.mem _ _).mem_ids m Y).mpr (hp.mono hY)

/-- A branch of the new graph is an old one, or the host has entered it. -/
theorem Entered.isBranch (he : s.Entered h n role X s') (hs : s.Inv lab) (hb : s'.IsBranch m o)
    (hlive : ∃ Y, Y ∈ s'.ids m) :
    (s.IsBranch m o ∧ ∃ Y, Y ∈ s.ids m) ∨ (m = n ∧ s'.InBranch o X) := by
  obtain ⟨t, es, hp, -, rfl⟩ := he.split hs
  have hshape := enter_shape hp.mem role h
  cases o with
  | some f =>
    rcases hp.fathers hb with hf | ⟨rfl, hin⟩
    · exact Or.inl ⟨hf, hs.live hf⟩
    · exact Or.inr ⟨rfl, hshape.inBranch.mpr hin⟩
  | none =>
    obtain ⟨Y, hY⟩ := hlive
    rcases hp.root ((hshape.mem_ids m Y).mp hY) hb with hY | rfl
    · exact Or.inl ⟨fun f hf => hb f (hp.fathers_mono hf), Y, hY⟩
    · exact Or.inr ⟨rfl, fun f hf => nomatch hf⟩

end LocalRV

end Blackadder
