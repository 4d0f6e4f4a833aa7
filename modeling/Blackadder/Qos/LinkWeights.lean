import Blackadder.Lib.Runs
import Blackadder.Lib.Wire
import Blackadder.Qos.IIMetaCache

/-!
# Link weights by priority

The topology manager keeps a plane of link weights for each priority that a link has reported.
igraph numbers the edges by their places, and a plane has its weights in the same places.
-/

namespace Blackadder

open Wire (store)

/-- `MAX_PRIO`. -/
def maxPrio : UInt8 := 100

/-- `UCHAR_MAX`. -/
def ucharMax : UInt8 := 255

/-- An edge with its attributes. The identifier stands for its string and for its vector. -/
structure LinkEdge (V L : Type) where
  source : V
  target : V
  LID : L
  /-- `QoS_` and the key. A number that was never set is `none`. -/
  qos : QoSList

/-- What `updateLinkState` and `updateGraph` use of `TMIgraph`. -/
structure LinkGraph (V L : Type) where
  edges : List (LinkEdge V L)
  reverse_edge_index : L → Option Nat
  edge_LID : List L
  rmv_edge_lid : V × V → Option L
  qlwm : UInt8 → Option (List Int)

/-- `net`: an edge in each direction, or one edge. -/
inductive Net
  | e
  | o
  | other
deriving DecidableEq

namespace LinkGraph

variable {V L : Type} [DecidableEq L]

/-- The loops that fill `reverse_edge_index` and `edge_LID`. The first edge with an identifier
stays in the index. -/
def reindex (g : LinkGraph V L) : LinkGraph V L :=
  { g with
    reverse_edge_index := fun l => g.edges.findIdx? fun e => e.LID = l
    edge_LID := g.edges.map LinkEdge.LID }

/-- After `readTopology`. -/
def new (edges : List (LinkEdge V L)) : LinkGraph V L :=
  reindex ⟨edges, fun _ => none, [], fun _ => none, fun _ => none⟩

section

variable (nan : Nat → UInt8) (fresh : Nat → Int)

/-- `EAN` in a byte. `nan` is what comes of a number that was never set. -/
def edgePrio (eid : Nat) (e : LinkEdge V L) : UInt8 :=
  match e.qos qosPrio with
  | some v => UInt8.ofNat v.toNat
  | none => nan eid

/-- The weight is computed in a byte. -/
def planeWeight (map_prio ep : UInt8) : UInt8 := if map_prio ≥ ep then maxPrio - ep else ucharMax

/-- `none` stands for an access outside the graph or the plane. -/
def createNewQoSLinkPrioMap (g : LinkGraph V L) (map_prio : UInt8) : Option (LinkGraph V L) := do
  let data := (List.range g.edges.length).map fresh
  let data ← (List.range g.edge_LID.length).foldlM (fun data eid => do
    let e ← g.edges[eid]?
    store data eid ((planeWeight map_prio (edgePrio nan eid e)).toNat : Int)) data
  return { g with qlwm := Function.update g.qlwm map_prio (some data) }

/-- "Check that this link level exists". -/
def checkLevel (g : LinkGraph V L) (lp : UInt8) : Option (LinkGraph V L) :=
  if g.qlwm lp = none then g.createNewQoSLinkPrioMap nan fresh lp else some g

/-- `SETEAN` for each item of the status. -/
def setStatus (g : LinkGraph V L) (eid : Nat) (status : QoSList) : LinkGraph V L :=
  { g with edges := g.edges.modify eid fun e => { e with qos := fun k => (status k).or (e.qos k) } }

/-- The weight of an edge with this priority in a plane. -/
def linkWeight (p lp : UInt8) : Int := if p < lp then ucharMax.toNat else maxPrio.toNat - lp.toNat

/-- The last loop of `updateLinkState`. -/
def setWeights (g : LinkGraph V L) (eid : Nat) (lp : UInt8) : Option (LinkGraph V L) :=
  if (List.range 256).all fun p => (g.qlwm (UInt8.ofNat p)).all fun vec => eid < vec.length then
    some { g with qlwm := fun p => (g.qlwm p).map fun vec => vec.set eid (linkWeight p lp) }
  else none

def updateLinkState (g : LinkGraph V L) (lid : L) (status : QoSList) : Option (LinkGraph V L) := do
  -- `operator[]` enters 0 for an identifier that it does not have
  let eid := (g.reverse_edge_index lid).getD 0
  let g := { g with reverse_edge_index := Function.update g.reverse_edge_index lid (some eid) }
  if eid < g.edges.length then
    let g := g.setStatus eid status
    let v ← status qosPrio
    let lp := UInt8.ofNat v.toNat
    let g ← g.checkLevel nan fresh lp
    let vec ← g.qlwm lp
    if vec.length ≤ eid then return g
    else g.setWeights eid lp
  else none

end

section

variable [DecidableEq V]

/-- `igraph_get_eids` for one pair. -/
def getEid (g : LinkGraph V L) (pair : V × V) : Option Nat :=
  g.edges.findIdx? fun e => e.source = pair.1 ∧ e.target = pair.2

/-- `igraph_delete_edges` for these pairs, which `rmv_edge_lid` remembers. -/
def removeEdges (g : LinkGraph V L) (pairs : List (V × V)) : Option (LinkGraph V L) := do
  let eids ← pairs.mapM g.getEid
  let removed ← pairs.mapM fun pair => do
    let eid ← g.getEid pair
    let lid ← g.edge_LID[eid]?
    return (pair, lid)
  return { g with
    edges := (g.edges.zipIdx.filter fun e => e.2 ∉ eids).map Prod.fst
    rmv_edge_lid := removed.foldl
      (fun rmv e => Function.update rmv e.1 ((rmv e.1).or (some e.2))) g.rmv_edge_lid }

/-- `igraph_add_edge` for a removed edge. -/
def restoreEdge (g : LinkGraph V L) (pair : V × V) (lid : L) : LinkGraph V L :=
  { g with
    edges := g.edges ++ [⟨pair.1, pair.2, lid, QoSList.empty⟩]
    rmv_edge_lid := Function.update g.rmv_edge_lid pair none }

/-- `updateGraph` without the last loop. -/
def changeEdges (g : LinkGraph V L) (source destination : V) (net : Net) (update_op : Bool) :
    Option (LinkGraph V L) :=
  let there := (source, destination)
  let back := (destination, source)
  if update_op then
    match g.rmv_edge_lid there with
    | none => some g
    | some lid =>
      let g := g.restoreEdge there lid
      match net, g.rmv_edge_lid back with
      | .e, some lid => some (g.restoreEdge back lid)
      | _, _ => some g
  else
    match net with
    | .e =>
      if g.rmv_edge_lid there ≠ none ∨ g.rmv_edge_lid back ≠ none then some g
      else g.removeEdges [there, back]
    | .o => if g.rmv_edge_lid there ≠ none then some g else g.removeEdges [there]
    | .other => some g

def updateGraph (g : LinkGraph V L) (source destination : V) (net : Net) (update_op : Bool) :
    Option (LinkGraph V L) :=
  (g.changeEdges source destination net update_op).map reindex

end

/-! ## One report -/

variable {g g' : LinkGraph V L} {nan : Nat → UInt8} {fresh : Nat → Int} {lid : L} {status : QoSList}
  {e : LinkEdge V L} {i eid : Nat} {p lp : UInt8} {vec : List Int}

/-- The tables belong to the graph. -/
structure Indexed (g : LinkGraph V L) : Prop where
  index : ∀ l, g.reverse_edge_index l = g.edges.findIdx? fun e => e.LID = l
  edge_LID : g.edge_LID = g.edges.map LinkEdge.LID

theorem indexed_reindex (g : LinkGraph V L) : g.reindex.Indexed := ⟨fun _ => rfl, rfl⟩

/-- The edge in this place is the only one with the identifier. -/
structure Current (g : LinkGraph V L) (lid : L) (eid : Nat) : Prop where
  there : ∃ e, g.edges[eid]? = some e ∧ e.LID = lid
  only : ∀ i e, g.edges[i]? = some e → e.LID = lid → i = eid

theorem Current.index (h : g.Current lid eid) (hg : g.Indexed) :
    g.reverse_edge_index lid = some eid := by
  obtain ⟨e, he, hlid⟩ := h.there
  obtain ⟨hlt, hget⟩ := List.getElem?_eq_some_iff.mp he
  rw [hg.index, List.findIdx?_eq_some_iff_getElem]
  refine ⟨hlt, by simp [hget, hlid], fun j hj => ?_⟩
  have hj' : j < g.edges.length := by omega
  simp only [decide_eq_true_eq]
  intro hsame
  have hplace := h.only j _ (List.getElem?_eq_getElem hj') hsame
  omega

theorem createNewQoSLinkPrioMap_eq (nan : Nat → UInt8) (fresh : Nat → Int) (hg : g.Indexed) (p : UInt8) :
    ∃ data, g.createNewQoSLinkPrioMap nan fresh p =
        some { g with qlwm := Function.update g.qlwm p (some data) } ∧
      data.length = g.edges.length ∧ ∀ i e, g.edges[i]? = some e →
        data[i]? = some ((planeWeight p (edgePrio nan i e)).toNat : Int) := by
  have hlen : g.edge_LID.length = g.edges.length := by rw [hg.edge_LID, List.length_map]
  have hturn : ∀ i data, i < g.edges.length →
      (data.length = g.edges.length ∧ ∀ j e, j < i → g.edges[j]? = some e →
        data[j]? = some ((planeWeight p (edgePrio nan j e)).toNat : Int)) →
      ∃ data', (do
        let e ← g.edges[i]?
        store data i ((planeWeight p (edgePrio nan i e)).toNat : Int)) = some data' ∧
      data'.length = g.edges.length ∧ ∀ j e, j < i + 1 → g.edges[j]? = some e →
        data'[j]? = some ((planeWeight p (edgePrio nan j e)).toNat : Int) := by
    rintro i data hi ⟨hdata, hweights⟩
    have hlt : i < data.length := by omega
    refine ⟨data.set i ((planeWeight p (edgePrio nan i g.edges[i])).toNat : Int), ?_, ?_, ?_⟩
    · rw [List.getElem?_eq_getElem hi]
      exact Wire.store_set hlt
    · rw [List.length_set, hdata]
    · intro j e hj he
      rcases Nat.lt_succ_iff_lt_or_eq.mp hj with hj | rfl
      · rw [List.getElem?_set_ne (by omega)]
        exact hweights j e hj he
      · obtain ⟨-, rfl⟩ := List.getElem?_eq_some_iff.mp he
        rw [List.getElem?_set_self hlt]
  obtain ⟨data, hrun, hdata, hweights⟩ := Wire.foldlM_range
    (s := (List.range g.edges.length).map fresh) ⟨by simp, by simp⟩ hturn
  refine ⟨data, ?_, hdata, fun i e he => ?_⟩
  · unfold createNewQoSLinkPrioMap
    rw [hlen]
    dsimp only
    rw [hrun]
    rfl
  · exact hweights i e (List.getElem?_eq_some_iff.mp he).1 he

omit [DecidableEq L] in
theorem getElem?_setStatus : (g.setStatus eid status).edges[i]? =
    g.edges[i]?.map fun e => if eid = i then { e with qos := fun k => (status k).or (e.qos k) } else e := by
  rw [setStatus, List.getElem?_modify]
  rfl

omit [DecidableEq L] in
theorem map_LID_setStatus :
    (g.setStatus eid status).edges.map LinkEdge.LID = g.edges.map LinkEdge.LID := by
  refine List.ext_getElem? fun i => ?_
  rw [List.getElem?_map, List.getElem?_map, getElem?_setStatus, Option.map_map]
  congr 1
  funext e
  rw [Function.comp_apply]
  split <;> rfl

theorem findIdx?_LID (es : List (LinkEdge V L)) (l : L) :
    (es.findIdx? fun e => e.LID = l) = (es.map LinkEdge.LID).findIdx? fun l' => l' = l := by
  rw [List.findIdx?_map]
  rfl

theorem Indexed.setStatus (hg : g.Indexed) (eid : Nat) (status : QoSList) : (g.setStatus eid status).Indexed where
  index l := by
    rw [findIdx?_LID, map_LID_setStatus, ← findIdx?_LID]
    exact hg.index l
  edge_LID := by
    rw [map_LID_setStatus]
    exact hg.edge_LID

omit [DecidableEq L] in
@[simp]
theorem length_setStatus : (g.setStatus eid status).edges.length = g.edges.length := List.length_modify _ _ _

/-- The planes in which a report sets the weight of its edge. -/
structure Planes (nan : Nat → UInt8) (g : LinkGraph V L) (lp : UInt8)
    (planes : UInt8 → Option (List Int)) : Prop where
  old : ∀ p vec, g.qlwm p = some vec → planes p = some vec
  level : ∃ vec, planes lp = some vec
  new : ∀ p vec, planes p = some vec → g.qlwm p = some vec ∨
    p = lp ∧ vec.length = g.edges.length ∧ ∀ i e, g.edges[i]? = some e →
      vec[i]? = some ((planeWeight lp (edgePrio nan i e)).toNat : Int)

theorem exists_planes (nan : Nat → UInt8) (fresh : Nat → Int) (hg : g.Indexed) (lp : UInt8) :
    ∃ planes, Planes nan g lp planes ∧ g.checkLevel nan fresh lp = some { g with qlwm := planes } := by
  unfold checkLevel
  cases hlp : g.qlwm lp with
  | some vec => exact ⟨g.qlwm, ⟨fun _ _ h => h, ⟨vec, hlp⟩, fun _ _ h => Or.inl h⟩, by simp⟩
  | none =>
    obtain ⟨data, hrun, hlen, hweights⟩ := createNewQoSLinkPrioMap_eq nan fresh hg lp
    refine ⟨Function.update g.qlwm lp (some data), ⟨fun p vec h => ?_, ⟨data, ?_⟩, fun p vec h => ?_⟩, ?_⟩
    · have hne : p ≠ lp := by
        rintro rfl
        rw [hlp] at h
        cases h
      rwa [Function.update_of_ne hne]
    · exact Function.update_self _ _ _
    · by_cases hp : p = lp
      · subst hp
        rw [Function.update_self] at h
        obtain rfl := Option.some.inj h
        exact Or.inr ⟨rfl, hlen, hweights⟩
      · rw [Function.update_of_ne hp] at h
        exact Or.inl h
    · rw [if_pos rfl, hrun]

/-- The length of every plane is the number of edges. -/
def Sized (g : LinkGraph V L) : Prop := ∀ p vec, g.qlwm p = some vec → vec.length = g.edges.length

theorem updateLinkState_eq (nan : Nat → UInt8) (fresh : Nat → Int) (hg : g.Indexed) (hcur : g.Current lid eid)
    (hsize : g.Sized) {v : UInt16}
    (hprio : status qosPrio = some v) (hlp : UInt8.ofNat v.toNat = lp) :
    ∃ planes, Planes nan (g.setStatus eid status) lp planes ∧
      g.updateLinkState nan fresh lid status = some { g.setStatus eid status with
        qlwm := fun p => (planes p).map fun vec => vec.set eid (linkWeight p lp) } := by
  have hindex := hcur.index hg
  have hlt : eid < g.edges.length := by
    obtain ⟨e, he, -⟩ := hcur.there
    exact (List.getElem?_eq_some_iff.mp he).1
  have hentry : { g with reverse_edge_index := Function.update g.reverse_edge_index lid (some eid) } =
      g := by
    rw [← hindex, Function.update_eq_self]
  obtain ⟨planes, hplanes, hrun⟩ := exists_planes nan fresh (hg.setStatus eid status) lp
  refine ⟨planes, hplanes, ?_⟩
  have hlength : ∀ p vec, planes p = some vec → eid < vec.length := by
    intro p vec hvec
    rcases hplanes.new p vec hvec with hold | ⟨-, hnew, -⟩
    · rw [hsize p vec hold]
      exact hlt
    · rw [hnew, length_setStatus]
      exact hlt
  obtain ⟨vec, hvec⟩ := hplanes.level
  have hroom : ¬ vec.length ≤ eid := Nat.not_le.mpr (hlength lp vec hvec)
  have hall : ((List.range 256).all fun p => (planes (UInt8.ofNat p)).all fun vec => eid < vec.length) =
      true := by
    rw [List.all_eq_true]
    intro p _
    cases hp : planes (UInt8.ofNat p) with
    | none => rfl
    | some vec => simpa using hlength _ vec hp
  simp only [updateLinkState, hindex, Option.getD_some, hentry, if_pos hlt, hprio, hlp, hrun, hvec,
    if_neg hroom, setWeights, hall, if_true, Option.bind_eq_bind, Option.bind_some]

/-! ## Planes that agree with the reports -/

/-- The weight that a link with this last priority should have. -/
def dueWeight (p : UInt8) (lp : UInt16) : Int :=
  if p.toNat < lp.toNat then ucharMax.toNat else maxPrio.toNat - lp.toNat

/-- One weight for each edge, the due one for links that have reported, and none that is not positive. -/
structure PlaneAgrees (g : LinkGraph V L) (last : L → Option UInt16) (p : UInt8) (vec : List Int) :
    Prop where
  length : vec.length = g.edges.length
  weight : ∀ (i : Nat) (e : LinkEdge V L) lp, g.edges[i]? = some e → last e.LID = some lp →
    vec[i]? = some (dueWeight p lp)
  positive : ∀ w ∈ vec, 0 < w

def Agrees (g : LinkGraph V L) (last : L → Option UInt16) : Prop :=
  ∀ p vec, g.qlwm p = some vec → PlaneAgrees g last p vec

/-- What is kept between the calls. -/
structure Kept (g : LinkGraph V L) (last : L → Option UInt16) : Prop where
  indexed : g.Indexed
  /-- Without a plane there was no report. -/
  silent : (∀ p, g.qlwm p = none) → ∀ l, last l = none
  noted : ∀ e ∈ g.edges, ∀ lp, last e.LID = some lp → e.qos qosPrio = some lp
  low : ∀ l lp, last l = some lp → lp.toNat < maxPrio.toNat
  plane_low : ∀ p vec, g.qlwm p = some vec → p < maxPrio
  agrees : Agrees g last

variable {last : L → Option UInt16} {v : UInt16}

theorem toNat_low (h : v.toNat < maxPrio.toNat) : (UInt8.ofNat v.toNat).toNat = v.toNat := by
  rw [UInt8.toNat_ofNat']
  have hmax : maxPrio.toNat = 100 := rfl
  omega

theorem linkWeight_due (h : v.toNat < maxPrio.toNat) :
    linkWeight p (UInt8.ofNat v.toNat) = dueWeight p v := by
  simp only [linkWeight, dueWeight, UInt8.lt_iff_toNat_lt, toNat_low h]

theorem dueWeight_pos (h : v.toNat < maxPrio.toNat) : 0 < dueWeight p v := by
  unfold dueWeight
  split
  · decide
  · omega

/-- The byte does not run over in a plane below the maximum. -/
theorem planeWeight_pos {ep : UInt8} (hp : p < maxPrio) : 0 < (planeWeight p ep).toNat := by
  unfold planeWeight
  split
  · next hep =>
    have hlt : ep < maxPrio := UInt8.lt_of_le_of_lt hep hp
    rw [UInt8.toNat_sub_of_le _ _ (UInt8.le_of_lt hlt)]
    have hlt' := UInt8.lt_iff_toNat_lt.mp hlt
    omega
  · decide

theorem planeWeight_due (h : v.toNat < maxPrio.toNat) :
    ((planeWeight p (UInt8.ofNat v.toNat)).toNat : Int) = dueWeight p v := by
  have hv := toNat_low h
  unfold planeWeight dueWeight
  by_cases hp : p.toNat < v.toNat
  · have hnot : ¬ UInt8.ofNat v.toNat ≤ p := by
      rw [UInt8.le_iff_toNat_le, hv]
      omega
    rw [if_pos hp, if_neg hnot]
  · have hle : UInt8.ofNat v.toNat ≤ p := by
      rw [UInt8.le_iff_toNat_le, hv]
      omega
    have hmax : UInt8.ofNat v.toNat ≤ maxPrio := by
      rw [UInt8.le_iff_toNat_le, hv]
      omega
    rw [if_neg hp, if_pos hle, UInt8.toNat_sub_of_le _ _ hmax, hv]
    omega

/-- A plane that agrees with the other links, before the weight of the reporting one is set. -/
structure PlaneReady (g : LinkGraph V L) (last : L → Option UInt16) (eid : Nat) (p : UInt8)
    (vec : List Int) : Prop where
  length : vec.length = g.edges.length
  weight : ∀ i (e : LinkEdge V L) lp, i ≠ eid → g.edges[i]? = some e → last e.LID = some lp →
    vec[i]? = some (dueWeight p lp)
  positive : ∀ w ∈ vec, 0 < w

theorem PlaneReady.set (h : PlaneReady g last eid p vec) (hcur : g.Current lid eid)
    (hlow : v.toNat < maxPrio.toNat) :
    PlaneAgrees g (Function.update last lid (some v)) p (vec.set eid (dueWeight p v)) where
  length := by rw [List.length_set, h.length]
  weight i e lp he hlast := by
    by_cases hi : i = eid
    · subst hi
      obtain ⟨e', he', hlid⟩ := hcur.there
      obtain rfl := Option.some.inj (he'.symm.trans he)
      rw [hlid, Function.update_self] at hlast
      obtain rfl := Option.some.inj hlast
      have hlt := (List.getElem?_eq_some_iff.mp he).1
      rw [List.getElem?_set_self (by rw [h.length]; exact hlt)]
    · have hother : e.LID ≠ lid := fun hlid => hi (hcur.only i e he hlid)
      rw [Function.update_of_ne hother] at hlast
      rw [List.getElem?_set_ne (Ne.symm hi)]
      exact h.weight i e lp hi he hlast
  positive w hw := by
    rcases List.mem_or_eq_of_mem_set hw with hw | rfl
    · exact h.positive w hw
    · exact dueWeight_pos hlow

omit [DecidableEq L] in
theorem setStatus_other (hi : i ≠ eid) : (g.setStatus eid status).edges[i]? = g.edges[i]? := by
  rw [getElem?_setStatus]
  cases g.edges[i]? with
  | none => rfl
  | some e => rw [Option.map_some, if_neg (Ne.symm hi)]

omit [DecidableEq L] in
theorem Current.setStatus (h : g.Current lid eid) : (g.setStatus eid status).Current lid eid := by
  have hLID : ∀ (i : Nat) (e : LinkEdge V L), (g.setStatus eid status).edges[i]? = some e →
      ∃ e', g.edges[i]? = some e' ∧ e'.LID = e.LID := by
    intro i e he
    rw [getElem?_setStatus] at he
    obtain ⟨e', he', rfl⟩ := Option.map_eq_some_iff.mp he
    refine ⟨e', he', ?_⟩
    split <;> rfl
  refine ⟨?_, fun i e he hlid => ?_⟩
  · obtain ⟨e, he, hlid⟩ := h.there
    refine ⟨{ e with qos := fun k => (status k).or (e.qos k) }, ?_, hlid⟩
    rw [getElem?_setStatus, he, Option.map_some, if_pos rfl]
  · obtain ⟨e', he', hsame⟩ := hLID i e he
    exact h.only i e' he' (hsame.trans hlid)

theorem planeReady (h : Kept g last) (hlp : lp < maxPrio) {planes : UInt8 → Option (List Int)}
    (hplanes : Planes nan (g.setStatus eid status) lp planes) (hvec : planes p = some vec) :
    p < maxPrio ∧ PlaneReady (g.setStatus eid status) last eid p vec := by
  rcases hplanes.new p vec hvec with hold | ⟨rfl, hlen, hweights⟩
  · have hagree := h.agrees p vec hold
    refine ⟨h.plane_low p vec hold, ⟨?_, fun i e lq hi he hlast => ?_, hagree.positive⟩⟩
    · rw [length_setStatus, hagree.length]
    · rw [setStatus_other hi] at he
      exact hagree.weight i e lq he hlast
  · refine ⟨hlp, ⟨hlen, fun i e lq hi he hlast => ?_, fun w hw => ?_⟩⟩
    · rw [hweights i e he]
      rw [setStatus_other hi] at he
      have hnoted := h.noted e (List.mem_of_getElem? he) lq hlast
      rw [edgePrio, hnoted, planeWeight_due (h.low _ _ hlast)]
    · obtain ⟨i, hi⟩ := List.getElem?_of_mem hw
      have hlt : i < (g.setStatus eid status).edges.length := by
        rw [← hlen]
        exact (List.getElem?_eq_some_iff.mp hi).1
      have hweight := hweights i _ (List.getElem?_eq_getElem hlt)
      obtain rfl := Option.some.inj (hi.symm.trans hweight)
      exact Int.natCast_pos.mpr (planeWeight_pos hlp)

theorem Kept.report (nan : Nat → UInt8) (fresh : Nat → Int) (h : Kept g last) (hcur : g.Current lid eid)
    (hprio : status qosPrio = some v)
    (hlow : v.toNat < maxPrio.toNat) : ∃ g', g.updateLinkState nan fresh lid status = some g' ∧
      Kept g' (Function.update last lid (some v)) := by
  have hsize : g.Sized := fun p vec hvec => (h.agrees p vec hvec).length
  have hlp : UInt8.ofNat v.toNat < maxPrio := by
    rw [UInt8.lt_iff_toNat_lt, toNat_low hlow]
    exact hlow
  obtain ⟨planes, hplanes, hrun⟩ := updateLinkState_eq nan fresh h.indexed hcur hsize hprio rfl
  have hcur' : (g.setStatus eid status).Current lid eid := hcur.setStatus
  have hset : ∀ p vec', ((planes p).map fun vec => vec.set eid (linkWeight p (UInt8.ofNat v.toNat))) =
      some vec' → ∃ vec, planes p = some vec ∧ vec' = vec.set eid (dueWeight p v) := by
    intro p vec' hvec'
    obtain ⟨vec, hvec, rfl⟩ := Option.map_eq_some_iff.mp hvec'
    exact ⟨vec, hvec, by rw [linkWeight_due hlow]⟩
  refine ⟨_, hrun, ⟨(h.indexed.setStatus eid status).1, (h.indexed.setStatus eid status).2⟩, fun hnone => ?_,
    fun e he lq hlast => ?_,
    fun l lq hlast => ?_, fun p vec' hvec' => ?_, fun p vec' hvec' => ?_⟩
  · obtain ⟨vec, hvec⟩ := hplanes.level
    have habsurd := hnone (UInt8.ofNat v.toNat)
    dsimp only at habsurd
    rw [hvec] at habsurd
    cases habsurd
  · obtain ⟨i, hi⟩ := List.getElem?_of_mem he
    by_cases hplace : i = eid
    · subst hplace
      obtain ⟨e', he', hlid⟩ := hcur'.there
      obtain rfl := Option.some.inj (he'.symm.trans hi)
      rw [hlid, Function.update_self] at hlast
      obtain rfl := Option.some.inj hlast
      rw [getElem?_setStatus] at hi
      obtain ⟨e₀, -, rfl⟩ := Option.map_eq_some_iff.mp hi
      simp [hprio]
    · have hother : e.LID ≠ lid := fun hlid => hplace (hcur'.only i e hi hlid)
      rw [Function.update_of_ne hother] at hlast
      rw [setStatus_other hplace] at hi
      exact h.noted e (List.mem_of_getElem? hi) lq hlast
  · by_cases hl : l = lid
    · subst hl
      rw [Function.update_self] at hlast
      obtain rfl := Option.some.inj hlast
      exact hlow
    · rw [Function.update_of_ne hl] at hlast
      exact h.low l lq hlast
  · obtain ⟨vec, hvec, -⟩ := hset p vec' hvec'
    exact (planeReady h hlp hplanes hvec).1
  · obtain ⟨vec, hvec, rfl⟩ := hset p vec' hvec'
    have hagree := (planeReady h hlp hplanes hvec).2.set hcur' hlow
    exact ⟨hagree.length, hagree.weight, hagree.positive⟩

/-! ## Changes of the graph -/

section

variable [DecidableEq V] {source destination : V} {net : Net} {update_op : Bool}

/-- The call adds or removes edges: it adds what is remembered, and removes what is not. -/
def Changes (g : LinkGraph V L) (source destination : V) (net : Net) (update_op : Bool) : Prop :=
  if update_op then g.rmv_edge_lid (source, destination) ≠ none
  else
    match net with
    | .e => g.rmv_edge_lid (source, destination) = none ∧ g.rmv_edge_lid (destination, source) = none
    | .o => g.rmv_edge_lid (source, destination) = none
    | .other => False

omit [DecidableEq L] in
theorem changeEdges_idle (h : ¬ g.Changes source destination net update_op) :
    g.changeEdges source destination net update_op = some g := by
  unfold Changes at h
  unfold changeEdges
  cases update_op with
  | true =>
    have hnone : g.rmv_edge_lid (source, destination) = none := by simpa using h
    simp [hnone]
  | false =>
    cases net with
    | e =>
      have hsome : g.rmv_edge_lid (source, destination) ≠ none ∨
          g.rmv_edge_lid (destination, source) ≠ none := by
        by_contra hno
        rw [not_or, not_not, not_not] at hno
        exact h hno
      simp only [if_pos hsome, Bool.false_eq_true, if_false]
    | o =>
      have hsome : g.rmv_edge_lid (source, destination) ≠ none := h
      simp only [if_pos hsome, Bool.false_eq_true, if_false]
    | other => rfl

omit [DecidableEq L] in
theorem qlwm_removeEdges {pairs : List (V × V)} (h : g.removeEdges pairs = some g') :
    g'.qlwm = g.qlwm := by
  unfold removeEdges at h
  obtain ⟨eids, -, h⟩ := Option.bind_eq_some_iff.mp h
  obtain ⟨removed, -, h⟩ := Option.bind_eq_some_iff.mp h
  obtain rfl := Option.some.inj h
  rfl

omit [DecidableEq L] in
/-- No change of the graph reaches the planes. -/
theorem qlwm_changeEdges (h : g.changeEdges source destination net update_op = some g') :
    g'.qlwm = g.qlwm := by
  unfold changeEdges at h
  cases update_op with
  | true =>
    simp only [if_true] at h
    split at h
    · obtain rfl := Option.some.inj h
      rfl
    · split at h <;> obtain rfl := Option.some.inj h <;> rfl
  | false =>
    simp only [Bool.false_eq_true, if_false] at h
    split at h
    · split at h
      · obtain rfl := Option.some.inj h
        rfl
      · exact qlwm_removeEdges h
    · split at h
      · obtain rfl := Option.some.inj h
        rfl
      · exact qlwm_removeEdges h
    · obtain rfl := Option.some.inj h
      rfl

/-- A change of the graph before the first report, or a call that changes nothing. -/
theorem Kept.change (h : Kept g last)
    (hcare : (∀ p, g.qlwm p = none) ∨ ¬ g.Changes source destination net update_op)
    (hrun : g.updateGraph source destination net update_op = some g') : Kept g' last := by
  obtain ⟨g₁, hchange, rfl⟩ := Option.map_eq_some_iff.mp hrun
  rcases hcare with hnone | hidle
  · have hplanes : ∀ p, g₁.reindex.qlwm p = none := by
      intro p
      rw [← hnone p, ← qlwm_changeEdges hchange]
      rfl
    have hlast := h.silent hnone
    refine ⟨indexed_reindex _, fun _ => hlast, fun e _ lq hlq => ?_, h.low, fun p vec hvec => ?_,
      fun p vec hvec => ?_⟩
    · rw [hlast] at hlq
      cases hlq
    · rw [hplanes] at hvec
      cases hvec
    · rw [hplanes] at hvec
      cases hvec
  · obtain rfl := Option.some.inj ((changeEdges_idle hidle).symm.trans hchange)
    exact ⟨indexed_reindex _, h.silent, h.noted, h.low, h.plane_low,
      fun p vec hvec => ⟨(h.agrees p vec hvec).length, (h.agrees p vec hvec).weight,
        (h.agrees p vec hvec).positive⟩⟩

end

end LinkGraph

/-! ## Runs -/

inductive LinkCall (V L : Type)
  | updateLinkState (lid : L) (status : QoSList)
  | updateGraph (source destination : V) (net : Net) (update_op : Bool)

/-- The graph, and the last priority that was reported for a link. -/
structure LinkRun (V L : Type) where
  graph : LinkGraph V L
  last : L → Option UInt16

namespace LinkRun

open LinkGraph

variable {V L : Type} [DecidableEq V] [DecidableEq L] (nan : Nat → UInt8) (fresh : Nat → Int)

def new (edges : List (LinkEdge V L)) : LinkRun V L := ⟨.new edges, fun _ => none⟩

def next (x : LinkRun V L) : LinkCall V L → Option (LinkRun V L)
  | .updateLinkState lid status => do
    let graph ← x.graph.updateLinkState nan fresh lid status
    return ⟨graph, Function.update x.last lid (status qosPrio)⟩
  | .updateGraph source destination net update_op => do
    let graph ← x.graph.updateGraph source destination net update_op
    return ⟨graph, x.last⟩

/-- Reports have a priority, and they are about links of the topology. -/
def Allowed (x : LinkRun V L) : LinkCall V L → Prop
  | .updateLinkState lid status => status qosPrio ≠ none ∧
    ((∃ e ∈ x.graph.edges, e.LID = lid) ∨ ∃ pair, x.graph.rmv_edge_lid pair = some lid)
  | .updateGraph _ _ _ _ => True

def Step (x : LinkRun V L) (c : LinkCall V L) (x' : LinkRun V L) : Prop :=
  x.Allowed c ∧ x.next nan fresh c = some x'

/-- A report is about one current edge and has a priority below `MAX_PRIO`, and the graph changes only
while there is no plane. -/
def Careful (x : LinkRun V L) : LinkCall V L → Prop
  | .updateLinkState lid status => (∃ eid, x.graph.Current lid eid) ∧
    ∀ v, status qosPrio = some v → v.toNat < maxPrio.toNat
  | .updateGraph source destination net update_op => (∀ p, x.graph.qlwm p = none) ∨
    ¬ x.graph.Changes source destination net update_op

variable {nan fresh} {x x' : LinkRun V L} {c : LinkCall V L} {edges : List (LinkEdge V L)}

theorem kept_next (h : Kept x.graph x.last) (hcare : x.Careful c) (hstep : Step nan fresh x c x') :
    Kept x'.graph x'.last := by
  obtain ⟨hallowed, hnext⟩ := hstep
  cases c with
  | updateLinkState lid status =>
    obtain ⟨⟨eid, hcur⟩, hlow⟩ := hcare
    obtain ⟨v, hv⟩ := Option.ne_none_iff_exists'.mp hallowed.1
    obtain ⟨g', hrun, hkept⟩ := h.report nan fresh hcur hv (hlow v hv)
    simp only [next, hrun, hv, Option.bind_eq_bind, Option.bind_some] at hnext
    obtain rfl := Option.some.inj hnext
    exact hkept
  | updateGraph source destination net update_op =>
    obtain ⟨g', hrun, hnext⟩ := Option.bind_eq_some_iff.mp hnext
    obtain rfl := Option.some.inj hnext
    exact h.change hcare hrun

/-- When every call is careful, every plane agrees with the graph and the reports after every call,
and every report is carried out. -/
theorem planes_agree (h : Runs.Reachable (Runs.Guarded (Step nan fresh) Careful) (new edges) x) :
    x.graph.Agrees x.last ∧ ∀ lid status, status qosPrio ≠ none →
      x.Careful (.updateLinkState lid status) →
      ∃ x', x.next nan fresh (.updateLinkState lid status) = some x' := by
  have hstart : Kept (new edges).graph (new edges).last :=
    ⟨indexed_reindex _, fun _ _ => rfl, nofun, nofun, nofun, nofun⟩
  have hkept : Kept x.graph x.last := by
    refine h.invariant (I := fun x => Kept x.graph x.last) hstart ?_
    rintro x c x' - hkept ⟨hstep, hcare⟩
    exact kept_next hkept hcare hstep
  refine ⟨hkept.agrees, fun lid status hprio hcare => ?_⟩
  obtain ⟨⟨eid, hcur⟩, hlow⟩ := hcare
  obtain ⟨v, hv⟩ := Option.ne_none_iff_exists'.mp hprio
  obtain ⟨g', hrun, -⟩ := hkept.report nan fresh hcur hv (hlow v hv)
  refine ⟨⟨g', Function.update x.last lid (status qosPrio)⟩, ?_⟩
  simp only [next, hrun, Option.bind_eq_bind, Option.bind_some]
  rfl

/-- Two links in one direction, between three nodes. -/
def exampleEdges : List (LinkEdge Nat Nat) := [⟨1, 2, 10, QoSList.empty⟩, ⟨2, 3, 20, QoSList.empty⟩]

def prioStatus (v : UInt16) : QoSList := Function.update QoSList.empty qosPrio (some v)

/-- The first link is removed, and then the other one reports. -/
theorem planes_agree_removed : ∃ x : LinkRun Nat Nat, x.graph.Agrees x.last ∧ x.last 20 = some 30 := by
  let remove : LinkCall Nat Nat := .updateGraph 1 2 .o false
  let report : LinkCall Nat Nat := .updateLinkState 20 (prioStatus 30)
  obtain ⟨x₁, h₁⟩ : ∃ x₁, (new exampleEdges).next (fun _ => 0) (fun _ => 0) remove = some x₁ :=
    ⟨_, rfl⟩
  have hremove : Runs.Guarded (Step (fun _ => 0) (fun _ => 0)) Careful (new exampleEdges) remove x₁ :=
    ⟨⟨trivial, h₁⟩, Or.inl fun _ => rfl⟩
  have hcur : x₁.graph.Current 20 0 := by
    obtain rfl := Option.some.inj h₁
    refine ⟨⟨_, rfl, rfl⟩, fun i e he _ => ?_⟩
    have hlt := (List.getElem?_eq_some_iff.mp he).1
    exact Nat.lt_one_iff.mp hlt
  have hcare : x₁.Careful report := by
    refine ⟨⟨0, hcur⟩, fun v hv => ?_⟩
    obtain rfl := Option.some.inj hv
    decide
  have hrun : Runs.Reachable (Runs.Guarded (Step (fun _ => 0) (fun _ => 0)) Careful)
      (new exampleEdges) x₁ := Runs.Reachable.start.next hremove
  obtain ⟨x₂, h₂⟩ := (planes_agree hrun).2 20 (prioStatus 30) (by decide) hcare
  have hallowed : x₁.Allowed report := by
    obtain ⟨e, he, hlid⟩ := hcur.there
    exact ⟨by decide, Or.inl ⟨e, List.mem_of_getElem? he, hlid⟩⟩
  refine ⟨x₂, (planes_agree (hrun.next ⟨⟨hallowed, h₂⟩, hcare⟩)).1, ?_⟩
  obtain ⟨g, -, h₂⟩ := Option.bind_eq_some_iff.mp h₂
  obtain rfl := Option.some.inj h₂
  rfl

/-- A link reports, and then the other one is removed: the plane keeps two places. -/
theorem not_agrees : ∃ x : LinkRun Nat Nat,
    Runs.Reachable (Step (fun _ => 0) (fun _ => 0)) (new exampleEdges) x ∧
      ¬ x.graph.Agrees x.last := by
  let report : LinkCall Nat Nat := .updateLinkState 20 (prioStatus 30)
  let remove : LinkCall Nat Nat := .updateGraph 1 2 .o false
  have hplane : (((new exampleEdges).next (fun _ => 0) (fun _ => 0) report).bind fun x =>
      (x.next (fun _ => 0) (fun _ => 0) remove).bind fun x =>
        (x.graph.qlwm 30).map fun vec => (vec.length, x.graph.edges.length)) = some (2, 1) := by
    decide +kernel
  obtain ⟨x₁, h₁, hplane⟩ := Option.bind_eq_some_iff.mp hplane
  obtain ⟨x₂, h₂, hplane⟩ := Option.bind_eq_some_iff.mp hplane
  obtain ⟨vec, hvec, hlen⟩ := Option.map_eq_some_iff.mp hplane
  have hreport : Step (fun _ => 0) (fun _ => 0) (new exampleEdges) report x₁ :=
    ⟨⟨by decide, Or.inl ⟨_, List.mem_cons_of_mem _ List.mem_cons_self, rfl⟩⟩, h₁⟩
  have hremove : Step (fun _ => 0) (fun _ => 0) x₁ remove x₂ := ⟨trivial, h₂⟩
  refine ⟨x₂, (Runs.Reachable.start.next hreport).next hremove, fun hagrees => ?_⟩
  have hlength := (hagrees 30 vec hvec).length
  rw [Prod.mk.injEq] at hlen
  omega

end LinkRun

end Blackadder
