import Blackadder.Deployment.Parser
import Blackadder.Lib.Vouchers
import Mathlib.Algebra.BigOperators.Group.List.Basic

/-!
# Link identifiers

`draws` is what the calls to `rand` return. A loop that has not ended when they are used up is
still running.
-/

namespace Blackadder.Deployment

namespace Bitvector

/-- `a & b`. -/
def and (a b : Bitvector) : Bitvector := ⟨a.size, a.bits &&& b.bits.setWidth a.size⟩

/-- `a |= b`, where the lengths are the same. -/
def or (a b : Bitvector) : Bitvector := ⟨a.size, a.bits ||| b.bits.setWidth a.size⟩

/-- All bits of the identifiers in a list of vectors of length `n`. -/
def orAll (n : Nat) (S : List Bitvector) : Bitvector := S.foldl or (ofSize n)

/-- A vector with one bit. -/
def single (n i : Nat) : Bitvector := (ofSize n).setBit i

end Bitvector

/-- Why `assignLIDs` does not return. -/
inductive Stop
  /-- The draws are used up, or the length is 0 and `index / (fid_len * 8)` traps. -/
  | unfinished
  | outOfBounds
deriving DecidableEq, Repr

/-- `exists`. The entries that are not assigned yet are compared too. -/
def existsLID (LIDs : List Bitvector) (LID : Bitvector) : Bool := LIDs.any (· = LID)

/-- The inner loop of `calculateLID`. -/
def setRandomBits (bits : Nat) : Nat → Bitvector → List Nat → Option (Bitvector × List Nat)
  | 0, LID, draws => some (LID, draws)
  | _ + 1, _, [] => none
  | n + 1, LID, rand :: draws => setRandomBits bits n (LID.setBit (rand % bits)) draws

/-- `Domain::calculateLID`. Each turn of the loop takes at least one draw. -/
def calculateLID (dm : Domain) (LIDs : List Bitvector) (index : Nat) (draws : List Nat) :
    Except Stop (List Bitvector × List Nat) :=
  let bits := dm.fid_len * 8
  if bits = 0 then throw .unfinished
  else
    let number_of_bits := index / bits + 1
    match Vouchers.untilFresh (setRandomBits bits number_of_bits (.ofSize bits)) (existsLID LIDs)
      draws.length draws with
    | none => throw .unfinished
    | some (LID, draws) => pure (LIDs.set index LID, draws)

/-- How many identifiers are drawn. -/
def totalLIDs (dm : Domain) : Nat :=
  if dm.overlay_mode = "mac_ml" then dm.number_of_pl_nodes + dm.number_of_p_connections
  else dm.number_of_nodes + dm.number_of_connections

/-- The first loop of `assignLIDs`. -/
def calculateLIDs (dm : Domain) (draws : List Nat) : Except Stop (List Bitvector × List Nat) :=
  (List.range (totalLIDs dm)).foldlM (fun p i => calculateLID dm p.1 i p.2)
    (List.replicate (totalLIDs dm) .empty, draws)

/-- A connection takes the next identifier, in `mac_ml` only if it is a packet connection. -/
def assignConnection (dm : Domain) (LIDs : List Bitvector) (nc : NetworkConnection) (LIDCounter : Nat) :
    Option (NetworkConnection × Nat) :=
  if dm.overlay_mode = "mac_ml" ∧ nc.lnk_type ≠ "pp" then
    some ({ nc with LID := .ofSize (dm.fid_len * 8) }, LIDCounter)
  else LIDs[LIDCounter]?.map fun LID => ({ nc with LID := LID }, LIDCounter + 1)

/-- A node takes the next identifier, in `mac_ml` only if it is typed as a packet node. -/
def assignILid (dm : Domain) (LIDs : List Bitvector) (nn : NetworkNode) (LIDCounter : Nat) :
    Option (NetworkNode × Nat) :=
  if dm.overlay_mode = "mac_ml" ∧ nn.type ≠ "PN" then some (nn, LIDCounter)
  else LIDs[LIDCounter]?.map fun LID => ({ nn with iLid := LID }, LIDCounter + 1)

/-- One node, and then its connections. -/
def assignNode (dm : Domain) (LIDs : List Bitvector) (nn : NetworkNode) (LIDCounter : Nat) :
    Option (NetworkNode × Nat) :=
  (assignILid dm LIDs nn LIDCounter).bind fun (nn, LIDCounter) =>
    (Vouchers.loop (assignConnection dm LIDs) nn.connections LIDCounter).map
      fun (connections, LIDCounter) => ({ nn with connections := connections }, LIDCounter)

/-- The second loop of `assignLIDs`. -/
def assignNodes (dm : Domain) (LIDs : List Bitvector) : Option (List NetworkNode × Nat) :=
  Vouchers.loop (assignNode dm LIDs) dm.network_nodes 0

/-- `Domain::assignLIDs`. -/
def assignLIDs (dm : Domain) (draws : List Nat) : Except Stop Domain := do
  let (LIDs, _) ← calculateLIDs dm draws
  match assignNodes dm LIDs with
  | none => throw .outOfBounds
  | some (nodes, _) => pure { dm with network_nodes := nodes }

variable {dm dm' : Domain} {LIDs LIDs' : List Bitvector} {draws draws' : List Nat} {l v : Bitvector}
  {S : List Bitvector} {cfg : Config} {index bits n c c' i j : Nat} {id : BitVec 64}

/-! ## Vectors with one bit -/

namespace Bitvector

theorem single_eq (n j : Nat) : single n j = ⟨n, BitVec.twoPow n j⟩ := by
  have hor : (BitVec.ofNat n 0 ||| BitVec.twoPow n j) = BitVec.twoPow n j := BitVec.zero_or
  exact congrArg (Bitvector.mk n) hor

theorem getLsbD_single (hj : j < n) : (single n j).bits.getLsbD i = decide (i = j) := by
  rw [single_eq, BitVec.getLsbD_twoPow, decide_eq_true hj, Bool.true_and]
  exact decide_eq_decide.mpr eq_comm

theorem size_foldl_or (S : List Bitvector) (v : Bitvector) : (S.foldl or v).size = v.size := by
  induction S generalizing v with
  | nil => rfl
  | cons a S ih => exact (ih (v.or a)).trans rfl

theorem getLsbD_foldl_or (hi : i < v.size) :
    (S.foldl or v).bits.getLsbD i = true ↔
      v.bits.getLsbD i = true ∨ ∃ a ∈ S, a.bits.getLsbD i = true := by
  induction S generalizing v with
  | nil => simp
  | cons a S ih =>
    have hbit : (v.or a).bits.getLsbD i = (v.bits.getLsbD i || a.bits.getLsbD i) := by
      rw [or, BitVec.getLsbD_or, BitVec.getLsbD_setWidth, decide_eq_true hi, Bool.true_and]
    rw [List.foldl_cons, ih (v := v.or a) hi, hbit, Bool.or_eq_true, or_assoc]
    simp

theorem getLsbD_orAll (hi : i < n) :
    (orAll n S).bits.getLsbD i = true ↔ ∃ a ∈ S, a.bits.getLsbD i = true := by
  rw [orAll, getLsbD_foldl_or (v := ofSize n) hi]
  simp [ofSize]

theorem and_single_iff (hv : v.size = n) (hj : j < n) :
    v.and (single n j) = single n j ↔ v.bits.getLsbD j = true := by
  obtain ⟨size, x⟩ := v
  obtain rfl : size = n := hv
  rw [single_eq, and, BitVec.setWidth_eq, Bitvector.mk.injEq]
  simp only [heq_eq_eq, true_and]
  constructor
  · intro h
    have hbit := congrArg (BitVec.getLsbD · j) h
    simpa [hj] using hbit
  · intro h
    apply BitVec.eq_of_getLsbD_eq
    intro i _
    by_cases hij : j = i
    · simp [← hij, h]
    · simp [hij]

/-- No false positives among vectors with one bit. -/
theorem orAll_includes_iff (hS : ∀ a ∈ S, ∃ i < n, a = single n i) (hl : ∃ i < n, l = single n i) :
    (orAll n S).and l = l ↔ l ∈ S := by
  obtain ⟨j, hj, rfl⟩ := hl
  have hsize : (orAll n S).size = n := size_foldl_or S _
  rw [and_single_iff hsize hj, getLsbD_orAll hj]
  constructor
  · rintro ⟨a, ha, hbit⟩
    obtain ⟨i, hi, rfl⟩ := hS a ha
    rw [getLsbD_single hi, decide_eq_true_eq] at hbit
    rwa [hbit]
  · intro hmem
    exact ⟨_, hmem, by rw [getLsbD_single hj, decide_eq_true rfl]⟩

end Bitvector

/-! ## What is drawn -/

/-- A vector that `calculateLID` stores at `index`. -/
structure Drawn (bits index : Nat) (l : Bitvector) : Prop where
  size : l.size = bits
  nonzero : ¬ l.zero
  single : index < bits → ∃ i < bits, l = .single bits i

theorem setRandomBits_size {v : Bitvector} (h : setRandomBits bits n v draws = some (l, draws')) :
    l.size = v.size := by
  induction n generalizing v draws with
  | zero =>
    cases h
    rfl
  | succ n ih =>
    cases draws with
    | nil => cases h
    | cons rand draws => exact (ih (v := v.setBit (rand % bits)) h).trans rfl

theorem setRandomBits_nonzero {v : Bitvector} (h : setRandomBits bits n v draws = some (l, draws'))
    (hv : ¬ v.zero) : ¬ l.zero := by
  induction n generalizing v draws with
  | zero =>
    cases h
    exact hv
  | succ n ih =>
    cases draws with
    | nil => cases h
    | cons rand draws => exact ih h (Bitvector.nonzero_setBit hv)

theorem setRandomBits_drawn (hbits : 0 < bits)
    (h : setRandomBits bits (index / bits + 1) (.ofSize bits) draws = some (l, draws')) :
    Drawn bits index l := by
  cases draws with
  | nil => cases h
  | cons rand draws =>
    rw [setRandomBits] at h
    have hlt : rand % bits < bits := Nat.mod_lt _ hbits
    refine ⟨setRandomBits_size h, setRandomBits_nonzero h (Bitvector.not_zero_setBit hlt), ?_⟩
    intro hi
    rw [Nat.div_eq_of_lt hi] at h
    cases h
    exact ⟨_, hlt, rfl⟩

/-- One call. The entries that are not assigned yet have another length. -/
theorem calculateLID_spec {drawn : List Bitvector} {p : List Bitvector × List Nat}
    (h : calculateLID dm (drawn ++ List.replicate (n + 1) .empty) drawn.length draws = .ok p) :
    ∃ l, p.1 = (drawn ++ [l]) ++ List.replicate n .empty ∧ l ∉ drawn ∧
      Drawn (dm.fid_len * 8) drawn.length l := by
  unfold calculateLID at h
  dsimp only at h
  split at h
  · cases h
  · next hbits =>
    split at h
    · cases h
    · next LID rest hfresh =>
      obtain rfl := Loops.pure_eq_ok.mp h
      obtain ⟨hnew, r₀, hdraw⟩ := Vouchers.untilFresh_spec hfresh
      refine ⟨LID, ?_, ?_, setRandomBits_drawn (Nat.pos_of_ne_zero hbits) hdraw⟩
      · rw [List.set_append_right _ _ (Nat.le_refl _), Nat.sub_self, List.replicate_succ,
          List.set_cons_zero, List.append_assoc, List.singleton_append]
      · intro hmem
        have hany := List.any_eq_false.mp hnew LID (List.mem_append_left _ hmem)
        exact hany (decide_eq_true rfl)

/-- A table of `total` entries with the first calls made. -/
theorem foldlM_calculateLID {total : Nat} {p : List Bitvector × List Nat} (hn : n ≤ total)
    (h : (List.range n).foldlM (fun p i => calculateLID dm p.1 i p.2)
      (List.replicate total .empty, draws) = .ok p) :
    ∃ drawn : List Bitvector, p.1 = drawn ++ List.replicate (total - n) .empty ∧
      drawn.length = n ∧ drawn.Nodup ∧
      ∀ i l, drawn[i]? = some l → Drawn (dm.fid_len * 8) i l := by
  induction n generalizing p with
  | zero =>
    obtain rfl := Loops.pure_eq_ok.mp h
    exact ⟨[], rfl, rfl, .nil, by simp⟩
  | succ n ih =>
    rw [List.range_succ, List.foldlM_append, Loops.bind_eq_ok] at h
    obtain ⟨p₀, hp₀, hstep⟩ := h
    obtain ⟨drawn, hp, hlen, hnodup, hdrawn⟩ := ih (by omega) hp₀
    rw [List.foldlM_cons, Loops.bind_eq_ok] at hstep
    obtain ⟨p₁, hstep, hnil⟩ := hstep
    obtain rfl := Loops.pure_eq_ok.mp hnil
    rw [hp, show total - n = (total - (n + 1)) + 1 by omega, ← hlen] at hstep
    obtain ⟨l, hl, hnew, hspec⟩ := calculateLID_spec hstep
    refine ⟨drawn ++ [l], by rw [hl, hlen], by simp [hlen], ?_, ?_⟩
    · exact List.nodup_append.mpr ⟨hnodup, List.nodup_singleton l, by
        rintro a ha b hb rfl
        exact hnew (List.mem_singleton.mp hb ▸ ha)⟩
    · intro i a hi
      rw [List.getElem?_append] at hi
      split at hi
      · exact hdrawn i a hi
      · next hge =>
        obtain ⟨hlt, ha⟩ := List.getElem?_eq_some_iff.mp hi
        have hz : i = drawn.length := by
          simp only [List.length_singleton] at hlt
          omega
        rw [hz, ← ha]
        simpa [hz] using hspec

/-- The identifiers that are drawn: as many as were asked for, all new and all usable. -/
theorem calculateLIDs_spec (h : calculateLIDs dm draws = .ok (LIDs, draws')) :
    LIDs.length = totalLIDs dm ∧ LIDs.Nodup ∧
      ∀ i l, LIDs[i]? = some l → Drawn (dm.fid_len * 8) i l := by
  obtain ⟨drawn, hp, hlen, hnodup, hdrawn⟩ := foldlM_calculateLID (Nat.le_refl _) h
  rw [Nat.sub_self, List.replicate_zero, List.append_nil] at hp
  dsimp only at hp
  rw [hp]
  exact ⟨hlen, hnodup, hdrawn⟩

/-! ## What is handed out -/

/-- The identifier of a connection that takes one. -/
def connectionLIDs (overlay_mode : String) (nc : NetworkConnection) : List Bitvector :=
  if overlay_mode = "mac_ml" ∧ nc.lnk_type ≠ "pp" then [] else [nc.LID]

/-- The identifier of a node that takes one. -/
def ownLIDs (overlay_mode : String) (nn : NetworkNode) : List Bitvector :=
  if overlay_mode = "mac_ml" ∧ nn.type ≠ "PN" then [] else [nn.iLid]

/-- The identifiers of a node and its connections. -/
def nodeLIDs (overlay_mode : String) (nn : NetworkNode) : List Bitvector :=
  ownLIDs overlay_mode nn ++ nn.connections.flatMap (connectionLIDs overlay_mode)

/-- All identifiers of a domain that were taken from the table, in order. -/
def Domain.identifiers (dm : Domain) : List Bitvector :=
  dm.network_nodes.flatMap (nodeLIDs dm.overlay_mode)

/-- How many entries of the table a connection takes. -/
def connectionTakes (overlay_mode : String) (nc : NetworkConnection) : Nat :=
  if overlay_mode = "mac_ml" ∧ nc.lnk_type ≠ "pp" then 0 else 1

/-- How many a node takes without its connections. -/
def nodeTakes (overlay_mode : String) (nn : NetworkNode) : Nat :=
  if overlay_mode = "mac_ml" ∧ nn.type ≠ "PN" then 0 else 1

/-- The value of `LIDCounter` after both loops. -/
def Domain.LIDCounter (dm : Domain) : Nat :=
  (dm.network_nodes.map fun nn => nodeTakes dm.overlay_mode nn +
    (nn.connections.map (connectionTakes dm.overlay_mode)).sum).sum

theorem hands_assignConnection (dm : Domain) (LIDs : List Bitvector) (nc : NetworkConnection) :
    Vouchers.Hands LIDs (connectionTakes dm.overlay_mode nc) (assignConnection dm LIDs nc)
      (connectionLIDs dm.overlay_mode) := by
  unfold assignConnection connectionTakes
  by_cases h : dm.overlay_mode = "mac_ml" ∧ nc.lnk_type ≠ "pp"
  · simp only [if_pos h]
    exact .none _ (if_pos h)
  · simp only [if_neg h]
    exact .one fun LID => if_neg h

theorem hands_assignILid (dm : Domain) (LIDs : List Bitvector) (nn : NetworkNode) :
    Vouchers.Hands LIDs (nodeTakes dm.overlay_mode nn) (assignILid dm LIDs nn)
      (ownLIDs dm.overlay_mode) := by
  unfold assignILid nodeTakes
  by_cases h : dm.overlay_mode = "mac_ml" ∧ nn.type ≠ "PN"
  · simp only [if_pos h]
    exact .none _ (if_pos h)
  · simp only [if_neg h]
    exact .one fun LID => if_neg h

theorem assignILid_eq {nn nn' : NetworkNode} (h : assignILid dm LIDs nn c = some (nn', c')) :
    ∃ LID, nn' = { nn with iLid := LID } := by
  unfold assignILid at h
  split at h
  · cases h
    exact ⟨nn.iLid, rfl⟩
  · obtain ⟨LID, -, heq⟩ := Option.map_eq_some_iff.mp h
    cases heq
    exact ⟨LID, rfl⟩

theorem hands_assignNode (dm : Domain) (LIDs : List Bitvector) (nn : NetworkNode) :
    Vouchers.Hands LIDs (nodeTakes dm.overlay_mode nn +
        (nn.connections.map (connectionTakes dm.overlay_mode)).sum)
      (assignNode dm LIDs nn) (nodeLIDs dm.overlay_mode) := by
  have hconnections : ∀ c nn' c', assignILid dm LIDs nn c = some (nn', c') →
      Vouchers.Hands LIDs (nn.connections.map (connectionTakes dm.overlay_mode)).sum
        (fun c => (Vouchers.loop (assignConnection dm LIDs) nn'.connections c).map
          fun (connections, c) => ({ nn' with connections := connections }, c))
        (fun nn => nn.connections.flatMap (connectionLIDs dm.overlay_mode)) := by
    intro c nn' c' h
    obtain ⟨LID, rfl⟩ := assignILid_eq h
    have hloop := Vouchers.Hands.loop (hands_assignConnection dm LIDs) nn.connections
    refine Vouchers.Hands.map (g := fun connections =>
      { nn with iLid := LID, connections := connections }) hloop ?_
    intro connections
    rfl
  refine (hands_assignILid dm LIDs nn).seq hconnections ?_
  intro c nn' c' nn'' c'' h h'
  obtain ⟨⟨ncs, _⟩, -, heq⟩ := Option.map_eq_some_iff.mp h'
  cases heq
  rfl

theorem hands_assignNodes (dm : Domain) (LIDs : List Bitvector) :
    Vouchers.Hands LIDs dm.LIDCounter (Vouchers.loop (assignNode dm LIDs) dm.network_nodes)
      (·.flatMap (nodeLIDs dm.overlay_mode)) :=
  .loop (hands_assignNode dm LIDs) dm.network_nodes

theorem assignLIDs_cases (h : calculateLIDs dm draws = .ok (LIDs, draws')) :
    (totalLIDs dm < dm.LIDCounter ∧ assignLIDs dm draws = .error .outOfBounds) ∨
    (dm.LIDCounter ≤ totalLIDs dm ∧ ∃ nodes, assignNodes dm LIDs = some (nodes, dm.LIDCounter) ∧
      assignLIDs dm draws = .ok { dm with network_nodes := nodes } ∧
      ({ dm with network_nodes := nodes } : Domain).identifiers = LIDs.take dm.LIDCounter) := by
  obtain ⟨hlen, -, -⟩ := calculateLIDs_spec h
  have hands := hands_assignNodes dm LIDs
  by_cases hle : dm.LIDCounter ≤ totalLIDs dm
  · obtain ⟨nodes, hnodes⟩ := hands.total (c := 0) (by omega)
    rw [Nat.zero_add] at hnodes
    refine .inr ⟨hle, nodes, hnodes, ?_, (hands.taken hnodes).2.2⟩
    unfold assignLIDs
    rw [h]
    simp only [bind, Except.bind, assignNodes, hnodes]
    rfl
  · refine .inl ⟨by omega, ?_⟩
    have hnone : assignNodes dm LIDs = none := by
      by_contra hsome
      obtain ⟨⟨nodes, c⟩, hnodes⟩ := Option.ne_none_iff_exists'.mp hsome
      obtain ⟨hc, hle', -⟩ := hands.taken hnodes
      omega
    unfold assignLIDs
    rw [h]
    simp only [bind, Except.bind, hnone]
    rfl

theorem LIDCounter_eq (hmode : dm.overlay_mode ≠ "mac_ml") :
    dm.LIDCounter = dm.network_nodes.length + dm.connections.length := by
  have hone : ∀ nn : NetworkNode, nodeTakes dm.overlay_mode nn +
      (nn.connections.map (connectionTakes dm.overlay_mode)).sum = 1 + nn.connections.length := by
    intro nn
    have hc : ∀ nc ∈ nn.connections, connectionTakes dm.overlay_mode nc = 1 := by
      intro nc _
      exact if_neg fun h => hmode h.1
    rw [nodeTakes, if_neg fun h => hmode h.1, List.map_congr_left hc, List.map_const',
      List.sum_replicate_nat, Nat.mul_one]
  unfold Domain.LIDCounter Domain.connections
  rw [List.map_congr_left fun nn _ => hone nn, List.length_flatMap]
  induction dm.network_nodes with
  | nil => rfl
  | cons nn nns ih =>
    rw [List.map_cons, List.sum_cons, ih, List.length_cons, List.map_cons, List.sum_cons]
    omega

theorem sum_takes {α : Type*} (p : α → Prop) [DecidablePred p] (l : List α) :
    (l.map fun a => if ¬ p a then 0 else 1).sum = l.countP (p ·) := by
  induction l with
  | nil => rfl
  | cons a l ih =>
    rw [List.map_cons, List.sum_cons, ih, List.countP_cons]
    by_cases h : p a
    · simp [h, Nat.add_comm]
    · simp [h]

theorem LIDCounter_ml (hmode : dm.overlay_mode = "mac_ml") :
    dm.LIDCounter = dm.network_nodes.countP (·.type = "PN") +
      dm.connections.countP (·.lnk_type = "pp") := by
  have hnode : nodeTakes dm.overlay_mode = fun nn => if ¬ nn.type = "PN" then 0 else 1 := by
    funext nn
    simp [nodeTakes, hmode]
  have hconn : connectionTakes dm.overlay_mode = fun nc => if ¬ nc.lnk_type = "pp" then 0 else 1 := by
    funext nc
    simp [connectionTakes, hmode]
  unfold Domain.LIDCounter Domain.connections
  rw [hnode, hconn, List.countP_flatMap, ← sum_takes fun nn : NetworkNode => nn.type = "PN"]
  simp only [sum_takes fun nc : NetworkConnection => nc.lnk_type = "pp"]
  exact List.sum_map_add

/-- The same network, up to the identifiers. -/
def SameNetwork (nns nns' : List NetworkNode) : Prop :=
  List.Forall₂ (fun nn nn' : NetworkNode =>
    nn' = { nn with iLid := nn'.iLid, connections := nn'.connections } ∧
    List.Forall₂ (fun nc nc' : NetworkConnection => nc' = { nc with LID := nc'.LID })
      nn.connections nn'.connections) nns nns'

/-- Every connection went through `assignConnection`, and no node changed otherwise. -/
theorem assignNodes_forall₂ {nodes : List NetworkNode} (h : assignNodes dm LIDs = some (nodes, c)) :
    List.Forall₂ (fun nn nn' : NetworkNode =>
      nn' = { nn with iLid := nn'.iLid, connections := nn'.connections } ∧
      List.Forall₂ (fun nc nc' => ∃ c c', assignConnection dm LIDs nc c = some (nc', c'))
        nn.connections nn'.connections) dm.network_nodes nodes := by
  refine Vouchers.loop_forall₂ h ?_
  intro nn c nn' c' hnode
  obtain ⟨⟨nn₁, c₁⟩, hown, hloop⟩ := Option.bind_eq_some_iff.mp hnode
  obtain ⟨LID, rfl⟩ := assignILid_eq hown
  obtain ⟨⟨ncs, c₂⟩, hncs, heq⟩ := Option.map_eq_some_iff.mp hloop
  cases heq
  exact ⟨rfl, Vouchers.loop_forall₂ hncs fun nc c nc' c' hnc => ⟨c, c', hnc⟩⟩

theorem assignConnection_eq {nc nc' : NetworkConnection}
    (h : assignConnection dm LIDs nc c = some (nc', c')) : nc' = { nc with LID := nc'.LID } := by
  unfold assignConnection at h
  split at h
  · cases h
    rfl
  · obtain ⟨l, -, heq⟩ := Option.map_eq_some_iff.mp h
    cases heq
    rfl

theorem assignNodes_same {nodes : List NetworkNode} (h : assignNodes dm LIDs = some (nodes, c)) :
    SameNetwork dm.network_nodes nodes := by
  refine (assignNodes_forall₂ h).imp ?_
  rintro nn nn' ⟨hnn, hncs⟩
  exact ⟨hnn, hncs.imp fun nc nc' ⟨c, c', hnc⟩ => assignConnection_eq hnc⟩

/-- The identifiers of all nodes and of all connections. -/
def Domain.allLIDs (dm : Domain) : List Bitvector :=
  dm.network_nodes.flatMap fun nn => nn.iLid :: nn.connections.map (·.LID)

theorem identifiers_eq (hmode : dm.overlay_mode ≠ "mac_ml") : dm.identifiers = dm.allLIDs := by
  have hconn : connectionLIDs dm.overlay_mode = fun nc => [nc.LID] :=
    funext fun nc => if_neg fun h => hmode h.1
  have hnode : nodeLIDs dm.overlay_mode = fun nn => nn.iLid :: nn.connections.map (·.LID) := by
    funext nn
    rw [nodeLIDs, ownLIDs, if_neg fun h => hmode h.1, hconn, List.map_eq_flatMap,
      List.singleton_append]
  rw [Domain.identifiers, Domain.allLIDs, hnode]

/-- In a mode other than `mac_ml` `assignLIDs` returns when its draws do, and nothing collides.
With as many bits as identifiers there are no false positives. -/
theorem assignLIDs_distinct
    (h : buildNetworkDomain (.new id) cfg = .ok dm ∨ buildNS3NetworkDomain (.new id) cfg = .ok dm)
    (hmode : dm.overlay_mode ≠ "mac_ml") (hdraws : calculateLIDs dm draws = .ok (LIDs, draws')) :
    ∃ dm', assignLIDs dm draws = .ok dm' ∧ SameNetwork dm.network_nodes dm'.network_nodes ∧
      dm'.allLIDs.Nodup ∧ (∀ l ∈ dm'.allLIDs, l.size = dm.fid_len * 8 ∧ ¬ l.zero) ∧
      (dm.network_nodes.length + dm.connections.length ≤ dm.fid_len * 8 →
        (∀ l ∈ dm'.allLIDs, ∃ i < dm.fid_len * 8, l = .single (dm.fid_len * 8) i) ∧
        ∀ S : List Bitvector, (∀ a ∈ S, a ∈ dm'.allLIDs) → ∀ l ∈ dm'.allLIDs,
          (Bitvector.orAll (dm.fid_len * 8) S).and l = l ↔ l ∈ S) := by
  have hcount : Counted dm 0 := by
    rcases h with h | h
    · exact buildNetworkDomain_counted h hmode
    · exact (buildNS3NetworkDomain_counted h).1
  have htotal : totalLIDs dm = dm.LIDCounter := by
    rw [totalLIDs, if_neg hmode, LIDCounter_eq hmode, hcount.nodes, hcount.connections]
  obtain ⟨hlen, hnodup, hdrawn⟩ := calculateLIDs_spec hdraws
  rcases assignLIDs_cases hdraws with ⟨hlt, -⟩ | ⟨-, nodes, hnodes, hok, hids⟩
  · omega
  have hall : ({ dm with network_nodes := nodes } : Domain).allLIDs = LIDs := by
    have hids' : ({ dm with network_nodes := nodes } : Domain).identifiers =
        ({ dm with network_nodes := nodes } : Domain).allLIDs := identifiers_eq hmode
    rw [← hids', hids, ← htotal, ← hlen, List.take_length]
  have hmem : ∀ l ∈ LIDs, ∃ i, i < totalLIDs dm ∧ Drawn (dm.fid_len * 8) i l := by
    intro l hl
    obtain ⟨i, hi⟩ := List.mem_iff_getElem?.mp hl
    have hlt := (List.getElem?_eq_some_iff.mp hi).1
    exact ⟨i, by omega, hdrawn i l hi⟩
  refine ⟨_, hok, assignNodes_same hnodes, ?_⟩
  rw [hall]
  refine ⟨hnodup, ?_, ?_⟩
  · intro l hl
    obtain ⟨i, -, hd⟩ := hmem l hl
    exact ⟨hd.size, hd.nonzero⟩
  · intro hfew
    have hsingle : ∀ l ∈ LIDs, ∃ i < dm.fid_len * 8, l = .single (dm.fid_len * 8) i := by
      intro l hl
      obtain ⟨i, hi, hd⟩ := hmem l hl
      rw [htotal, LIDCounter_eq hmode] at hi
      exact hd.single (by omega)
    refine ⟨hsingle, ?_⟩
    intro S hS l hl
    exact Bitvector.orAll_includes_iff (fun a ha => hsingle a (hS a ha)) (hsingle l hl)

/-- Two nodes that run over IP, with a link each way. -/
def pairConfig : Config where
  BLACKADDER_ID_LENGTH := some 1
  LIPSIN_ID_LENGTH := some 1
  OVERLAY_MODE := some "ip"
  nodes := some [
    ⟨some "a", none, some "", some "user", none, some ["RV", "TM"], some [
      { ConnectionSetting.blank with toLabel := some "b", src_ip := some "1", dst_ip := some "2" }]⟩,
    ⟨some "b", none, some "", some "user", none, none, some [
      { ConnectionSetting.blank with toLabel := some "a", src_ip := some "2", dst_ip := some "1" }]⟩]
  ol_nodes := none
  pl_nodes := none

def pairDomain : Domain := (buildNetworkDomain (.new 0) pairConfig).toOption.getD (.new 0)

/-- The second draw repeats the first, so it is thrown away. -/
theorem assignLIDs_distinct_pair : ∃ dm', assignLIDs pairDomain [3, 11, 5, 8, 17] = .ok dm' ∧
    dm'.allLIDs.Nodup ∧ ∀ S : List Bitvector, (∀ a ∈ S, a ∈ dm'.allLIDs) → ∀ l ∈ dm'.allLIDs,
      (Bitvector.orAll 8 S).and l = l ↔ l ∈ S := by
  have hbuilt : buildNetworkDomain (.new 0) pairConfig = .ok pairDomain := by decide +kernel
  have hdraws : calculateLIDs pairDomain [3, 11, 5, 8, 17] =
      .ok ([.single 8 3, .single 8 5, .single 8 0, .single 8 1], []) := by decide +kernel
  obtain ⟨dm', hok, -, hnodup, -, hfew⟩ :=
    assignLIDs_distinct (.inl hbuilt) (by decide +kernel) hdraws
  exact ⟨dm', hok, hnodup, (hfew (by decide +kernel)).2⟩

end Blackadder.Deployment
