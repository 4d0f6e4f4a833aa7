import Blackadder.AccessControl.PubSub

/-!
# What matches register and requests withdraw

Over runs of `PubSubWPayloadAPI`: the last match of an application's identifier is what `AppIDtoLowerID` holds, and
which calls withdraw what it has registered.
-/

namespace Blackadder

namespace PubSub

open Code (publishedData)

/-! ## Runs -/

inductive Op
  | setRVSId (RVSId : Id) (uplayer : Channel)
  | wpl (op : Operation) (payloadRVSId id prefix_id payload beyond RId : List UInt8) (strategy : Strategy)
  | fromLowerLayer (ev : Transport.RVEvent)
  | publishData (id : Id) (strategy : Strategy) (data : List UInt8) (data_len : Nat)
  | publishInfo (id prefix_id : Id) (strategy : Strategy)
  | unpublishInfo (id prefix_id : Id) (strategy : Strategy)
  | unsubscribeInfo (id prefix_id : Id) (strategy : Strategy)

def step (s : State) : Op → Option (State × List Output)
  | .setRVSId RVSId uplayer => some (setRVSId s RVSId uplayer, [])
  | .wpl op payloadRVSId id prefix_id payload beyond RId strategy =>
    op.wpl s payloadRVSId id prefix_id payload beyond RId strategy
  | .fromLowerLayer ev => fromLowerLayer s ev
  | .publishData id strategy data data_len => some (publishData s id strategy data data_len)
  | .publishInfo id prefix_id strategy => some (publishInfo s id prefix_id strategy)
  | .unpublishInfo id prefix_id strategy => some (unpublishInfo s id prefix_id strategy)
  | .unsubscribeInfo id prefix_id strategy => some (unsubscribeInfo s id prefix_id strategy)

/-- What a match has registered, for an identifier of the application. -/
structure Registration where
  kind : MatchKind
  appId : Id
  SId : Id
  RId : Id
deriving DecidableEq

/-- The registration a step makes, if a match is what comes. -/
def registrationOf (s : State) : Op → Option Registration
  | .fromLowerLayer ev =>
    if ev.type = publishedData ∧ (s.RVSIds.lookup (evsid s ev.id)).isSome then
      match command (cString ev.data) with
      | some (kind, m) =>
        if m.SId ≠ [] ∧ m.RId ≠ [] then some ⟨kind, m.AppSIdRId, m.SId, m.RId⟩ else none
      | none => none
    else none
  | _ => none

def advance (r : State × List Registration) (op : Op) : Option (State × List Registration) :=
  (step r.1 op).map fun next => (next.1, r.2 ++ (registrationOf r.1 op).toList)

/-- The state after a run, and what matches have registered on the way. -/
def run (bastrategy : Strategy) (ops : List Op) : Option (State × List Registration) :=
  ops.foldlM advance (State.init bastrategy, [])

def lastMatch (history : List Registration) (appId : Id) : Option Registration :=
  (history.filter (·.appId = appId)).getLast?

/-! ## What is undone -/

/-- `unpublish_info` is for publications, `unsubscribe_info` for subscriptions. -/
def MatchKind.undo : MatchKind → Id → Id → Strategy → Op
  | .publication => .unpublishInfo
  | .subscription => .unsubscribeInfo

def MatchKind.withdraws : MatchKind → RequestType
  | .publication => .unpublishInfo
  | .subscription => .unsubscribeInfo

def Registration.withdrawal (m : Registration) (strategy : Strategy) : Output :=
  .request m.kind.withdraws m.RId m.SId strategy

/-- The registration `m` is withdrawn and no other one, and no empty entry is made. -/
structure Undone (history : List Registration) (m : Registration) (s : State) (r : State × List Output) :
    Prop where
  withdrawn : ∃ strategy, m.withdrawal strategy ∈ r.2
  alone : ∀ m' : Registration, ∀ strategy, m'.withdrawal strategy ∈ r.2 →
    m'.kind = m.kind ∧ m'.SId = m.SId ∧ m'.RId = m.RId
  separate : ∀ m' ∈ history, m'.appId ≠ m.appId → ∀ strategy, m'.withdrawal strategy ∉ r.2
  noEmpty : ∀ key, s.AppIDtoLowerID key = none → r.1.AppIDtoLowerID key ≠ some ⟨[], []⟩

/-- The registrations for different identifiers of the application are different. -/
def Distinct (history : List Registration) : Prop :=
  ∀ m ∈ history, ∀ m' ∈ history, m.SId = m'.SId → m.RId = m'.RId → m.appId = m'.appId

/-- The scope that is looked up under the bare identifier is the one of the whole identifier. -/
def SameScope (s : State) (id prefix_id : Id) : Prop :=
  ∃ forRId forSId, s.AppIDtoLowerID (prefix_id ++ id) = some forRId ∧
    s.AppIDtoLowerID id = some forSId ∧ forSId.SId = forRId.SId

variable {s : State} {r : State × List Output} {op : Op} {key id prefix_id : Id} {entry : InfoId}
  {strategy : Strategy} {kind : MatchKind} {m : Registration} {history : List Registration}

/-! ## One step -/

theorem lowerID_of_some (h : s.AppIDtoLowerID key = some entry) : s.lowerID key = (entry, s) := by
  have hself : Function.update s.AppIDtoLowerID key (some entry) = s.AppIDtoLowerID := by
    rw [← h, Function.update_eq_self]
  simp only [State.lowerID, h, Option.getD_some, hself]

theorem lowerID_kept (h : s.AppIDtoLowerID key = some entry) (key' : Id) :
    (s.lowerID key').2.AppIDtoLowerID key = some entry := by
  by_cases hkey : key = key'
  · subst hkey
    rwa [lowerID_of_some h]
  · exact (Function.update_of_ne hkey _ _).trans h

theorem tellMessage_lower (s : State) (uplayer : Channel) (id : Id) (msgToHL : List UInt8) :
    (tellMessage s uplayer id msgToHL).1.AppIDtoLowerID = s.AppIDtoLowerID := by
  unfold tellMessage
  split <;> rfl

theorem tellStart_lower (h : tellStart s id = some r) : r.1.AppIDtoLowerID = s.AppIDtoLowerID := by
  obtain ⟨first, -, htell⟩ := Option.bind_eq_some_iff.mp h
  cases htell
  rfl

theorem wpl_lower {o : Operation} {payloadRVSId payload beyond RId : List UInt8}
    (h : o.wpl s payloadRVSId id prefix_id payload beyond RId strategy = some r) :
    r.1.AppIDtoLowerID = s.AppIDtoLowerID := by
  cases o <;>
  · obtain ⟨pub, -, hr⟩ := Option.bind_eq_some_iff.mp h
    cases hr
    rfl

/-- What a step does to `AppIDtoLowerID`. -/
def Keeps (s : State) (op : Op) (r : State × List Output) : Prop :=
  (∃ m, registrationOf s op = some m ∧
    r.1.AppIDtoLowerID = Function.update s.AppIDtoLowerID m.appId (some ⟨m.RId, m.SId⟩)) ∨
  (registrationOf s op = none ∧
    ∀ key entry, s.AppIDtoLowerID key = some entry → r.1.AppIDtoLowerID key = some entry)

theorem Keeps.of_eq (hnone : registrationOf s op = none) (h : r.1.AppIDtoLowerID = s.AppIDtoLowerID) :
    Keeps s op r := by
  refine .inr ⟨hnone, ?_⟩
  intro key entry hentry
  rwa [h]

theorem onData_keeps {ev : Transport.RVEvent} (htype : ev.type = publishedData)
    (h : onData s ev.id (cString ev.data) = some r) : Keeps s (.fromLowerLayer ev) r := by
  unfold onData at h
  split at h
  · next uplayer hlookup =>
    split at h
    · next kind m hcommand =>
      cases h
      by_cases hboth : m.SId ≠ [] ∧ m.RId ≠ []
      · refine .inl ⟨⟨kind, m.AppSIdRId, m.SId, m.RId⟩, ?_, ?_⟩
        · simp [registrationOf, htype, hlookup, hcommand, hboth]
        · rw [onMatch, if_pos hboth]
          exact tellMessage_lower _ _ _ _
      · refine .of_eq ?_ ?_
        · simp [registrationOf, htype, hlookup, hcommand, hboth]
        · rw [onMatch, if_neg hboth]
          exact tellMessage_lower _ _ _ _
    · next hcommand =>
      cases h
      exact .of_eq (by simp [registrationOf, hcommand]) rfl
  · next hlookup =>
    obtain ⟨uplayer, -, hr⟩ := Option.bind_eq_some_iff.mp h
    cases hr
    exact .of_eq (by simp [registrationOf, hlookup]) rfl

theorem fromLowerLayer_keeps {ev : Transport.RVEvent} (h : fromLowerLayer s ev = some r) :
    Keeps s (.fromLowerLayer ev) r := by
  by_cases htype : ev.type = publishedData
  · have hstop : ¬publishedData = Code.stopPublish := by decide
    have hstart : ¬publishedData = Code.startPublish := by decide
    rw [fromLowerLayer, htype, if_neg hstop, if_neg hstart, if_pos rfl] at h
    exact onData_keeps htype h
  · refine .of_eq (by simp [registrationOf, htype]) ?_
    unfold fromLowerLayer at h
    split at h
    · exact tellStart_lower h
    · split at h
      · split at h
        · exact tellStart_lower h
        · split at h
          · cases h
            rfl
          · cases h
            rfl
      · cases h
        rfl

theorem step_keeps (h : step s op = some r) : Keeps s op r := by
  cases op with
  | setRVSId RVSId uplayer =>
    cases h
    exact .of_eq rfl rfl
  | wpl o payloadRVSId id prefix_id payload beyond RId strategy => exact .of_eq rfl (wpl_lower h)
  | fromLowerLayer ev => exact fromLowerLayer_keeps h
  | publishData id strategy data data_len =>
    cases h
    refine .inr ⟨rfl, ?_⟩
    intro key entry hentry
    unfold publishData
    split
    · exact hentry
    · exact lowerID_kept (lowerID_kept hentry _) _
  | publishInfo id prefix_id strategy =>
    cases h
    exact .of_eq rfl rfl
  | unpublishInfo id prefix_id strategy =>
    cases h
    refine .inr ⟨rfl, ?_⟩
    intro key entry hentry
    unfold unpublishInfo
    dsimp only
    split
    · exact hentry
    · exact lowerID_kept (lowerID_kept hentry _) _
  | unsubscribeInfo id prefix_id strategy =>
    cases h
    refine .inr ⟨rfl, ?_⟩
    intro key entry hentry
    unfold unsubscribeInfo
    dsimp only
    split
    · exact hentry
    · exact lowerID_kept (lowerID_kept hentry _) _

/-! ## Runs of steps -/

/-- What the last match of an identifier has registered is what is found under it. -/
def Tracked (r : State × List Registration) : Prop :=
  ∀ key m, lastMatch r.2 key = some m → r.1.AppIDtoLowerID key = some ⟨m.RId, m.SId⟩

theorem lastMatch_append_self (history : List Registration) (m : Registration) :
    lastMatch (history ++ [m]) m.appId = some m := by
  simp [lastMatch]

theorem lastMatch_append_other (history : List Registration) (h : m.appId ≠ key) :
    lastMatch (history ++ [m]) key = lastMatch history key := by
  simp [lastMatch, h]

theorem advance_tracked {r r' : State × List Registration} (hr : Tracked r) (h : advance r op = some r') :
    Tracked r' := by
  obtain ⟨next, hnext, rfl⟩ := Option.map_eq_some_iff.mp h
  intro key m hlast
  obtain ⟨m', hreg, hlower⟩ | ⟨hreg, hkept⟩ := step_keeps hnext
  · rw [hreg] at hlast
    simp only [Option.toList_some] at hlast
    by_cases hkey : m'.appId = key
    · subst hkey
      rw [lastMatch_append_self, Option.some.injEq] at hlast
      subst hlast
      rw [hlower, Function.update_self]
    · rw [lastMatch_append_other _ hkey] at hlast
      rw [hlower, Function.update_of_ne (Ne.symm hkey)]
      exact hr key m hlast
  · rw [hreg] at hlast
    simp only [Option.toList_none, List.append_nil] at hlast
    exact hkept _ _ (hr key m hlast)

theorem foldlM_tracked {ops : List Op} {r r' : State × List Registration} (hr : Tracked r)
    (h : ops.foldlM advance r = some r') : Tracked r' := by
  induction ops generalizing r with
  | nil =>
    cases h
    exact hr
  | cons op ops ih =>
    rw [List.foldlM_cons] at h
    obtain ⟨next, hnext, hrest⟩ := Option.bind_eq_some_iff.mp h
    exact ih (advance_tracked hr hnext) hrest

theorem run_tracked {ops : List Op} {r : State × List Registration} (h : run strategy ops = some r) :
    Tracked r := by
  refine foldlM_tracked ?_ h
  intro key m hlast
  simp [lastMatch] at hlast

theorem foldlM_history {ops : List Op} {r r' : State × List Registration}
    (h : ops.foldlM advance r = some r') : r.2 <+: r'.2 := by
  induction ops generalizing r with
  | nil =>
    cases h
    exact List.prefix_rfl
  | cons op ops ih =>
    rw [List.foldlM_cons] at h
    obtain ⟨next, hnext, hrest⟩ := Option.bind_eq_some_iff.mp h
    obtain ⟨t, -, rfl⟩ := Option.map_eq_some_iff.mp hnext
    exact (List.prefix_append _ _).trans (ih hrest)

theorem lastMatch_mem (h : lastMatch history key = some m) : m ∈ history ∧ m.appId = key := by
  have hmem := List.mem_of_getLast? h
  simpa using hmem

/-! ## One call -/

theorem unpublishInfo_of_some (h : s.AppIDtoLowerID (prefix_id ++ id) = some entry) :
    unpublishInfo s id prefix_id strategy =
      ((s.lowerID id).2, [.request .unpublishInfo entry.RId (s.lowerID id).1.SId strategy]) := by
  rw [unpublishInfo]
  simp only [h, lowerID_of_some h]

theorem unsubscribeInfo_of_some (h : s.AppIDtoLowerID (prefix_id ++ id) = some entry) :
    unsubscribeInfo s id prefix_id strategy =
      (s, [.request .unpublishInfo entry.RId entry.SId strategy]) := by
  rw [unsubscribeInfo]
  simp only [h, lowerID_of_some h]

theorem undone_of_sameScope (hdistinct : Distinct history) (hlast : lastMatch history (prefix_id ++ id) = some m)
    (hkind : m.kind = .publication)
    (hentry : s.AppIDtoLowerID (prefix_id ++ id) = some ⟨m.RId, m.SId⟩) (hscope : SameScope s id prefix_id) :
    Undone history m s (unpublishInfo s id prefix_id strategy) := by
  obtain ⟨forRId, forSId, hforRId, hforSId, hsame⟩ := hscope
  rw [hentry, Option.some.injEq] at hforRId
  subst hforRId
  obtain ⟨hmem, -⟩ := lastMatch_mem hlast
  rw [unpublishInfo_of_some hentry, lowerID_of_some hforSId, hsame]
  have halone : ∀ m' : Registration, ∀ strategy', m'.withdrawal strategy' ∈
      [Output.request .unpublishInfo m.RId m.SId strategy] →
      m'.kind = m.kind ∧ m'.SId = m.SId ∧ m'.RId = m.RId := by
    intro m' strategy' hm'
    rw [List.mem_singleton, Registration.withdrawal, Output.request.injEq] at hm'
    obtain ⟨htype, hRId, hSId, -⟩ := hm'
    refine ⟨?_, hSId, hRId⟩
    rw [hkind]
    cases hkind' : m'.kind with
    | publication => rfl
    | subscription =>
      rw [hkind'] at htype
      cases htype
  refine ⟨⟨strategy, ?_⟩, halone, ?_, ?_⟩
  · rw [Registration.withdrawal, hkind]
    exact List.mem_singleton_self _
  · intro m' hm' hne strategy' hwithdrawn
    obtain ⟨-, hSId, hRId⟩ := halone m' strategy' hwithdrawn
    exact hne (hdistinct m' hm' m hmem hSId hRId)
  · intro key hnone hempty
    rw [hnone] at hempty
    cases hempty

/-- A scope that is looked up under the bare identifier and is another one, or none, is withdrawn instead. -/
theorem sameScope_of_undone
    (hentry : s.AppIDtoLowerID (prefix_id ++ id) = some ⟨m.RId, m.SId⟩)
    (h : Undone history m s (unpublishInfo s id prefix_id strategy)) : SameScope s id prefix_id := by
  rw [unpublishInfo_of_some hentry] at h
  cases hforSId : s.AppIDtoLowerID id with
  | none =>
    refine absurd ?_ (h.noEmpty id hforSId)
    simp [State.lowerID, hforSId]
  | some forSId =>
    obtain ⟨strategy', hwithdrawn⟩ := h.withdrawn
    rw [lowerID_of_some hforSId, List.mem_singleton, Registration.withdrawal, Output.request.injEq] at hwithdrawn
    obtain ⟨-, -, hSId, -⟩ := hwithdrawn
    exact ⟨_, forSId, hentry, hforSId, hSId.symm⟩

theorem unsubscribeInfo_not_undone (hkind : m.kind = .subscription)
    (hentry : s.AppIDtoLowerID (prefix_id ++ id) = some ⟨m.RId, m.SId⟩) :
    ¬Undone history m s (unsubscribeInfo s id prefix_id strategy) := by
  intro h
  obtain ⟨strategy', hwithdrawn⟩ := h.withdrawn
  rw [unsubscribeInfo_of_some hentry, List.mem_singleton, Registration.withdrawal, hkind,
    Output.request.injEq] at hwithdrawn
  cases hwithdrawn.1

/-! ## The calls of a run -/

/-- A call in the run that is to undo what the last match of an identifier has registered. -/
structure UndoCall (bastrategy : Strategy) (ops : List Op) (kind : MatchKind) (id prefix_id : Id)
    (strategy : Strategy) (s : State) (history : List Registration) (m : Registration) : Prop where
  place : ∃ before after, ops = before ++ kind.undo id prefix_id strategy :: after ∧
    run bastrategy before = some (s, history)
  last : lastMatch history (prefix_id ++ id) = some m
  kind : m.kind = kind

/-- Whatever is to be undone in the run is. -/
def Undoes (bastrategy : Strategy) (ops : List Op) : Prop :=
  ∀ kind id prefix_id strategy s history m r, UndoCall bastrategy ops kind id prefix_id strategy s history m →
    step s (kind.undo id prefix_id strategy) = some r → Undone history m s r

/-- Only publications are undone, those with one scope under both identifiers. -/
theorem undoes_iff {bastrategy : Strategy} {ops : List Op} {last : State × List Registration}
    (hrun : run bastrategy ops = some last) (hdistinct : Distinct last.2) :
    Undoes bastrategy ops ↔ ∀ kind id prefix_id strategy s history m,
      UndoCall bastrategy ops kind id prefix_id strategy s history m →
        kind = .publication ∧ SameScope s id prefix_id := by
  constructor
  · intro h kind id prefix_id strategy s history m hcall
    obtain ⟨before, after, hops, hbefore⟩ := hcall.place
    have hentry := run_tracked hbefore _ _ hcall.last
    cases kind with
    | publication =>
      exact ⟨rfl, sameScope_of_undone hentry (h _ _ _ _ _ _ _ _ hcall rfl)⟩
    | subscription =>
      exact absurd (h _ _ _ _ _ _ _ _ hcall rfl) (unsubscribeInfo_not_undone hcall.kind hentry)
  · intro h kind id prefix_id strategy s history m r hcall hstep
    obtain ⟨rfl, hscope⟩ := h _ _ _ _ _ _ _ hcall
    cases hstep
    obtain ⟨before, after, rfl, hbefore⟩ := hcall.place
    have hpart : history <+: last.2 := by
      rw [run, List.foldlM_append] at hrun
      obtain ⟨r, hr, hrest⟩ := Option.bind_eq_some_iff.mp hrun
      rw [run, hr, Option.some.injEq] at hbefore
      subst hbefore
      exact foldlM_history hrest
    have hearlier : Distinct history := by
      intro m hm m' hm'
      exact hdistinct m (hpart.subset hm) m' (hpart.subset hm')
    exact undone_of_sameScope hearlier hcall.last hcall.kind (run_tracked hbefore _ _ hcall.last) hscope

theorem distinct_singleton (m : Registration) : Distinct [m] := by
  intro m₁ h₁ m₂ h₂ _ _
  rw [List.mem_singleton] at h₁ h₂
  rw [h₁, h₂]

/-- A rendezvous point, and a match of a publication with the identifier `pa`. -/
def matched : List Op := [
  .setRVSId [7] 0,
  .fromLowerLayer ⟨publishedData, [7, 1], [0x31, 0x30, 0x3b, 0x73, 0x3b, 0x72, 0x3b, 0x70, 0x61, 0x3b], 10⟩]

theorem distinct_pair {m m' : Registration} (hscope : m.SId ≠ m'.SId) : Distinct [m, m'] := by
  intro m₁ h₁ m₂ h₂ hS _
  simp only [List.mem_cons, List.not_mem_nil, or_false] at h₁ h₂
  obtain rfl | rfl := h₁ <;> obtain rfl | rfl := h₂
  · rfl
  · exact absurd hS hscope
  · exact absurd hS.symm hscope
  · rfl

/-- A match of a subscription too, with the identifier `qb`. The publication is undone, then the
subscription is to be. -/
def matchedBoth : List Op := matched ++ [
  .fromLowerLayer ⟨publishedData, [7, 1], [0x31, 0x31, 0x3b, 0x74, 0x3b, 0x75, 0x3b, 0x71, 0x62, 0x3b], 10⟩,
  .unpublishInfo [0x70, 0x61] [] 2, .unsubscribeInfo [0x71, 0x62] [] 2]

theorem undoes_matched : ∃ last, run 2 matchedBoth = some last ∧
    (Undoes 2 matchedBoth ↔ ∀ kind id prefix_id strategy s history m,
      UndoCall 2 matchedBoth kind id prefix_id strategy s history m →
        kind = .publication ∧ SameScope s id prefix_id) := by
  have hdistinct : Distinct [⟨.publication, [0x70, 0x61], [0x73], [0x72]⟩,
      ⟨.subscription, [0x71, 0x62], [0x74], [0x75]⟩] := distinct_pair (by decide)
  exact ⟨_, rfl, undoes_iff rfl hdistinct⟩

/-- The publication `a` in the scope `p`: the scope of the match is looked up under `a`. -/
theorem empty_scope_withdrawn : ∃ last, run 2 (matched ++ [.unpublishInfo [0x61] [0x70] 2]) = some last ∧
    Distinct last.2 ∧ ¬Undoes 2 (matched ++ [.unpublishInfo [0x61] [0x70] 2]) := by
  refine ⟨_, rfl, ?_, ?_⟩
  · exact distinct_singleton ⟨.publication, [0x70, 0x61], [0x73], [0x72]⟩
  · intro h
    have hundone := h .publication [0x61] [0x70] 2 _ _ _ _ ⟨⟨matched, [], rfl, rfl⟩, rfl, rfl⟩ rfl
    exact hundone.noEmpty [0x61] rfl rfl

end PubSub

end Blackadder
