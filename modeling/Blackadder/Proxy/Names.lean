import Blackadder.Proxy.Token

/-!
# The names of a started item

An item can have several ids, and a node may publish under some of them. The first loop of
`START_PUBLISH` looks for a publisher that was told before, and it ends when it finds one.
-/

namespace Blackadder

namespace LocalProxy

variable {s s' : LocalProxy} {X Y : Id} {IDs l : List Id} {FID : Bitvector} {host : HostId}
  {st : PublishState} {ap : ActivePublication} {outs : List ProxyOutput}

/-! ## The first loop -/

/-- Some publisher of `X` is in the state `START_PUBLISH`. -/
def told (s : LocalProxy) (X : Id) : Bool :=
  (s.activePublicationIndex X).any fun ap =>
    ap.publishers.keys.any fun host => ap.publishers.lookup host = some .startPublish

/-- The ids that the loop comes to. -/
def reached (s : LocalProxy) : List Id → List Id
  | [] => []
  | X :: rest => if s.told X then [X] else X :: s.reached rest

/-- The new identifier and the new ids under these names. -/
def refreshed (s : LocalProxy) (IDs : List Id) (FID : Bitvector) (names : List Id) : LocalProxy :=
  { s with
    activePublicationIndex := fun X =>
      if X ∈ names then
        (s.activePublicationIndex X).map fun ap => { ap with allKnownIDs := IDs, FIDToSubscribers := FID }
      else s.activePublicationIndex X }

theorem told_refreshed (s : LocalProxy) (IDs : List Id) (FID : Bitvector) (names : List Id) :
    (s.refreshed IDs FID names).told = s.told := by
  funext X
  unfold told refreshed
  dsimp only
  split
  · cases s.activePublicationIndex X <;> rfl
  · rfl

theorem reached_refreshed (names : List Id) :
    (s.refreshed IDs FID names).reached l = s.reached l := by
  induction l with
  | nil => rfl
  | cons X l ih => rw [reached, reached, told_refreshed, ih]

theorem refreshed_refreshed (names names' : List Id) :
    (s.refreshed IDs FID names).refreshed IDs FID names' = s.refreshed IDs FID (names ++ names') := by
  unfold refreshed
  congr 1
  funext X
  by_cases h : X ∈ names <;> by_cases h' : X ∈ names' <;> simp [h, h', Function.comp_def]

theorem refreshed_none (hX : s.activePublicationIndex X = none) (names : List Id) :
    s.refreshed IDs FID (X :: names) = s.refreshed IDs FID names := by
  unfold refreshed
  congr 1
  funext Y
  by_cases h : Y = X
  · subst h
    simp [hX]
  · simp [h]

theorem setPublication_refreshed (hX : s.activePublicationIndex X = some ap) :
    s.setPublication X (some { ap with allKnownIDs := IDs, FIDToSubscribers := FID }) =
      s.refreshed IDs FID [X] := by
  unfold setPublication refreshed
  congr 1
  funext Y
  by_cases h : Y = X
  · subst h
    simp [hX]
  · simp [h]

/-- The loop says whether a publisher was told, and leaves the new values under the ids up to it. -/
theorem startCheck_eq (IDs : List Id) (FID : Bitvector) (s : LocalProxy) (l : List Id) :
    startCheck IDs FID s l = (l.any s.told, s.refreshed IDs FID (s.reached l)) := by
  induction l generalizing s with
  | nil => simp [startCheck, reached, refreshed]
  | cons X l ih =>
    unfold startCheck
    cases hX : s.activePublicationIndex X with
    | none =>
      have htold : s.told X = false := by simp [told, hX]
      simp only [ih, List.any_cons, htold, Bool.false_or, reached, Bool.false_eq_true, if_false]
      rw [refreshed_none hX]
    | some ap =>
      have htold : s.told X = ap.publishers.keys.any
          (fun host => ap.publishers.lookup host = some .startPublish) := by simp [told, hX]
      simp only [setPublication_refreshed hX, ← htold]
      cases hcheck : s.told X with
      | true => simp [reached, hcheck]
      | false =>
        simp only [Bool.false_eq_true, if_false, ih, told_refreshed, reached_refreshed,
          refreshed_refreshed, List.any_cons, hcheck, Bool.false_or, reached]
        rfl

theorem reached_subset {before after : List Id} (htold : s.told X = true) :
    s.reached (before ++ X :: after) ⊆ before ++ [X] := by
  induction before with
  | nil => simp [reached, htold]
  | cons Y before ih =>
    rw [List.cons_append, reached]
    split
    · simp
    · exact List.cons_subset_cons Y ih

/-- The loop comes to all ids, or it stops at one. -/
theorem reached_split (s : LocalProxy) (l : List Id) : l.any s.told = false ∧ s.reached l = l ∨
    ∃ before X after, l = before ++ X :: after ∧ s.told X = true ∧ s.reached l = before ++ [X] := by
  induction l with
  | nil => exact Or.inl ⟨rfl, rfl⟩
  | cons X l ih =>
    cases htold : s.told X with
    | true => exact Or.inr ⟨[], X, l, rfl, htold, by simp [reached, htold]⟩
    | false =>
      rcases ih with ⟨hany, hall⟩ | ⟨before, Y, after, rfl, hY, hreached⟩
      · exact Or.inl ⟨by simp [htold, hany], by simp [reached, htold, hall]⟩
      · exact Or.inr ⟨X :: before, Y, after, rfl, hY, by simp [reached, htold, hreached]⟩

theorem told_iff : s.told X = true ↔ ∃ host, s.InState X .startPublish host := by
  unfold told InState publishersOf
  cases s.activePublicationIndex X with
  | none => simp
  | some ap =>
    rw [Option.any_some, any_started]
    simp

theorem inState_refreshed (names : List Id) :
    (s.refreshed IDs FID names).InState X st host ↔ s.InState X st host := by
  unfold InState publishersOf refreshed
  dsimp only
  split
  · rw [Option.map_map]
    rfl
  · rfl

/-! ## The second loop -/

theorem startNotify_cases (s : LocalProxy) (l : List Id) : startNotify s l = (s, []) ∨
    ∃ X ∈ l, ∃ ap host rest, s.activePublicationIndex X = some ap ∧ ap.publishers.keys = host :: rest ∧
      startNotify s l =
        (s.setPublication X (some { ap with publishers := ap.publishers.replace host .startPublish }),
          [.notify .startPublish host X]) := by
  induction l with
  | nil => exact Or.inl rfl
  | cons X l ih =>
    rw [startNotify]
    cases hX : s.activePublicationIndex X with
    | none =>
      refine ih.imp_right ?_
      rintro ⟨Y, hY, hfound⟩
      exact ⟨Y, List.mem_cons_of_mem X hY, hfound⟩
    | some ap =>
      dsimp only
      cases hkeys : ap.publishers.keys with
      | nil =>
        rw [if_pos rfl]
        refine ih.imp_right ?_
        rintro ⟨Y, hY, hfound⟩
        exact ⟨Y, List.mem_cons_of_mem X hY, hfound⟩
      | cons host rest =>
        rw [startFirst_of_keys ap hkeys, if_neg (List.cons_ne_nil _ _)]
        exact Or.inr ⟨X, List.mem_cons_self, ap, host, rest, hX, hkeys, rfl⟩

/-! ## What a notification should do -/

/-- All names have the new values, and at most one publisher is told, when none was. -/
structure Renewed (s : LocalProxy) (IDs : List Id) (FID : Bitvector) (s' : LocalProxy)
    (outs : List ProxyOutput) : Prop where
  names : ∀ X ∈ IDs, ∀ ap, s.activePublicationIndex X = some ap →
    ∃ ap', s'.activePublicationIndex X = some ap' ∧ ap'.FIDToSubscribers = FID ∧ ap'.allKnownIDs = IDs
  other : ∀ X, X ∉ IDs → s'.activePublicationIndex X = s.activePublicationIndex X
  one : ∃ change : Option (Id × HostId),
    outs = change.toList.map (fun c => .notify .startPublish c.2 c.1) ∧
    (∀ X host st, s'.InState X st host ↔
      if change = some (X, host) then st = .startPublish else s.InState X st host) ∧
    ∀ c ∈ change, c.1 ∈ IDs ∧ ∀ X ∈ IDs, ¬ ∃ host, s.InState X .startPublish host

/-- The ids behind one with a publisher that was told have the values already. -/
def UpToDate (s : LocalProxy) (IDs : List Id) (FID : Bitvector) : Prop :=
  ∀ before X after, IDs = before ++ X :: after → (∃ host, s.InState X .startPublish host) →
    ∀ Y ∈ after, Y ∉ before → Y ≠ X → ∀ ap, s.activePublicationIndex Y = some ap →
      ap.FIDToSubscribers = FID ∧ ap.allKnownIDs = IDs

theorem refreshed_names (s : LocalProxy) (IDs : List Id) (FID : Bitvector) (names : List Id) :
    (∀ X ∈ names, ∀ ap, s.activePublicationIndex X = some ap →
      (s.refreshed IDs FID names).activePublicationIndex X =
        some { ap with allKnownIDs := IDs, FIDToSubscribers := FID }) ∧
    ∀ X, X ∉ names → (s.refreshed IDs FID names).activePublicationIndex X = s.activePublicationIndex X := by
  refine ⟨fun X hX ap hap => ?_, fun X hX => ?_⟩
  · simp [refreshed, hX, hap]
  · simp [refreshed, hX]

/-- When no publisher was told, all names are renewed, and the first publisher is told. -/
theorem renewed_untold (hany : IDs.any s.told = false) :
    Renewed s IDs FID (startNotify (s.refreshed IDs FID IDs) IDs).1
      (startNotify (s.refreshed IDs FID IDs) IDs).2 := by
  obtain ⟨hnames, hother⟩ := refreshed_names s IDs FID IDs
  have huntold : ∀ X ∈ IDs, ¬ ∃ host, s.InState X .startPublish host := by
    intro X hX hstate
    rw [← told_iff] at hstate
    simpa [hstate] using List.any_eq_false.mp hany X hX
  rcases startNotify_cases (s.refreshed IDs FID IDs) IDs with
    hrun | ⟨X, hX, ap, host, rest, hap, hkeys, hrun⟩
  · rw [hrun]
    refine ⟨fun Y hY ap hap => ⟨_, hnames Y hY ap hap, rfl, rfl⟩, hother, none, rfl, ?_, nofun⟩
    intro Y g st
    rw [if_neg (by simp), inState_refreshed]
  · rw [hrun]
    refine ⟨fun Y hY ap' hap' => ?_, fun Y hY => ?_, some (X, host), rfl, fun Y g st => ?_, ?_⟩
    · by_cases hYX : Y = X
      · subst hYX
        obtain rfl := Option.some.inj (hap.symm.trans (hnames Y hY ap' hap'))
        refine ⟨_, Function.update_self _ _ _, ?_, ?_⟩ <;> rfl
      · refine ⟨{ ap' with allKnownIDs := IDs, FIDToSubscribers := FID }, ?_, rfl, rfl⟩
        rw [setPublication_activePublicationIndex, Function.update_of_ne hYX]
        exact hnames Y hY ap' hap'
    · have hYX : Y ≠ X := fun hsame => hY (hsame ▸ hX)
      rw [setPublication_activePublicationIndex, Function.update_of_ne hYX]
      exact hother Y hY
    · by_cases hYX : Y = X
      · subst hYX
        have hsome : (s.refreshed IDs FID IDs).publishersOf Y = some ap.publishers := by
          simp [publishersOf, hap]
        obtain ⟨st₀, hst₀⟩ := lookup_of_keys hkeys
        rw [Watch.inState_iff (publishersOf_setPublication _), lookup_replace, ← inState_refreshed IDs,
          Watch.inState_iff hsome]
        by_cases hg : g = host
        · subst hg
          simp [hst₀, eq_comm]
        · simp [hg, Ne.symm hg]
      · rw [if_neg (by simp [Ne.symm hYX]), InState, publishersOf_setPublication_ne hYX]
        exact inState_refreshed IDs
    · intro c hc
      obtain rfl := Option.some.inj hc
      exact ⟨hX, huntold⟩

/-- The notification renews the item exactly when no name of it is left behind. -/
theorem startPublish_renews_iff (s : LocalProxy) (IDs : List Id) (FID : Bitvector) :
    Renewed s IDs FID (s.handleRVNotification (.startPublish IDs FID)).1
        (s.handleRVNotification (.startPublish IDs FID)).2 ↔ s.UpToDate IDs FID := by
  rw [handleRVNotification, handleStartPublish, startCheck_eq]
  rcases reached_split s IDs with ⟨hany, hall⟩ | ⟨before, X, after, hsplit, htold, hreached⟩
  · rw [hany, hall]
    refine iff_of_true (renewed_untold hany) ?_
    intro before X after hsplit hstate
    have htold := told_iff.mpr hstate
    simpa [htold] using List.any_eq_false.mp hany X (by simp [hsplit])
  · have hany : IDs.any s.told = true := List.any_eq_true.mpr ⟨X, by simp [hsplit], htold⟩
    obtain ⟨hnames, hother⟩ := refreshed_names s IDs FID (s.reached IDs)
    rw [hany]
    dsimp only
    constructor
    · intro h before' X' after' hsplit' hstate Y hY hnot hne ap hap
      have hout : Y ∉ s.reached IDs := by
        intro hin
        rw [hsplit'] at hin
        have hcases := reached_subset (told_iff.mpr hstate) hin
        rcases List.mem_append.mp hcases with hin | hin
        · exact hnot hin
        · exact hne (List.mem_singleton.mp hin)
      obtain ⟨ap', hap', hFID, hIDs⟩ := h.names Y (by simp [hsplit', hY]) ap hap
      rw [hother Y hout, hap] at hap'
      obtain rfl := Option.some.inj hap'
      exact ⟨hFID, hIDs⟩
    · intro h
      refine ⟨fun Y hY ap hap => ?_, fun Y hY => hother Y fun hin => hY ?_, none, rfl, fun Y g st => ?_,
        fun o ho => ?_⟩
      · by_cases hin : Y ∈ s.reached IDs
        · exact ⟨_, hnames Y hin ap hap, rfl, rfl⟩
        · refine ⟨ap, (hother Y hin).trans hap, ?_⟩
          rw [hreached, List.mem_append, List.mem_singleton, not_or] at hin
          refine h before X after hsplit (told_iff.mp htold) Y ?_ hin.1 hin.2 ap hap
          simpa [hsplit, hin.1, hin.2] using hY
      · rw [hreached] at hin
        rw [hsplit]
        rw [List.mem_append, List.mem_singleton] at hin
        rw [List.mem_append, List.mem_cons]
        exact hin.imp_right Or.inl
      · rw [if_neg (by simp), inState_refreshed]
      · cases ho

/-- An application publishes a name below scope 1. -/
def publishesName (s : LocalProxy) (host : HostId) (n : UInt8) : LocalProxy :=
  (s.pushRequest .localProcess host ⟨.publishInfo, frag n, frag 1, domainLocal⟩).1

/-- Two applications publish an item under two names, and the first one is told to start before the
second one publishes. -/
def twoNames : LocalProxy :=
  (((init exampleConf).publishesName 1 2).handleRVNotification
    (.startPublish [frag 1 ++ frag 2] 1)).1.publishesName 2 3

theorem reachable_twoNames : twoNames.Reachable :=
  (((reachable_init exampleConf).request .localProcess 1 (by decide)).notification _).request
    .localProcess 2 (by decide)

/-- The second name keeps the identifier without links. -/
theorem not_renewed : ∃ s IDs FID, s.Reachable ∧
    ¬ Renewed s IDs FID (s.handleRVNotification (.startPublish IDs FID)).1
      (s.handleRVNotification (.startPublish IDs FID)).2 := by
  refine ⟨twoNames, [frag 1 ++ frag 2, frag 1 ++ frag 3], 2, reachable_twoNames, fun h => ?_⟩
  have hold : ((twoNames.handleRVNotification
      (.startPublish [frag 1 ++ frag 2, frag 1 ++ frag 3] 2)).1.activePublicationIndex
        (frag 1 ++ frag 3)).map (·.FIDToSubscribers) = some 0 := by decide +kernel
  have hin : (twoNames.activePublicationIndex (frag 1 ++ frag 3)).isSome = true := by decide +kernel
  obtain ⟨ap, hap⟩ := Option.isSome_iff_exists.mp hin
  obtain ⟨ap', hap', hFID, -⟩ := h.names _ (by simp) ap hap
  rw [hap', Option.map_some, hFID] at hold
  revert hold
  decide

end LocalProxy

end Blackadder
