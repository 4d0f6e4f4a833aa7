import Mathlib.Order.Bounds.Basic
import Blackadder.Qos.LinkWeights

/-!
# The class of a request

With QoS the topology manager asks the cache for the priority of the item, and matches over the plane
of weights that is the closest one not above it.
-/

namespace Blackadder

namespace LinkGraph

variable {V L : Type}

/-- The keys of `qlwm`, in the order of the map. -/
def keys (g : LinkGraph V L) : List UInt8 :=
  ((List.range 256).map UInt8.ofNat).filter fun p => (g.qlwm p).isSome

/-- The body of the loop over `qlwm`, with `netprio` and `mindist`. -/
def closer (prio : UInt8) (best : UInt8 × Int) (key : UInt8) : UInt8 × Int :=
  if key > prio then best
  else if (prio.toNat : Int) - key.toNat < best.2 then (key, prio.toNat - key.toNat)
  else best

def getWeightKeyForIIPrio (g : LinkGraph V L) (prio : UInt8) : UInt16 :=
  if (g.qlwm prio).isSome then prio.toUInt16
  else (g.keys.foldl (closer prio) (0, 10000)).1.toUInt16

def isQoSMapOk (g : LinkGraph V L) : Bool := (g.qlwm 0).isSome

/-- `qlwm[key]`, which makes an empty plane where there is none. -/
def plane (g : LinkGraph V L) (key : UInt8) : List Int × LinkGraph V L :=
  match g.qlwm key with
  | some weights => (weights, g)
  | none => ([], { g with qlwm := Function.update g.qlwm key (some []) })

/-- What `calculateFID` or `calculateFID_weighted` is called with. -/
inductive Metric
  | hops
  | weighted (netprio : UInt16) (weights : List Int)

/-! ## The search -/

variable {g : LinkGraph V L} {prio key : UInt8}

/-- The classes of the network that are not above a priority. -/
def classesUpTo (g : LinkGraph V L) (n : Nat) : Set Nat :=
  {k | ∃ p : UInt8, (g.qlwm p).isSome ∧ p.toNat = k ∧ k ≤ n}

theorem mem_keys : key ∈ g.keys ↔ (g.qlwm key).isSome := by
  simp only [keys, List.mem_filter, List.mem_map, List.mem_range]
  exact ⟨fun h => h.2, fun h => ⟨⟨key.toNat, key.toNat_lt, UInt8.ofNat_toNat⟩, h⟩⟩

/-- The best class among the keys that the loop saw. -/
structure Nearest (prio : UInt8) (seen : List UInt8) (best : UInt8 × Int) : Prop where
  start : (∀ key ∈ seen, prio.toNat < key.toNat) → best = (0, 10000)
  mem : ∀ key ∈ seen, key.toNat ≤ prio.toNat → best.1 ∈ seen ∧ best.1.toNat ≤ prio.toNat ∧
    best.2 = prio.toNat - best.1.toNat ∧ key.toNat ≤ best.1.toNat

theorem Nearest.step {seen : List UInt8} {best : UInt8 × Int} (h : Nearest prio seen best)
    (key : UInt8) : Nearest prio (seen ++ [key]) (closer prio best key) := by
  have hprio := prio.toNat_lt
  by_cases hkey : prio.toNat < key.toNat
  · have hsame : closer prio best key = best := if_pos (UInt8.lt_iff_toNat_lt.mpr hkey)
    rw [hsame]
    refine ⟨fun hall => h.start fun k hk => hall k (List.mem_append_left _ hk), fun k hk hle => ?_⟩
    rcases List.mem_append.mp hk with hk | hk
    · obtain ⟨hmem, hrest⟩ := h.mem k hk hle
      exact ⟨List.mem_append_left _ hmem, hrest⟩
    · obtain rfl := List.mem_singleton.mp hk
      omega
  · have hle : key.toNat ≤ prio.toNat := Nat.le_of_not_lt hkey
    rw [closer, if_neg fun hgt => hkey (UInt8.lt_iff_toNat_lt.mp hgt)]
    refine ⟨fun hall => absurd (hall key (by simp)) hkey, ?_⟩
    by_cases hall : ∀ k ∈ seen, prio.toNat < k.toNat
    · -- the first key that is not above
      rw [h.start hall, if_pos (by dsimp only; omega)]
      intro k hk hle'
      rcases List.mem_append.mp hk with hk | hk
      · exact absurd (hall k hk) (Nat.not_lt.mpr hle')
      · obtain rfl := List.mem_singleton.mp hk
        exact ⟨by simp, hle, rfl, Nat.le_refl _⟩
    · obtain ⟨k₀, hk₀, hle₀⟩ : ∃ k ∈ seen, k.toNat ≤ prio.toNat := by
        simpa only [not_forall, exists_prop, Nat.not_lt] using hall
      obtain ⟨hbest, hbestle, hdist, -⟩ := h.mem k₀ hk₀ hle₀
      by_cases hcloser : (prio.toNat : Int) - key.toNat < best.2
      · rw [if_pos hcloser]
        refine fun k hk hle' => ⟨by simp, hle, rfl, ?_⟩
        dsimp only
        rcases List.mem_append.mp hk with hk | hk
        · have hkb := (h.mem k hk hle').2.2.2
          omega
        · obtain rfl := List.mem_singleton.mp hk
          exact Nat.le_refl _
      · rw [if_neg hcloser]
        refine fun k hk hle' => ⟨List.mem_append_left _ hbest, hbestle, hdist, ?_⟩
        rcases List.mem_append.mp hk with hk | hk
        · exact (h.mem k hk hle').2.2.2
        · obtain rfl := List.mem_singleton.mp hk
          omega

theorem nearest_foldl (prio : UInt8) (l : List UInt8) :
    Nearest prio l (l.foldl (closer prio) (0, 10000)) := by
  induction l using List.reverseRecOn with
  | nil => exact ⟨fun _ => rfl, fun _ h => absurd h List.not_mem_nil⟩
  | append_singleton l key ih =>
    rw [List.foldl_append]
    exact ih.step key

theorem isGreatest_getWeightKeyForIIPrio (hok : g.isQoSMapOk = true) (prio : UInt8) :
    IsGreatest (g.classesUpTo prio.toNat) (g.getWeightKeyForIIPrio prio).toNat := by
  unfold getWeightKeyForIIPrio
  split
  · next hfound =>
    rw [UInt8.toNat_toUInt16]
    exact ⟨⟨prio, hfound, rfl, Nat.le_refl _⟩, fun k hk => hk.choose_spec.2.2⟩
  · have hnear := nearest_foldl prio g.keys
    obtain ⟨hmem, hle, -, -⟩ := hnear.mem 0 (mem_keys.mpr hok) (Nat.zero_le _)
    rw [UInt8.toNat_toUInt16]
    refine ⟨⟨_, mem_keys.mp hmem, rfl, hle⟩, ?_⟩
    rintro k ⟨p, hp, rfl, hple⟩
    exact (hnear.mem p (mem_keys.mpr hp) hple).2.2.2

/-- The search works on the low byte of the priority. -/
def lowByte (v : UInt16) : Nat := v.toNat % 256

theorem toNat_toUInt8 (v : UInt16) : v.toUInt8.toNat = lowByte v := UInt16.toNat_toUInt8 v

theorem isGreatest_iff {v : UInt16} {k : Nat} (h : IsGreatest (g.classesUpTo (lowByte v)) k) :
    IsGreatest (g.classesUpTo v.toNat) k ↔
      ∀ p : UInt8, (g.qlwm p).isSome → p.toNat ≤ v.toNat → p.toNat ≤ lowByte v := by
  have hlow : lowByte v ≤ v.toNat := Nat.mod_le _ _
  constructor
  · intro hk p hp hle
    have hpk : p.toNat ≤ k := hk.2 ⟨p, hp, rfl, hle⟩
    have hkl : k ≤ lowByte v := h.1.choose_spec.2.2
    omega
  · intro hall
    obtain ⟨q, hq, hqk, hle⟩ := h.1
    refine ⟨⟨q, hq, hqk, hle.trans hlow⟩, ?_⟩
    rintro _ ⟨p, hp, rfl, hple⟩
    exact h.2 ⟨p, hp, rfl, hall p hp hple⟩

end LinkGraph

/-! ## The priority of an item -/

namespace MetaDataContent

variable {c : MetaDataContent} {now now' : Int}

/-- The entries that the cache removes when it looks at them. -/
def Gone (now : Int) (c : MetaDataContent) : Prop := c.Outdated now ∨ c.TimedOut now

instance (now : Int) (c : MetaDataContent) : Decidable (c.Gone now) :=
  inferInstanceAs (Decidable (_ ∨ _))

theorem Gone.mono (h : c.Gone now) (hle : now ≤ now') : c.Gone now' := by
  rcases h with ⟨hcreated, hold⟩ | ⟨hcreated, hquerying, hwait⟩
  · exact .inl ⟨hcreated, by omega⟩
  · exact .inr ⟨hcreated, hquerying, by omega⟩

/-- What `getIIQoSPrio` returns of an entry. -/
def prio (c : MetaDataContent) : UInt16 :=
  if c.querying then defaultQosPrio else (c.qos qosPrio).getD defaultQosPrio

end MetaDataContent

namespace IIMetaCache

variable {s : IIMetaCache} {ii jj : Id} {c : MetaDataContent} {now : Int} {t u : Readings}

/-- The entry of an item, if the cache would not remove it now. -/
def current (s : IIMetaCache) (ii : Id) (now : Int) : Option MetaDataContent :=
  (s.ii_meta.lookup ii).filter fun c => ¬ c.Gone now

/-- The metadata value that a request for an item is about. -/
def priority (s : IIMetaCache) (ii : Id) (now : Int) : UInt16 :=
  ((s.current ii now).map (·.prio)).getD defaultQosPrio

theorem current_none (h : s.ii_meta.lookup ii = none) : s.current ii now = none := by
  rw [current, h, Option.filter_none]

theorem current_some (h : s.ii_meta.lookup ii = some c) :
    s.current ii now = if c.Gone now then none else some c := by
  rw [current, h, Option.filter_some]
  by_cases hgone : c.Gone now <;> simp [hgone]

theorem cleanEntry_ii_meta (s : IIMetaCache) (now : Int) (ii : Id) (c : MetaDataContent) :
    (s.cleanEntry now ii c).1.ii_meta = if c.Gone now then s.ii_meta.erase ii else s.ii_meta := by
  unfold cleanEntry
  by_cases hout : c.Outdated now
  · rw [if_pos hout, if_pos (.inl hout)]
  · rw [if_neg hout]
    by_cases htimed : c.TimedOut now
    · rw [if_pos htimed, if_pos (.inr htimed)]
    · rw [if_neg htimed, if_neg fun hgone => hgone.elim hout htimed]

theorem lookup_checkClean (s : IIMetaCache) (ii : Id) (now : Int) :
    (s.checkClean now ii).1.ii_meta.lookup ii = s.current ii now := by
  unfold checkClean
  cases hlookup : s.ii_meta.lookup ii with
  | none => exact hlookup.trans (current_none hlookup).symm
  | some c =>
    dsimp only
    rw [cleanEntry_ii_meta, current_some hlookup]
    split
    · exact AList.lookup_erase _ _
    · exact hlookup

theorem lookup_cleanAllExpired (s : IIMetaCache) (ii : Id) (now : Int) :
    (s.cleanAllExpired now).1.ii_meta.lookup ii = s.current ii now := by
  rw [cleanAllExpired_eq]
  suffices ∀ (l : List (Sigma fun _ : Id => MetaDataContent)) (x : IIMetaCache × List InfoCall),
      (∀ e ∈ l, s.ii_meta.lookup e.1 = some e.2) →
      (x.1.ii_meta.lookup ii = s.ii_meta.lookup ii ∧
        (∀ c, s.ii_meta.lookup ii = some c → c.Gone now → ∃ e ∈ l, e.1 = ii)) ∨
        (x.1.ii_meta.lookup ii = none ∧ s.current ii now = none) →
      (l.foldl (cleanNext now) x).1.ii_meta.lookup ii = s.current ii now by
    refine this _ _ (fun e he => AList.mem_lookup_iff.mpr he) (.inl ⟨rfl, fun c hc _ => ?_⟩)
    exact ⟨⟨ii, c⟩, AList.mem_lookup_iff.mp hc, rfl⟩
  intro l
  induction l with
  | nil =>
    rintro x - (⟨hsame, hnone⟩ | ⟨hgone, hcur⟩)
    · rw [List.foldl_nil, hsame]
      cases hlookup : s.ii_meta.lookup ii with
      | none => exact (current_none hlookup).symm
      | some c =>
        have hstay : ¬ c.Gone now := fun hgone => by simpa using hnone c hlookup hgone
        rw [current_some hlookup, if_neg hstay]
    · rw [List.foldl_nil, hgone, hcur]
  | cons e l ih =>
    intro x hl h
    have he := hl e List.mem_cons_self
    rw [List.foldl_cons]
    refine ih _ (fun e' he' => hl e' (List.mem_cons_of_mem e he')) ?_
    rw [cleanNext, cleanEntry_ii_meta]
    by_cases hgone : e.2.Gone now
    · rw [if_pos hgone]
      by_cases hne : ii = e.1
      · subst hne
        exact .inr ⟨AList.lookup_erase _ _, by rw [current_some he, if_pos hgone]⟩
      · rw [AList.lookup_erase_ne hne]
        refine h.imp_left ?_
        rintro ⟨hsame, hall⟩
        refine ⟨hsame, fun c hc hcgone => ?_⟩
        obtain ⟨e', he', heq⟩ := hall c hc hcgone
        rcases List.mem_cons.mp he' with rfl | he'
        · exact absurd heq.symm hne
        · exact ⟨e', he', heq⟩
    · rw [if_neg hgone]
      refine h.imp_left ?_
      rintro ⟨hsame, hall⟩
      refine ⟨hsame, fun c hc hcgone => ?_⟩
      obtain ⟨e', he', heq⟩ := hall c hc hcgone
      rcases List.mem_cons.mp he' with rfl | he'
      · rw [heq, hc] at he
        cases he
        exact absurd hcgone hgone
      · exact ⟨e', he', heq⟩

theorem lookup_clean (s : IIMetaCache) (ii : Id) (t : Readings) :
    (s.clean ii t).1.ii_meta.lookup ii = s.current ii t.third := by
  unfold clean
  dsimp only
  rw [lookup_checkClean]
  split
  · -- what went in the sweep would go now
    rw [current, lookup_cleanAllExpired, current, current, Option.filter_filter]
    congr 1
    funext c
    have hmono : c.Gone t.second → c.Gone t.third := fun h => h.mono t.le_third
    by_cases h : c.Gone t.second <;> simp [h, hmono]
  · rfl

theorem getIIQoSPrio_eq (s : IIMetaCache) (ii : Id) (t : Readings) :
    s.getIIQoSPrio ii t = (s.current ii t.third).map fun c => (c.prio, s.clean ii t) := by
  have hclean := s.lookup_clean ii t
  unfold getIIQoSPrio
  dsimp only
  rw [hclean]
  cases s.current ii t.third with
  | none => rfl
  | some c =>
    dsimp only [bind, Option.bind, pure, Option.map_some]
    rw [MetaDataContent.prio]
    split <;> rfl

end IIMetaCache

namespace LinkGraph

variable {V L : Type} {g : LinkGraph V L}

/-- A request and what it left. -/
structure Classified (V L : Type) where
  metric : Metric
  graph : LinkGraph V L
  cache : IIMetaCache
  calls : List InfoCall

/-- The part of `handleRequest` that picks the weights. The clock is read in the query and again for
the priority. -/
def handleRequest (getQoSID : Id → Id) (exten : Bool) (g : LinkGraph V L) (metaCache : IIMetaCache)
    (ids_str : Id) (asked looked : Readings) : Option (Classified V L) :=
  if exten && g.isQoSMapOk then do
    let (added, metaCache, calls) := metaCache.sendQueryIfNeeded getQoSID ids_str asked
    let (prio, metaCache, more) ←
      if added then some (defaultQosPrio, metaCache, [])
      else metaCache.getIIQoSPrio ids_str looked
    -- `prio` is an `int`, and the parameter is a byte
    let netprio := g.getWeightKeyForIIPrio prio.toUInt8
    let (weights, g) := g.plane netprio.toUInt8
    return ⟨.weighted netprio weights, g, metaCache, calls ++ more⟩
  else some ⟨.hops, g, metaCache, []⟩


variable {getQoSID : Id → Id} {s : IIMetaCache} {ii : Id} {t u : Readings}

/-- The entry that the query found is still there for the priority. -/
def Stays (s : IIMetaCache) (ii : Id) (t u : Readings) : Prop :=
  ∀ c, s.current ii t.first = some c → ¬ c.Gone u.third

theorem plane_eq {k : UInt16} {n : Nat} (hk : k.toNat ∈ g.classesUpTo n) :
    ∃ weights, g.plane k.toUInt8 = (weights, g) ∧ g.qlwm k.toUInt8 = some weights := by
  obtain ⟨p, hp, hpk, -⟩ := hk
  have hkey : k.toUInt8 = p := by
    apply UInt8.toNat_inj.mp
    rw [UInt16.toNat_toUInt8, ← hpk]
    exact Nat.mod_eq_of_lt p.toNat_lt
  rw [hkey]
  obtain ⟨weights, hweights⟩ := Option.isSome_iff_exists.mp hp
  exact ⟨weights, by rw [plane, hweights], hweights⟩

/-- The request stops only where the entry is gone between the two readings of the clock. -/
theorem handleRequest_eq (hok : g.isQoSMapOk = true) :
    (¬ Stays s ii t u ∧ handleRequest getQoSID true g s ii t u = none) ∨
    (Stays s ii t u ∧ ∃ weights cache calls,
      g.qlwm (g.getWeightKeyForIIPrio (s.priority ii t.first).toUInt8).toUInt8 = some weights ∧
      handleRequest getQoSID true g s ii t u = some
        ⟨.weighted (g.getWeightKeyForIIPrio (s.priority ii t.first).toUInt8) weights, g, cache, calls⟩) := by
  have hlookup := s.lookup_checkClean ii t.first
  obtain ⟨weights, hplane, hweights⟩ := plane_eq
    (isGreatest_getWeightKeyForIIPrio hok (s.priority ii t.first).toUInt8).1
  unfold handleRequest
  rw [hok, Bool.and_self, if_pos rfl, IIMetaCache.sendQueryIfNeeded]
  cases hcur : s.current ii t.first with
  | none =>
    rw [hcur] at hlookup
    have hprio : s.priority ii t.first = defaultQosPrio := by simp [IIMetaCache.priority, hcur]
    rw [hprio] at hplane hweights ⊢
    have hno : ii ∉ (s.checkClean t.first ii).1.ii_meta := AList.lookup_eq_none.mp hlookup
    refine .inr ⟨fun c hc => by simp [hcur] at hc, ?_⟩
    dsimp only
    rw [if_neg hno]
    dsimp only [bind, Option.bind, pure, if_true]
    rw [hplane]
    exact ⟨weights, _, _, hweights, rfl⟩
  | some c =>
    rw [hcur] at hlookup
    have hprio : s.priority ii t.first = c.prio := by simp [IIMetaCache.priority, hcur]
    rw [hprio] at hplane hweights ⊢
    have hyes : ii ∈ (s.checkClean t.first ii).1.ii_meta :=
      AList.lookup_isSome.mp (hlookup ▸ rfl)
    have hfound := (s.checkClean t.first ii).1.getIIQoSPrio_eq ii u
    rw [IIMetaCache.current_some hlookup] at hfound
    dsimp only
    rw [if_pos hyes]
    dsimp only
    rw [hfound]
    by_cases hgone : c.Gone u.third
    · rw [if_pos hgone]
      exact .inl ⟨fun h => h c hcur hgone, rfl⟩
    · rw [if_neg hgone]
      refine .inr ⟨fun d hd => ?_, ?_⟩
      · rw [hcur] at hd
        cases hd
        exact hgone
      · dsimp only [bind, Option.bind, pure, Option.map_some]
        rw [if_neg Bool.false_ne_true, hplane]
        exact ⟨weights, _, _, hweights, rfl⟩

/-- The request is matched over the best class for a priority, no plane is made, and no request with
a lower priority is matched over a higher class. -/
def MatchesBest (getQoSID : Id → Id) (g : LinkGraph V L) (s : IIMetaCache) (ii : Id) (t u : Readings) :
    Prop :=
  ∃ netprio weights cache calls,
    handleRequest getQoSID true g s ii t u = some ⟨.weighted netprio weights, g, cache, calls⟩ ∧
    g.qlwm netprio.toUInt8 = some weights ∧
    IsGreatest (g.classesUpTo (s.priority ii t.first).toNat) netprio.toNat ∧
    ∀ s' ii' t' u' netprio' weights' graph cache' calls',
      handleRequest getQoSID true g s' ii' t' u' =
        some ⟨.weighted netprio' weights', graph, cache', calls'⟩ →
      s'.priority ii' t'.first ≤ s.priority ii t.first → netprio' ≤ netprio

theorem matchesBest_iff (hok : g.isQoSMapOk = true) : MatchesBest getQoSID g s ii t u ↔
    Stays s ii t u ∧ ∀ p : UInt8, (g.qlwm p).isSome → p.toNat ≤ (s.priority ii t.first).toNat →
      p.toNat ≤ (s.priority ii t.first).toNat % 256 := by
  have hbest := fun v : UInt16 => toNat_toUInt8 v ▸ isGreatest_getWeightKeyForIIPrio hok v.toUInt8
  constructor
  · rintro ⟨netprio, weights, cache, calls, hrun, -, hgreatest, -⟩
    rcases handleRequest_eq hok with ⟨-, hnone⟩ | ⟨hstays, weights', cache', calls', -, hsome⟩
    · rw [hnone] at hrun
      cases hrun
    · rw [hsome] at hrun
      cases hrun
      exact ⟨hstays, (isGreatest_iff (hbest _)).mp hgreatest⟩
  · rintro ⟨hstays, hall⟩
    rcases handleRequest_eq hok with ⟨hgone, -⟩ | ⟨-, weights, cache, calls, hweights, hsome⟩
    · exact absurd hstays hgone
    have hgreatest := (isGreatest_iff (hbest _)).mpr hall
    refine ⟨_, weights, cache, calls, hsome, hweights, hgreatest, ?_⟩
    intro s' ii' t' u' netprio' weights' graph cache' calls' hrun hle
    rcases handleRequest_eq hok with ⟨-, hnone⟩ | ⟨-, weights'', cache'', calls'', -, hsome'⟩
    · rw [hnone] at hrun
      cases hrun
    · rw [hsome'] at hrun
      cases hrun
      have hle' : (s'.priority ii' t'.first).toNat ≤ (s.priority ii t.first).toNat :=
        UInt16.le_iff_toNat_le.mp hle
      have hlow : lowByte (s'.priority ii' t'.first) ≤ (s.priority ii t.first).toNat :=
        (Nat.mod_le _ _).trans hle'
      refine UInt16.le_iff_toNat_le.mpr ((hbest _).mono hgreatest ?_)
      rintro k ⟨p, hp, hpk, hk⟩
      exact ⟨p, hp, hpk, hk.trans hlow⟩

/-- Two planes. -/
def twoClasses : LinkGraph Nat Nat :=
  { LinkGraph.new [] with qlwm := fun p => if p = 0 ∨ p = 50 then some [] else none }

/-- An item with its metadata. -/
def knownItem (v : UInt16) : IIMetaCache :=
  ⟨AList.singleton [] ⟨Function.update QoSList.empty qosPrio (some v), false, 0, 1⟩, 1⟩

theorem matchesBest_sixty :
    twoClasses.isQoSMapOk = true ∧ MatchesBest id twoClasses (knownItem 60) [] (.once 1) (.once 1) := by
  refine ⟨by decide, (matchesBest_iff (by decide)).mpr ⟨?_, ?_⟩⟩
  · intro c hc
    have hlookup : (knownItem 60).ii_meta.lookup [] = some
      ⟨Function.update QoSList.empty qosPrio (some 60), false, 0, 1⟩ := rfl
    rw [IIMetaCache.current_some hlookup] at hc
    cases hc
    decide
  · intro p hp hle
    have hprio : (knownItem 60).priority [] (Readings.once 1).first = 60 := by decide
    rw [hprio] at hle ⊢
    exact hle

/-- With priority 256 the item gets the class of priority 0. -/
theorem not_matchesBest : ¬ ∀ (g : LinkGraph Nat Nat) (s : IIMetaCache) (ii : Id) (t u : Readings),
    g.isQoSMapOk = true → MatchesBest id g s ii t u := by
  intro h
  have hbest := h twoClasses (knownItem 256) [] (.once 1) (.once 1) (by decide)
  obtain ⟨netprio, weights, cache, calls, hrun, -, hgreatest, -⟩ := hbest
  have hprio : (knownItem 256).priority [] (Readings.once 1).first = 256 := by decide
  have hclass : twoClasses.getWeightKeyForIIPrio (256 : UInt16).toUInt8 = 0 := by decide
  have hfifty : 50 ≤ netprio.toNat :=
    hgreatest.2 ⟨50, by decide, rfl, by rw [hprio]; decide⟩
  rcases handleRequest_eq (g := twoClasses) (by decide) with ⟨-, hnone⟩ | ⟨-, _, _, _, -, hsome⟩
  · rw [hnone] at hrun
    cases hrun
  · rw [hsome, hprio, hclass] at hrun
    cases hrun
    exact absurd hfifty (by decide)

end LinkGraph

end Blackadder
