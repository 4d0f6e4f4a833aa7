import Mathlib.Data.List.AList
import Blackadder.Lib.Ledger
import Blackadder.Lib.Runs
import Blackadder.Qos.LSMPacket
import Blackadder.Rendezvous.Basic

/-!
# The cache of item metadata

Before an item is matched, the topology manager subscribes to the metadata of the item, under an id
that is derived from the item's, and it gives the subscription up when the metadata is there.
-/

namespace Blackadder

/-- `EXPIRATION_TIME`, `QUERY_EXP_TIME` and `NON_LAZY_INT`, in seconds. -/
def expirationTime : Int := 600
def queryExpTime : Int := 1
def nonLazyInt : Int := 3600

/-- `DEFAULT_QOS_PRIO`. -/
def defaultQosPrio : UInt16 := 0

/-- `QoS_PRIO`. -/
def qosPrio : UInt8 := 15

structure MetaDataContent where
  qos : QoSList
  querying : Bool
  querytime : Int
  created : Int

namespace MetaDataContent

def new : MetaDataContent := ⟨QoSList.empty, false, 0, 0⟩

/-- An answer that is too old. -/
def Outdated (now : Int) (c : MetaDataContent) : Prop :=
  0 < c.created ∧ expirationTime < now - c.created

/-- A query that waited too long. -/
def TimedOut (now : Int) (c : MetaDataContent) : Prop :=
  ¬ 0 < c.created ∧ c.querying = true ∧ queryExpTime < now - c.querytime

instance (now : Int) (c : MetaDataContent) : Decidable (c.Outdated now) :=
  inferInstanceAs (Decidable (_ ∧ _))

instance (now : Int) (c : MetaDataContent) : Decidable (c.TimedOut now) :=
  inferInstanceAs (Decidable (_ ∧ _ ∧ _))

end MetaDataContent

/-- The calls of the client library, with `DOMAIN_LOCAL`. -/
inductive InfoCall
  | subscribeInfo (id prefixID : Id)
  | unsubscribeInfo (id prefixID : Id)
deriving DecidableEq

/-- `IIMetaDataMap` is walked in some order. -/
structure IIMetaCache where
  ii_meta : AList (fun _ : Id => MetaDataContent)
  last_non_lazy_update : Int

/-- What `time(NULL)` returns, one after the other. -/
structure Readings where
  first : Int
  second : Int
  third : Int
  le_second : first ≤ second
  le_third : second ≤ third

def Readings.once (now : Int) : Readings := ⟨now, now, now, Int.le_refl _, Int.le_refl _⟩

namespace IIMetaCache

def new (now : Int) : IIMetaCache := ⟨∅, now⟩

/-- What `cleanAllExpired` and `checkClean` do about one entry. -/
def cleanEntry (s : IIMetaCache) (now : Int) (ii : Id) (c : MetaDataContent) :
    IIMetaCache × List InfoCall :=
  if c.Outdated now then ({ s with ii_meta := s.ii_meta.erase ii }, [])
  else if c.TimedOut now then
    ({ s with ii_meta := s.ii_meta.erase ii }, [.unsubscribeInfo (suffixOf ii) (fatherOf ii)])
  else (s, [])

def cleanAllExpired (s : IIMetaCache) (now : Int) : IIMetaCache × List InfoCall :=
  s.ii_meta.entries.foldl (fun (s, calls) e =>
    let (s, more) := s.cleanEntry now e.1 e.2
    (s, calls ++ more)) (s, [])

def checkClean (s : IIMetaCache) (now : Int) (ii : Id) : IIMetaCache × List InfoCall :=
  match s.ii_meta.lookup ii with
  | none => (s, [])
  | some c => s.cleanEntry now ii c

/-- What `getIIMeta` and `getIIQoSPrio` begin with. `last_non_lazy_update` stays what it was. -/
def clean (s : IIMetaCache) (ii : Id) (t : Readings) : IIMetaCache × List InfoCall :=
  let swept := if nonLazyInt < t.first - s.last_non_lazy_update then s.cleanAllExpired t.second
    else (s, [])
  let checked := swept.1.checkClean t.third ii
  (checked.1, swept.2 ++ checked.2)

def getIIMeta (s : IIMetaCache) (ii : Id) (t : Readings) :
    Option QoSList × IIMetaCache × List InfoCall :=
  let (s, calls) := s.clean ii t
  ((s.ii_meta.lookup ii).map (·.qos), s, calls)

/-- `none` stands for the use of `end()`. -/
def getIIQoSPrio (s : IIMetaCache) (ii : Id) (t : Readings) :
    Option (UInt16 × IIMetaCache × List InfoCall) := do
  let (s, calls) := s.clean ii t
  -- the entry is used before it is compared with `end()`
  let c ← s.ii_meta.lookup ii
  if c.querying then return (defaultQosPrio, s, calls)
  else return ((c.qos qosPrio).getD defaultQosPrio, s, calls)

def addMetaItem (s : IIMetaCache) (ii : Id) (now : Int) : IIMetaCache :=
  { s with
    ii_meta := s.ii_meta.insert ii
      { MetaDataContent.new with
        qos := Function.update QoSList.empty qosPrio (some 99)
        created := now } }

section

variable (getQoSID : Id → Id)

/-- `qos_prefix + qos_id`. The hash is taken of the last fragment. -/
def metaID (ii : Id) : Id := fatherOf ii ++ getQoSID (suffixOf ii)

/-- The entry of a query, behind the fast path for its metadata. -/
def startQuery (s : IIMetaCache) (ii : Id) (t : Readings) : IIMetaCache :=
  let s := s.addMetaItem (metaID getQoSID ii) t.second
  let mc := { MetaDataContent.new with querying := true, querytime := t.third }
  { s with ii_meta := s.ii_meta.insert ii mc }

def sendQueryIfNeeded (s : IIMetaCache) (ii : Id) (t : Readings) : Bool × IIMetaCache × List InfoCall :=
  let checked := s.checkClean t.first ii
  if ii ∈ checked.1.ii_meta then (false, checked)
  else (true, checked.1.startQuery getQoSID ii t,
    checked.2 ++ [.subscribeInfo (getQoSID (suffixOf ii)) (fatherOf ii)])

/-- The entry of an answer, without the fast path. -/
def answerQuery (s : IIMetaCache) (ii : Id) (c : MetaDataContent) (qos : QoSList) (now : Int) :
    IIMetaCache :=
  let ii_meta := s.ii_meta.insert ii { c with qos := qos, querying := false, created := now }
  { s with ii_meta := ii_meta.erase (metaID getQoSID ii) }

def update (s : IIMetaCache) (ii : Id) (qos : QoSList) (now : Int) : IIMetaCache × List InfoCall :=
  match s.ii_meta.lookup ii with
  | none => (s, [])
  | some c => (s.answerQuery getQoSID ii c qos now,
      [.unsubscribeInfo (getQoSID (suffixOf ii)) (fatherOf ii)])

/-- The calls of the topology manager. -/
inductive Call
  | sendQueryIfNeeded (ii : Id)
  | update (ii : Id) (qos : QoSList)
  | getIIMeta (ii : Id)
  | getIIQoSPrio (ii : Id)

def Call.ii : Call → Id
  | .sendQueryIfNeeded ii | .update ii _ | .getIIMeta ii | .getIIQoSPrio ii => ii

def call (s : IIMetaCache) (t : Readings) : Call → Option (IIMetaCache × List InfoCall)
  | .sendQueryIfNeeded ii => some (s.sendQueryIfNeeded getQoSID ii t).2
  | .update ii qos => some (s.update getQoSID ii qos t.first)
  | .getIIMeta ii => some (s.getIIMeta ii t).2
  | .getIIQoSPrio ii => (s.getIIQoSPrio ii t).map (·.2)

end

/-! ## What cleaning leaves -/

variable {s s' s'' : IIMetaCache} {ii jj X : Id} {c : MetaDataContent} {now now' : Int} {t : Readings}

/-- An entry goes only when it is outdated. -/
structure Trims (now : Int) (s s' : IIMetaCache) : Prop where
  sub : ∀ jj c, s'.ii_meta.lookup jj = some c → s.ii_meta.lookup jj = some c
  keep : ∀ jj c, s.ii_meta.lookup jj = some c → ¬ c.Outdated now → s'.ii_meta.lookup jj = some c

theorem Trims.refl (now : Int) (s : IIMetaCache) : Trims now s s :=
  ⟨fun _ _ h => h, fun _ _ h _ => h⟩

theorem Trims.trans (h : Trims now s s') (h' : Trims now s' s'') : Trims now s s'' :=
  ⟨fun jj c hc => h.sub jj c (h'.sub jj c hc), fun jj c hc ho => h'.keep jj c (h.keep jj c hc ho) ho⟩

theorem Trims.mono (h : Trims now s s') (hle : now ≤ now') : Trims now' s s' where
  sub := h.sub
  keep jj c hc ho := by
    refine h.keep jj c hc fun hout => ho ⟨hout.1, ?_⟩
    have hlt := hout.2
    omega

theorem cleanEntry_trims (h : Trims now s s') (hc : s.ii_meta.lookup ii = some c)
    (hwait : ¬ c.TimedOut now) :
    (s'.cleanEntry now ii c).2 = [] ∧ Trims now s (s'.cleanEntry now ii c).1 := by
  unfold cleanEntry
  split
  · next hout =>
    refine ⟨rfl, fun jj d hd => ?_, fun jj d hd ho => ?_⟩
    · have hne : jj ≠ ii := by
        rintro rfl
        simp at hd
      exact h.sub jj d ((AList.lookup_erase_ne hne).symm.trans hd)
    · have hne : jj ≠ ii := by
        rintro rfl
        obtain rfl : c = d := Option.some.inj (hc.symm.trans hd)
        exact ho hout
      exact (AList.lookup_erase_ne hne).trans (h.keep jj d hd ho)
  · exact ⟨rfl, h⟩

/-- No query of the cache waited too long. -/
def Calm (s : IIMetaCache) (now : Int) : Prop :=
  ∀ jj c, s.ii_meta.lookup jj = some c → ¬ c.TimedOut now

/-- One turn of the loop over the entries. -/
def cleanNext (now : Int) (x : IIMetaCache × List InfoCall) (e : Sigma fun _ : Id => MetaDataContent) :
    IIMetaCache × List InfoCall :=
  ((x.1.cleanEntry now e.1 e.2).1, x.2 ++ (x.1.cleanEntry now e.1 e.2).2)

theorem cleanAllExpired_eq (s : IIMetaCache) (now : Int) :
    s.cleanAllExpired now = s.ii_meta.entries.foldl (cleanNext now) (s, []) := rfl

theorem cleanAllExpired_trims (hcalm : s.Calm now) :
    (s.cleanAllExpired now).2 = [] ∧ Trims now s (s.cleanAllExpired now).1 := by
  rw [cleanAllExpired_eq]
  suffices ∀ (l : List (Sigma fun _ : Id => MetaDataContent)) (s' : IIMetaCache),
      (∀ e ∈ l, e ∈ s.ii_meta.entries) → Trims now s s' →
      (l.foldl (cleanNext now) (s', [])).2 = [] ∧ Trims now s (l.foldl (cleanNext now) (s', [])).1 from
    this _ s (fun _ he => he) (.refl now s)
  intro l
  induction l with
  | nil => exact fun s' _ h => ⟨rfl, h⟩
  | cons e l ih =>
    intro s' hl h
    have hlookup : s.ii_meta.lookup e.1 = some e.2 := by
      rw [← Option.mem_def, AList.mem_lookup_iff]
      exact hl e List.mem_cons_self
    obtain ⟨hnone, htrim⟩ := cleanEntry_trims h hlookup (hcalm _ _ hlookup)
    rw [List.foldl_cons, cleanNext, hnone]
    exact ih _ (fun e' he' => hl e' (List.mem_cons_of_mem e he')) htrim

/-- The query of one entry has not waited too long. -/
def Waits (s : IIMetaCache) (now : Int) (ii : Id) : Prop :=
  ∀ c, s.ii_meta.lookup ii = some c → ¬ c.TimedOut now

theorem checkClean_trims (hwait : s.Waits now ii) :
    (s.checkClean now ii).2 = [] ∧ Trims now s (s.checkClean now ii).1 := by
  unfold checkClean
  split
  · exact ⟨rfl, .refl now s⟩
  · next c hc => exact cleanEntry_trims (.refl now s) hc (hwait c hc)

/-- No query that `clean` looks at waited too long. -/
structure Quiet (s : IIMetaCache) (ii : Id) (t : Readings) : Prop where
  sweep : nonLazyInt < t.first - s.last_non_lazy_update → s.Calm t.second
  check : s.Waits t.third ii

theorem clean_trims (h : s.Quiet ii t) : (s.clean ii t).2 = [] ∧ Trims t.third s (s.clean ii t).1 := by
  unfold clean
  by_cases hsweep : nonLazyInt < t.first - s.last_non_lazy_update
  · rw [if_pos hsweep]
    obtain ⟨hnone, htrim⟩ := cleanAllExpired_trims (h.sweep hsweep)
    have hwait : (s.cleanAllExpired t.second).1.Waits t.third ii := fun c hc =>
      h.check c (htrim.sub ii c hc)
    obtain ⟨hnone', htrim'⟩ := checkClean_trims hwait
    dsimp only
    rw [hnone, hnone']
    exact ⟨rfl, (htrim.mono t.le_third).trans htrim'⟩
  · rw [if_neg hsweep]
    exact checkClean_trims h.check

/-! ## What is subscribed -/

/-- The queries, by the ids under which the cache is subscribed for them. -/
def Queried (getQoSID : Id → Id) (s : IIMetaCache) (X : Id) : Prop :=
  ∃ ii c, s.ii_meta.lookup ii = some c ∧ c.querying = true ∧ metaID getQoSID ii = X

/-- Queries have no answer yet, and ids have a fragment. -/
structure Tidy (s : IIMetaCache) : Prop where
  fresh : ∀ ii c, s.ii_meta.lookup ii = some c → c.querying = true → ¬ 0 < c.created
  long : ∀ ii c, s.ii_meta.lookup ii = some c → pursuitIdLen ≤ ii.length

/-- What the hash of a fragment is assumed to be: a fragment that no other one has. -/
structure Hashes (getQoSID : Id → Id) : Prop where
  length : ∀ f, (getQoSID f).length = pursuitIdLen
  inj : ∀ f g, f.length = pursuitIdLen → g.length = pursuitIdLen → getQoSID f = getQoSID g → f = g

variable {getQoSID : Id → Id}

theorem metaID_inj (hq : Hashes getQoSID) (hi : pursuitIdLen ≤ ii.length)
    (hj : pursuitIdLen ≤ jj.length) (h : metaID getQoSID ii = metaID getQoSID jj) : ii = jj := by
  have hlen : (getQoSID (suffixOf ii)).length = (getQoSID (suffixOf jj)).length := by
    rw [hq.length, hq.length]
  obtain ⟨hfather, hlast⟩ := List.append_inj' h hlen
  have hsuffix := hq.inj _ _ (suffixOf_length hi) (suffixOf_length hj) hlast
  rw [← fatherOf_append_suffixOf ii, ← fatherOf_append_suffixOf jj, hfather, hsuffix]

theorem length_metaID (hq : Hashes getQoSID) (ii : Id) :
    pursuitIdLen ≤ (metaID getQoSID ii).length := by
  rw [metaID, List.length_append, hq.length]
  exact Nat.le_add_left _ _

theorem Trims.tidy (h : Trims now s s') (hs : s.Tidy) : s'.Tidy where
  fresh jj c hc := hs.fresh jj c (h.sub jj c hc)
  long jj c hc := hs.long jj c (h.sub jj c hc)

theorem Trims.queried (h : Trims now s s') (hs : s.Tidy) :
    Queried getQoSID s' X ↔ Queried getQoSID s X := by
  constructor
  · rintro ⟨jj, c, hc, hquery, hX⟩
    exact ⟨jj, c, h.sub jj c hc, hquery, hX⟩
  · rintro ⟨jj, c, hc, hquery, hX⟩
    exact ⟨jj, c, h.keep jj c hc fun hout => hs.fresh jj c hc hquery hout.1, hquery, hX⟩

/-! ## One call -/

/-- The entry at the derived id is no query of its own. -/
def Spare (getQoSID : Id → Id) (s : IIMetaCache) (ii : Id) : Prop :=
  metaID getQoSID ii = ii ∨
    ∀ c, s.ii_meta.lookup (metaID getQoSID ii) = some c → c.querying = false

/-- What the code does not provide for is left out: queries that time out, answers that come twice,
the priority of an item that is not there, and queries about the metadata itself. -/
def Careful (getQoSID : Id → Id) (s : IIMetaCache) (t : Readings) : Call → Prop
  | .sendQueryIfNeeded ii => s.Waits t.first ii ∧
    ((∀ c, s.ii_meta.lookup ii = some c → c.Outdated t.first) → s.Spare getQoSID ii)
  | .update ii _ => ∀ c, s.ii_meta.lookup ii = some c → c.querying = true ∧ s.Spare getQoSID ii
  | .getIIMeta ii => s.Quiet ii t
  | .getIIQoSPrio ii => s.Quiet ii t ∧ ∃ c, s.ii_meta.lookup ii = some c ∧ ¬ c.Outdated t.third

/-- The keys that calls open and close. -/
def InfoCall.entry : InfoCall → Ledger.Entry Id
  | .subscribeInfo id prefixID => .opened (prefixID ++ id)
  | .unsubscribeInfo id prefixID => .closed (prefixID ++ id)

open Ledger (Tracks)

variable {log : List InfoCall} {qos : QoSList} {d : MetaDataContent}

theorem lookup_startQuery (h : (s.startQuery getQoSID ii t).ii_meta.lookup jj = some c) :
    (jj = ii ∧ ¬ 0 < c.created) ∨ (jj ≠ ii ∧ jj = metaID getQoSID ii ∧ c.querying = false) ∨
      (jj ≠ ii ∧ s.ii_meta.lookup jj = some c) := by
  by_cases hii : jj = ii
  · subst hii
    rw [startQuery, AList.lookup_insert] at h
    obtain rfl := Option.some.inj h
    exact Or.inl ⟨rfl, Int.lt_irrefl 0⟩
  · rw [startQuery, AList.lookup_insert_ne hii] at h
    by_cases hmeta : jj = metaID getQoSID ii
    · subst hmeta
      rw [addMetaItem, AList.lookup_insert] at h
      obtain rfl := Option.some.inj h
      exact Or.inr (Or.inl ⟨hii, rfl, rfl⟩)
    · rw [addMetaItem, AList.lookup_insert_ne hmeta] at h
      exact Or.inr (Or.inr ⟨hii, h⟩)

theorem startQuery_tidy (hq : Hashes getQoSID) (hs : s.Tidy) (hii : pursuitIdLen ≤ ii.length) :
    (s.startQuery getQoSID ii t).Tidy := by
  refine ⟨fun jj c hc hquery => ?_, fun jj c hc => ?_⟩
  · rcases lookup_startQuery hc with ⟨-, hnew⟩ | ⟨-, -, hno⟩ | ⟨-, hold⟩
    · exact hnew
    · rw [hno] at hquery
      cases hquery
    · exact hs.fresh jj c hold hquery
  · rcases lookup_startQuery hc with ⟨rfl, -⟩ | ⟨-, rfl, -⟩ | ⟨-, hold⟩
    · exact hii
    · exact length_metaID hq ii
    · exact hs.long jj c hold

theorem startQuery_queried (hno : ii ∉ s.ii_meta) (hspare : s.Spare getQoSID ii) :
    Queried getQoSID (s.startQuery getQoSID ii t) X ↔
      X = metaID getQoSID ii ∨ Queried getQoSID s X := by
  constructor
  · rintro ⟨jj, c, hc, hquery, rfl⟩
    rcases lookup_startQuery hc with ⟨rfl, -⟩ | ⟨-, -, hfast⟩ | ⟨-, hold⟩
    · exact Or.inl rfl
    · rw [hfast] at hquery
      cases hquery
    · exact Or.inr ⟨jj, c, hold, hquery, rfl⟩
  · rintro (rfl | ⟨jj, c, hc, hquery, rfl⟩)
    · exact ⟨ii, _, AList.lookup_insert _, rfl, rfl⟩
    · have hii : jj ≠ ii := by
        rintro rfl
        exact hno (AList.lookup_isSome.mp (by rw [hc]; rfl))
      have hmeta : jj ≠ metaID getQoSID ii := by
        rintro rfl
        rcases hspare with hsame | hspare
        · exact hii hsame
        · rw [hspare c hc] at hquery
          cases hquery
      refine ⟨jj, c, ?_, hquery, rfl⟩
      rw [startQuery, AList.lookup_insert_ne hii, addMetaItem, AList.lookup_insert_ne hmeta]
      exact hc

theorem not_queried (hq : Hashes getQoSID) (hs : s.Tidy) (hii : pursuitIdLen ≤ ii.length)
    (hno : ii ∉ s.ii_meta) : ¬ Queried getQoSID s (metaID getQoSID ii) := by
  rintro ⟨jj, c, hc, -, hsame⟩
  obtain rfl := metaID_inj hq (hs.long jj c hc) hii hsame
  exact hno (AList.lookup_isSome.mp (by rw [hc]; rfl))

theorem lookup_answerQuery
    (h : (s.answerQuery getQoSID ii c qos now).ii_meta.lookup jj = some d) :
    jj ≠ metaID getQoSID ii ∧ ((jj = ii ∧ d.querying = false) ∨
      (jj ≠ ii ∧ s.ii_meta.lookup jj = some d)) := by
  have hmeta : jj ≠ metaID getQoSID ii := by
    rintro rfl
    simp [answerQuery] at h
  rw [answerQuery, AList.lookup_erase_ne hmeta] at h
  refine ⟨hmeta, ?_⟩
  by_cases hii : jj = ii
  · subst hii
    rw [AList.lookup_insert] at h
    obtain rfl := Option.some.inj h
    exact Or.inl ⟨rfl, rfl⟩
  · rw [AList.lookup_insert_ne hii] at h
    exact Or.inr ⟨hii, h⟩

theorem answerQuery_tidy (hs : s.Tidy) (hii : pursuitIdLen ≤ ii.length) :
    (s.answerQuery getQoSID ii c qos now).Tidy := by
  refine ⟨fun jj d hd hquery => ?_, fun jj d hd => ?_⟩
  · obtain ⟨-, ⟨-, hno⟩ | ⟨-, hold⟩⟩ := lookup_answerQuery hd
    · rw [hno] at hquery
      cases hquery
    · exact hs.fresh jj d hold hquery
  · obtain ⟨-, ⟨rfl, -⟩ | ⟨-, hold⟩⟩ := lookup_answerQuery hd
    · exact hii
    · exact hs.long jj d hold

theorem answerQuery_queried (hq : Hashes getQoSID) (hs : s.Tidy) (hii : pursuitIdLen ≤ ii.length)
    (hspare : s.Spare getQoSID ii) : Queried getQoSID (s.answerQuery getQoSID ii c qos now) X ↔
      X ≠ metaID getQoSID ii ∧ Queried getQoSID s X := by
  constructor
  · rintro ⟨jj, d, hd, hquery, rfl⟩
    obtain ⟨-, ⟨-, hno⟩ | ⟨hne, hold⟩⟩ := lookup_answerQuery hd
    · rw [hno] at hquery
      cases hquery
    · exact ⟨fun hsame => hne (metaID_inj hq (hs.long jj d hold) hii hsame), jj, d, hold, hquery, rfl⟩
  · rintro ⟨hne, jj, d, hd, hquery, rfl⟩
    have hii' : jj ≠ ii := fun h => hne (h ▸ rfl)
    have hmeta : jj ≠ metaID getQoSID ii := by
      rintro rfl
      rcases hspare with hsame | hspare
      · exact hii' hsame
      · rw [hspare d hd] at hquery
        cases hquery
    refine ⟨jj, d, ?_, hquery, rfl⟩
    rw [answerQuery, AList.lookup_erase_ne hmeta, AList.lookup_insert_ne hii']
    exact hd

end IIMetaCache

/-! ## Runs -/

/-- The cache with the calls that it made of the client library so far, and the time. -/
structure MetaSession where
  cache : IIMetaCache
  log : List InfoCall
  clock : Int

namespace MetaSession

open IIMetaCache Ledger

def new (now : Int) : MetaSession := ⟨.new now, [], now⟩

/-- `none` stands for the use of an entry that is not there. -/
def next (getQoSID : Id → Id) (x : MetaSession) (a : Call × Readings) : Option MetaSession := do
  let (cache, calls) ← x.cache.call getQoSID a.2 a.1
  return ⟨cache, x.log ++ calls, a.2.third⟩

/-- One call about an item, with a clock that does not go back. -/
structure Step (getQoSID : Id → Id) (x : MetaSession) (a : Call × Readings) (x' : MetaSession) : Prop where
  item : pursuitIdLen ≤ a.1.ii.length
  clock : x.clock ≤ a.2.first
  next : x.next getQoSID a = some x'

/-- The cache is subscribed once for each of its queries and for nothing else, and it gave up
nothing that it was not subscribed for. -/
def Balanced (getQoSID : Id → Id) (x : MetaSession) : Prop :=
  Tracks (x.log.map InfoCall.entry) (x.cache.Queried getQoSID)

variable {getQoSID : Id → Id} {x x' : MetaSession} {a : Call × Readings} {s s' : IIMetaCache}
  {calls : List InfoCall} {log : List InfoCall} {c : Call} {t : Readings}

theorem call_balanced (hq : Hashes getQoSID) (hs : s.Tidy) (hii : pursuitIdLen ≤ c.ii.length)
    (hcare : s.Careful getQoSID t c) (h : Tracks (log.map InfoCall.entry) (s.Queried getQoSID)) :
    ∃ s' calls, s.call getQoSID t c = some (s', calls) ∧ s'.Tidy ∧
      Tracks ((log ++ calls).map InfoCall.entry) (s'.Queried getQoSID) := by
  cases c with
  | sendQueryIfNeeded ii =>
    obtain ⟨hwait, hspare⟩ := hcare
    obtain ⟨hnone, htrim⟩ := checkClean_trims hwait
    have hs' := htrim.tidy hs
    have hsame : ∀ X, (s.checkClean t.first ii).1.Queried getQoSID X ↔ s.Queried getQoSID X :=
      fun X => htrim.queried hs
    have h' := h.congr hsame
    by_cases hno : ii ∈ (s.checkClean t.first ii).1.ii_meta
    · have hcall : s.call getQoSID t (.sendQueryIfNeeded ii) =
          some ((s.checkClean t.first ii).1, []) := by
        rw [← hnone]
        simp only [call, sendQueryIfNeeded, if_pos hno]
      exact ⟨_, _, hcall, hs', by rwa [List.append_nil]⟩
    · have hcall : s.call getQoSID t (.sendQueryIfNeeded ii) =
          some ((s.checkClean t.first ii).1.startQuery getQoSID ii t,
            [.subscribeInfo (getQoSID (suffixOf ii)) (fatherOf ii)]) := by
        simp only [call, sendQueryIfNeeded, if_neg hno, hnone, List.nil_append]
      refine ⟨_, _, hcall, startQuery_tidy hq hs' hii, ?_⟩
      have hgone : ∀ d, s.ii_meta.lookup ii = some d → d.Outdated t.first := by
        intro d hd
        by_contra hnew
        exact hno (AList.lookup_isSome.mp (by rw [htrim.keep ii d hd hnew]; rfl))
      have hspare' : (s.checkClean t.first ii).1.Spare getQoSID ii :=
        (hspare hgone).imp_right fun hfast d hd => hfast d (htrim.sub _ _ hd)
      rw [List.map_append]
      exact (h'.opened (not_queried hq hs' hii hno)).congr fun X => startQuery_queried hno hspare'
  | update ii qos =>
    simp only [call, update]
    split
    · exact ⟨_, _, rfl, hs, by rwa [List.append_nil]⟩
    · next d hd =>
      obtain ⟨hquery, hspare⟩ := hcare d hd
      refine ⟨_, _, rfl, answerQuery_tidy hs hii, ?_⟩
      rw [List.map_append]
      have hopen : s.Queried getQoSID (metaID getQoSID ii) := ⟨ii, d, hd, hquery, rfl⟩
      exact (h.closed hopen).congr fun X => answerQuery_queried hq hs hii hspare
  | getIIMeta ii =>
    obtain ⟨hnone, htrim⟩ := clean_trims hcare
    have hcall : s.call getQoSID t (.getIIMeta ii) = some ((s.clean ii t).1, []) := by
      rw [← hnone]
      rfl
    refine ⟨_, _, hcall, htrim.tidy hs, ?_⟩
    rw [List.append_nil]
    exact h.congr fun X => htrim.queried hs
  | getIIQoSPrio ii =>
    obtain ⟨hquiet, d, hd, hnew⟩ := hcare
    obtain ⟨hnone, htrim⟩ := clean_trims hquiet
    have hthere := htrim.keep ii d hd hnew
    have hcall : s.call getQoSID t (.getIIQoSPrio ii) = some ((s.clean ii t).1, []) := by
      simp only [call, getIIQoSPrio, hthere, hnone, Option.bind_eq_bind, Option.bind_some]
      split <;> rfl
    refine ⟨_, _, hcall, htrim.tidy hs, ?_⟩
    rw [List.append_nil]
    exact h.congr fun X => htrim.queried hs

/-- When every call is careful, the subscriptions are balanced after every call and no call uses
an entry that is not there. -/
theorem balanced (hq : Hashes getQoSID) {now : Int} (h : Runs.Reachable (Runs.Guarded (Step getQoSID)
    fun x a => x.cache.Careful getQoSID a.2 a.1) (new now) x) :
    x.Balanced getQoSID ∧ ∀ a, pursuitIdLen ≤ a.1.ii.length → x.cache.Careful getQoSID a.2 a.1 →
      ∃ x', x.next getQoSID a = some x' := by
  have hempty : (IIMetaCache.new now).Tidy := by
    constructor <;> simp [IIMetaCache.new]
  have hinv : x.cache.Tidy ∧ x.Balanced getQoSID := by
    refine h.invariant (I := fun x => x.cache.Tidy ∧ x.Balanced getQoSID) ⟨hempty, ?_⟩ ?_
    · refine tracks_nil.congr fun X => ?_
      simp [Queried, new, IIMetaCache.new]
    · rintro x a x' - ⟨hs, hbal⟩ ⟨hstep, hcare⟩
      obtain ⟨s', calls, hcall, hs', hbal'⟩ := call_balanced hq hs hstep.item hcare hbal
      have hnext := hstep.next
      simp only [next, hcall, Option.bind_eq_bind, Option.bind_some] at hnext
      obtain rfl := Option.some.inj hnext
      exact ⟨hs', hbal'⟩
  refine ⟨hinv.2, fun a hii hcare => ?_⟩
  obtain ⟨s', calls, hcall, -⟩ := call_balanced hq hinv.1 hii hcare hinv.2
  refine ⟨⟨s', x.log ++ calls, a.2.third⟩, ?_⟩
  simp only [next, hcall, Option.bind_eq_bind, Option.bind_some]
  rfl

/-- A hash that turns bits of a fragment over. -/
def exampleHash (f : Id) : Id :=
  if f.length = pursuitIdLen then f.zipWith (· ^^^ ·) [203, 71, 54, 120, 151, 111, 66, 92]
  else List.replicate pursuitIdLen 0

theorem zipWith_xor_cancel {f m : List UInt8} (h : f.length = m.length) :
    (f.zipWith (· ^^^ ·) m).zipWith (· ^^^ ·) m = f := by
  induction f generalizing m with
  | nil => rfl
  | cons b f ih =>
    cases m with
    | nil => simp at h
    | cons k m =>
      have hb : b ^^^ k ^^^ k = b := by rw [UInt8.xor_assoc, UInt8.xor_self, UInt8.xor_zero]
      simp only [List.zipWith_cons_cons, hb, ih (by simpa using h)]

theorem hashes_example : Hashes exampleHash := by
  constructor
  · intro f
    unfold exampleHash
    split
    · next h => simp [h, pursuitIdLen]
    · simp
  · intro f g hf hg h
    rw [exampleHash, if_pos hf, exampleHash, if_pos hg] at h
    have hback := congrArg (List.zipWith (· ^^^ ·) · [203, 71, 54, 120, 151, 111, 66, 92]) h
    rwa [zipWith_xor_cancel hf, zipWith_xor_cancel hg] at hback

/-- A query that gets its answer. -/
theorem balanced_answered : ∃ x : MetaSession, x.Balanced exampleHash ∧ x.log.length = 2 := by
  let ask : Call × Readings := (.sendQueryIfNeeded (frag 1), .once 1)
  let answer : Call × Readings := (.update (frag 1) QoSList.empty, .once 2)
  obtain ⟨x₁, h₁⟩ : ∃ x₁, (new 1).next exampleHash ask = some x₁ := ⟨_, rfl⟩
  obtain ⟨x₂, h₂⟩ : ∃ x₂, x₁.next exampleHash answer = some x₂ := by
    obtain rfl := Option.some.inj h₁
    exact ⟨_, rfl⟩
  have hask : Step exampleHash (new 1) ask x₁ := ⟨by decide, by decide, h₁⟩
  have hanswer : Step exampleHash x₁ answer x₂ := by
    refine ⟨by decide, ?_, h₂⟩
    obtain rfl := Option.some.inj h₁
    decide
  have hcare : (new 1).cache.Careful exampleHash ask.2 ask.1 := ⟨nofun, fun _ => Or.inr nofun⟩
  have hcare' : x₁.cache.Careful exampleHash answer.2 answer.1 := by
    obtain rfl := Option.some.inj h₁
    intro c hc
    obtain rfl := Option.some.inj hc
    refine ⟨rfl, Or.inr fun d hd => ?_⟩
    obtain rfl := Option.some.inj hd
    rfl
  have hbal := balanced hashes_example ((Runs.Reachable.start.next ⟨hask, hcare⟩).next ⟨hanswer, hcare'⟩)
  refine ⟨x₂, hbal.1, ?_⟩
  obtain rfl := Option.some.inj h₁
  obtain rfl := Option.some.inj h₂
  rfl

/-- A query that waits too long: the cache gives up the item, for which it is not subscribed. -/
theorem not_balanced : ∃ x, Runs.Reachable (Step exampleHash) (new 1) x ∧ ¬ x.Balanced exampleHash := by
  let ask : Call × Readings := (.sendQueryIfNeeded (frag 1), .once 1)
  let look : Call × Readings := (.getIIMeta (frag 1), .once 3)
  obtain ⟨x₁, h₁⟩ : ∃ x₁, (new 1).next exampleHash ask = some x₁ := ⟨_, rfl⟩
  obtain ⟨x₂, h₂⟩ : ∃ x₂, x₁.next exampleHash look = some x₂ := by
    obtain rfl := Option.some.inj h₁
    exact ⟨_, rfl⟩
  have hask : Step exampleHash (new 1) ask x₁ := ⟨by decide, by decide, h₁⟩
  have hlook : Step exampleHash x₁ look x₂ := by
    refine ⟨by decide, ?_, h₂⟩
    obtain rfl := Option.some.inj h₁
    decide
  refine ⟨x₂, (Runs.Reachable.start.next hask).next hlook, fun h => ?_⟩
  obtain rfl := Option.some.inj h₁
  obtain rfl := Option.some.inj h₂
  have hclosed := h.covered [.opened (exampleHash (frag 1))] (frag 1) [] rfl
  exact absurd hclosed (by decide)

end MetaSession

end Blackadder
