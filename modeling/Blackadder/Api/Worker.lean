import Blackadder.Api.Events
import Blackadder.Lib.Fairness

/-!
# The event queue of `NB_Blackadder`

The thread of `selector` puts events into `event_queue`, and the thread of `worker` hands them to the
callback. `worker_mutex` is free while the callback runs, and when the worker goes back to wait.
-/

namespace Blackadder

open Runs

/-- Where the thread of `worker` is. -/
inductive NBWorker where
  /-- In front of the mutex, at the start of the outer loop. -/
  | outside
  /-- In `pthread_cond_wait`. -/
  | waiting
  /-- Still in `pthread_cond_wait`, in front of the mutex. -/
  | woken
  /-- At the test of the inner loop, with the mutex. -/
  | holding
  /-- In the callback. -/
  | calling
deriving DecidableEq

/-- The static members that the read side uses, the datagrams that were read and the events that the
callback got. -/
structure NBReader where
  worker : NBWorker
  /-- What the selector has read and has not yet pushed. -/
  read : Option Event
  eventQueue : List Event
  received : List (List UInt8)
  handed : List Event
deriving DecidableEq

inductive NBReaderStep where
  /-- The selector reads a datagram. -/
  | receive (d : List UInt8)
  /-- It takes the mutex, pushes, signals and gives the mutex back. -/
  | push
  /-- `pthread_cond_wait` returns without a signal. -/
  | spurious
  /-- The worker goes on, and in the callback it comes back from it. -/
  | work
deriving DecidableEq

namespace NBReader

variable {s s' : NBReader} {a : NBReaderStep} {ev : Event} {d : List UInt8} {i : Nat}

def init : NBReader := ⟨.outside, none, [], [], []⟩

/-- `pthread_cond_signal`. -/
def signal (s : NBReader) : NBReader :=
  { s with worker := if s.worker = .waiting then .woken else s.worker }

/-- The worker up to its next use of the mutex or of the condition. -/
def work (s : NBReader) : Option NBReader :=
  match s.worker with
  | .outside => some { s with worker := .waiting }
  | .waiting => none
  | .woken => some { s with worker := .holding }
  | .holding =>
    match s.eventQueue with
    | [] => some { s with worker := .outside }
    | ev :: eventQueue =>
      some { s with worker := .calling, eventQueue, handed := s.handed ++ [ev] }
  | .calling => some { s with worker := .holding }

/-- `none` for a thread that has to wait, and for a datagram with an event that ends behind it. -/
def step (s : NBReader) : NBReaderStep → Option NBReader
  | .receive d =>
    match s.read, NBLibrary.readEvent d with
    | none, some ev => some { s with read := some ev, received := s.received ++ [d] }
    | _, _ => none
  | .push =>
    match s.read with
    | none => none
    | some ev =>
      if s.worker = .holding then none
      else some { s.signal with read := none, eventQueue := s.eventQueue ++ [ev] }
  | .spurious => if s.worker = .waiting then some { s with worker := .woken } else none
  | .work => s.work

def Step (s : NBReader) (a : NBReaderStep) (s' : NBReader) : Prop := s.step a = some s'

/-- What a thread does by itself. No datagram has to come, and no wait ends for nothing. -/
def Urgent (a : NBReaderStep) : Prop := a = .push ∨ a = .work

/-- The worker comes to the test of the inner loop. -/
def Awake (s : NBReader) : Prop := s.worker ≠ .outside ∧ s.worker ≠ .waiting

/-- The events that are or were in the queue. -/
def pushed (s : NBReader) : List Event := s.handed ++ s.eventQueue

/-! ## Steps -/

theorem step_receive (h : Step s (.receive d) s') : ∃ ev, s.read = none ∧
    NBLibrary.readEvent d = some ev ∧
    s' = { s with read := some ev, received := s.received ++ [d] } := by
  simp only [Step, step] at h
  split at h
  · next ev hnone hev => exact ⟨ev, hnone, hev, (Option.some.inj h).symm⟩
  · cases h

theorem step_push (h : Step s .push s') : ∃ ev, s.read = some ev ∧ s.worker ≠ .holding ∧
    s' = { s.signal with read := none, eventQueue := s.eventQueue ++ [ev] } := by
  simp only [Step, step] at h
  split at h
  · cases h
  · next ev hev =>
    split at h
    · cases h
    · next hfree => exact ⟨ev, hev, hfree, (Option.some.inj h).symm⟩

theorem step_spurious (h : Step s .spurious s') :
    s.worker = .waiting ∧ s' = { s with worker := .woken } := by
  simp only [Step, step] at h
  split at h
  · next hw => exact ⟨hw, (Option.some.inj h).symm⟩
  · cases h

theorem step_work (h : Step s .work s') :
    (s.worker = .outside ∧ s' = { s with worker := .waiting }) ∨
    ((s.worker = .woken ∨ s.worker = .calling) ∧ s' = { s with worker := .holding }) ∨
    (s.worker = .holding ∧ s.eventQueue = [] ∧ s' = { s with worker := .outside }) ∨
    ∃ ev q, s.worker = .holding ∧ s.eventQueue = ev :: q ∧
      s' = { s with worker := .calling, eventQueue := q, handed := s.handed ++ [ev] } := by
  simp only [Step, step, work] at h
  split at h
  · next hw => exact .inl ⟨hw, (Option.some.inj h).symm⟩
  · cases h
  · next hw => exact .inr (.inl ⟨.inl hw, (Option.some.inj h).symm⟩)
  · next hw =>
    split at h
    · next hq => exact .inr (.inr (.inl ⟨hw, hq, (Option.some.inj h).symm⟩))
    · next ev q hq => exact .inr (.inr (.inr ⟨ev, q, hw, hq, (Option.some.inj h).symm⟩))
  · next hw => exact .inr (.inl ⟨.inr hw, (Option.some.inj h).symm⟩)

theorem exists_work (h : s.worker ≠ .waiting) : ∃ s', Step s .work s' := by
  simp only [Step, step, work]
  split
  case h_2 hw => exact absurd hw h
  case h_4 => split <;> exact ⟨_, rfl⟩
  all_goals exact ⟨_, rfl⟩

theorem exists_push (h : s.read = some ev) (hfree : s.worker ≠ .holding) : ∃ s', Step s .push s' := by
  simp only [Step, step, h]
  exact ⟨_, if_neg hfree⟩

/-! ## The order of the events -/

/-- All that was read is handed out, in the queue or still with the selector, in this order. -/
def Ordered (s : NBReader) : Prop :=
  s.received.map NBLibrary.readEvent = (s.pushed ++ s.read.toList).map some

theorem step_ordered (s : NBReader) (a : NBReaderStep) (s' : NBReader) (hs : Step s a s')
    (h : s.Ordered) : s'.Ordered := by
  unfold Ordered pushed at *
  cases a with
  | receive d =>
    obtain ⟨ev, hnone, hev, rfl⟩ := step_receive hs
    rw [hnone] at h
    simp [h, hev]
  | push =>
    obtain ⟨ev, hev, -, rfl⟩ := step_push hs
    rw [hev] at h
    simp [signal, h]
  | spurious =>
    obtain ⟨-, rfl⟩ := step_spurious hs
    exact h
  | work =>
    obtain ⟨-, rfl⟩ | ⟨-, rfl⟩ | ⟨-, -, rfl⟩ | ⟨ev, q, -, hq, rfl⟩ := step_work hs
    · exact h
    · exact h
    · exact h
    · rw [hq] at h
      simp [h]

theorem Ordered.handed (h : s.Ordered) : s.handed.map some <+: s.received.map NBLibrary.readEvent := by
  rw [h, pushed, List.append_assoc, List.map_append]
  exact List.prefix_append _ _

/-- The callback is told what the proxy had to say, in the order of the datagrams. -/
theorem Ordered.told {told : List (UInt8 × Id × Option (List UInt8))} (h : s.Ordered)
    (hd : List.Forall₂ (fun d t => Sendable t.2.1 ∧ ∃ (o : ProxyOutput) (fresh : Nat → UInt8) (pid : Nat),
      o.told = some t ∧ o.datagram fresh pid = some d) s.received told) :
    s.handed.map Event.told <+: told := by
  have hread : s.received.map (fun d => (NBLibrary.readEvent d).map Event.told) = told.map some := by
    refine List.forall₂_eq_eq_eq ▸ List.forall₂_map_left_iff.mpr (List.forall₂_map_right_iff.mpr ?_)
    refine hd.imp fun d t => ?_
    rintro ⟨hID, o, fresh, pid, ht, hd⟩
    obtain ⟨d', hd', hread⟩ := readEvent_datagram fresh pid ht hID
    rwa [Option.some.inj (hd.symm.trans hd')]
  have hall := h.handed.map (Option.map Event.told)
  rw [List.map_map, List.map_map] at hall
  refine (List.prefix_map_iff_of_injective (Option.some_injective _)).mp ?_
  rw [← hread, List.map_map]
  exact hall

/-- Nothing else than a push makes the queue and what was handed out longer. -/
theorem step_pushed (hs : Step s a s') (ha : a ≠ .push) : s'.pushed = s.pushed := by
  cases a with
  | receive d =>
    obtain ⟨ev, -, -, rfl⟩ := step_receive hs
    rfl
  | push => exact absurd rfl ha
  | spurious =>
    obtain ⟨-, rfl⟩ := step_spurious hs
    rfl
  | work =>
    obtain ⟨-, rfl⟩ | ⟨-, rfl⟩ | ⟨-, -, rfl⟩ | ⟨ev, q, -, hq, rfl⟩ := step_work hs
    · rfl
    · rfl
    · rfl
    · simp [pushed, hq]

theorem pushed_isPrefix (s : NBReader) (a : NBReaderStep) (s' : NBReader) (hs : Step s a s') :
    s.pushed <+: s'.pushed := by
  by_cases ha : a = .push
  case neg => rw [step_pushed hs ha]
  subst ha
  obtain ⟨ev, -, -, rfl⟩ := step_push hs
  rw [pushed, pushed, signal, ← List.append_assoc]
  exact List.prefix_append _ _

theorem awake_of_woken (hs : Step s a s') (hw : s.worker = .waiting)
    (ha : a = .push ∨ a = .spurious) : s'.Awake := by
  obtain rfl | rfl := ha
  · obtain ⟨ev, -, -, rfl⟩ := step_push hs
    simp [Awake, signal, hw]
  · obtain ⟨-, rfl⟩ := step_spurious hs
    simp [Awake]

theorem awake_of_push (hs : Step s .push s') (hw : s.worker ≠ .outside) : s'.Awake := by
  by_cases hwait : s.worker = .waiting
  case pos => exact awake_of_woken hs hwait (.inl rfl)
  obtain ⟨ev, -, -, rfl⟩ := step_push hs
  simp [Awake, signal, hw, hwait]

/-! ## Fair runs -/

/-- Event `i` is in the queue, and the worker will look there. -/
structure Served (i : Nat) (s : NBReader) : Prop where
  awake : s.Awake
  left : s.handed.length ≤ i
  inQueue : i < s.pushed.length

/-- The steps of the worker before it hands out event `i`. -/
def stepsTo (i : Nat) (s : NBReader) : Nat :=
  2 * (i + 1 - s.handed.length) + if s.worker = .holding then 0 else 1

theorem work_served (s s' : NBReader) (h : Served i s) (hs : Step s .work s') :
    i < s'.handed.length ∨ Served i s' ∧ s'.stepsTo i < s.stepsTo i := by
  obtain ⟨⟨hout, hwait⟩, hleft, hqueue⟩ := h
  obtain ⟨hw, -⟩ | ⟨hw, rfl⟩ | ⟨-, hq, -⟩ | ⟨ev, q, hw, hq, rfl⟩ := step_work hs
  · exact absurd hw hout
  · refine .inr ⟨⟨by simp [Awake], hleft, hqueue⟩, ?_⟩
    obtain hw | hw := hw <;> simp [stepsTo, hw]
  · -- an event is in the queue
    simp only [pushed, hq, List.append_nil] at hqueue
    omega
  · by_cases hi : i < s.handed.length + 1
    · exact .inl (by simpa using hi)
    refine .inr ⟨⟨by simp [Awake], by simp; omega, ?_⟩, ?_⟩
    · simpa [pushed, hq] using hqueue
    · simp [stepsTo, hw]
      omega

theorem step_served (s : NBReader) (a : NBReaderStep) (s' : NBReader) (h : Served i s)
    (hs : Step s a s') : i < s'.handed.length ∨ Served i s' ∧ s'.stepsTo i ≤ s.stepsTo i := by
  obtain ⟨hawake, hleft, hqueue⟩ := h
  cases a with
  | receive d =>
    obtain ⟨ev, -, -, rfl⟩ := step_receive hs
    exact .inr ⟨⟨hawake, hleft, hqueue⟩, le_rfl⟩
  | push =>
    obtain ⟨ev, -, -, rfl⟩ := step_push hs
    have hsame : s.signal = s := by rw [signal, if_neg hawake.2]
    rw [hsame]
    refine .inr ⟨⟨hawake, hleft, ?_⟩, le_rfl⟩
    simp only [pushed, List.length_append] at hqueue ⊢
    omega
  | spurious => exact absurd (step_spurious hs).1 hawake.2
  | work =>
    obtain hdone | ⟨hserved, hlt⟩ := work_served s s' ⟨hawake, hleft, hqueue⟩ hs
    · exact .inl hdone
    · exact .inr ⟨hserved, hlt.le⟩

section

variable {r : Nat → NBReader} {act : Nat → Option NBReaderStep} {k k' : Nat}

theorem handed_of_awake (h : FairFor Urgent Step r act) (hawake : (r k).Awake)
    (hi : i < (r k).pushed.length) : ∃ k', k ≤ k' ∧ i < (r k').handed.length := by
  by_cases hleft : i < (r k).handed.length
  · exact ⟨k, le_rfl, hleft⟩
  exact h.progress (P := Served i) (Q := fun s => i < s.handed.length) (N := stepsTo i)
    (.inr rfl) (fun s hs => exists_work hs.awake.2) step_served work_served
    ⟨hawake, by omega, hi⟩

/-- The selector has an event that is to be number `i` of the queue. -/
structure Reads (ev : Event) (i : Nat) (s : NBReader) : Prop where
  read : s.read = some ev
  place : s.pushed.length = i

theorem step_reads (s : NBReader) (a : NBReaderStep) (s' : NBReader) (ha : a ≠ .push)
    (h : Reads ev i s) (hs : Step s a s') : Reads ev i s' := by
  refine ⟨?_, by rw [step_pushed hs ha, h.place]⟩
  cases a with
  | receive d =>
    obtain ⟨ev', hnone, -, -⟩ := step_receive hs
    rw [h.read] at hnone
    cases hnone
  | push => exact absurd rfl ha
  | spurious =>
    obtain ⟨-, rfl⟩ := step_spurious hs
    exact h.read
  | work =>
    obtain ⟨-, rfl⟩ | ⟨-, rfl⟩ | ⟨-, -, rfl⟩ | ⟨ev, q, -, -, rfl⟩ := step_work hs <;> exact h.read

theorem push_of_free (h : FairFor Urgent Step r act) (hfree : (r k).worker ≠ .holding)
    (hr : Reads ev i (r k)) : ∃ m, k ≤ m ∧ act m = some .push ∧ Reads ev i (r m) :=
  h.takes (.inl rfl) step_reads (exists_push hr.read hfree) hr

/-- An event that was read comes into the queue. The worker does not keep the mutex. -/
theorem exists_pushed (h : FairFor Urgent Step r act) (hr : Reads ev i (r k)) :
    ∃ m, k ≤ m ∧ act m = some .push ∧ Reads ev i (r m) := by
  by_cases hfree : (r k).worker = .holding
  case neg => exact push_of_free h hfree hr
  have hgo : ∃ s', Step (r k) .work s' := exists_work (by rw [hfree]; decide)
  obtain ⟨m, hm, hact, hs⟩ := h.eventually (.inr rfl) hgo
  obtain hpushed | hr' := h.taken_or step_reads hm hr
  · exact hpushed
  by_cases hfree' : (r m).worker = .holding
  case neg =>
    obtain ⟨m', hm', hpushed⟩ := push_of_free h hfree' hr'
    exact ⟨m', by omega, hpushed⟩
  -- the worker lets the mutex go in this step
  have hnext : (r (m + 1)).worker ≠ .holding := by
    obtain ⟨hw, -⟩ | ⟨hw | hw, -⟩ | ⟨-, -, hs⟩ | ⟨ev, q, -, -, hs⟩ := step_work hs
    · rw [hfree'] at hw
      cases hw
    · rw [hfree'] at hw
      cases hw
    · rw [hfree'] at hw
      cases hw
    · rw [hs]
      simp
    · rw [hs]
      simp
  obtain ⟨m', hm', hpushed⟩ := push_of_free h hnext (step_reads _ _ _ (by decide) hr' hs)
  exact ⟨m', by omega, hpushed⟩

/-- Nothing is handed out as long as nobody ends the wait of the worker. -/
theorem handed_of_not_woken (h : FairFor Urgent Step r act) (hk : k ≤ k')
    (hasleep : ¬ (r k).Awake)
    (hwoken : ∀ m, k ≤ m → (r m).worker = .waiting → act m ≠ some .push ∧ act m ≠ some .spurious) :
    ¬ (r k').Awake ∧ (r k').handed = (r k).handed := by
  induction hk with
  | refl => exact ⟨hasleep, rfl⟩
  | @step m hm ih =>
    obtain ⟨hsleep, hsame⟩ := ih
    cases hact : act m with
    | none => exact h.wait m hact ▸ ⟨hsleep, hsame⟩
    | some a =>
      have hs := h.next m a hact
      unfold Awake at hsleep ⊢
      cases a with
      | receive d =>
        obtain ⟨ev, -, -, hs'⟩ := step_receive hs
        rw [hs']
        exact ⟨hsleep, hsame⟩
      | push =>
        have hw : (r m).worker ≠ .waiting := fun hw => (hwoken m hm hw).1 hact
        obtain ⟨ev, -, -, hs'⟩ := step_push hs
        rw [hs', signal, if_neg hw]
        exact ⟨hsleep, hsame⟩
      | spurious => exact absurd hact (hwoken m hm (step_spurious hs).1).2
      | work =>
        obtain ⟨-, hs'⟩ | ⟨hw, -⟩ | ⟨hw, -, -⟩ | ⟨ev, q, hw, -, -⟩ := step_work hs
        · rw [hs']
          exact ⟨by simp, hsame⟩
        · exact absurd ⟨by grind, by grind⟩ hsleep
        · exact absurd ⟨by grind, by grind⟩ hsleep
        · exact absurd ⟨by grind, by grind⟩ hsleep

theorem pushed_mono (h : FairFor Urgent Step r act) (hk : k ≤ k') : (r k).pushed <+: (r k').pushed :=
  h.stable (P := fun s => (r k).pushed <+: s.pushed)
    (fun s a s' hs hpre => hpre.trans (pushed_isPrefix s a s' hs)) hk (List.prefix_refl _)

/-- Event `ev` comes into the queue as number `i` in step `k`. -/
structure Pushes (r : Nat → NBReader) (act : Nat → Option NBReaderStep) (ev : Event) (i k : Nat) : Prop where
  act : act k = some .push
  reads : Reads ev i (r k)

theorem Pushes.later (h : FairFor Urgent Step r act) (hp : Pushes r act ev i k) (hk : k < k') :
    (r k').pushed[i]? = some ev := by
  obtain ⟨ev', hev, -, hs⟩ := step_push (h.next k _ hp.act)
  obtain rfl := Option.some.inj (hp.reads.read.symm.trans hev)
  have hlast : (r (k + 1)).pushed = (r k).pushed ++ [ev] := by
    rw [hs, signal, NBReader.pushed, NBReader.pushed, List.append_assoc]
  obtain ⟨rest, hrest⟩ := pushed_mono h hk
  rw [← hrest, hlast, List.append_assoc, List.getElem?_append_right hp.reads.place.le, hp.reads.place,
    Nat.sub_self]
  rfl

/-- It is handed out when the worker comes to the inner loop later on. -/
theorem Pushes.handed (h : FairFor Urgent Step r act) (hp : Pushes r act ev i k) (hk : k < k')
    (hawake : (r k').Awake) : ∃ m, (r m).handed[i]? = some ev := by
  have hpushed := hp.later h hk
  obtain ⟨hi, -⟩ := List.getElem?_eq_some_iff.mp hpushed
  obtain ⟨m, hm, hlt⟩ := handed_of_awake h hawake hi
  have hlater := hp.later h (hk.trans_le hm)
  rw [NBReader.pushed, List.getElem?_append_left hlt] at hlater
  exact ⟨m, hlater⟩

theorem Pushes.not_handed (h : FairFor Urgent Step r act) (hp : Pushes r act ev i k)
    (hout : (r k).worker = .outside)
    (hwoken : ∀ m, k < m → (r m).worker = .waiting → act m ≠ some .push ∧ act m ≠ some .spurious)
    (k' : Nat) : (r k').handed[i]? = none := by
  obtain ⟨ev', -, -, hs⟩ := step_push (h.next k _ hp.act)
  have hplace := hp.reads.place
  rw [List.getElem?_eq_none_iff]
  by_cases hk : k' ≤ k
  · have hlen := (pushed_mono h hk).length_le
    rw [hplace, NBReader.pushed, List.length_append] at hlen
    omega
  · have hsame : (r (k + 1)).handed = (r k).handed := by
      rw [hs]
      rfl
    have hasleep : ¬ (r (k + 1)).Awake := by
      rw [hs, signal, if_neg (by rw [hout]; decide)]
      exact fun hawake => hawake.1 hout
    have hnone := (handed_of_not_woken h (Nat.not_le.mp hk) hasleep hwoken).2
    rw [NBReader.pushed, List.length_append] at hplace
    rw [hnone, hsame]
    omega

/-- Every datagram that is read becomes an event in the queue, and what was handed out are the first of
these in their order. An event is handed out, unless the worker was on its way to
`pthread_cond_wait` when it was pushed and nothing has ended that wait. -/
theorem handed_iff (h : FairFor Urgent Step r act) (h0 : r 0 = init)
    (hact : act k = some (.receive d)) :
    (∀ k', (r k').handed.map some <+: (r k').received.map NBLibrary.readEvent) ∧
    ∃ ev m, NBLibrary.readEvent d = some ev ∧ k < m ∧ act m = some .push ∧ (r m).read = some ev ∧
      ((∃ k', (r k').handed[(r k).received.length]? = some ev) ↔
        (r m).worker ≠ .outside ∨ ∃ k', m < k' ∧ (r k').worker = .waiting ∧
          (act k' = some .push ∨ act k' = some .spurious)) := by
  have hordered (k : Nat) : (r k).Ordered :=
    h.stable step_ordered (Nat.zero_le k) (by rw [h0]; rfl)
  refine ⟨fun k' => (hordered k').handed, ?_⟩
  have hs := h.next k _ hact
  obtain ⟨ev, hnone, hev, hs'⟩ := step_receive hs
  have hplace : (r k).pushed.length = (r k).received.length := by
    have hlen := congrArg List.length (hordered k)
    simpa [hnone] using hlen.symm
  have hreads : Reads ev (r k).received.length (r (k + 1)) := by
    rw [hs']
    exact ⟨rfl, hplace⟩
  obtain ⟨m, hm, hpush, hr⟩ := exists_pushed h hreads
  refine ⟨ev, m, hev, hm, hpush, hr.read, fun hhanded => ?_, fun hwoken => ?_⟩
  · obtain ⟨k', hk'⟩ := hhanded
    by_contra hno
    push Not at hno
    have hnone := Pushes.not_handed h ⟨hpush, hr⟩ hno.1 hno.2 k'
    rw [hnone] at hk'
    cases hk'
  · obtain hw | ⟨k', hk', hw, ha⟩ := hwoken
    · exact Pushes.handed h ⟨hpush, hr⟩ (Nat.lt_succ_self m) (awake_of_push (h.next m _ hpush) hw)
    · have hawake : (r (k' + 1)).Awake := by
        obtain ha | ha := ha
        · exact awake_of_woken (h.next k' _ ha) hw (.inl rfl)
        · exact awake_of_woken (h.next k' _ ha) hw (.inr rfl)
      exact Pushes.handed h ⟨hpush, hr⟩ (by omega) hawake

end

/-! ## A lost wakeup -/

/-- The datagram of a scope that was published. -/
def announcement : List UInt8 := ToNetlink.push 9999 ([Code.scopePublished] ++ idBytes (List.replicate 8 1))

def lostAct : Nat → Option NBReaderStep
  | 0 => some (.receive announcement)
  | 1 => some .push
  | 2 => some .work
  | _ => none

/-- The worker is late, and no second event comes. -/
def lostRun : Nat → NBReader
  | 0 => init
  | k + 1 =>
    match lostAct k with
    | none => lostRun k
    | some a => ((lostRun k).step a).getD init

theorem lostRun_rest (k : Nat) : lostRun (k + 3) = lostRun 3 := by
  induction k with
  | zero => rfl
  | succ k ih => exact ih

theorem lostRun_fair : FairFor Urgent Step lostRun lostAct where
  wait k hk := by rw [lostRun, hk]
  next k a hk := by
    match k, hk with
    | 0, hk | 1, hk | 2, hk =>
      obtain rfl := Option.some.inj hk
      rfl
  fair k a ha hs := by
    obtain ⟨s', hs⟩ := hs
    obtain rfl | rfl := ha
    · -- only the first event is ever pushed
      obtain ⟨ev, hread, -, -⟩ := step_push hs
      match k, hread with
      | 1, _ => exact ⟨1, le_rfl, rfl⟩
      | k + 3, hread =>
        rw [lostRun_rest] at hread
        cases hread
    · by_cases hk : k ≤ 2
      case pos => exact ⟨2, hk, rfl⟩
      have hrest := lostRun_rest (k - 3)
      rw [Nat.sub_add_cancel (by omega)] at hrest
      rw [hrest] at hs
      cases hs

/-- What the lost run says of its only event. -/
theorem handed_iff_lostRun :
    (∀ k', (lostRun k').handed.map some <+: (lostRun k').received.map NBLibrary.readEvent) ∧
    ∃ ev m, NBLibrary.readEvent announcement = some ev ∧ 0 < m ∧ lostAct m = some .push ∧
      (lostRun m).read = some ev ∧
      ((∃ k', (lostRun k').handed[(lostRun 0).received.length]? = some ev) ↔
        (lostRun m).worker ≠ .outside ∨ ∃ k', m < k' ∧ (lostRun k').worker = .waiting ∧
          (lostAct k' = some .push ∨ lostAct k' = some .spurious)) :=
  handed_iff lostRun_fair rfl rfl

end NBReader

end Blackadder
