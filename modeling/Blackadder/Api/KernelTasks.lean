import Blackadder.Api.Libraries
import Blackadder.Lib.Fairness
import Mathlib.Logic.Function.Basic

/-!
# The queues of the kernel module

In the kernel `nl_callback` and `ToNetlink::push` leave packets in a queue, from which a task of Click
takes them. Any number of threads run them. Click takes a task off its list before it runs it.
-/

namespace Blackadder

open Runs

/-! ## What the kernel accepts -/

/-- `nl_callback` up to the mutex. A datagram that it does not accept is dropped. -/
def FromNetlink.nlCallback (skb : List UInt8) : Option (List UInt8) :=
  if skb.length < 16 then none
  else
    let nlmsglen := (Int.ofNat ((skb.take 4).foldr (fun b m => b.toNat + 256 * m) 0)).bmod (2 ^ 32)
    -- a comparison with `sizeof` is one of unsigned numbers
    if nlmsglen % 2 ^ 64 < 16 ∨ skb.length < nlmsglen then none else some (skb.drop 16)

theorem nlCallback_nlmsghdr {n : Nat} (pid : Nat) {rest : List UInt8} (hn : n = 16 + rest.length)
    (hlen : n < 2 ^ 31) : FromNetlink.nlCallback (nlmsghdr n pid ++ rest) = some rest := by
  have htake : (nlmsghdr n pid ++ rest).take 4 = littleEndian 4 n := by
    simp only [nlmsghdr, List.append_assoc]
    exact List.take_left' (length_littleEndian 4 n)
  have hfield : (Int.ofNat (n % 256 ^ 4)).bmod (2 ^ 32) = n := by
    rw [Nat.mod_eq_of_lt (by omega)]
    refine Int.bmod_eq_of_le (by simp) ?_
    simp
    omega
  have hdrop : (nlmsghdr n pid ++ rest).drop 16 = rest := List.drop_left' (length_nlmsghdr n pid)
  have hlength : (nlmsghdr n pid ++ rest).length = n := by
    rw [List.length_append, length_nlmsghdr, hn]
  unfold FromNetlink.nlCallback
  rw [htake, foldr_littleEndian, hlength, if_neg (by omega), hdrop]
  simp only [hfield]
  rw [if_neg]
  omega

/-- The kernel gets what a process gets from a call of the library. -/
theorem nlCallback_call {pid : Nat} {c : ApiCall} {d : List UInt8} (h : Library.call pid c = .ok d)
    (hlen : d.length < 2 ^ 31) : FromNetlink.nlCallback d = some (FromNetlink.selected d) := by
  have hform : ∃ n rest, d = nlmsghdr n pid ++ rest ∧ n = 16 + rest.length := by
    cases c with
    | request r strOpt =>
      simp only [Library.call, Library.send, bind, Except.bind] at h
      split at h
      · cases h
      · obtain rfl := Except.ok.inj h
        refine ⟨?n, ?rest, ?form, ?length⟩
        case form =>
          simp only [Library.createAndSendBuffers, List.append_assoc]
          rfl
        case length =>
          simp
          omega
    | publishData id strategy strOpt data =>
      simp only [Library.call, Library.publishAny] at h
      split at h
      · cases h
      · obtain rfl := Except.ok.inj h
        refine ⟨?m, ?rest', ?form, ?length⟩
        case form =>
          simp only [List.append_assoc]
          rfl
        case length =>
          simp
          omega
  obtain ⟨n, rest, rfl, hn⟩ := hform
  rw [List.length_append, length_nlmsghdr, ← hn] at hlen
  rw [nlCallback_nlmsghdr pid hn hlen, FromNetlink.selected, List.drop_left' (length_nlmsghdr n pid)]

/-! ## The queue and its task -/

/-- The elements with a task. `nl_callback` and the task that it reschedules give the mutex back at their
end; with `ToNetlink` it is free when the task is rescheduled. -/
inductive NetlinkElement where
  | fromNetlink
  | toNetlink
deriving DecidableEq

/-- Where a thread of `nl_callback` or `ToNetlink::push` is. -/
inductive Pusher (α : Type*) where
  | outside
  /-- In front of the mutex. -/
  | arrived (packet : α)
  /-- In front of `reschedule`. -/
  | queued
  /-- In front of `set_bit`. -/
  | rescheduled
deriving DecidableEq

/-- Where the task is in `run_task`. -/
inductive TaskPlace where
  | idle
  /-- In front of `clear_bit`. -/
  | started
  /-- In front of the mutex. -/
  | cleared
  /-- At the test of the loop, with the mutex. -/
  | draining
  /-- In front of `test_bit`. -/
  | drained
deriving DecidableEq

inductive Holder (T : Type*) where
  | task
  | thread (t : T)
deriving DecidableEq

/-- An element in the kernel, with the packets that came into its queue and those that the task took out. -/
structure NetlinkTask (T α : Type*) where
  pusher : T → Pusher α
  task : TaskPlace
  /-- Who has the mutex. -/
  holder : Option (Holder T)
  /-- `up_queue` or `down_queue`, the front first. -/
  queue : List α
  scheduled : Bool
  /-- The bit `TASK_IS_SCHEDULED`. -/
  bit : Bool
  accepted : List α
  taken : List α

inductive NetlinkTaskStep (T α : Type*) where
  /-- A thread comes with a packet. -/
  | arrive (t : T) (packet : α)
  /-- It takes the mutex and pushes the packet to the front. -/
  | pushFront (t : T)
  | reschedule (t : T)
  | setBit (t : T)
  /-- The task goes on, and if it was scheduled Click runs it. -/
  | runTask

namespace NetlinkTask

variable {T α : Type*} [DecidableEq T] {e : NetlinkElement} {s s' : NetlinkTask T α}
  {a : NetlinkTaskStep T α} {t : T} {p : α} {i : Nat}

def init : NetlinkTask T α := ⟨fun _ => .outside, .idle, none, [], false, false, [], []⟩

/-- `run_task` up to its next use of what is shared. -/
def runTask (e : NetlinkElement) (s : NetlinkTask T α) : Option (NetlinkTask T α) :=
  match s.task with
  | .idle => if s.scheduled then some { s with task := .started, scheduled := false } else none
  | .started => some { s with task := .cleared, bit := false }
  | .cleared =>
    match s.holder with
    | none => some { s with task := .draining, holder := some .task }
    | some _ => none
  | .draining =>
    match s.queue.getLast? with
    | some packet => some { s with queue := s.queue.dropLast, taken := s.taken ++ [packet] }
    | none => some { s with task := .drained, holder := if e = .toNetlink then none else s.holder }
  | .drained => some { s with
      task := .idle
      -- `fast_reschedule`
      scheduled := s.scheduled || s.bit
      holder := if e = .fromNetlink then none else s.holder }

/-- `none` for a thread that is elsewhere or has to wait. -/
def step (e : NetlinkElement) (s : NetlinkTask T α) : NetlinkTaskStep T α → Option (NetlinkTask T α)
  | .arrive t packet =>
    match s.pusher t with
    | .outside => some { s with pusher := Function.update s.pusher t (.arrived packet) }
    | _ => none
  | .pushFront t =>
    match s.pusher t, s.holder with
    | .arrived packet, none => some { s with
        pusher := Function.update s.pusher t .queued
        holder := if e = .fromNetlink then some (.thread t) else none
        queue := packet :: s.queue
        accepted := s.accepted ++ [packet] }
    | _, _ => none
  | .reschedule t =>
    match s.pusher t with
    | .queued => some { s with pusher := Function.update s.pusher t .rescheduled, scheduled := true }
    | _ => none
  | .setBit t =>
    match s.pusher t with
    | .rescheduled => some { s with
        pusher := Function.update s.pusher t .outside
        bit := true
        holder := if e = .fromNetlink then none else s.holder }
    | _ => none
  | .runTask => s.runTask e

def Step (e : NetlinkElement) (s : NetlinkTask T α) (a : NetlinkTaskStep T α) (s' : NetlinkTask T α) : Prop :=
  s.step e a = some s'

/-- No packet has to come. -/
def Urgent : NetlinkTaskStep T α → Prop
  | .arrive _ _ => False
  | _ => True

/-- The task comes to the test of its loop again. -/
def Active (s : NetlinkTask T α) : Prop :=
  s.scheduled ∨ s.task = .started ∨ s.task = .cleared ∨ s.task = .draining

/-! ## Steps -/

theorem step_arrive (h : Step e s (.arrive t p) s') : s.pusher t = .outside ∧
    s' = { s with pusher := Function.update s.pusher t (.arrived p) } := by
  simp only [Step, step] at h
  split at h
  · next hout => exact ⟨hout, (Option.some.inj h).symm⟩
  · cases h

theorem step_pushFront (h : Step e s (.pushFront t) s') : ∃ p, s.pusher t = .arrived p ∧ s.holder = none ∧
    s' = { s with
      pusher := Function.update s.pusher t .queued
      holder := if e = .fromNetlink then some (.thread t) else none
      queue := p :: s.queue
      accepted := s.accepted ++ [p] } := by
  simp only [Step, step] at h
  split at h
  · next p hp hfree => exact ⟨p, hp, hfree, (Option.some.inj h).symm⟩
  · cases h

theorem step_reschedule (h : Step e s (.reschedule t) s') : s.pusher t = .queued ∧
    s' = { s with pusher := Function.update s.pusher t .rescheduled, scheduled := true } := by
  simp only [Step, step] at h
  split at h
  · next hq => exact ⟨hq, (Option.some.inj h).symm⟩
  · cases h

theorem step_setBit (h : Step e s (.setBit t) s') : s.pusher t = .rescheduled ∧
    s' = { s with
      pusher := Function.update s.pusher t .outside
      bit := true
      holder := if e = .fromNetlink then none else s.holder } := by
  simp only [Step, step] at h
  split at h
  · next hr => exact ⟨hr, (Option.some.inj h).symm⟩
  · cases h

theorem step_runTask (h : Step e s .runTask s') :
    (s.task = .idle ∧ s.scheduled = true ∧ s' = { s with task := .started, scheduled := false }) ∨
    (s.task = .started ∧ s' = { s with task := .cleared, bit := false }) ∨
    (s.task = .cleared ∧ s.holder = none ∧ s' = { s with task := .draining, holder := some .task }) ∨
    (∃ q p, s.task = .draining ∧ s.queue = q ++ [p] ∧
      s' = { s with queue := q, taken := s.taken ++ [p] }) ∨
    (s.task = .draining ∧ s.queue = [] ∧
      s' = { s with task := .drained, holder := if e = .toNetlink then none else s.holder }) ∨
    (s.task = .drained ∧ s' = { s with
      task := .idle
      scheduled := s.scheduled || s.bit
      holder := if e = .fromNetlink then none else s.holder }) := by
  simp only [Step, step, runTask] at h
  split at h
  case h_1 htask =>
    split at h
    · next hs => exact .inl ⟨htask, hs, (Option.some.inj h).symm⟩
    · cases h
  case h_2 htask => exact .inr (.inl ⟨htask, (Option.some.inj h).symm⟩)
  case h_3 htask =>
    split at h
    · next hfree => exact .inr (.inr (.inl ⟨htask, hfree, (Option.some.inj h).symm⟩))
    · cases h
  case h_4 htask =>
    split at h
    · next p hlast =>
      have hqueue := List.dropLast_append_getLast? p hlast
      exact .inr (.inr (.inr (.inl ⟨_, p, htask, hqueue.symm, (Option.some.inj h).symm⟩)))
    · next hlast =>
      have hempty := List.getLast?_eq_none_iff.mp hlast
      exact .inr (.inr (.inr (.inr (.inl ⟨htask, hempty, (Option.some.inj h).symm⟩))))
  case h_5 htask => exact .inr (.inr (.inr (.inr (.inr ⟨htask, (Option.some.inj h).symm⟩))))

theorem exists_pushFront (hp : s.pusher t = .arrived p) (hfree : s.holder = none) :
    ∃ s', Step e s (.pushFront t) s' := by
  simp only [Step, step, hp, hfree]
  exact ⟨_, rfl⟩

theorem exists_reschedule (hq : s.pusher t = .queued) : ∃ s', Step e s (.reschedule t) s' := by
  simp only [Step, step, hq]
  exact ⟨_, rfl⟩

theorem exists_setBit (hr : s.pusher t = .rescheduled) : ∃ s', Step e s (.setBit t) s' := by
  simp only [Step, step, hr]
  exact ⟨_, rfl⟩

/-- The task goes on, unless it has to wait for the mutex or is not scheduled. -/
theorem exists_runTask (hidle : s.task = .idle → s.scheduled) (hfree : s.task = .cleared → s.holder = none) :
    ∃ s', Step e s .runTask s' := by
  simp only [Step, step, runTask]
  split
  case h_1 htask => exact ⟨_, if_pos (hidle htask)⟩
  case h_3 htask =>
    rw [hfree htask]
    exact ⟨_, rfl⟩
  case h_4 => split <;> exact ⟨_, rfl⟩
  all_goals exact ⟨_, rfl⟩

/-! ## What every run keeps -/

/-- The mutex is with one who is behind it, and a packet in the queue has somebody who sees to it. -/
structure Consistent (e : NetlinkElement) (s : NetlinkTask T α) : Prop where
  order : s.taken ++ s.queue.reverse = s.accepted
  task_holds : s.holder = some .task ↔ s.task = .draining ∨ e = .fromNetlink ∧ s.task = .drained
  thread_holds : ∀ t, s.holder = some (.thread t) ↔
    e = .fromNetlink ∧ (s.pusher t = .queued ∨ s.pusher t = .rescheduled)
  seen : s.queue ≠ [] → s.Active ∨ ∃ t, s.pusher t = .queued

omit [DecidableEq T] in
theorem init_consistent (e : NetlinkElement) : (init : NetlinkTask T α).Consistent e where
  order := rfl
  task_holds := by simp [init]
  thread_holds := by simp [init]
  seen := by simp [init]

theorem runTask_consistent (h : s.Consistent e) (hs : Step e s .runTask s') : s'.Consistent e := by
  obtain ⟨horder, htask, hthread, hseen⟩ := h
  obtain ⟨hw, -, rfl⟩ | ⟨hw, rfl⟩ | ⟨hw, hfree, rfl⟩ | ⟨q, p, hw, hq, rfl⟩ | ⟨hw, hempty, rfl⟩ | ⟨hw, rfl⟩ :=
    step_runTask hs
  · refine ⟨horder, by grind, hthread, fun _ => .inl (by simp [Active])⟩
  · refine ⟨horder, by grind, hthread, fun _ => .inl (by simp [Active])⟩
  · refine ⟨horder, by grind, by grind, fun _ => .inl (by simp [Active])⟩
  · refine ⟨?_, htask, hthread, fun _ => .inl (by simp [Active, hw])⟩
    simpa [hq] using horder
  · exact ⟨horder, by cases e <;> grind, by cases e <;> grind, fun hne => absurd hempty hne⟩
  · refine ⟨horder, by grind, by grind, fun hne => ?_⟩
    obtain hactive | hqueued := hseen hne
    · have hscheduled : s.scheduled = true := by simpa [Active, hw] using hactive
      exact .inl (by simp [Active, hscheduled])
    · exact .inr hqueued

theorem step_consistent (s : NetlinkTask T α) (a : NetlinkTaskStep T α) (s' : NetlinkTask T α)
    (hs : Step e s a s') (h : s.Consistent e) : s'.Consistent e := by
  -- a packet that was seen by a thread other than `t` still is
  have hother {t : T} {x : Pusher α} (hne : s.pusher t ≠ .queued) (hseen : ∃ t, s.pusher t = .queued) :
      ∃ t', Function.update s.pusher t x t' = .queued := by
    obtain ⟨t', ht'⟩ := hseen
    exact ⟨t', by grind⟩
  cases a with
  | arrive t p =>
    obtain ⟨hout, rfl⟩ := step_arrive hs
    refine ⟨h.order, h.task_holds, fun t' => by grind [h.thread_holds t'], fun hq => ?_⟩
    exact (h.seen hq).imp id (hother (by simp [hout]))
  | pushFront t =>
    obtain ⟨p, hp, hfree, rfl⟩ := step_pushFront hs
    have htask := h.task_holds
    refine ⟨by simp [← h.order], by grind, fun t' => ?_, fun _ => .inr ⟨t, by simp⟩⟩
    grind [h.thread_holds t']
  | reschedule t =>
    obtain ⟨hq, rfl⟩ := step_reschedule hs
    refine ⟨h.order, h.task_holds, fun t' => by grind [h.thread_holds t'], fun _ => .inl (.inl rfl)⟩
  | setBit t =>
    obtain ⟨hr, rfl⟩ := step_setBit hs
    have htask := h.task_holds
    refine ⟨h.order, ?_, fun t' => ?_, fun hq => (h.seen hq).imp id (hother (by simp [hr]))⟩
    · grind [h.thread_holds t]
    · grind [h.thread_holds t, h.thread_holds t']
  | runTask => exact runTask_consistent h hs

theorem consistent_reachable (h : Reachable (Step e) (init : NetlinkTask T α) s) : s.Consistent e :=
  h.invariant (init_consistent e) fun s a s' _ h hs => step_consistent s a s' hs h

omit [DecidableEq T] in
theorem holder_cases (h : s.Consistent e) : s.holder = none ∨
    (s.holder = some .task ∧ (s.task = .draining ∨ s.task = .drained)) ∨
    ∃ t, s.holder = some (.thread t) ∧ (s.pusher t = .queued ∨ s.pusher t = .rescheduled) := by
  cases hholder : s.holder with
  | none => exact .inl rfl
  | some x =>
    cases x with
    | task => exact .inr (.inl ⟨rfl, (h.task_holds.mp hholder).imp id (·.2)⟩)
    | thread t => exact .inr (.inr ⟨t, rfl, ((h.thread_holds t).mp hholder).2⟩)

/-- When nobody has anything left to do, all packets have been taken. -/
theorem quiet (h : s.Consistent e) (hquiet : ∀ a s', Urgent a → ¬ Step e s a s') :
    s.taken = s.accepted ∧ s.task = .idle ∧ ∀ t, s.pusher t = .outside := by
  have hqueued (t : T) : s.pusher t ≠ .queued := fun hq =>
    (exists_reschedule hq).elim fun s' hs => hquiet (.reschedule t) s' trivial hs
  have hrescheduled (t : T) : s.pusher t ≠ .rescheduled := fun hr =>
    (exists_setBit hr).elim fun s' hs => hquiet (.setBit t) s' trivial hs
  have hrun : ¬ ∃ s', Step e s .runTask s' := fun ⟨s', hs⟩ => hquiet .runTask s' trivial hs
  have hfree : s.holder = none := by
    obtain hfree | ⟨-, htask⟩ | ⟨t, -, ht⟩ := holder_cases h
    · exact hfree
    · refine absurd (exists_runTask ?_ ?_) hrun <;> obtain hw | hw := htask <;> simp [hw]
    · exact absurd ht (not_or.mpr ⟨hqueued t, hrescheduled t⟩)
  have hidle : s.task = .idle ∧ s.scheduled = false := by
    by_contra hne
    refine hrun (exists_runTask (fun hw => ?_) fun _ => hfree)
    simpa [hw] using hne
  have hempty : s.queue = [] := by
    by_contra hne
    obtain hactive | ⟨t, ht⟩ := h.seen hne
    · simp [Active, hidle] at hactive
    · exact hqueued t ht
  refine ⟨?_, hidle.1, fun t => ?_⟩
  · rw [← h.order, hempty, List.reverse_nil, List.append_nil]
  · cases ht : s.pusher t with
    | outside => rfl
    | arrived p =>
      obtain ⟨s', hs⟩ := exists_pushFront (e := e) ht hfree
      exact absurd hs (hquiet (.pushFront t) s' trivial)
    | queued => exact absurd ht (hqueued t)
    | rescheduled => exact absurd ht (hrescheduled t)

/-! ## Fair runs -/

theorem accepted_isPrefix (s : NetlinkTask T α) (a : NetlinkTaskStep T α) (s' : NetlinkTask T α)
    (hs : Step e s a s') : s.accepted <+: s'.accepted := by
  cases a with
  | arrive t p =>
    obtain ⟨-, rfl⟩ := step_arrive hs
    exact List.prefix_refl _
  | pushFront t =>
    obtain ⟨p, -, -, rfl⟩ := step_pushFront hs
    exact List.prefix_append _ _
  | reschedule t =>
    obtain ⟨-, rfl⟩ := step_reschedule hs
    exact List.prefix_refl _
  | setBit t =>
    obtain ⟨-, rfl⟩ := step_setBit hs
    exact List.prefix_refl _
  | runTask =>
    obtain ⟨-, -, rfl⟩ | ⟨-, rfl⟩ | ⟨-, -, rfl⟩ | ⟨q, p, -, -, rfl⟩ | ⟨-, -, rfl⟩ | ⟨-, rfl⟩ :=
      step_runTask hs <;> exact List.prefix_refl _

/-- Where a thread is says what it does next, and nobody else moves it. -/
theorem step_pusher (hs : Step e s a s') (t : T) : s'.pusher t = s.pusher t ∨
    (s.pusher t = .outside ∧ ∃ p, a = .arrive t p) ∨
    ((∃ p, s.pusher t = .arrived p) ∧ a = .pushFront t ∧ s'.pusher t = .queued) ∨
    (s.pusher t = .queued ∧ a = .reschedule t ∧ s'.pusher t = .rescheduled) ∨
    (s.pusher t = .rescheduled ∧ a = .setBit t) := by
  cases a with
  | arrive t' p =>
    obtain ⟨hout, rfl⟩ := step_arrive hs
    grind
  | pushFront t' =>
    obtain ⟨p, hp, -, rfl⟩ := step_pushFront hs
    grind
  | reschedule t' =>
    obtain ⟨hq, rfl⟩ := step_reschedule hs
    grind
  | setBit t' =>
    obtain ⟨hr, rfl⟩ := step_setBit hs
    grind
  | runTask =>
    obtain ⟨-, -, rfl⟩ | ⟨-, rfl⟩ | ⟨-, -, rfl⟩ | ⟨q, p, -, -, rfl⟩ | ⟨-, -, rfl⟩ | ⟨-, rfl⟩ :=
      step_runTask hs <;> exact .inl rfl

theorem stays_arrived (s : NetlinkTask T α) (a : NetlinkTaskStep T α) (s' : NetlinkTask T α)
    (ha : a ≠ .pushFront t) (h : s.pusher t = .arrived p) (hs : Step e s a s') :
    s'.pusher t = .arrived p := by
  have hcases := step_pusher hs t
  simpa [h, ha] using hcases

theorem stays_queued (s : NetlinkTask T α) (a : NetlinkTaskStep T α) (s' : NetlinkTask T α)
    (ha : a ≠ .reschedule t) (h : s.pusher t = .queued) (hs : Step e s a s') : s'.pusher t = .queued := by
  have hcases := step_pusher hs t
  simpa [h, ha] using hcases

theorem stays_rescheduled (s : NetlinkTask T α) (a : NetlinkTaskStep T α) (s' : NetlinkTask T α)
    (ha : a ≠ .setBit t) (h : s.pusher t = .rescheduled) (hs : Step e s a s') :
    s'.pusher t = .rescheduled := by
  have hcases := step_pusher hs t
  simpa [h, ha] using hcases

/-- Packet `i` is in the queue, and the task comes to it. -/
structure Served (e : NetlinkElement) (i : Nat) (s : NetlinkTask T α) : Prop where
  consistent : s.Consistent e
  active : s.Active
  left : s.taken.length ≤ i
  accepted : i < s.accepted.length

/-- The steps of the task before it takes packet `i`, without those that wait. -/
def stepsTo (i : Nat) (s : NetlinkTask T α) : Nat :=
  (i + 1 - s.taken.length) +
    match s.task with
    | .draining => 0
    | .cleared => 1
    | .started => 2
    | .idle => 3
    | .drained => 4

theorem runTask_served (s s' : NetlinkTask T α) (h : Served e i s) (hs : Step e s .runTask s') :
    i < s'.taken.length ∨ Served e i s' ∧ s'.stepsTo i < s.stepsTo i := by
  have hconsistent := runTask_consistent h.consistent hs
  obtain ⟨hc, hactive, hleft, haccepted⟩ := h
  obtain ⟨hw, -, rfl⟩ | ⟨hw, rfl⟩ | ⟨hw, hfree, rfl⟩ | ⟨q, p, hw, hq, rfl⟩ | ⟨hw, hempty, rfl⟩ | ⟨hw, rfl⟩ :=
    step_runTask hs
  · exact .inr ⟨⟨hconsistent, by simp [Active], hleft, haccepted⟩, by simp [stepsTo, hw]⟩
  · exact .inr ⟨⟨hconsistent, by simp [Active], hleft, haccepted⟩, by simp [stepsTo, hw]⟩
  · exact .inr ⟨⟨hconsistent, by simp [Active], hleft, haccepted⟩, by simp [stepsTo, hw]⟩
  · by_cases hi : i < s.taken.length + 1
    · exact .inl (by simpa using hi)
    refine .inr ⟨⟨hconsistent, hactive, by simp; omega, haccepted⟩, ?_⟩
    simp [stepsTo, hw]
    omega
  · -- packet `i` is in the queue
    have hlen := congrArg List.length hc.order
    simp only [hempty, List.reverse_nil, List.append_nil] at hlen
    omega
  · have hscheduled : s.scheduled = true := by simpa [Active, hw] using hactive
    exact .inr ⟨⟨hconsistent, by simp [Active, hscheduled], hleft, haccepted⟩, by simp [stepsTo, hw]⟩

theorem step_served (s : NetlinkTask T α) (a : NetlinkTaskStep T α) (s' : NetlinkTask T α)
    (h : Served e i s) (hs : Step e s a s') :
    i < s'.taken.length ∨ Served e i s' ∧ s'.stepsTo i ≤ s.stepsTo i := by
  have hconsistent := step_consistent s a s' hs h.consistent
  have haccepted := h.accepted.trans_le (accepted_isPrefix s a s' hs).length_le
  cases a with
  | arrive t p =>
    obtain ⟨-, rfl⟩ := step_arrive hs
    exact .inr ⟨⟨hconsistent, h.active, h.left, haccepted⟩, le_rfl⟩
  | pushFront t =>
    obtain ⟨p, -, -, rfl⟩ := step_pushFront hs
    exact .inr ⟨⟨hconsistent, h.active, h.left, haccepted⟩, le_rfl⟩
  | reschedule t =>
    obtain ⟨-, rfl⟩ := step_reschedule hs
    exact .inr ⟨⟨hconsistent, .inl rfl, h.left, haccepted⟩, le_rfl⟩
  | setBit t =>
    obtain ⟨-, rfl⟩ := step_setBit hs
    exact .inr ⟨⟨hconsistent, h.active, h.left, haccepted⟩, le_rfl⟩
  | runTask => exact (runTask_served s s' h hs).imp id fun ⟨hserved, hlt⟩ => ⟨hserved, hlt.le⟩

/-- The task has the mutex. -/
structure Holds (e : NetlinkElement) (s : NetlinkTask T α) : Prop where
  consistent : s.Consistent e
  holder : s.holder = some .task

/-- The steps of the task before it gives the mutex back. -/
def stepsToFree (s : NetlinkTask T α) : Nat := s.queue.length + if s.task = .draining then 1 else 0

theorem runTask_holds (s s' : NetlinkTask T α) (h : Holds e s) (hs : Step e s .runTask s') :
    s'.holder = none ∨ Holds e s' ∧ s'.stepsToFree < s.stepsToFree := by
  have hconsistent := runTask_consistent h.consistent hs
  have hplace := h.consistent.task_holds.mp h.holder
  obtain ⟨hw, -, rfl⟩ | ⟨hw, rfl⟩ | ⟨hw, hfree, rfl⟩ | ⟨q, p, hw, hq, rfl⟩ | ⟨hw, hempty, rfl⟩ | ⟨hw, rfl⟩ :=
    step_runTask hs
  · simp [hw] at hplace
  · simp [hw] at hplace
  · simp [hw] at hplace
  · exact .inr ⟨⟨hconsistent, h.holder⟩, by simp [stepsToFree, hq]⟩
  · cases e with
    | fromNetlink => exact .inr ⟨⟨hconsistent, h.holder⟩, by simp [stepsToFree, hw, hempty]⟩
    | toNetlink => exact .inl rfl
  · have he : e = .fromNetlink := by simpa [hw] using hplace
    exact .inl (if_pos he)

theorem step_holds (s : NetlinkTask T α) (a : NetlinkTaskStep T α) (s' : NetlinkTask T α)
    (h : Holds e s) (hs : Step e s a s') :
    s'.holder = none ∨ Holds e s' ∧ s'.stepsToFree ≤ s.stepsToFree := by
  have hconsistent := step_consistent s a s' hs h.consistent
  cases a with
  | arrive t p =>
    obtain ⟨-, rfl⟩ := step_arrive hs
    exact .inr ⟨⟨hconsistent, h.holder⟩, le_rfl⟩
  | pushFront t =>
    obtain ⟨p, -, hfree, -⟩ := step_pushFront hs
    rw [h.holder] at hfree
    cases hfree
  | reschedule t =>
    obtain ⟨-, rfl⟩ := step_reschedule hs
    exact .inr ⟨⟨hconsistent, h.holder⟩, le_rfl⟩
  | setBit t =>
    obtain ⟨-, rfl⟩ := step_setBit hs
    cases e with
    | fromNetlink => exact .inl rfl
    | toNetlink => exact .inr ⟨⟨hconsistent, h.holder⟩, le_rfl⟩
  | runTask => exact (runTask_holds s s' h hs).imp id fun ⟨hholds, hlt⟩ => ⟨hholds, hlt.le⟩

section

variable {r : Nat → NetlinkTask T α} {act : Nat → Option (NetlinkTaskStep T α)} {k k' : Nat}

theorem rescheduled_of_queued (h : FairFor Urgent (Step e) r act) (hq : (r k).pusher t = .queued) :
    ∃ k', k ≤ k' ∧ (r k').pusher t = .rescheduled ∧ (r k').scheduled = true := by
  obtain ⟨m, hm, hact, -⟩ := h.takes (a := NetlinkTaskStep.reschedule t) trivial stays_queued (exists_reschedule hq) hq
  obtain ⟨-, hs⟩ := step_reschedule (h.next m _ hact)
  exact ⟨m + 1, by omega, by rw [hs]; simp, by rw [hs]⟩

theorem freed_of_rescheduled (h : FairFor Urgent (Step .fromNetlink) r act)
    (hr : (r k).pusher t = .rescheduled) : ∃ k', k ≤ k' ∧ (r k').holder = none := by
  obtain ⟨m, hm, hact, -⟩ := h.takes (a := NetlinkTaskStep.setBit t) trivial stays_rescheduled (exists_setBit hr) hr
  obtain ⟨-, hs⟩ := step_setBit (h.next m _ hact)
  exact ⟨m + 1, by omega, by rw [hs]; rfl⟩

/-- The mutex is given back. -/
theorem freed (h : FairFor Urgent (Step e) r act) (hc : (r k).Consistent e) :
    ∃ k', k ≤ k' ∧ (r k').holder = none := by
  obtain hfree | ⟨hholder, htask⟩ | ⟨t, hholder, ht⟩ := holder_cases hc
  · exact ⟨k, le_rfl, hfree⟩
  · refine h.progress (a := NetlinkTaskStep.runTask) (P := Holds e) (Q := fun s => s.holder = none) (N := stepsToFree)
      trivial (fun s hs => ?_) step_holds runTask_holds ⟨hc, hholder⟩
    obtain hw | ⟨-, hw⟩ := hs.consistent.task_holds.mp hs.holder <;>
      exact exists_runTask (by simp [hw]) (by simp [hw])
  · obtain rfl := ((hc.thread_holds t).mp hholder).1
    obtain hq | hr := ht
    · obtain ⟨m, hm, hr, -⟩ := rescheduled_of_queued h hq
      obtain ⟨k', hk', hfree⟩ := freed_of_rescheduled h hr
      exact ⟨k', hm.trans hk', hfree⟩
    · exact freed_of_rescheduled h hr

/-- A packet that waits for the mutex comes into the queue. -/
theorem pushed_of_arrived (h : FairFor Urgent (Step e) r act) (hc : (r k).Consistent e)
    (hp : (r k).pusher t = .arrived p) :
    ∃ m, k ≤ m ∧ act m = some (.pushFront t) ∧ (r m).pusher t = .arrived p := by
  obtain ⟨k', hk', hfree⟩ := freed h hc
  obtain htaken | hp' := h.taken_or stays_arrived hk' hp
  · exact htaken
  · obtain ⟨m, hm, htaken⟩ := h.takes (a := NetlinkTaskStep.pushFront t) trivial stays_arrived (exists_pushFront hp' hfree) hp'
    exact ⟨m, hk'.trans hm, htaken⟩

theorem taken_of_active (h : FairFor Urgent (Step e) r act) (hc : (r k).Consistent e)
    (hactive : (r k).Active) (hi : i < (r k).accepted.length) : ∃ k', k ≤ k' ∧ i < (r k').taken.length := by
  by_cases hleft : i < (r k).taken.length
  · exact ⟨k, le_rfl, hleft⟩
  refine h.progress_of (a := NetlinkTaskStep.runTask) (P := Served e i) (Q := fun s => i < s.taken.length) (N := stepsTo i)
    trivial (fun m hm => ?_) step_served runTask_served ⟨hc, hactive, by omega, hi⟩
  -- when the mutex is free the task can go on
  obtain ⟨m', hm', hfree⟩ := freed h hm.consistent
  obtain ⟨k', hk', hdone⟩ | ⟨hserved, -⟩ := h.kept_or step_served hm' hm
  · exact ⟨k', hk', .inl hdone⟩
  · refine ⟨m', hm', .inr (exists_runTask (fun hw => ?_) fun _ => hfree)⟩
    simpa [Active, hw] using hserved.active

/-- A packet is taken out as often as a thread comes with it, and the packets that are taken are the first of
those that came into the queue, in this order. -/
theorem taken_in_order (h : FairFor Urgent (Step e) r act) (h0 : r 0 = init)
    (hact : act k = some (.arrive t p)) :
    (∀ k', (r k').taken <+: (r k').accepted) ∧
    ∃ m, k < m ∧ act m = some (.pushFront t) ∧ (r (m + 1)).accepted = (r m).accepted ++ [p] ∧
      ∃ k', m < k' ∧ (r k').taken[(r m).accepted.length]? = some p := by
  have hreach (k' : Nat) : Reachable (Step e) init (r k') := h.reachable (by rw [h0]; exact .start) k'
  have hc (k' : Nat) := consistent_reachable (hreach k')
  have hfirst (k' : Nat) : (r k').taken <+: (r k').accepted := ⟨_, (hc k').order⟩
  refine ⟨hfirst, ?_⟩
  obtain ⟨-, hs⟩ := step_arrive (h.next k _ hact)
  have hp : (r (k + 1)).pusher t = .arrived p := by rw [hs]; simp
  obtain ⟨m, hm, hpush, hp⟩ := pushed_of_arrived h (hc (k + 1)) hp
  obtain ⟨p', hp', -, hs⟩ := step_pushFront (h.next m _ hpush)
  obtain rfl : p = p' := Pusher.arrived.inj (hp.symm.trans hp')
  have haccepted : (r (m + 1)).accepted = (r m).accepted ++ [p] := by rw [hs]
  refine ⟨m, by omega, hpush, haccepted, ?_⟩
  have hqueued : (r (m + 1)).pusher t = .queued := by rw [hs]; simp
  obtain ⟨n, hn, -, hscheduled⟩ := rescheduled_of_queued h hqueued
  have hmono {j j' : Nat} (hj : j ≤ j') : (r j).accepted <+: (r j').accepted :=
    h.stable (P := fun s => (r j).accepted <+: s.accepted)
      (fun s a s' hs hpre => hpre.trans (accepted_isPrefix s a s' hs)) hj (List.prefix_refl _)
  have hlen : (r m).accepted.length < (r n).accepted.length := by
    have hle := (hmono hn).length_le
    rw [haccepted, List.length_append, List.length_singleton] at hle
    omega
  obtain ⟨k', hk', hi⟩ := taken_of_active h (hc n) (.inl hscheduled) hlen
  refine ⟨k', by omega, ?_⟩
  have hacc : (r k').accepted[(r m).accepted.length]? = some p := by
    obtain ⟨rest, hrest⟩ := hmono (hn.trans hk')
    rw [← hrest, haccepted]
    simp
  obtain ⟨rest, hrest⟩ := hfirst k'
  rw [← hrest, List.getElem?_append_left hi] at hacc
  exact hacc

end

/-! ## One packet -/

def singleActs : List (NetlinkTaskStep Unit Bool) :=
  [.arrive () true, .pushFront (), .reschedule (), .setBit (), .runTask, .runTask, .runTask, .runTask,
    .runTask, .runTask]

def singleRun : Nat → NetlinkTask Unit Bool
  | 0 => init
  | k + 1 =>
    match singleActs[k]? with
    | none => singleRun k
    | some a => ((singleRun k).step .toNetlink a).getD init

theorem singleRun_rest (k : Nat) : singleRun (k + 10) = singleRun 10 := by
  induction k with
  | zero => rfl
  | succ k ih => exact ih

theorem singleRun_places : ∀ k < 10, (∀ p, (singleRun k).pusher () = .arrived p → k = 1) ∧
    ((singleRun k).pusher () = .queued → k = 2) ∧ ((singleRun k).pusher () = .rescheduled → k = 3) := by
  decide

theorem singleRun_done (a : NetlinkTaskStep Unit Bool) (s' : NetlinkTask Unit Bool) (ha : Urgent a) :
    ¬ Step .toNetlink (singleRun 10) a s' := by
  intro hs
  cases a with
  | arrive t p => cases ha
  | pushFront t | reschedule t | setBit t | runTask => cases hs

theorem singleRun_steps : ∀ k < 10, ∀ a ∈ singleActs[k]?, ((singleRun k).step .toNetlink a).isSome := by
  decide

theorem singleRun_fair : FairFor Urgent (Step .toNetlink) singleRun fun k => singleActs[k]? where
  wait k hk := by rw [singleRun, hk]
  next k a hk := by
    have hlt : k < 10 := (List.getElem?_eq_some_iff.mp hk).1
    obtain ⟨s', hs'⟩ := Option.isSome_iff_exists.mp (singleRun_steps k hlt a hk)
    have hnext : singleRun (k + 1) = s' := by
      rw [singleRun, hk]
      simp [hs']
    rw [hnext]
    exact hs'
  fair k a ha hs := by
    obtain ⟨s', hs⟩ := hs
    have hk : k < 10 := by
      by_contra hk
      have hrest := singleRun_rest (k - 10)
      rw [Nat.sub_add_cancel (by omega)] at hrest
      exact singleRun_done a s' ha (hrest ▸ hs)
    obtain ⟨harrived, hqueued, hrescheduled⟩ := singleRun_places k hk
    cases a with
    | arrive t p => cases ha
    | pushFront t =>
      obtain ⟨p, hp, -, -⟩ := step_pushFront hs
      exact ⟨1, (harrived p hp).le, rfl⟩
    | reschedule t => exact ⟨2, (hqueued (step_reschedule hs).1).le, rfl⟩
    | setBit t => exact ⟨3, (hrescheduled (step_setBit hs).1).le, rfl⟩
    | runTask => exact ⟨9, by omega, rfl⟩

/-- The packet of the only thread is taken. -/
theorem taken_in_order_single : (∀ k', (singleRun k').taken <+: (singleRun k').accepted) ∧
    ∃ m, 0 < m ∧ singleActs[m]? = some (.pushFront ()) ∧
      (singleRun (m + 1)).accepted = (singleRun m).accepted ++ [true] ∧
      ∃ k', m < k' ∧ (singleRun k').taken[(singleRun m).accepted.length]? = some true :=
  taken_in_order singleRun_fair rfl rfl

end NetlinkTask

end Blackadder
