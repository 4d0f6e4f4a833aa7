import Blackadder.Api.Libraries

/-!
# The output queue of `NB_Blackadder`

Calls put datagrams into `output_queue`, and the thread of `selector` sends them. It waits in
`select` for a byte in the pipe, for the socket to be readable, and for the socket to be writable
while `write_set` has it.
-/

namespace Blackadder

variable {pid : Nat} {takes : List UInt8 → Bool} {d : List UInt8}

/-- The static members that the write side uses, and the datagrams that calls and the kernel took. -/
structure NBState where
  outputQueue : List (List UInt8)
  /-- The bytes in `pipe_fds`. -/
  pipe : Nat
  /-- `sock_fd` is in `write_set`. -/
  writeSet : Bool
  /-- The selector is behind `select`, in front of its `FD_ISSET(sock_fd, &write_set)`. -/
  busy : Bool
  /-- The threads that wait for `queue_overflow_cond`. -/
  waiting : Nat
  accepted : List (List UInt8)
  sent : List (List UInt8)
deriving DecidableEq

namespace NBState

def init : NBState := ⟨[], 0, false, false, 0, [], []⟩

/-- The end of `push` and of `publish_data`, with the mutex. -/
def enqueue (s : NBState) (msg : List UInt8) : NBState :=
  let outputQueue := s.outputQueue ++ [msg]
  { s with
    outputQueue
    pipe := if outputQueue.length = 1 then s.pipe + 1 else s.pipe
    waiting := if outputQueue.length = 1000 then s.waiting + 1 else s.waiting
    accepted := s.accepted ++ [msg] }

/-- `select` and what follows up to the mutex. It returns when a descriptor of its sets is ready, and
leaves in the sets those that are. A byte in the pipe is read and puts the socket into `write_set`.
Events that are read have no part in the output. -/
def select (s : NBState) (readable writable : Bool) : NBState :=
  if s.busy then s
  else
    let pipeReady : Bool := 0 < s.pipe
    let writeReady := s.writeSet && writable
    if pipeReady || readable || writeReady then
      { s with
        busy := true
        pipe := if pipeReady then s.pipe - 1 else s.pipe
        writeSet := pipeReady || writeReady }
    else s

/-- The write side, with the mutex, where `ok` says whether the socket has room. `none` is the front
of an empty queue. A datagram that the socket does not take stays the first. -/
def write (takes : List UInt8 → Bool) (s : NBState) (ok : Bool) : Option NBState :=
  if s.busy = false then some s
  else if s.writeSet = false then some { s with busy := false }
  else
    match s.outputQueue with
    | [] => none
    | msg :: outputQueue =>
      if ok && takes msg then
        some { s with
          busy := false
          outputQueue
          writeSet := 0 < outputQueue.length
          waiting := if 0 < outputQueue.length then s.waiting else s.waiting - 1
          sent := s.sent ++ [msg] }
      else some { s with busy := false, writeSet := true }

end NBState

inductive NBEvent where
  /-- A call, with what is in the memory that it gets. -/
  | call (c : ApiCall) (fresh : Nat → UInt8)
  | select (readable writable : Bool)
  | write (ok : Bool)

namespace NBState

/-- The threads of the application and of the library take turns in any order. -/
def step (pid : Nat) (takes : List UInt8 → Bool) (s : NBState) : NBEvent → Option NBState
  | .call c fresh =>
    match NBLibrary.call fresh pid c with
    | none => none
    | some (.error _) => some s
    | some (.ok msg) => some (s.enqueue msg)
  | .select readable writable => some (s.select readable writable)
  | .write ok => s.write takes ok

def run (pid : Nat) (takes : List UInt8 → Bool) (s : NBState) (events : List NBEvent) :
    Option NBState :=
  events.foldlM (step pid takes) s

/-- The selector, `n` times, with a socket that is ready. -/
def serve : Nat → List NBEvent
  | 0 => []
  | n + 1 => .write true :: .select false true :: serve n

/-- The accepted datagrams are sent in call order and once each: those of the queue are still to be
sent, and are once the socket is ready. -/
structure Delivers (pid : Nat) (takes : List UInt8 → Bool) (s : NBState) : Prop where
  order : s.accepted = s.sent ++ s.outputQueue
  served : ∀ n, s.outputQueue.length < n →
    ∃ s', run pid takes s (serve n) = some s' ∧ s'.sent = s.accepted

/-- The libraries agree on the calls of a run, and what was accepted is sent from every state. -/
structure Interchangeable (pid : Nat) (takes : List UInt8 → Bool) (s : NBState)
    (events : List NBEvent) : Prop where
  agree : ∀ c fresh, .call c fresh ∈ events → c.Agree fresh pid
  delivers : ∀ before, before <+: events →
    ∃ s', run pid takes s before = some s' ∧ s'.Delivers pid takes

/-- What a step has to meet. A call suits, and its datagram is one that the socket takes. `select`
does not return for something to be read alone while datagrams wait for the socket. -/
def Meets (pid : Nat) (takes : List UInt8 → Bool) (s : NBState) : NBEvent → Prop
  | .call c fresh => c.Suits ∧ ∀ msg, NBLibrary.call fresh pid c = some (.ok msg) → takes msg = true
  | .select readable writable =>
    s.busy = false → s.writeSet = true → readable = true → writable = true
  | .write _ => True

/-- Every step meets it. -/
def AllMeet (pid : Nat) (takes : List UInt8 → Bool) : NBState → List NBEvent → Prop
  | _, [] => True
  | s, e :: events =>
    s.Meets pid takes e ∧ ∀ s', s.step pid takes e = some s' → AllMeet pid takes s' events

/-! ## Steps -/

/-- Who waits for whom: there is a byte in the pipe or the socket in `write_set`, and not both,
while there is a datagram. -/
structure Awake (takes : List UInt8 → Bool) (s : NBState) : Prop where
  order : s.accepted = s.sent ++ s.outputQueue
  woken : s.outputQueue ≠ [] → s.pipe = 1 ∧ s.writeSet = false ∨ s.pipe = 0 ∧ s.writeSet = true
  asleep : s.outputQueue = [] → s.pipe = 0 ∧ s.writeSet = false
  takes : ∀ d ∈ s.outputQueue, takes d = true

variable {s s' : NBState}

theorem awake_init : Awake takes init where
  order := rfl
  woken h := absurd rfl h
  asleep _ := ⟨rfl, rfl⟩
  takes _ hd := absurd hd List.not_mem_nil

theorem Awake.enqueue (h : Awake takes s) (hd : takes d = true) : Awake takes (s.enqueue d) where
  order := by simp [NBState.enqueue, h.order]
  woken _ := by
    simp only [NBState.enqueue, List.length_append, List.length_singleton]
    by_cases hempty : s.outputQueue = []
    · obtain ⟨hpipe, hset⟩ := h.asleep hempty
      simp [hempty, hpipe, hset]
    · have hpos := List.length_pos_iff.2 hempty
      rw [if_neg (by omega)]
      exact h.woken hempty
  asleep hempty := by simp [NBState.enqueue] at hempty
  takes d' hd' := by
    rcases List.mem_append.1 hd' with hd' | hd'
    · exact h.takes d' hd'
    · rw [List.mem_singleton.1 hd', hd]

theorem Awake.select {readable writable : Bool} (h : Awake takes s)
    (hmeets : s.busy = false → s.writeSet = true → readable = true → writable = true) :
    Awake takes (s.select readable writable) := by
  unfold NBState.select
  split
  · exact h
  · next hbusy =>
    have hbusy : s.busy = false := by simpa using hbusy
    dsimp only
    split
    · next hready =>
      refine ⟨h.order, fun hne => ?_, fun hempty => ?_, h.takes⟩
      · rcases h.woken hne with ⟨hpipe, hset⟩ | ⟨hpipe, hset⟩
        · simp [hpipe]
        · -- without a byte in the pipe the socket has to be writable
          have hw : writable = true := by
            simp only [hpipe, hset] at hready
            by_contra hw
            simp [hw] at hready
            exact hw (hmeets hbusy hset hready)
          simp [hpipe, hset, hw]
      · obtain ⟨hpipe, hset⟩ := h.asleep hempty
        simp [hpipe, hset]
    · exact h

theorem Awake.write (h : Awake takes s) (ok : Bool) :
    ∃ s', s.write takes ok = some s' ∧ Awake takes s' := by
  unfold NBState.write
  split
  · exact ⟨s, rfl, h⟩
  · split
    · exact ⟨_, rfl, h.order, h.woken, h.asleep, h.takes⟩
    · next hset =>
      have hset : s.writeSet = true := by simpa using hset
      split
      · next hempty => exact absurd hset (by simp [(h.asleep hempty).2])
      · next msg rest hqueue =>
        have hpipe : s.pipe = 0 := by
          rcases h.woken (by simp [hqueue]) with ⟨-, hset'⟩ | ⟨hpipe, -⟩
          · simp [hset] at hset'
          · exact hpipe
        split
        · refine ⟨_, rfl, ?_, fun hne => ?_, fun hempty => ?_, fun d hd => ?_⟩
          · simp [h.order, hqueue]
          · exact .inr ⟨hpipe, by simpa using List.length_pos_iff.2 hne⟩
          · exact ⟨hpipe, by simp [show rest = [] from hempty]⟩
          · exact h.takes d (by rw [hqueue]; exact List.mem_cons_of_mem _ hd)
        · refine ⟨_, rfl, h.order, fun hne => .inr ⟨hpipe, rfl⟩, fun hempty => ?_, h.takes⟩
          simp [hqueue] at hempty

/-! ## Service -/

/-- The selector is about to send. -/
def Ready (s : NBState) : Prop := s.busy = true ∧ s.writeSet = true

theorem write_idle {ok : Bool} (h : ¬ s.Ready) :
    s.write takes ok = some { s with busy := false } := by
  unfold NBState.write
  split
  · next hbusy => rw [← hbusy]
  · next hbusy =>
    refine if_pos (eq_false_of_ne_true fun hset => h ⟨?_, hset⟩)
    simpa using hbusy

theorem select_ready (h : Awake takes s) (hbusy : s.busy = false) (hne : s.outputQueue ≠ []) :
    (s.select false true).Ready ∧ (s.select false true).outputQueue = s.outputQueue ∧
      (s.select false true).accepted = s.accepted := by
  unfold NBState.select Ready
  rcases h.woken hne with ⟨hpipe, hset⟩ | ⟨hpipe, hset⟩ <;> simp [hbusy, hpipe, hset]

theorem select_empty (h : Awake takes s) (hempty : s.outputQueue = []) :
    s.select false true = s := by
  obtain ⟨hpipe, hset⟩ := h.asleep hempty
  simp [NBState.select, hpipe, hset]

theorem write_ready {msg : List UInt8} {rest : List (List UInt8)} (h : s.Ready)
    (hqueue : s.outputQueue = msg :: rest) (ht : takes msg = true) :
    ∃ s', s.write takes true = some s' ∧ s'.busy = false ∧ s'.outputQueue = rest ∧
      s'.accepted = s.accepted := by
  refine ⟨{ s with
    busy := false
    outputQueue := rest
    writeSet := 0 < rest.length
    waiting := if 0 < rest.length then s.waiting else s.waiting - 1
    sent := s.sent ++ [msg] }, ?_, rfl, rfl, rfl⟩
  simp [NBState.write, h.1, h.2, hqueue, ht]

/-- How often the selector has to go round. -/
def rounds (s : NBState) : Nat :=
  if s.outputQueue = [] then 0
  else s.outputQueue.length + if s.busy = true ∧ s.writeSet = true then 0 else 1

theorem round (pid : Nat) (h : Awake takes s) :
    ∃ s', run pid takes s [.write true, .select false true] = some s' ∧ Awake takes s' ∧
      s'.accepted = s.accepted ∧ s'.rounds ≤ s.rounds - 1 := by
  obtain ⟨s₁, hwrite, hs₁⟩ := h.write true
  have hs₂ : Awake takes (s₁.select false true) := hs₁.select fun _ _ hfalse => by cases hfalse
  refine ⟨s₁.select false true, ?_, hs₂, ?_⟩
  · simp [run, step, hwrite]
  by_cases hready : s.Ready
  · cases hqueue : s.outputQueue with
    | nil => exact absurd hready.2 (by simp [(h.asleep hqueue).2])
    | cons msg rest =>
      obtain ⟨s', hs', hbusy, hrest, hacc⟩ :=
        write_ready hready hqueue (h.takes msg (by simp [hqueue]))
      obtain rfl := Option.some.inj (hwrite.symm.trans hs')
      by_cases hempty : rest = []
      · rw [select_empty hs₁ (hrest.trans hempty)]
        exact ⟨hacc, by simp [rounds, hrest, hempty]⟩
      · obtain ⟨hready', hqueue', hacc'⟩ := select_ready hs₁ hbusy (by rwa [hrest])
        refine ⟨hacc'.trans hacc, ?_⟩
        simp [rounds, hqueue', hrest, hempty, hqueue, hready'.1, hready'.2, hready.1, hready.2]
  · rw [write_idle hready] at hwrite
    obtain rfl := Option.some.inj hwrite
    by_cases hempty : s.outputQueue = []
    · rw [select_empty hs₁ hempty]
      exact ⟨rfl, by simp [rounds, hempty]⟩
    · obtain ⟨hready', hqueue', hacc'⟩ := select_ready hs₁ rfl hempty
      refine ⟨hacc', ?_⟩
      simp [rounds, hqueue', hempty, hready'.1, hready'.2, show ¬ (s.busy = true ∧ s.writeSet = true) from hready]

theorem run_append (s : NBState) (events events' : List NBEvent) :
    run pid takes s (events ++ events') = (run pid takes s events).bind fun s => run pid takes s events' := by
  simp [run, List.foldlM_append]

theorem run_serve {n : Nat} (h : Awake takes s) (hn : s.rounds ≤ n) :
    ∃ s', run pid takes s (serve n) = some s' ∧ s'.sent = s.accepted := by
  induction n generalizing s with
  | zero =>
    have hempty : s.outputQueue = [] := by
      by_contra hne
      have hpos := List.length_pos_iff.2 hne
      rw [rounds, if_neg hne] at hn
      omega
    exact ⟨s, rfl, by simp [h.order, hempty]⟩
  | succ n ih =>
    obtain ⟨s', hround, hs', hacc, hless⟩ := round pid h
    obtain ⟨s'', hrun, hsent⟩ := ih hs' (by omega)
    refine ⟨s'', ?_, hsent.trans hacc⟩
    have happend : run pid takes s (serve (n + 1)) = _ :=
      run_append s [.write true, .select false true] (serve n)
    rw [happend, hround]
    exact hrun

theorem Awake.delivers (h : Awake takes s) : s.Delivers pid takes where
  order := h.order
  served n hn := by
    refine run_serve h ?_
    unfold rounds
    split
    · omega
    · split <;> omega

/-! ## Where it fails -/

/-- Without a byte in the pipe and without the socket in `write_set` nothing is sent any more. -/
theorem run_stuck {n : Nat} (hpipe : s.pipe = 0) (hset : s.writeSet = false)
    (hrun : run pid takes s (serve n) = some s') : s'.sent = s.sent := by
  induction n generalizing s with
  | zero =>
    obtain rfl := Option.some.inj hrun
    rfl
  | succ n ih =>
    have hidle : s.write takes true = some { s with busy := false } :=
      write_idle fun hready => Bool.false_ne_true (hset.symm.trans hready.2)
    have hselect : ({ s with busy := false } : NBState).select false true = { s with busy := false } := by
      simp [NBState.select, hpipe, hset]
    have hnext : run pid takes { s with busy := false } (serve n) = some s' := by
      simpa [run, serve, step, hidle, hselect] using hrun
    exact ih (s := { s with busy := false }) hpipe hset hnext

/-- What is sent was in front of the queue, and the socket took it. -/
theorem write_sent {ok : Bool} (h : s.write takes ok = some s') :
    ∃ l, s'.sent = s.sent ++ l ∧ s.outputQueue = l ++ s'.outputQueue ∧ ∀ d ∈ l, takes d = true := by
  unfold NBState.write at h
  split at h
  · obtain rfl := Option.some.inj h
    exact ⟨[], by simp⟩
  · split at h
    · obtain rfl := Option.some.inj h
      exact ⟨[], by simp⟩
    · split at h
      · cases h
      · next msg rest hqueue =>
        split at h
        · next htaken =>
          obtain rfl := Option.some.inj h
          have ht : takes msg = true := by
            simp only [Bool.and_eq_true] at htaken
            exact htaken.2
          exact ⟨[msg], rfl, hqueue, by simpa using ht⟩
        · obtain rfl := Option.some.inj h
          exact ⟨[], by simp [hqueue]⟩

theorem select_queue {readable writable : Bool} :
    (s.select readable writable).outputQueue = s.outputQueue ∧
      (s.select readable writable).sent = s.sent := by
  unfold NBState.select
  split
  · exact ⟨rfl, rfl⟩
  · dsimp only
    split <;> exact ⟨rfl, rfl⟩

theorem serve_sent {n : Nat} (h : run pid takes s (serve n) = some s') :
    ∃ l, s'.sent = s.sent ++ l ∧ ∀ d ∈ l, takes d = true := by
  induction n generalizing s with
  | zero =>
    obtain rfl := Option.some.inj h
    exact ⟨[], by simp⟩
  | succ n ih =>
    obtain ⟨s₁, hwrite, hnext⟩ := Option.bind_eq_some_iff.1 h
    obtain ⟨l, hl, -, htaken⟩ := write_sent hwrite
    obtain ⟨l', hl', htaken'⟩ := ih hnext
    refine ⟨l ++ l', ?_, ?_⟩
    · rw [hl', select_queue.2, hl, List.append_assoc]
    · intro d hd
      exact (List.mem_append.1 hd).elim (htaken d) (htaken' d)

theorem Delivers.taken (h : s.Delivers pid takes) : ∀ d ∈ s.outputQueue, takes d = true := by
  obtain ⟨s', hrun, hsent⟩ := h.served _ (Nat.lt_succ_self _)
  obtain ⟨l, hl, htaken⟩ := serve_sent hrun
  rw [hsent, h.order, List.append_cancel_left_eq] at hl
  rwa [hl]

theorem Delivers.queue_nil (h : s.Delivers pid takes) (hpipe : s.pipe = 0)
    (hset : s.writeSet = false) : s.outputQueue = [] := by
  obtain ⟨s', hrun, hsent⟩ := h.served _ (Nat.lt_succ_self _)
  have hstuck := run_stuck hpipe hset hrun
  rw [hsent, h.order] at hstuck
  simpa using hstuck

theorem run_cons {e : NBEvent} {events : List NBEvent} (h : s.step pid takes e = some s') :
    run pid takes s (e :: events) = run pid takes s' events := by
  simp [run, h]

theorem Awake.step {e : NBEvent} (h : Awake takes s) (hmeets : s.Meets pid takes e) :
    ∃ s', s.step pid takes e = some s' ∧ Awake takes s' := by
  cases e with
  | call c fresh =>
    have hagree : c.Agree fresh pid := (c.agree_iff_suits fresh pid).2 hmeets.1
    simp only [NBState.step]
    split
    · next hnone =>
      rw [ApiCall.Agree, hnone] at hagree
      split at hagree <;> simp_all
    · exact ⟨s, rfl, h⟩
    · next msg hmsg => exact ⟨_, rfl, h.enqueue (hmeets.2 msg hmsg)⟩
  | select readable writable => exact ⟨_, rfl, h.select hmeets⟩
  | write ok => exact h.write ok

theorem Awake.meets {e : NBEvent} (h : Awake takes s) (hstep : s.step pid takes e = some s')
    (hs' : s'.Delivers pid takes) (hagree : ∀ c fresh, e = .call c fresh → c.Agree fresh pid) :
    s.Meets pid takes e := by
  cases e with
  | call c fresh =>
    refine ⟨(c.agree_iff_suits fresh pid).1 (hagree c fresh rfl), fun msg hmsg => hs'.taken msg ?_⟩
    simp only [NBState.step, hmsg, Option.some.injEq] at hstep
    rw [← hstep]
    simp [NBState.enqueue]
  | select readable writable =>
    intro hbusy hset hreadable
    by_contra hw
    have hwritable : writable = false := eq_false_of_ne_true hw
    have hne : s.outputQueue ≠ [] := fun hempty => by simp [(h.asleep hempty).2] at hset
    have hpipe : s.pipe = 0 := by
      rcases h.woken hne with ⟨-, hset'⟩ | ⟨hpipe, -⟩
      · simp [hset] at hset'
      · exact hpipe
    have hs : s' = { s with busy := true, writeSet := false } := by
      rw [← Option.some.inj hstep]
      simp [NBState.select, hbusy, hset, hreadable, hwritable, hpipe]
    subst hs
    exact hne (hs'.queue_nil hpipe rfl)
  | write ok => trivial

theorem interchangeable_of_awake {events : List NBEvent} (h : Awake takes s) :
    Interchangeable pid takes s events ↔ AllMeet pid takes s events := by
  induction events generalizing s with
  | nil =>
    refine iff_of_true ⟨fun _ _ hmem => absurd hmem List.not_mem_nil, fun before hbefore => ?_⟩ trivial
    rw [List.prefix_nil.1 hbefore]
    exact ⟨s, rfl, h.delivers⟩
  | cons e events ih =>
    constructor
    · rintro ⟨hagree, hdelivers⟩
      obtain ⟨s', hrun, hs'⟩ := hdelivers [e] ⟨events, rfl⟩
      have hstep : s.step pid takes e = some s' := by simpa [run] using hrun
      have hmeets : s.Meets pid takes e := h.meets hstep hs' fun c fresh hc =>
        hagree c fresh (hc ▸ List.mem_cons_self)
      refine ⟨hmeets, fun s'' hstep'' => ?_⟩
      obtain rfl := Option.some.inj (hstep.symm.trans hstep'')
      obtain ⟨s₁, hs₁, hawake⟩ := h.step hmeets
      obtain rfl := Option.some.inj (hstep.symm.trans hs₁)
      refine (ih hawake).1 ⟨fun c fresh hc => hagree c fresh (List.mem_cons_of_mem _ hc), ?_⟩
      intro before hbefore
      rw [← run_cons hstep]
      exact hdelivers (e :: before) ((List.cons_prefix_cons).2 ⟨rfl, hbefore⟩)
    · rintro ⟨hmeets, hall⟩
      obtain ⟨s', hstep, hs'⟩ := h.step hmeets
      obtain ⟨hagree, hdelivers⟩ := (ih hs').2 (hall s' hstep)
      refine ⟨fun c fresh hc => ?_, fun before hbefore => ?_⟩
      · rcases List.mem_cons.1 hc with rfl | hc
        · exact (c.agree_iff_suits fresh pid).2 hmeets.1
        · exact hagree c fresh hc
      · cases before with
        | nil => exact ⟨s, rfl, h.delivers⟩
        | cons e' before =>
          obtain ⟨rfl, hrest⟩ := List.cons_prefix_cons.1 hbefore
          rw [run_cons hstep]
          exact hdelivers before hrest

end NBState

/-- The two libraries are interchangeable in a run exactly when all its steps meet their
conditions. -/
theorem interchangeable_iff (pid : Nat) (takes : List UInt8 → Bool) (events : List NBEvent) :
    NBState.Interchangeable pid takes .init events ↔ NBState.AllMeet pid takes .init events :=
  NBState.interchangeable_of_awake NBState.awake_init

/-- Data under an id of five bytes. -/
def unevenPublication : List NBEvent := [.call (.publishData [1, 2, 3, 4, 5] domainLocal none [7]) fun _ => 0]

/-- While the second datagram waits for the socket, `select` returns for an event to be read. -/
def lostWakeup : List NBEvent :=
  let call := .call (.publishData [] domainLocal none [7]) fun _ => 0
  [call, call, .select false false, .write true, .select true false]

theorem not_interchangeable :
    ¬ NBState.Interchangeable 7 (fun _ => true) .init unevenPublication ∧
      ¬ NBState.Interchangeable 7 (fun _ => true) .init lostWakeup := by
  constructor
  · intro h
    have hagree := h.agree _ _ (List.mem_singleton.2 rfl)
    have hsuits := (ApiCall.agree_iff_suits _ _ _).1 hagree
    exact absurd hsuits.1 (by decide)
  · intro h
    obtain ⟨s, hrun, hs⟩ := h.delivers _ (List.prefix_refl _)
    have hstuck : (NBState.run 7 (fun _ => true) .init lostWakeup).map
        (fun s => (s.outputQueue.length, s.pipe, s.writeSet)) = some (1, 0, false) := by
      decide +kernel
    rw [hrun, Option.map_some, Option.some.injEq, Prod.mk.injEq, Prod.mk.injEq] at hstuck
    rw [hs.queue_nil hstuck.2.1 hstuck.2.2] at hstuck
    exact absurd hstuck.1 (by decide)

end Blackadder
