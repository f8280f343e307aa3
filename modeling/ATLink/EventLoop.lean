import ATLink.Callers
import ATLink.Timer

/-!
# The event loop

Reference model of `Orchestrator::loop`, `notify`, `timerCallback`, `shutDown` and `canSend` of
`core/fsm/Orchestrator.h`, over the queue of `platform/linux/MessageQueue.h` and the timer: the
thread of `loop`, any number of callers of `sendCommand` (`ATLink.System`), the thread that polls
the device, and the one of the timer.

* `MessageQueue` — `put` and `get`; a `get` on an empty queue is not taken.
* `Loop` — the thread of `loop`: in front of `events.get()`, with an event it has taken, or behind
  the `break`.
* `Orchestrator.step` — a step of one of the threads.  The answer of `canSend` is that of the timer.
* `Occurrence` — the events put into the queue and the events handled, in the order in which this
  happens.

Principal results: `step_cases` — everything a step can do; `loop_refines` — the loop handles the
events posted before the first `ShutDown`, each once and in order, and the machine does what
`ATLink.System` does on these; `never_deferred` — the timer is never started, so that no command
waits for it.
-/

namespace ATLink

open LabelledRun

/-- The messages, oldest first. -/
structure MessageQueue (T : Type) where
  queue : List T

namespace MessageQueue

variable {T : Type}

def put (q : MessageQueue T) (msg : T) : MessageQueue T := ⟨q.queue ++ [msg]⟩

/-- `none` where `get` blocks. -/
def get (q : MessageQueue T) : Option (T × MessageQueue T) :=
  match q.queue with
  | [] => none
  | v :: rest => some (v, ⟨rest⟩)

/-- Putting several messages. -/
def putAll (q : MessageQueue T) (msgs : List T) : MessageQueue T := msgs.foldl put q

@[simp] theorem put_queue (q : MessageQueue T) (msg : T) : (q.put msg).queue = q.queue ++ [msg] := rfl

@[simp] theorem putAll_queue (q : MessageQueue T) (msgs : List T) :
    (q.putAll msgs).queue = q.queue ++ msgs := by
  unfold putAll
  induction msgs generalizing q with
  | nil => simp
  | cons msg msgs ih => simp [ih]

theorem get_eq_some_iff {q q' : MessageQueue T} {v : T} :
    q.get = some (v, q') ↔ q.queue = v :: q'.queue := by
  unfold get
  constructor
  · intro h
    split at h
    · cases h
    · rename_i w rest hq
      cases h
      exact hq
  · intro h
    rw [h]

end MessageQueue

/-- `Platform::Api::Subscriber::Event`. -/
inductive Subscriber.Event where
  | rxReady
  | txReady
  deriving DecidableEq

/-- The thread of `loop`. -/
inductive Loop where
  | getting
  | handling (ev : Event)
  | stopped
  deriving DecidableEq

structure Orchestrator (κ π ρ δ : Type) where
  system : System κ π ρ δ
  events : MessageQueue Event
  coolDown : Timer Event
  loop : Loop

/-- A step of the thread that polls, of a caller of `shutDown`, of the thread of the timer, of the
thread of `loop`, or of a caller of `sendCommand`. -/
inductive Activity (κ π ρ : Type) where
  | notify (ev : Subscriber.Event)
  | shutDown
  | coolDown (l : Timer.Step Event)
  | get
  | handle (a : Answers)
  | caller (l : Step κ π ρ)

/-- What happens to the queue. -/
inductive Occurrence where
  | posted (ev : Event)
  | handled (ev : Event)
  deriving DecidableEq

def Occurrence.posted? : Occurrence → Option Event
  | .posted ev => some ev
  | .handled _ => none

def Occurrence.handled? : Occurrence → Option Event
  | .posted _ => none
  | .handled ev => some ev

section Orchestrator

variable {κ π ρ δ : Type} (I : Interfaces κ π ρ δ)

namespace Orchestrator

/-- The orchestrator as constructed: `coolDown.setHandler(timerCallback, this)`. -/
def init (ctx : Context κ π ρ δ) : Orchestrator κ π ρ δ :=
  ⟨System.init ctx, ⟨[]⟩, { Timer.init with callback := some .txReady }, .getting⟩

def notify (s : Orchestrator κ π ρ δ) (ev : Subscriber.Event) : Orchestrator κ π ρ δ :=
  if ev = .rxReady then { s with events := s.events.put .rxReady } else s

def shutDown (s : Orchestrator κ π ρ δ) : Orchestrator κ π ρ δ :=
  { s with events := s.events.put .shutDown }

def canSend (s : Orchestrator κ π ρ δ) : Bool := !s.coolDown.isRunning

/-- `auto ev = events.get()`, and the test for `ShutDown`. -/
def get (s : Orchestrator κ π ρ δ) : Option (Orchestrator κ π ρ δ) :=
  s.events.get.map fun r =>
    { s with events := r.2, loop := if r.1 = .shutDown then .stopped else .handling r.1 }

/-- The callers make the steps of `sendCommand`, on the answer of `canSend`. -/
def permits (s : Orchestrator κ π ρ δ) : Step κ π ρ → Bool
  | .call _ _ _ _ a => a.canSend == s.canSend
  | .recheck _ a => a.canSend == s.canSend
  | .spurious _ => true
  | .acquire _ => true
  | .handle _ _ => false

/-- A step; `none` where it cannot be taken.  Of the timer's operations only those of its thread
are steps: `start` and `stop` are called nowhere. -/
def step (s : Orchestrator κ π ρ δ) : Activity κ π ρ → Option (Orchestrator κ π ρ δ)
  | .notify ev => some (s.notify ev)
  | .shutDown => some s.shutDown
  | .coolDown l =>
    if l.ofWorker then
      (s.coolDown.step l).map fun t =>
        { s with coolDown := t, events := s.events.putAll ((Timer.fired s.coolDown l t).map (·.2)) }
    else none
  | .get => if s.loop = .getting then s.get else none
  | .handle a =>
    match s.loop with
    | .handling ev => (s.system.handle I ev a).map fun sys => { s with system := sys, loop := .getting }
    | _ => none
  | .caller l =>
    if s.permits l then (s.system.step I l).map fun sys => { s with system := sys } else none

/-- What a step does to the queue, and the event it handles. -/
def occurrences (s : Orchestrator κ π ρ δ) (l : Activity κ π ρ) (s' : Orchestrator κ π ρ δ) :
    List Occurrence :=
  match l, s.loop with
  | .notify .rxReady, _ => [.posted .rxReady]
  | .shutDown, _ => [.posted .shutDown]
  | .coolDown l, _ => (Timer.fired s.coolDown l s'.coolDown).map fun e => .posted e.2
  | .handle _, .handling ev => [.handled ev]
  | _, _ => []

/-- The events that are posted and not handled yet. -/
def pending (s : Orchestrator κ π ρ δ) : List Event :=
  match s.loop with
  | .getting => s.events.queue
  | .handling ev => ev :: s.events.queue
  | .stopped => .shutDown :: s.events.queue

variable {I} {s s' t : Orchestrator κ π ρ δ}

/-! ## What a step can do -/

/-- **What a step does**, by its label. -/
inductive Stepped (I : Interfaces κ π ρ δ) (s : Orchestrator κ π ρ δ) :
    Activity κ π ρ → Orchestrator κ π ρ δ → Prop where
  | notify {ev : Subscriber.Event} : Stepped I s (.notify ev) (s.notify ev)
  | shutDown : Stepped I s .shutDown s.shutDown
  | coolDown {l : Timer.Step Event} {t : Timer Event} : l.ofWorker = true → s.coolDown.step l = some t →
      Stepped I s (.coolDown l) { s with
        coolDown := t, events := s.events.putAll ((Timer.fired s.coolDown l t).map (·.2)) }
  | taken {ev : Event} {rest : List Event} : s.loop = .getting → s.events.queue = ev :: rest →
      ev ≠ .shutDown → Stepped I s .get { s with events := ⟨rest⟩, loop := .handling ev }
  | stopped {rest : List Event} : s.loop = .getting → s.events.queue = .shutDown :: rest →
      Stepped I s .get { s with events := ⟨rest⟩, loop := .stopped }
  | handle {ev : Event} {a : Answers} {sys : System κ π ρ δ} : s.loop = .handling ev →
      s.system.handle I ev a = some sys →
      Stepped I s (.handle a) { s with system := sys, loop := .getting }
  | caller {l : Step κ π ρ} {sys : System κ π ρ δ} : s.permits l = true → s.system.step I l = some sys →
      Stepped I s (.caller l) { s with system := sys }

theorem step_cases {l : Activity κ π ρ} (h : s.step I l = some s') : Stepped I s l s' := by
  cases l with
  | notify ev => cases h; exact .notify
  | shutDown => cases h; exact .shutDown
  | coolDown l =>
    simp only [step] at h
    split at h
    · rename_i hl
      obtain ⟨t, ht, rfl⟩ := Option.map_eq_some_iff.1 h
      exact .coolDown hl ht
    · cases h
  | get =>
    simp only [step] at h
    split at h
    · rename_i hl
      obtain ⟨⟨ev, q⟩, hget, rfl⟩ := Option.map_eq_some_iff.1 h
      have hq := MessageQueue.get_eq_some_iff.1 hget
      by_cases hev : ev = .shutDown
      · subst hev
        simpa using Stepped.stopped (I := I) hl hq
      · simpa [hev] using Stepped.taken (I := I) hl hq hev
    · cases h
  | handle a =>
    simp only [step] at h
    split at h
    · rename_i ev hl
      obtain ⟨sys, hsys, rfl⟩ := Option.map_eq_some_iff.1 h
      exact .handle hl hsys
    · cases h
  | caller l =>
    simp only [step] at h
    split at h
    · rename_i hl
      obtain ⟨sys, hsys, rfl⟩ := Option.map_eq_some_iff.1 h
      exact .caller hl hsys
    · cases h

/-! ## The machine behind the loop -/

/-- A step of a caller or the machine, or none. -/
theorem system_of_step {l : Activity κ π ρ} (h : s.step I l = some s') :
    s'.system = s.system ∨ ∃ m, s.system.step I m = some s'.system ∧
      ((∃ ev a, l = .handle a ∧ s.loop = .handling ev ∧ m = .handle ev a) ∨ l = .caller m) := by
  cases step_cases h with
  | @notify ev => cases ev <;> exact Or.inl rfl
  | shutDown => exact Or.inl rfl
  | coolDown => exact Or.inl rfl
  | taken => exact Or.inl rfl
  | stopped => exact Or.inl rfl
  | @handle ev a sys hl hsys => exact Or.inr ⟨.handle ev a, hsys, Or.inl ⟨ev, a, rfl, hl, rfl⟩⟩
  | @caller m sys hl hsys => exact Or.inr ⟨m, hsys, Or.inr rfl⟩

variable (I) in
/-- What a step means to the machine and its callers. -/
def simulation : Simulation (step I) (System.step I) where
  rel s sys := sys = s.system
  answer s l _ :=
    match l, s.loop with
    | .handle a, .handling ev => [.handle ev a]
    | .caller l, _ => [l]
    | _, _ => []
  answered s sys l s' hrel h := by
    subst hrel
    cases step_cases h with
    | @notify ev =>
      refine ⟨_, rfl, ?_⟩
      unfold notify
      split <;> rfl
    | shutDown => exact ⟨_, rfl, rfl⟩
    | coolDown hl ht => exact ⟨_, rfl, rfl⟩
    | taken hl hq hev => exact ⟨_, rfl, rfl⟩
    | stopped hl hq => exact ⟨_, rfl, rfl⟩
    | @handle ev a sys hl hsys =>
      refine ⟨sys, ?_, rfl⟩
      simp only [hl, run_cons, System.step, hsys]
      rfl
    | @caller l sys hl hsys =>
      refine ⟨sys, ?_, rfl⟩
      simp only [run_cons, hsys]
      rfl

/-- The steps of the machine and its callers in a run. -/
abbrev systemSteps (I : Interfaces κ π ρ δ) (ls : List (Activity κ π ρ)) (s : Orchestrator κ π ρ δ) :
    List (Step κ π ρ) := (simulation I).answers ls s

/-- The event that a step of the machine handles. -/
def handledEvent : Step κ π ρ → Option Event
  | .handle ev _ => some ev
  | _ => none

/-- A run of the orchestrator is one of the machine and its callers. -/
theorem run_system {ls : List (Activity κ π ρ)} (h : run (step I) ls s = some t) :
    run (System.step I) (systemSteps I ls s) s.system = some t.system := by
  obtain ⟨sys, hsys, rfl⟩ := (simulation I).run_answered rfl h
  exact hsys

/-! ## The queue -/

/-- The log of a run up to a state. -/
structure Logged (s : Orchestrator κ π ρ δ) (log : List Occurrence) : Prop where
  posted : log.filterMap Occurrence.posted? = log.filterMap Occurrence.handled? ++ s.pending
  handled : .shutDown ∉ log.filterMap Occurrence.handled?
  loop : s.loop ≠ .handling .shutDown

/-- Events are put behind all that are pending. -/
theorem Logged.post {log : List Occurrence} (h : s.Logged log) (evs : List Event)
    (hloop : s'.loop = s.loop) (hqueue : s'.events.queue = s.events.queue ++ evs) :
    s'.Logged (log ++ evs.map .posted) := by
  have hpending : s'.pending = s.pending ++ evs := by
    unfold pending
    rw [hloop, hqueue]
    cases s.loop <;> rfl
  have hposted : (evs.map Occurrence.posted).filterMap Occurrence.posted? = evs := by
    rw [List.filterMap_map]
    exact List.filterMap_some
  have hhandled : (evs.map Occurrence.posted).filterMap Occurrence.handled? = [] := by
    rw [List.filterMap_map]
    exact List.filterMap_eq_nil_iff.2 fun _ _ => rfl
  refine ⟨?_, ?_, by rw [hloop]; exact h.loop⟩
  · rw [List.filterMap_append, List.filterMap_append, hposted, hhandled, hpending, h.posted]
    simp only [List.append_nil, List.append_assoc]
  · rw [List.filterMap_append, hhandled, List.append_nil]
    exact h.handled

/-- Every step keeps the log. -/
theorem step_logged {l : Activity κ π ρ} {log : List Occurrence} (hs : s.Logged log)
    (h : s.step I l = some s') : s'.Logged (log ++ occurrences s l s') := by
  cases step_cases h with
  | @notify ev =>
    cases ev with
    | rxReady => exact hs.post [.rxReady] rfl rfl
    | txReady => exact hs.post [] rfl (List.append_nil _).symm
  | shutDown => exact hs.post [.shutDown] rfl rfl
  | @coolDown l t hl ht =>
    have hout : occurrences s (.coolDown l) { s with
        coolDown := t, events := s.events.putAll ((Timer.fired s.coolDown l t).map (·.2)) } =
        ((Timer.fired s.coolDown l t).map (·.2)).map .posted := by
      rw [List.map_map]
      rfl
    rw [hout]
    exact hs.post _ rfl (MessageQueue.putAll_queue _ _)
  | @taken ev rest hl hq hev =>
    have hposted := hs.posted
    unfold pending at hposted
    rw [hl, hq] at hposted
    rw [show occurrences s .get _ = [] from rfl, List.append_nil]
    exact ⟨hposted, hs.handled, fun he => hev (by cases he; rfl)⟩
  | stopped hl hq =>
    have hposted := hs.posted
    unfold pending at hposted
    rw [hl, hq] at hposted
    rw [show occurrences s .get _ = [] from rfl, List.append_nil]
    exact ⟨hposted, hs.handled, fun he => by cases he⟩
  | @handle ev a sys hl hsys =>
    have hposted := hs.posted
    have hne : ev ≠ .shutDown := fun he => hs.loop (by rw [hl, he])
    unfold pending at hposted
    rw [hl] at hposted
    rw [show occurrences s (.handle a) _ = [.handled ev] by unfold occurrences; rw [hl]]
    refine ⟨?_, ?_, fun he => by cases he⟩
    · rw [List.filterMap_append, List.filterMap_append, hposted]
      simp [Occurrence.posted?, Occurrence.handled?, pending]
    · rw [List.filterMap_append, List.mem_append]
      rintro (hmem | hmem)
      · exact hs.handled hmem
      · have hmem : Event.shutDown ∈ [ev] := hmem
        exact hne (List.mem_singleton.1 hmem).symm
  | caller hl hsys =>
    rw [show occurrences s (.caller _) _ = [] from rfl, List.append_nil]
    exact ⟨hs.posted, hs.handled, hs.loop⟩

/-- The events handled are those that the machine handles. -/
theorem step_handled {l : Activity κ π ρ} (h : s.step I l = some s') :
    ((simulation I).answer s l s').filterMap handledEvent =
      (occurrences s l s').filterMap Occurrence.handled? := by
  cases step_cases h with
  | @notify ev => cases ev <;> rfl
  | shutDown => rfl
  | coolDown hl ht =>
    unfold occurrences
    rw [List.filterMap_map]
    exact (List.filterMap_eq_nil_iff.2 fun _ _ => rfl).symm
  | taken hl hq hev => rfl
  | stopped hl hq => rfl
  | handle hl hsys =>
    simp only [simulation, occurrences, hl]
    rfl
  | @caller l sys hl hsys =>
    cases l with
    | handle ev a => cases hl
    | call c command result response a => rfl
    | spurious c => rfl
    | recheck c a => rfl
    | acquire c => rfl

theorem run_handled {ls : List (Activity κ π ρ)} (h : run (step I) ls s = some t) :
    (systemSteps I ls s).filterMap handledEvent =
      (collect (step I) occurrences ls s).filterMap Occurrence.handled? := by
  induction ls generalizing s with
  | nil => rfl
  | cons l ls ih =>
    obtain ⟨s', h1, h2⟩ := run_cons_some h
    rw [collect_cons h1, List.filterMap_append, ← step_handled h1, ← ih h2]
    unfold systemSteps Simulation.answers
    rw [collect_cons h1, List.filterMap_append]

/-! ## The timer is never started -/

/-- No command waits for the timer: it does not run and has no thread, and no `TxReady` is
pending. -/
structure Undeferred (s : Orchestrator κ π ρ δ) : Prop where
  running : s.coolDown.isRunning = false
  worker : s.coolDown.worker = none
  pending : .txReady ∉ s.pending
  state : ∀ msg, s.system.state ≠ .sendCommand msg

theorem init_undeferred (ctx : Context κ π ρ δ) : (init ctx).Undeferred :=
  ⟨rfl, rfl, by simp [init, Orchestrator.pending], fun _ h => by cases h⟩

theorem Undeferred.canSend (h : s.Undeferred) : s.canSend = true := by
  unfold Orchestrator.canSend
  rw [h.running]
  rfl

/-- Passing the gate at once, or not at all. -/
theorem gate_undeferred {sys sys' : System κ π ρ δ} {c : Nat} {a : Answers}
    (hstate : ∀ msg, sys.state ≠ .sendCommand msg) (hcan : a.canSend = true)
    (h : sys.gate I c a = some sys') : ∀ msg, sys'.state ≠ .sendCommand msg := by
  rcases System.gate_cases h with ⟨-, rfl⟩ | ⟨-, -, -, hnext⟩
  · exact hstate
  · rcases hnext with ⟨hcan', -⟩ | ⟨-, -, hst⟩ | ⟨-, -, hst⟩
    · rw [hcan] at hcan'
      cases hcan'
    · exact fun msg he => by rw [hst] at he; cases he
    · exact fun msg he => by rw [hst] at he; cases he

/-- A thread of the timer that is not there takes no step. -/
theorem no_worker_step {t t' : Timer Event} {l : Timer.Step Event} (hworker : t.worker = none)
    (hl : l.ofWorker = true) : t.step l ≠ some t' := by
  intro h
  cases Timer.step_cases h with
  | setHandler ho => cases hl
  | start ho => cases hl
  | stop ho => cases hl
  | join ho hj => cases hl
  | arm ho => cases hl
  | spawn ho => cases hl
  | cancel hw hc => rw [hworker] at hw; cases hw
  | expire hw hc => rw [hworker] at hw; cases hw
  | call hw => rw [hworker] at hw; cases hw
  | finish hw => rw [hworker] at hw; cases hw

theorem caller_undeferred {l : Step κ π ρ} {sys : System κ π ρ δ} (hs : s.Undeferred)
    (hl : s.permits l = true) (h : s.system.step I l = some sys) :
    ∀ msg, sys.state ≠ .sendCommand msg := by
  have hcan : ∀ {a : Answers}, (a.canSend == s.canSend) = true → a.canSend = true := by
    intro a ha
    rw [beq_iff_eq.1 ha, hs.canSend]
  cases System.step_cases h with
  | @call c command result response a _ hc h =>
    exact @gate_undeferred _ _ _ _ _ (s.system.arrive c command result response) sys c a hs.state
      (hcan hl) h
  | spurious hc => exact hs.state
  | recheck hc h => exact gate_undeferred hs.state (hcan hl) h
  | acquire hc hpos => exact hs.state
  | handle h => cases hl

/-- Every step keeps commands from waiting for the timer. -/
theorem step_undeferred {l : Activity κ π ρ} (hs : s.Undeferred) (h : s.step I l = some s') :
    s'.Undeferred := by
  have hpost : ∀ ev, ev ≠ .txReady → Undeferred { s with events := s.events.put ev } := by
    intro ev hev
    refine ⟨hs.running, hs.worker, ?_, hs.state⟩
    have hpending := hs.pending
    unfold Orchestrator.pending at hpending ⊢
    cases hloop : s.loop <;> simp_all [eq_comm]
  cases step_cases h with
  | @notify ev =>
    cases ev with
    | rxReady => exact hpost .rxReady (by decide)
    | txReady => exact hs
  | shutDown => exact hpost .shutDown (by decide)
  | coolDown hl ht => exact absurd ht (no_worker_step hs.worker hl)
  | taken hl hq hev =>
    have hpending := hs.pending
    unfold Orchestrator.pending at hpending
    rw [hl, hq] at hpending
    exact ⟨hs.running, hs.worker, hpending, hs.state⟩
  | stopped hl hq =>
    have hpending := hs.pending
    unfold Orchestrator.pending at hpending
    rw [hl, hq] at hpending
    exact ⟨hs.running, hs.worker, hpending, hs.state⟩
  | @handle ev a sys hl hsys =>
    have hpending := hs.pending
    unfold Orchestrator.pending at hpending
    rw [hl, List.mem_cons, not_or] at hpending
    refine ⟨hs.running, hs.worker, hpending.2, ?_⟩
    obtain ⟨⟨next, ctx'⟩, hhandle, rfl⟩ := Option.map_eq_some_iff.1 hsys
    rcases State.handle_cases hhandle with
      ⟨hnext, -, -⟩ | ⟨msg, htx, -, -, -⟩ | ⟨msg, -, -, hnext, -, -⟩
    · exact fun msg he => hs.state msg (by rw [← hnext]; exact he)
    · exact absurd htx.symm hpending.1
    · exact fun msg he => by rw [show next = _ from he] at hnext; cases hnext
  | caller hl hsys => exact ⟨hs.running, hs.worker, hs.pending, caller_undeferred hs hl hsys⟩

/-- No step posts a `TxReady`. -/
theorem step_posts_no_txReady {l : Activity κ π ρ} (hs : s.Undeferred) (h : s.step I l = some s') :
    .posted .txReady ∉ occurrences s l s' := by
  cases step_cases h with
  | @notify ev => cases ev <;> simp [occurrences]
  | shutDown => simp [occurrences]
  | coolDown hl ht => exact absurd ht (no_worker_step hs.worker hl)
  | taken hl hq hev => simp [occurrences]
  | stopped hl hq => simp [occurrences]
  | handle hl hsys => simp [occurrences, hl]
  | caller hl hsys => simp [occurrences]

/-- Every reachable state is free of deferred commands. -/
theorem undeferred_of_run {ctx : Context κ π ρ δ} {ls : List (Activity κ π ρ)}
    (hrun : run (step I) ls (init ctx) = some s) : s.Undeferred :=
  run_inv (fun _ _ _ hs h => step_undeferred hs h) ls (init ctx) s (init_undeferred ctx) hrun

end Orchestrator

variable {I}

/-! ## Runs -/

/-- **The loop handles what is posted, in order**: a run of all the threads is a run of the machine
and its callers, in which the events handled are those posted, in the order of posting and each
once, up to the first `ShutDown`; what is not handled is pending. -/
theorem loop_refines {ctx : Context κ π ρ δ} {ls : List (Activity κ π ρ)} {t : Orchestrator κ π ρ δ}
    (hrun : run (Orchestrator.step I) ls (Orchestrator.init ctx) = some t) :
    let log := collect (Orchestrator.step I) Orchestrator.occurrences ls (Orchestrator.init ctx)
    let posted := log.filterMap Occurrence.posted?
    let handled := (Orchestrator.systemSteps I ls (Orchestrator.init ctx)).filterMap
      Orchestrator.handledEvent
    run (System.step I) (Orchestrator.systemSteps I ls (Orchestrator.init ctx)) (System.init ctx) =
        some t.system ∧
      posted = handled ++ t.pending ∧ .shutDown ∉ handled ∧
      (t.loop = .stopped → handled = posted.takeWhile (· ≠ .shutDown)) := by
  have hlogged := run_history Orchestrator.occurrences (P := Orchestrator.Logged)
    (fun _ _ _ _ hs h => Orchestrator.step_logged hs h) ls (Orchestrator.init ctx) t []
    ⟨rfl, by simp, by simp [Orchestrator.init]⟩ hrun
  rw [List.nil_append] at hlogged
  simp only [Orchestrator.run_handled hrun]
  refine ⟨Orchestrator.run_system hrun, hlogged.posted, hlogged.handled, fun hstopped => ?_⟩
  have hposted := hlogged.posted
  unfold Orchestrator.pending at hposted
  rw [hstopped] at hposted
  rw [hposted, List.takeWhile_append_of_pos]
  · simp
  · intro ev hev
    exact decide_eq_true fun he => hlogged.handled (he ▸ hev)

/-- **Nothing is deferred**: in every run `canSend` answers true, no `TxReady` is ever posted, and
the machine is never left in `SendCommand`; so each call has its command written, or fails to, in
the critical section in which it passes the gate. -/
theorem never_deferred {ctx : Context κ π ρ δ} {ls : List (Activity κ π ρ)} {t : Orchestrator κ π ρ δ}
    (hrun : run (Orchestrator.step I) ls (Orchestrator.init ctx) = some t) :
    t.canSend = true ∧ (∀ msg, t.system.state ≠ .sendCommand msg) ∧
      .posted .txReady ∉ collect (Orchestrator.step I) Orchestrator.occurrences ls
        (Orchestrator.init ctx) := by
  have hkeep : ∀ s l s' log, s.Undeferred ∧ .posted .txReady ∉ log → s.step I l = some s' →
      s'.Undeferred ∧ .posted .txReady ∉ log ++ Orchestrator.occurrences s l s' := by
    rintro s l s' log ⟨hs, hlog⟩ h
    refine ⟨Orchestrator.step_undeferred hs h, fun hmem => ?_⟩
    exact (List.mem_append.1 hmem).elim hlog (Orchestrator.step_posts_no_txReady hs h)
  obtain ⟨ht, hlog⟩ := run_history Orchestrator.occurrences
    (P := fun s log => s.Undeferred ∧ Occurrence.posted .txReady ∉ log) hkeep ls
    (Orchestrator.init ctx) t [] ⟨Orchestrator.init_undeferred ctx, List.not_mem_nil⟩ hrun
  exact ⟨ht.canSend, ht.state, hlog⟩

end Orchestrator

/-- A call of `AT+R?` that is sent and completed between two notifications, and a shut-down with a
notification behind it. -/
def loopRun : List (Activity PacketCommand (ResponsePack.Variant (FinalResultCode cmsCode cmeCode []))
    intResponse.Obj) :=
  [.caller (.call 0 ⟨text "AT+R?", Constants.Cr, []⟩ none (some intResponse.init) ⟨true, 6, []⟩),
    .notify .rxReady, .notify .txReady, .get, .notify .rxReady, .handle ⟨true, 0, text "+R:1\r\nOK\r\n"⟩,
    .caller (.acquire 0), .get, .shutDown, .notify .rxReady, .handle ⟨true, 0, []⟩, .get]

theorem loopRun_ends : ∃ t, run (Orchestrator.step intInterfaces) loopRun
    (Orchestrator.init intContext) = some t ∧ t.loop = .stopped := by
  have hloop : (run (Orchestrator.step intInterfaces) loopRun (Orchestrator.init intContext)).map
      (·.loop) = some .stopped := by decide +kernel
  obtain ⟨t, ht, hstopped⟩ := Option.map_eq_some_iff.1 hloop
  exact ⟨t, ht, hstopped⟩

theorem loop_refines_loopRun :
    ∃ t, run (Orchestrator.step intInterfaces) loopRun (Orchestrator.init intContext) = some t ∧
      (let log := collect (Orchestrator.step intInterfaces) Orchestrator.occurrences loopRun
        (Orchestrator.init intContext)
      let posted := log.filterMap Occurrence.posted?
      let handled := (Orchestrator.systemSteps intInterfaces loopRun
        (Orchestrator.init intContext)).filterMap Orchestrator.handledEvent
      run (System.step intInterfaces)
          (Orchestrator.systemSteps intInterfaces loopRun (Orchestrator.init intContext))
          (System.init intContext) = some t.system ∧
        posted = handled ++ t.pending ∧ .shutDown ∉ handled ∧
        (t.loop = .stopped → handled = posted.takeWhile (· ≠ .shutDown))) := by
  obtain ⟨t, hrun, -⟩ := loopRun_ends
  exact ⟨t, hrun, loop_refines hrun⟩

theorem never_deferred_loopRun :
    ∃ t, run (Orchestrator.step intInterfaces) loopRun (Orchestrator.init intContext) = some t ∧
      t.canSend = true ∧ (∀ msg, t.system.state ≠ .sendCommand msg) ∧
      .posted .txReady ∉ collect (Orchestrator.step intInterfaces) Orchestrator.occurrences loopRun
        (Orchestrator.init intContext) := by
  obtain ⟨t, hrun, -⟩ := loopRun_ends
  exact ⟨t, hrun, never_deferred hrun⟩

end ATLink
