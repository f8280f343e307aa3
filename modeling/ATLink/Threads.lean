import ATLink.QueueMonitor

/-!
# The orchestrator, thread by thread

`ATLink.EventLoop` with the queue of `ATLink.QueueMonitor`: `notify`, `shutDown` and the handler of
the timer call `events.put`, and `loop` calls `events.get`, each in a thread of its own and step by
step.

* `Threads` — the thread of `loop` is `none`; the threads that post are `some p`.
* `Threads.step` — a call of one of these functions, a step inside the queue, or a step of the
  machine or its callers.
* `Threads.orchestrator` — the orchestrator with the atomic queue, as these threads see it.

Principal results: `threads_refine` — a run of the threads is one of `ATLink.Orchestrator`, with the
same steps of the machine and its callers, and an event is posted once for every call.
-/

namespace ATLink

open LabelledRun MessageQueue
open SharedObject (Monitor Move)

/-- The queue with its threads. -/
abbrev QueueMonitor (P : Type) := Monitor (Option P) (MessageQueue Event) (Option Event) (Operation Event)

/-- What the threads see of the queue. -/
abbrev QueueView (P : Type) :=
  SharedObject.Atomic (Option P) (MessageQueue Event) (Option Event) (Operation Event)

abbrev QueueStage := SharedObject.Stage (Option Event) (Operation Event)

abbrev QueueOccurrence (P : Type) := SharedObject.Occurrence (Option P) (Option Event) (Operation Event)

structure Threads (P κ π ρ δ : Type) where
  system : System κ π ρ δ
  events : QueueMonitor P
  coolDown : Timer Event
  loop : Loop

/-- A step: a thread calls `notify` or `shutDown`, the timer makes one, `loop` calls `get`, a thread
goes on inside `put` or `get`, `loop` handles an event, or a caller makes a step. -/
inductive ThreadStep (P κ π ρ : Type) where
  | notify (p : P) (ev : Subscriber.Event)
  | shutDown (p : P)
  | coolDown (p : P) (l : Timer.Step Event)
  | get
  | queue (l : Move (Option P) (Operation Event))
  | handle (a : Answers)
  | caller (l : Step κ π ρ)

/-- The thread of `loop` with an event that it has taken. -/
def Loop.on (ev : Event) : Loop := if ev = .shutDown then .stopped else .handling ev

/-- `loop` goes on where `get` returns. -/
def Loop.after {P : Type} (loop : Loop) : QueueOccurrence P → Loop
  | .returned none .get (some ev) => .on ev
  | _ => loop

section Threads

variable {P κ π ρ δ : Type} [DecidableEq P] [Fintype P] (I : Interfaces κ π ρ δ)

/-- The orchestrator that the threads see.  An event that `get` has taken out is with the loop. -/
def QueueView.orchestrator (a : QueueView P) (system : System κ π ρ δ) (coolDown : Timer Event)
    (loop : Loop) : Orchestrator κ π ρ δ :=
  ⟨system, a.object, coolDown,
    match a.stage none with
    | .took .get (some ev) => .on ev
    | _ => loop⟩

namespace Threads

/-- The threads as the constructor leaves them. -/
def init (ctx : Context κ π ρ δ) : Threads P κ π ρ δ :=
  ⟨System.init ctx, Monitor.init ⟨[]⟩, (Orchestrator.init ctx).coolDown, .getting⟩

def orchestrator (s : Threads P κ π ρ δ) : Orchestrator κ π ρ δ :=
  QueueView.orchestrator (s.events.atomic code) s.system s.coolDown s.loop

/-- A thread calls a function of the queue. -/
def call (s : Threads P κ π ρ δ) (i : Option P) (op : Operation Event) : Option (Threads P κ π ρ δ) :=
  (s.events.step code (.call i op)).map fun m => { s with events := m }

/-- A step; `none` where it cannot be taken. -/
def step (s : Threads P κ π ρ δ) : ThreadStep P κ π ρ → Option (Threads P κ π ρ δ)
  | .notify p ev => if ev = .rxReady then s.call (some p) (.put .rxReady) else some s
  | .shutDown p => s.call (some p) (.put .shutDown)
  | .coolDown p l =>
    if l.ofWorker then
      (s.coolDown.step l).bind fun t =>
        match Timer.fired s.coolDown l t with
        | [] => some { s with coolDown := t }
        | (_, ev) :: _ => call { s with coolDown := t } (some p) (.put ev)
    else none
  | .get => if s.loop = .getting then s.call none .get else none
  | .queue (.call _ _) => none
  | .queue l =>
    (s.events.step code l).map fun m =>
      { s with events := m, loop := (s.events.occurrences code l m).foldl Loop.after s.loop }
  | .handle a =>
    match s.loop with
    | .handling ev => (s.system.handle I ev a).map fun sys => { s with system := sys, loop := .getting }
    | _ => none
  | .caller l =>
    if s.orchestrator.permits l then (s.system.step I l).map fun sys => { s with system := sys } else none

/-! ## What a step can do -/

/-- **What a step does**, by its label. -/
inductive Stepped (s : Threads P κ π ρ δ) : ThreadStep P κ π ρ → Threads P κ π ρ δ → Prop where
  | notify {p : P} {m : QueueMonitor P} :
      s.events.step code (.call (some p) (.put .rxReady)) = some m →
      Stepped s (.notify p .rxReady) { s with events := m }
  | ignored {p : P} : Stepped s (.notify p .txReady) s
  | shutDown {p : P} {m : QueueMonitor P} :
      s.events.step code (.call (some p) (.put .shutDown)) = some m →
      Stepped s (.shutDown p) { s with events := m }
  -- what the timer's thread does is left open: it is never there
  | coolDown {p : P} {l : Timer.Step Event} {t : Timer Event} {s' : Threads P κ π ρ δ} :
      l.ofWorker = true → s.coolDown.step l = some t → Stepped s (.coolDown p l) s'
  | get {m : QueueMonitor P} :
      s.loop = .getting → s.events.step code (.call none .get) = some m →
      Stepped s .get { s with events := m }
  | queue {l : Move (Option P) (Operation Event)} {m : QueueMonitor P} :
      (∀ i op, l ≠ .call i op) → s.events.step code l = some m →
      Stepped s (.queue l)
        { s with events := m, loop := (s.events.occurrences code l m).foldl Loop.after s.loop }
  | handle {ev : Event} {a : Answers} {sys : System κ π ρ δ} : s.loop = .handling ev →
      s.system.handle I ev a = some sys →
      Stepped s (.handle a) { s with system := sys, loop := .getting }
  | caller {l : Step κ π ρ} {sys : System κ π ρ δ} : s.orchestrator.permits l = true →
      s.system.step I l = some sys → Stepped s (.caller l) { s with system := sys }

variable {I} {s s' t : Threads P κ π ρ δ}

theorem call_eq_some {i : Option P} {op : Operation Event} (h : s.call i op = some s') :
    ∃ m, s.events.step code (.call i op) = some m ∧ s' = { s with events := m } := by
  obtain ⟨m, hm, rfl⟩ := Option.map_eq_some_iff.1 h
  exact ⟨m, hm, rfl⟩

theorem step_cases {l : ThreadStep P κ π ρ} (h : s.step I l = some s') : Stepped I s l s' := by
  cases l with
  | notify p ev =>
    cases ev with
    | rxReady =>
      have hcall : s.call (some p) (.put .rxReady) = some s' := h
      obtain ⟨m, hm, rfl⟩ := call_eq_some hcall
      exact .notify hm
    | txReady =>
      cases h
      exact .ignored
  | shutDown p =>
    obtain ⟨m, hm, rfl⟩ := call_eq_some h
    exact .shutDown hm
  | coolDown p l =>
    simp only [step] at h
    split at h
    · rename_i hl
      obtain ⟨t, ht, -⟩ := Option.bind_eq_some_iff.1 h
      exact .coolDown hl ht
    · cases h
  | get =>
    simp only [step] at h
    split at h
    · rename_i hloop
      obtain ⟨m, hm, rfl⟩ := call_eq_some h
      exact .get hloop hm
    · cases h
  | queue l =>
    cases l with
    | call i op => cases h
    | _ =>
      obtain ⟨m, hm, rfl⟩ := Option.map_eq_some_iff.1 h
      exact .queue (fun i op he => by cases he) hm
  | handle a =>
    simp only [step] at h
    split at h
    · rename_i hloop
      obtain ⟨sys, hsys, rfl⟩ := Option.map_eq_some_iff.1 h
      exact .handle hloop hsys
    · cases h
  | caller l =>
    simp only [step] at h
    split at h
    · rename_i hpermits
      obtain ⟨sys, hsys, rfl⟩ := Option.map_eq_some_iff.1 h
      exact .caller hpermits hsys
    · cases h

/-! ## What the threads see -/

/-- The threads that post are in `put`, and the one of the loop is in `get`, while it waits for an
event. -/
inductive Fits (loop : Loop) : Option P → QueueStage → Prop where
  | outside {i : Option P} : Fits loop i .outside
  | posting {p : P} {op : Operation Event} : op = .put .rxReady ∨ op = .put .shutDown →
      Fits loop (some p) (.called op)
  | posted {p : P} {op : Operation Event} {v : Option Event} : Fits loop (some p) (.took op v)
  | getting : loop = .getting → Fits loop none (.called .get)
  | taken {ev : Event} : loop = .getting → Fits loop none (.took .get (some ev))

omit [DecidableEq P] [Fintype P] in
/-- What a thread that posts does has nothing to do with the loop. -/
theorem Fits.of_poster {p : P} {loop loop' : Loop} {st : QueueStage}
    (h : Fits loop (some p) st) : Fits loop' (some p) st := by
  cases h with
  | outside => exact .outside
  | posting hop => exact .posting hop
  | posted => exact .posted

def Serves (a : QueueView P) (loop : Loop) : Prop := ∀ i, Fits loop i (a.stage i)

/-- The steps of the orchestrator that are seen: an operation is one where it takes effect. -/
def effect : QueueOccurrence P → List (Activity κ π ρ)
  | .took none .get _ => [.get]
  | .took (some _) (.put .rxReady) _ => [.notify .rxReady]
  | .took (some _) (.put .shutDown) _ => [.shutDown]
  | _ => []

/-- The answer of the orchestrator. -/
def answer (s : Threads P κ π ρ δ) (l : ThreadStep P κ π ρ) (s' : Threads P κ π ρ δ) :
    List (Activity κ π ρ) :=
  match l with
  | .coolDown _ l => [.coolDown l]
  | .queue l => (s.events.occurrences code l s'.events).flatMap effect
  | .handle a => [.handle a]
  | .caller l => [.caller l]
  | _ => []

omit [Fintype P] in
/-- For the orchestrator nothing has happened where a function is only called. -/
theorem orchestrator_called {a : QueueView P} {i : Option P} {op : Operation Event}
    (system : System κ π ρ δ) (coolDown : Timer Event) (loop : Loop) (hi : a.stage i = .outside) :
    QueueView.orchestrator (a.enter i (.called op)) system coolDown loop =
      QueueView.orchestrator a system coolDown loop := by
  unfold QueueView.orchestrator
  cases i with
  | none => simp [SharedObject.Atomic.enter, hi]
  | some p => simp [SharedObject.Atomic.enter]

omit [Fintype P] in
theorem Serves.enter {a : QueueView P} {i : Option P} {loop loop' : Loop}
    {st : QueueStage} (hs : Serves a loop)
    (hst : Fits loop' i st) (hloop : i ≠ none → loop' = loop) : Serves (a.enter i st) loop' := by
  intro j
  by_cases hj : j = i
  · subst hj
    rw [SharedObject.Atomic.enter_self]
    exact hst
  · rw [SharedObject.Atomic.enter_other hj]
    cases j with
    | none =>
      rw [hloop (Ne.symm hj)]
      exact hs none
    | some p => exact (hs (some p)).of_poster

omit [Fintype P] in
/-- An effect or a return is a step of the orchestrator, or none. -/
theorem orchestrator_step {a b : QueueView P} {loop : Loop} {system : System κ π ρ δ}
    {coolDown : Timer Event} {o : QueueOccurrence P}
    (hs : Serves a loop) (ho : ∀ i op, o ≠ .called i op) (h : a.step code o = some b) :
    Serves b (loop.after o) ∧
      run (Orchestrator.step I) (effect o) (QueueView.orchestrator a system coolDown loop) =
        some (QueueView.orchestrator b system coolDown (loop.after o)) := by
  cases SharedObject.Atomic.step_cases h with
  | called hi => exact absurd rfl (ho _ _)
  | @took i op q v hi hperform =>
    have hfits := hs i
    rw [hi] at hfits
    cases hfits with
    | @posting p op hop =>
      have hserves : Serves (a.enter (some p) (.took op v)) loop := hs.enter .posted fun _ => rfl
      refine ⟨hserves, ?_⟩
      rcases hop with rfl | rfl
      · cases hperform
        rfl
      · cases hperform
        rfl
    | getting hloop =>
      rw [perform_get] at hperform
      obtain ⟨⟨ev, rest⟩, hget, he⟩ := Option.map_eq_some_iff.1 hperform
      cases he
      refine ⟨hs.enter (.taken hloop) (by simp), ?_⟩
      have hview : (QueueView.orchestrator a system coolDown loop).loop = .getting := by
        simp [QueueView.orchestrator, hi, hloop]
      have htaken : (QueueView.orchestrator a system coolDown loop).events.get = some (ev, rest) := hget
      show ((QueueView.orchestrator a system coolDown loop).step I .get).bind some = _
      simp only [Orchestrator.step, hview, if_true, Orchestrator.get, htaken, Option.map_some]
      simp [QueueView.orchestrator, Loop.on]
  | @returned i op v hi =>
    have hfits := hs i
    rw [hi] at hfits
    cases hfits with
    | posted => exact ⟨hs.enter .outside fun _ => rfl, rfl⟩
    | @taken ev hloop =>
      refine ⟨hs.enter .outside (by simp), ?_⟩
      show some (QueueView.orchestrator a system coolDown loop) = _
      simp [QueueView.orchestrator, hi, SharedObject.Atomic.enter, Loop.after]

/-- What holds of every reachable state. -/
structure Sound (s : Threads P κ π ρ δ) : Prop where
  heard : s.events.Heard code (·.queue.length)
  serves : Serves (s.events.atomic code) s.loop
  undeferred : s.orchestrator.Undeferred

omit [DecidableEq P] in
theorem Sound.exclusive (hs : s.Sound) : s.events.Exclusive := hs.heard.exclusive

omit [DecidableEq P] [Fintype P] in
/-- While the loop handles an event nothing is in `get`. -/
theorem Serves.stage_loop {a : QueueView P} {loop : Loop} (hs : Serves a loop) (hloop : loop ≠ .getting) :
    a.stage none = .outside := by
  have hfits := hs none
  generalize a.stage none = st at hfits
  cases hfits with
  | outside => rfl
  | getting h => exact absurd h hloop
  | taken h => exact absurd h hloop

theorem atomic_called {i : Option P} {op : Operation Event}
    {m m' : QueueMonitor P} (hm : m.Exclusive) (h : m.step code (.call i op) = some m') :
    m'.atomic code = (m.atomic code).enter i (.called op) ∧ (m.atomic code).stage i = .outside := by
  have hlinear : run (SharedObject.Atomic.step code) [.called i op] (m.atomic code) =
      some (m'.atomic code) := Monitor.step_linearizes hm h
  obtain ⟨b, hb, he⟩ := run_cons_some hlinear
  cases he
  generalize m'.atomic code = b at hb
  cases SharedObject.Atomic.step_cases hb with
  | called hi => exact ⟨rfl, hi⟩

/-- What is seen of a step inside the queue. -/
theorem atomic_queue {l : Move (Option P) (Operation Event)}
    {m m' : QueueMonitor P} (hm : m.Exclusive) (hl : ∀ i op, l ≠ .call i op) (h : m.step code l = some m') :
    m.occurrences code l m' = [] ∧ m'.atomic code = m.atomic code ∨
      ∃ o, (∀ i op, o ≠ .called i op) ∧ m.occurrences code l m' = [o] ∧
        (m.atomic code).step code o = some (m'.atomic code) := by
  have hlinear := Monitor.step_linearizes hm h
  have hsingle : ∀ {o}, (∀ i op, o ≠ .called i op) → m.occurrences code l m' = [o] →
      ∃ o, (∀ i op, o ≠ .called i op) ∧ m.occurrences code l m' = [o] ∧
        (m.atomic code).step code o = some (m'.atomic code) := by
    intro o ho hseen
    rw [hseen] at hlinear
    obtain ⟨b, hb, he⟩ := run_cons_some hlinear
    cases he
    exact ⟨o, ho, hseen, hb⟩
  rcases Monitor.occurrences_cases hl h with hseen | ⟨i, op, v, hseen | hseen⟩
  · rw [hseen] at hlinear
    exact .inl ⟨hseen, (Option.some.inj hlinear).symm⟩
  · exact .inr (hsingle (by simp) hseen)
  · exact .inr (hsingle (by simp) hseen)

/-- A call of a function of the queue, where its caller makes it. -/
theorem Sound.called {i : Option P} {op : Operation Event} {m : QueueMonitor P} (hs : s.Sound)
    (hop : Fits s.loop i (.called op)) (hm : s.events.step code (.call i op) = some m) :
    Sound { s with events := m } ∧ orchestrator { s with events := m } = s.orchestrator := by
  have hatomic := atomic_called hs.exclusive hm
  have hview : orchestrator { s with events := m } = s.orchestrator := by
    unfold orchestrator
    rw [hatomic.1]
    exact orchestrator_called s.system s.coolDown s.loop hatomic.2
  refine ⟨⟨Monitor.step_heard code_credited hs.heard hm, ?_, ?_⟩, hview⟩
  · show Serves (m.atomic code) s.loop
    rw [hatomic.1]
    exact hs.serves.enter hop fun _ => rfl
  · rw [hview]
    exact hs.undeferred

omit [DecidableEq P] in
/-- While the loop handles an event it is with the orchestrator as it is with the loop. -/
theorem Sound.loop_eq (hs : s.Sound) (hloop : s.loop ≠ .getting) : s.orchestrator.loop = s.loop := by
  have hstage := hs.serves.stage_loop hloop
  simp [orchestrator, QueueView.orchestrator, hstage]

/-- **Every step of the threads is one of the orchestrator**, or none. -/
theorem step_answered {l : ThreadStep P κ π ρ} (hs : s.Sound) (h : s.step I l = some s') :
    s'.Sound ∧ run (Orchestrator.step I) (answer s l s') s.orchestrator = some s'.orchestrator := by
  have hundeferred : ∀ {ls : List (Activity κ π ρ)} {o : Orchestrator κ π ρ δ},
      run (Orchestrator.step I) ls s.orchestrator = some o → o.Undeferred := fun hrun =>
    run_inv (fun _ _ _ ho h => Orchestrator.step_undeferred ho h) _ _ _ hs.undeferred hrun
  cases step_cases h with
  | notify hm =>
    obtain ⟨hsound, hview⟩ := hs.called (.posting (.inl rfl)) hm
    exact ⟨hsound, congrArg some hview.symm⟩
  | ignored => exact ⟨hs, rfl⟩
  | shutDown hm =>
    obtain ⟨hsound, hview⟩ := hs.called (.posting (.inr rfl)) hm
    exact ⟨hsound, congrArg some hview.symm⟩
  | coolDown hl ht => exact absurd ht (Orchestrator.no_worker_step hs.undeferred.worker hl)
  | get hloop hm =>
    obtain ⟨hsound, hview⟩ := hs.called (.getting hloop) hm
    exact ⟨hsound, congrArg some hview.symm⟩
  | @queue l m hl hm =>
    have hdone : Serves (m.atomic code) ((s.events.occurrences code l m).foldl Loop.after s.loop) ∧
        run (Orchestrator.step I) ((s.events.occurrences code l m).flatMap effect) s.orchestrator =
          some (QueueView.orchestrator (m.atomic code) s.system s.coolDown
            ((s.events.occurrences code l m).foldl Loop.after s.loop)) := by
      rcases atomic_queue hs.exclusive hl hm with ⟨hseen, hsame⟩ | ⟨o, ho, hseen, hatomic⟩
      · rw [hseen, hsame]
        exact ⟨hs.serves, rfl⟩
      · rw [hseen, List.flatMap_singleton]
        exact orchestrator_step hs.serves ho hatomic
    exact ⟨⟨Monitor.step_heard code_credited hs.heard hm, hdone.1, hundeferred hdone.2⟩, hdone.2⟩
  | @handle ev a sys hloop hsys =>
    have hgetting : s.loop ≠ .getting := by rw [hloop]; simp
    have hstage := hs.serves.stage_loop hgetting
    have hrun : run (Orchestrator.step I) [.handle a] s.orchestrator =
        some (orchestrator { s with system := sys, loop := .getting }) := by
      have hloop' : s.orchestrator.loop = .handling ev := (hs.loop_eq hgetting).trans hloop
      have hsys' : s.orchestrator.system.handle I ev a = some sys := hsys
      show (s.orchestrator.step I (.handle a)).bind some = _
      simp only [Orchestrator.step, hloop', hsys', Option.map_some]
      simp [orchestrator, QueueView.orchestrator, hstage]
    refine ⟨⟨hs.heard, ?_, hundeferred hrun⟩, hrun⟩
    intro i
    cases i with
    | none =>
      show Fits _ none ((s.events.atomic code).stage none)
      rw [hstage]
      exact .outside
    | some p => exact (hs.serves (some p)).of_poster
  | @caller l sys hpermits hsys =>
    have hrun : run (Orchestrator.step I) [.caller l] s.orchestrator =
        some (orchestrator { s with system := sys }) := by
      have hsys' : s.orchestrator.system.step I l = some sys := hsys
      show (s.orchestrator.step I (.caller l)).bind some = _
      simp only [Orchestrator.step, hpermits, if_true, hsys', Option.map_some]
      rfl
    exact ⟨⟨hs.heard, hs.serves, hundeferred hrun⟩, hrun⟩

variable (I) in
/-- The orchestrator answers the threads. -/
def simulation : Simulation (step I : Threads P κ π ρ δ → _) (Orchestrator.step I) where
  rel s o := s.Sound ∧ o = s.orchestrator
  answer := answer
  answered s o l s' hs h := by
    obtain ⟨hs, rfl⟩ := hs
    obtain ⟨hs', hrun⟩ := step_answered hs h
    exact ⟨_, hrun, hs', rfl⟩

/-! ## Events that are being posted -/

/-- The thread is in `put`, which has not taken effect yet. -/
def posts (ev : Event) : QueueStage → Nat
  | .called (.put e) => if e = ev then 1 else 0
  | _ => 0

def posting (ev : Event) (a : QueueView P) : Nat := ∑ p, posts ev (a.stage (some p))

/-- The step posts the event. -/
def isPost (ev : Event) : Activity κ π ρ → Bool
  | .notify .rxReady => ev = .rxReady
  | .shutDown => ev = .shutDown
  | _ => false

/-- The step calls a function that posts the event. -/
def isPosted (ev : Event) : ThreadStep P κ π ρ → Bool
  | .notify _ .rxReady => ev = .rxReady
  | .shutDown _ => ev = .shutDown
  | _ => false

theorem posting_enter_poster (ev : Event) (a : QueueView P) (p : P)
    (st : QueueStage) :
    posting ev (a.enter (some p) st) + posts ev (a.stage (some p)) = posting ev a + posts ev st := by
  have hsum := Monitor.sum_update (posts ev) (fun p => a.stage (some p)) p st
  have hcomp : ∀ q, (a.enter (some p) st).stage (some q) =
      Function.update (fun p => a.stage (some p)) p st q := by
    intro q
    by_cases hq : q = p
    · subst hq
      simp
    · rw [Function.update_of_ne hq, SharedObject.Atomic.enter_other (by simpa using hq)]
  unfold posting
  simp only [hcomp]
  exact hsum

theorem posting_enter_loop (ev : Event) (a : QueueView P)
    (st : QueueStage) :
    posting ev (a.enter none st) = posting ev a := by
  unfold posting
  exact Finset.sum_congr rfl fun p _ => by rw [SharedObject.Atomic.enter_other (by simp)]

/-- Where `put` takes effect its event is posted. -/
theorem posting_step (ev : Event) {a b : QueueView P} {loop : Loop}
    {o : QueueOccurrence P} (hs : Serves a loop)
    (ho : ∀ i op, o ≠ .called i op) (h : a.step code o = some b) :
    posting ev b + (effect o : List (Activity κ π ρ)).countP (isPost ev) = posting ev a := by
  cases SharedObject.Atomic.step_cases h with
  | called hi => exact absurd rfl (ho _ _)
  | @took i op q v hi hperform =>
    have hfits := hs i
    rw [hi] at hfits
    cases hfits with
    | @posting p op hop =>
      have hsum := posting_enter_poster ev a p (.took op v)
      rw [hi] at hsum
      show posting ev (a.enter (some p) (.took op v)) + _ = _
      rcases hop with rfl | rfl
      · cases ev <;> simpa [posts, effect, isPost] using hsum
      · cases ev <;> simpa [posts, effect, isPost] using hsum
    | getting hloop => exact posting_enter_loop ev a (.took .get v)
  | @returned i op v hi =>
    cases i with
    | none => exact posting_enter_loop ev a .outside
    | some p =>
      have hsum := posting_enter_poster ev a p .outside
      rw [hi] at hsum
      exact hsum

/-- A call of `put` is counted until it takes effect. -/
theorem step_posts {l : ThreadStep P κ π ρ} (ev : Event) (hs : s.Sound) (h : s.step I l = some s') :
    (answer s l s').countP (isPost ev) + posting ev (s'.events.atomic code) =
      posting ev (s.events.atomic code) + if isPosted ev l then 1 else 0 := by
  have hcalled : ∀ {p : P} {e : Event} {m : QueueMonitor P},
      s.events.step code (.call (some p) (.put e)) = some m →
      posting ev (m.atomic code) = posting ev (s.events.atomic code) + if e = ev then 1 else 0 := by
    intro p e m hm
    obtain ⟨hatomic, hi⟩ := atomic_called hs.exclusive hm
    have hsum := posting_enter_poster ev (s.events.atomic code) p (.called (.put e))
    rw [hi] at hsum
    rw [hatomic]
    exact hsum
  cases step_cases h with
  | notify hm =>
    have hsum := hcalled hm
    cases ev <;> simpa [answer, isPosted] using hsum
  | ignored => simp [answer, isPosted]
  | shutDown hm =>
    have hsum := hcalled hm
    cases ev <;> simpa [answer, isPosted] using hsum
  | coolDown hl ht => exact absurd ht (Orchestrator.no_worker_step hs.undeferred.worker hl)
  | get hloop hm =>
    obtain ⟨hatomic, -⟩ := atomic_called hs.exclusive hm
    have hsame := posting_enter_loop ev (s.events.atomic code) (.called .get)
    rw [← hatomic] at hsame
    simpa [answer, isPosted] using hsame
  | @queue l m hl hm =>
    show ((s.events.occurrences code l m).flatMap effect).countP (isPost ev) +
      posting ev (m.atomic code) = _
    rcases atomic_queue hs.exclusive hl hm with ⟨hseen, hsame⟩ | ⟨o, ho, hseen, hatomic⟩
    · simp [hseen, hsame, isPosted]
    · rw [hseen, List.flatMap_singleton, Nat.add_comm]
      exact posting_step ev hs.serves ho hatomic
  | handle hloop hsys => simp [answer, isPosted, isPost]
  | caller hpermits hsys => simp [answer, isPosted, isPost]

end Threads

/-- The steps of the machine and of its callers. -/
def Activity.machine? : Activity κ π ρ → Option (Answers ⊕ Step κ π ρ)
  | .handle a => some (.inl a)
  | .caller l => some (.inr l)
  | _ => none

def ThreadStep.machine? : ThreadStep P κ π ρ → Option (Answers ⊕ Step κ π ρ)
  | .handle a => some (.inl a)
  | .caller l => some (.inr l)
  | _ => none

namespace Threads

variable {I} {s s' t : Threads P κ π ρ δ}

theorem step_machine {l : ThreadStep P κ π ρ} (hs : s.Sound) (h : s.step I l = some s') :
    (answer s l s').filterMap Activity.machine? = l.machine?.toList := by
  cases step_cases h with
  | notify hm => rfl
  | ignored => rfl
  | shutDown hm => rfl
  | coolDown hl ht => rfl
  | get hloop hm => rfl
  | @queue l m hl hm =>
    show ((s.events.occurrences code l m).flatMap effect).filterMap Activity.machine? = []
    rcases atomic_queue hs.exclusive hl hm with ⟨hseen, -⟩ | ⟨o, ho, hseen, hatomic⟩
    · rw [hseen]
      rfl
    · rw [hseen, List.flatMap_singleton]
      unfold effect
      split <;> rfl
  | handle hloop hsys => rfl
  | caller hpermits hsys => rfl

theorem run_answers {ls : List (ThreadStep P κ π ρ)} (hs : s.Sound) (hrun : run (step I) ls s = some t) :
    (collect (step I) answer ls s).filterMap Activity.machine? = ls.filterMap ThreadStep.machine? ∧
      ∀ ev, (collect (step I) answer ls s).countP (isPost ev) + posting ev (t.events.atomic code) =
        posting ev (s.events.atomic code) + ls.countP (isPosted ev) := by
  induction ls generalizing s with
  | nil =>
    cases hrun
    exact ⟨rfl, fun ev => Nat.zero_add _⟩
  | cons l ls ih =>
    obtain ⟨u, hstep, hrest⟩ := run_cons_some hrun
    obtain ⟨hmachine, hposts⟩ := ih (step_answered hs hstep).1 hrest
    rw [collect_cons hstep]
    constructor
    · rw [List.filterMap_append, step_machine hs hstep, hmachine]
      cases hl : l.machine? <;> simp [hl]
    · intro ev
      have hone := step_posts ev hs hstep
      have hmany := hposts ev
      rw [List.countP_append, List.countP_cons]
      omega

omit [DecidableEq P] in
theorem init_sound (ctx : Context κ π ρ δ) : (init ctx : Threads P κ π ρ δ).Sound where
  heard := Monitor.init_heard _
  serves _ := .outside
  undeferred := Orchestrator.init_undeferred ctx

end Threads

variable {I}

/-- **The queue is atomic for the loop**: a run of the threads, with `put` and `get` made of the steps
of a mutex and a condition variable, is one of the orchestrator with an atomic queue.  The machine
and the callers make the same steps in the same order, and an event is posted once for every call
that is not still to take effect. -/
theorem threads_refine {ctx : Context κ π ρ δ} {ls : List (ThreadStep P κ π ρ)}
    {t : Threads P κ π ρ δ} (hrun : run (Threads.step I) ls (Threads.init ctx) = some t) :
    let steps := collect (Threads.step I) Threads.answer ls (Threads.init ctx)
    run (Orchestrator.step I) steps (Orchestrator.init ctx) = some t.orchestrator ∧
      steps.filterMap Activity.machine? = ls.filterMap ThreadStep.machine? ∧
      ∀ ev, steps.countP (Threads.isPost ev) + Threads.posting ev (t.events.atomic code) =
        ls.countP (Threads.isPosted ev) := by
  intro steps
  have hinit := Threads.init_sound (P := P) ctx
  obtain ⟨o, ho, -, rfl⟩ := (Threads.simulation I).run_answered ⟨hinit, rfl⟩ hrun
  obtain ⟨hmachine, hposts⟩ := Threads.run_answers hinit hrun
  refine ⟨ho, hmachine, fun ev => ?_⟩
  have hcount := hposts ev
  have hzero : Threads.posting ev ((Threads.init ctx : Threads P κ π ρ δ).events.atomic code) = 0 :=
    Finset.sum_eq_zero fun _ _ => rfl
  rw [hzero, Nat.zero_add] at hcount
  exact hcount

end Threads

/-! ## A notification that wakes the loop -/

/-- The loop sleeps in `get` until the reply to `AT+R?` is reported, handles it and sleeps again. -/
def threadRun : List (ThreadStep Unit PacketCommand
    (ResponsePack.Variant (FinalResultCode cmsCode cmeCode [])) intResponse.Obj) :=
  [.get, .queue (.lock none), .queue (.test none),
    .caller (.call 0 ⟨text "AT+R?", Constants.Cr, []⟩ none (some intResponse.init) ⟨true, 6, []⟩),
    .notify () .rxReady, .queue (.lock (some ())), .queue (.test (some ())), .queue (.exec (some ())),
    .queue (.unlock (some ())), .queue (.notify (some ()) (some none)), .queue (.lock none),
    .queue (.test none), .queue (.exec none), .queue (.exec none), .queue (.unlock none),
    .handle ⟨true, 0, text "+R:1\r\nOK\r\n"⟩, .caller (.acquire 0), .get, .queue (.lock none),
    .queue (.test none)]

theorem threadRun_ends :
    ∃ t, run (Threads.step intInterfaces) threadRun (Threads.init intContext) = some t := by
  have hsome : (run (Threads.step intInterfaces) threadRun (Threads.init intContext)).isSome = true := by
    decide +kernel
  exact Option.isSome_iff_exists.1 hsome

theorem threads_refine_threadRun :
    ∃ t, run (Threads.step intInterfaces) threadRun (Threads.init intContext) = some t ∧
      (let steps := collect (Threads.step intInterfaces) Threads.answer threadRun
        (Threads.init intContext)
      run (Orchestrator.step intInterfaces) steps (Orchestrator.init intContext) = some t.orchestrator ∧
        steps.filterMap Activity.machine? = threadRun.filterMap ThreadStep.machine? ∧
        ∀ ev, steps.countP (Threads.isPost ev) + Threads.posting ev (t.events.atomic MessageQueue.code) =
          threadRun.countP (Threads.isPosted ev)) := by
  obtain ⟨t, hrun⟩ := threadRun_ends
  exact ⟨t, hrun, threads_refine hrun⟩

end ATLink
