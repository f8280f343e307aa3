import ATLink.Delivery

/-!
# Emptying the tty

What the loop and the thread that polls can always do by themselves.

* `Link.Step.ofReaders` — the steps of the thread that polls and of the loop.
* `Link.LeadsTo` — some of these steps.
* `Link.Live` — what holds of a line that is not shut down.
* `Link.Listening` — the loop waits for the next event, with these pending.

Principal result: `drains` — from every reachable state the two can empty the tty, unless the buffer
fills up on the way.
-/

namespace ATLink

open LabelledRun

/-- A read of as much as the span takes. -/
theorem DeviceIO.read_front {io : DeviceIO} (hopen : io.opened = true) (size : Nat) :
    io.step (.read size (io.inbox.take size)) =
      some { io with inbox := io.inbox.drop size } := by
  have hfront : io.inbox.take (min size io.inbox.length) = io.inbox.take size ∧
      io.inbox.drop (min size io.inbox.length) = io.inbox.drop size := by
    rcases Nat.le_total size io.inbox.length with hle | hle
    · rw [Nat.min_eq_left hle]
      exact ⟨rfl, rfl⟩
    · rw [Nat.min_eq_right hle, List.take_length, List.drop_length, List.take_of_length_le hle,
        List.drop_of_length_le hle]
      exact ⟨rfl, rfl⟩
  by_cases hsize : size = 0
  · subst hsize
    exact step_of_read (r := none) (by simp [read])
  · refine step_of_read (r := some (min size io.inbox.length)) ?_
    unfold read
    rw [if_neg (by simp [hopen, hsize])]
    simp only [Nat.min_le_left, Nat.min_le_right, and_self, if_true, hfront]

section Draining

variable {κ π ρ δ : Type} {I : Interfaces κ π ρ δ}

namespace Link

variable {s s' t : Link κ π ρ δ}

/-- A step of the thread that polls, or of the loop. -/
def Step.ofReaders : Step κ π ρ → Bool
  | .poll => true
  | .notifyRx => true
  | .activity .get => true
  | .activity (.handle _) => true
  | _ => false

variable (I) in
/-- Some steps of the thread that polls and of the loop lead from one state to the other. -/
abbrev LeadsTo (s t : Link κ π ρ δ) : Prop := Leads (step I) (fun l => l.ofReaders = true) s t

/-- What holds of a line that is not shut down. -/
structure Live (s : Link κ π ρ δ) : Prop where
  undeferred : s.orchestrator.Undeferred
  leftover_le : s.orchestrator.system.ctx.rx.leftover ≤ storageSize
  opened : s.io.opened = true
  running : .shutDown ∉ s.orchestrator.pending

/-- The loop waits for the next event. -/
structure Listening (s : Link κ π ρ δ) (queue : List Event) : Prop where
  live : s.Live
  loop : s.orchestrator.loop = .getting
  queue : s.orchestrator.events.queue = queue

/-- What a read may take. -/
def room (s : Link κ π ρ δ) : Nat := storageSize - s.orchestrator.system.ctx.rx.leftover

/-- No event that is handled in such a state writes anything. -/
theorem writes_of_handle {o o' : Orchestrator κ π ρ δ} {a : Answers} (ho : o.Undeferred)
    (h : o.step I (.handle a) = some o') : o.writes (.handle a) o' = [] := by
  cases Orchestrator.step_cases h with
  | @handle ev _ sys hloop hsys =>
    obtain ⟨⟨next, ctx'⟩, hhandle, rfl⟩ := Option.map_eq_some_iff.1 hsys
    obtain ⟨w, hactions, hemits⟩ := State.handle_emits hhandle
    have hw : w.filterMap Action.written? = [] := by
      have hstate := ho.state
      generalize o.system.state = state at hemits hstate
      cases hemits with
      | silent => rfl
      | unserialized msg => exact absurd rfl (hstate msg)
      | failed msg => exact absurd rfl (hstate msg)
      | sent msg => exact absurd rfl (hstate msg)
      | completed msg => rfl
    simp only [Orchestrator.writes, Activity.answers?, hactions, List.drop_left, hw, List.map_nil]

/-- The loop handles the event it has taken, and reads as much as the buffer takes. -/
theorem handle_drains (hV : I.toVirtuals.Bounded) {ev : Event} (hs : s.Live)
    (hloop : s.orchestrator.loop = .handling ev) :
    ∃ s', s.LeadsTo I s' ∧ s'.Listening s.orchestrator.events.queue ∧
      s'.io.inbox.length = s.io.inbox.length - (if ev = .rxReady then s.room else 0) := by
  let a : Answers := ⟨true, 0, s.io.inbox.take s.room⟩
  have hfit : a.bytes.length ≤ storageSize - s.orchestrator.system.ctx.rx.leftover :=
    List.length_take_le _ _
  obtain ⟨⟨next, ctx'⟩, hhandle⟩ := Option.isSome_iff_exists.1
    (State.handle_isSome hV hs.undeferred.state hs.leftover_le ev hfit)
  obtain ⟨o, ho, hgetting, hevents⟩ : ∃ o, s.orchestrator.step I (.handle a) = some o ∧
      o.loop = .getting ∧ o.events = s.orchestrator.events := by
    simp only [Orchestrator.step, hloop, System.handle, hhandle, Option.map_some]
    exact ⟨_, rfl, rfl, rfl⟩
  -- of the device only a read is asked, and only for `RxReady`
  obtain ⟨io, hio, hopened, hinbox⟩ : ∃ io,
      run DeviceIO.step (s.orchestrator.deviceCalls (.handle a) o) s.io = some io ∧
        io.opened = true ∧
        io.inbox.length = s.io.inbox.length - (if ev = .rxReady then s.room else 0) := by
    unfold Orchestrator.deviceCalls
    rw [writes_of_handle hs.undeferred ho, List.append_nil]
    unfold Orchestrator.reads
    rw [hloop]
    cases ev with
    | rxReady =>
      refine ⟨{ s.io with inbox := s.io.inbox.drop s.room }, ?_, hs.opened, List.length_drop⟩
      have hread := DeviceIO.read_front hs.opened s.room
      show (s.io.step (.read s.room (s.io.inbox.take s.room))).bind some = _
      rw [hread]
      rfl
    | txReady => exact ⟨s.io, rfl, hs.opened, rfl⟩
    | shutDown => exact ⟨s.io, rfl, hs.opened, rfl⟩
  have hstep : s.step I (.activity (.handle a)) = some ⟨o, io⟩ := by
    rw [activity_step (fun _ he => by cases he), ho, Option.bind_some, hio]
    rfl
  have hpending : o.pending = s.orchestrator.events.queue := by
    unfold Orchestrator.pending
    rw [hgetting, hevents]
  refine ⟨⟨o, io⟩, .single rfl hstep, ⟨⟨?_, ?_, hopened, ?_⟩, hgetting, by rw [hevents]⟩, hinbox⟩
  · exact Orchestrator.step_undeferred hs.undeferred ho
  · have hone : run (Orchestrator.step I) [.handle a] s.orchestrator = some o := by
      rw [run_cons, ho]
      rfl
    exact Orchestrator.leftover_of_run hs.leftover_le hone
  · have hrunning := hs.running
    unfold Orchestrator.pending at hrunning
    rw [hloop] at hrunning
    show Event.shutDown ∉ o.pending
    rw [hpending]
    exact fun hmem => hrunning (List.mem_cons_of_mem _ hmem)

/-- The loop takes the next event and handles it. -/
theorem event_drains (hV : I.toVirtuals.Bounded) {ev : Event} {rest : List Event}
    (hs : s.Listening (ev :: rest)) :
    ∃ s', s.LeadsTo I s' ∧ s'.Listening rest ∧
      s'.io.inbox.length = s.io.inbox.length - (if ev = .rxReady then s.room else 0) := by
  have hpending : s.orchestrator.pending = ev :: rest := by
    unfold Orchestrator.pending
    rw [hs.loop, hs.queue]
  have hrunning := hs.live.running
  rw [hpending] at hrunning
  have hev : ev ≠ .shutDown := fun he => hrunning (he ▸ List.mem_cons_self)
  have hget : s.orchestrator.step I .get =
      some { s.orchestrator with events := ⟨rest⟩, loop := .handling ev } := by
    have hqueue : s.orchestrator.events.get = some (ev, ⟨rest⟩) :=
      MessageQueue.get_eq_some_iff.2 hs.queue
    simp only [Orchestrator.step, hs.loop, if_true, Orchestrator.get, hqueue, Option.map_some, if_neg hev]
  have hstep : s.step I (.activity .get) =
      some ⟨{ s.orchestrator with events := ⟨rest⟩, loop := .handling ev }, s.io⟩ := by
    rw [activity_step (fun _ he => by cases he), hget]
    rfl
  have hlive : Live (κ := κ)
      ⟨{ s.orchestrator with events := ⟨rest⟩, loop := .handling ev }, s.io⟩ :=
    ⟨Orchestrator.step_undeferred hs.live.undeferred hget, hs.live.leftover_le, hs.live.opened,
      hrunning⟩
  have hone : s.LeadsTo I _ := .single rfl hstep
  obtain ⟨s', hleads, hlistening, hinbox⟩ := handle_drains hV hlive rfl
  exact ⟨s', hone.trans hleads, hlistening, hinbox⟩

/-- The loop handles all events that are pending. -/
theorem queue_drains (hV : I.toVirtuals.Bounded) {queue : List Event} (hs : s.Listening queue) :
    ∃ s', s.LeadsTo I s' ∧ s'.Listening [] ∧ s'.io.inbox.length ≤ s.io.inbox.length := by
  induction queue generalizing s with
  | nil => exact ⟨s, .refl s, hs, Nat.le_refl _⟩
  | cons ev rest ih =>
    obtain ⟨s1, hleads, hs1, hinbox⟩ := event_drains hV hs
    obtain ⟨s', hleads', hs', hle⟩ := ih hs1
    exact ⟨s', hleads.trans hleads', hs', by omega⟩

/-- The thread that polls reports what there is to read. -/
theorem poll_reports (hs : s.Listening []) (hne : s.io.inbox ≠ []) :
    ∃ s', s.LeadsTo I s' ∧ s'.Listening [.rxReady] ∧ s'.io.inbox = s.io.inbox ∧
      s'.room = s.room := by
  have hnotify : ∀ {u : Link κ π ρ δ}, u.Listening [] → u.io.poller = .notifying →
      ∃ s', u.LeadsTo I s' ∧ s'.Listening [.rxReady] ∧ s'.io.inbox = u.io.inbox ∧
        s'.room = u.room := by
    intro u hu hpoller
    have hstep : u.step I .notifyRx =
        some ⟨u.orchestrator.notify .rxReady, { u.io with poller := .polling }⟩ := by
      simp only [step, DeviceIO.step, hpoller, if_true, Option.map_some]
    refine ⟨_, .single rfl hstep, ⟨⟨?_, hu.live.leftover_le, hu.live.opened, ?_⟩, hu.loop, ?_⟩, rfl, rfl⟩
    · have hnotified : u.orchestrator.step I (.notify .rxReady) =
          some (u.orchestrator.notify .rxReady) := rfl
      exact Orchestrator.step_undeferred hu.live.undeferred hnotified
    · show Event.shutDown ∉ (u.orchestrator.notify .rxReady).pending
      unfold Orchestrator.pending Orchestrator.notify
      simp [hu.loop, hu.queue]
    · simp [Orchestrator.notify, hu.queue]
  cases hpoller : s.io.poller with
  | notifying => exact hnotify hs hpoller
  | polling =>
    have hstep : s.step I .poll = some { s with io := { s.io with poller := .notifying } } := by
      simp only [step, DeviceIO.step, DeviceIO.poll, hs.live.opened, hpoller, ne_eq, hne,
        not_false_eq_true, and_self, if_true, Option.map_some]
    have hone : s.LeadsTo I _ := .single rfl hstep
    obtain ⟨s', hleads, hs'⟩ := hnotify (u := { s with io := { s.io with poller := .notifying } })
      ⟨⟨hs.live.undeferred, hs.live.leftover_le, hs.live.opened, hs.live.running⟩, hs.loop, hs.queue⟩ rfl
    exact ⟨s', hone.trans hleads, hs'⟩

/-- While there is room, a round of both threads takes something out of the tty. -/
theorem round_drains (hV : I.toVirtuals.Bounded) (hs : s.Listening []) (hne : s.io.inbox ≠ [])
    (hroom : 0 < s.room) :
    ∃ s', s.LeadsTo I s' ∧ s'.Listening [] ∧ s'.io.inbox.length < s.io.inbox.length := by
  obtain ⟨s1, hleads, hs1, hinbox, hroom1⟩ := poll_reports (I := I) hs hne
  obtain ⟨s', hleads', hs', hlen⟩ := event_drains hV hs1
  have hpos := List.length_pos_iff.2 hne
  rw [if_pos rfl, hinbox, hroom1] at hlen
  exact ⟨s', hleads.trans hleads', hs', by omega⟩

/-- The rounds go on until the tty is empty or the buffer is full. -/
theorem rounds_drain (hV : I.toVirtuals.Bounded) (hs : s.Listening []) :
    ∃ t, s.LeadsTo I t ∧ t.Listening [] ∧ (t.io.inbox = [] ∨ t.room = 0) := by
  induction hn : s.io.inbox.length using Nat.strong_induction_on generalizing s with
  | _ n ih =>
    by_cases hne : s.io.inbox = []
    · exact ⟨s, .refl s, hs, Or.inl hne⟩
    · by_cases hroom : s.room = 0
      · exact ⟨s, .refl s, hs, Or.inr hroom⟩
      · obtain ⟨s1, hleads, hs1, hless⟩ := round_drains hV hs hne (Nat.pos_of_ne_zero hroom)
        obtain ⟨t, hleads', ht⟩ := ih _ (hn ▸ hless) hs1 rfl
        exact ⟨t, hleads.trans hleads', ht⟩

end Link

/-- **The tty can be emptied**: from every reachable state of a line that is not shut down, the loop
and the thread that polls, by steps of these two alone, can handle everything that is pending and
read the tty empty, unless the buffer is full before. -/
theorem drains (hV : I.toVirtuals.Bounded) {ctx : Context κ π ρ δ} {io : DeviceIO}
    {before : List (Link.Step κ π ρ)} {s : Link κ π ρ δ} (hroom : ctx.rx.leftover ≤ storageSize)
    (hopen : io.opened = true)
    (hreach : run (Link.step I) before (Link.init ctx io) = some s)
    (hrunning : .shutDown ∉ s.orchestrator.pending) :
    ∃ ls t, (∀ l ∈ ls, l.ofReaders = true) ∧ run (Link.step I) ls s = some t ∧
      t.orchestrator.pending = [] ∧
      (t.io.inbox = [] ∨ t.orchestrator.system.ctx.rx.leftover = storageSize) := by
  have hs : s.Live := ⟨Orchestrator.undeferred_of_run (Link.run_orchestrator hreach),
    Orchestrator.leftover_of_run hroom (Link.run_orchestrator hreach),
    (Link.opened_of_run hreach).trans hopen, hrunning⟩
  obtain ⟨s1, hleads1, queue, hs1⟩ : ∃ s1, s.LeadsTo I s1 ∧ ∃ queue, s1.Listening queue := by
    cases hloop : s.orchestrator.loop with
    | getting => exact ⟨s, .refl s, _, hs, hloop, rfl⟩
    | handling ev =>
      obtain ⟨s1, hleads, hs1, -⟩ := Link.handle_drains hV hs hloop
      exact ⟨s1, hleads, _, hs1⟩
    | stopped =>
      unfold Orchestrator.pending at hrunning
      rw [hloop] at hrunning
      exact absurd List.mem_cons_self hrunning
  obtain ⟨s2, hleads2, hs2, -⟩ := Link.queue_drains hV hs1
  obtain ⟨t, hleads3, ht, hend⟩ := Link.rounds_drain hV hs2
  obtain ⟨ls, hown, hrun⟩ := (hleads1.trans hleads2).trans hleads3
  refine ⟨ls, t, hown, hrun, ?_, hend.imp id fun hfull => ?_⟩
  · unfold Orchestrator.pending
    rw [ht.loop, ht.queue]
  · have hle := ht.live.leftover_le
    unfold Link.room at hfull
    omega

end Draining

/-- The first piece of a reply has come in and been polled. -/
theorem drains_linkRun :
    ∃ s, run (Link.step modemInterfaces) (linkRun.take 3) (Link.init modemContext idleTty) = some s ∧
      ∃ ls t, (∀ l ∈ ls, l.ofReaders = true) ∧ run (Link.step modemInterfaces) ls s = some t ∧
        t.orchestrator.pending = [] ∧
        (t.io.inbox = [] ∨ t.orchestrator.system.ctx.rx.leftover = storageSize) := by
  have hrun : (run (Link.step modemInterfaces) (linkRun.take 3)
      (Link.init modemContext idleTty)).map (·.orchestrator.pending) = some [] := by decide +kernel
  obtain ⟨s, hs, hpending⟩ := Option.map_eq_some_iff.1 hrun
  refine ⟨s, hs, drains (modem.bounded PacketCommand.accept) (Nat.zero_le _) rfl hs ?_⟩
  rw [hpending]
  exact List.not_mem_nil

end ATLink
