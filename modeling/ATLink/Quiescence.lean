import Mathlib.Algebra.Order.BigOperators.Group.Finset
import ATLink.Driver

/-!
# Rest

Where the threads stop by themselves, and what is left to do once the loop has ended.

* `Activity.isOwn` — the steps that are not made from outside: those of the loop and the timer, and
  of the callers once they have come in.
* `AtRest` — no such step can be taken.
* `Orderly` — what holds of every state of a run in which no command fails to be sent.
* `Served` — the call has returned or is free to.

Principal results: `comes_to_rest` — from every reachable state the threads come to rest within a
number of steps that the pending events and the calls bound; `atRest_iff` — they rest where all
calls have returned, or where one waits for its reply and the others wait for the machine;
`after_shutDown` — once the loop has ended no further call is ever served.
-/

namespace ATLink

open LabelledRun

section Rest

variable {κ π ρ δ : Type} {I : Interfaces κ π ρ δ}

/-- Not a step of the device, of a caller of `shutDown` or of one that comes in, and no spurious
wake-up. -/
def Activity.isOwn : Activity κ π ρ → Bool
  | .notify _ => false
  | .shutDown => false
  | .coolDown _ => true
  | .get => true
  | .handle _ => true
  | .caller (.call _ _ _ _ _) => false
  | .caller (.spurious _) => false
  | .caller (.recheck _ _) => true
  | .caller (.acquire _) => true
  | .caller (.handle _ _) => true

/-- The call that comes in. -/
def Activity.called? : Activity κ π ρ → Option Nat
  | .caller (.call c _ _ _ _) => some c
  | _ => none

namespace System

variable {s s' : System κ π ρ δ} {c : Nat} {a : Answers}

/-- The call has returned, or its semaphore is released. -/
def Served (s : System κ π ρ δ) (c : Nat) : Prop :=
  (∃ ec, s.phase c = .returned ec) ∨ s.phase c = .blocked ∧ 0 < (s.ctx.calls c).sem

/-- A call that does not come in stays absent. -/
theorem absent_of_step {l : Step κ π ρ} (hc : s.phase c = .absent) (h : s.step I l = some s')
    (hcall : ∀ command result response a, l ≠ .call c command result response a) :
    s'.phase c = .absent := by
  have hne : ∀ {d : Nat} {p : Phase}, s.phase d = p → p ≠ .absent → c ≠ d := by
    rintro d p hd hp rfl
    exact hp (hd.symm.trans hc)
  have hgate : ∀ {u u' : System κ π ρ δ} {d : Nat} {a : Answers}, c ≠ d → u.phase c = .absent →
      u.gate I d a = some u' → u'.phase c = .absent := by
    intro u u' d a hd hu h
    rcases gate_cases h with ⟨-, rfl⟩ | ⟨-, hphase, -⟩
    · exact (Function.update_of_ne hd ..).trans hu
    · rw [hphase, Function.update_of_ne hd]
      exact hu
  cases step_cases h with
  | @call d command result response a _ hd h =>
    have hcd : c ≠ d := fun he => hcall command result response a (by rw [he])
    exact @hgate (s.arrive d command result response) _ _ _ hcd hc h
  | @spurious d hd =>
    exact (Function.update_of_ne (hne hd (by decide)) ..).trans hc
  | recheck hd h => exact hgate (hne hd (by decide)) hc h
  | acquire hd hpos => exact (Function.update_of_ne (hne hd (by decide)) ..).trans hc
  | handle h =>
    obtain ⟨⟨next, ctx'⟩, -, rfl⟩ := Option.map_eq_some_iff.1 h
    have hphase := (notified_phase (P := s.state ≠ .idle ∧ next = .idle) s.phase c).resolve_right
      fun hwake => by rw [hc] at hwake; cases hwake.1
    exact hphase.trans hc

/-- A call has a step to make: to check the state again, or to return. -/
def busy (s : System κ π ρ δ) (c : Nat) : Nat :=
  if s.phase c = .notified ∨ s.phase c = .blocked ∧ 0 < (s.ctx.calls c).sem then 1 else 0

theorem sum_busy_le (s : System κ π ρ δ) (known : Finset Nat) :
    ∑ c ∈ known, s.busy c ≤ known.card := by
  have hle : ∀ c ∈ known, s.busy c ≤ 1 := by
    intro c _
    unfold busy
    split <;> omega
  simpa using Finset.sum_le_card_nsmul known (fun c => s.busy c) 1 hle

/-- A call that checks the state again waits, or is blocked without a token. -/
theorem busy_gate (hc : s.phase c = .notified) (h : s.gate I c a = some s') :
    s'.busy c < s.busy c ∧ ∀ d, s'.busy d ≤ s.busy d := by
  have hbefore : s.busy c = 1 := by
    unfold busy
    rw [if_pos (Or.inl hc)]
  have hstep : s'.busy c = 0 ∧ ∀ d, d ≠ c → s'.busy d = s.busy d := by
    unfold busy
    rcases gate_cases h with ⟨-, rfl⟩ | ⟨-, hphase, hsem, -⟩
    · refine ⟨?_, fun d hd => ?_⟩
      · simp only [Function.update_self]
        rfl
      · simp only [Function.update_of_ne hd]
    · rw [hphase]
      refine ⟨?_, fun d hd => ?_⟩
      · simp only [Function.update_self, hsem, if_true]
        rfl
      · simp only [Function.update_of_ne hd, hsem, if_neg hd]
  refine ⟨by omega, fun d => ?_⟩
  by_cases hd : d = c
  · subst hd
    omega
  · exact Nat.le_of_eq (hstep.2 d hd)

/-- A call that returns has nothing more to do. -/
theorem busy_acquire (hc : s.phase c = .blocked) (hpos : 0 < (s.ctx.calls c).sem) :
    (s.acquire c).busy c < s.busy c ∧ ∀ d, (s.acquire c).busy d ≤ s.busy d := by
  have hbefore : s.busy c = 1 := by
    unfold busy
    rw [if_pos (Or.inr ⟨hc, hpos⟩)]
  have hself : (s.acquire c).busy c = 0 := by
    unfold busy acquire
    simp only [Function.update_self]
    exact if_neg fun h => h.elim (fun he => by cases he) fun he => by cases he.1
  refine ⟨by omega, fun d => ?_⟩
  by_cases hd : d = c
  · subst hd
    omega
  · unfold busy acquire
    simp only [Function.update_of_ne hd]
    exact Nat.le_refl _

end System

namespace Orchestrator

variable {s s' t : Orchestrator κ π ρ δ} {c : Nat} {a : Answers}

/-! ## Coming to rest -/

/-- The calls that have come in, among others. -/
def Known (s : Orchestrator κ π ρ δ) (known : List Nat) : Prop :=
  ∀ c, c ∉ known → s.system.phase c = .absent

theorem known_step {known : List Nat} {l : Activity κ π ρ} (hs : s.Known known)
    (h : s.step I l = some s') : s'.Known (known ++ l.called?.toList) := by
  intro c hc
  rw [List.mem_append, not_or] at hc
  rcases system_of_step h with hsame | ⟨m, hm, hl⟩
  · rw [hsame]
    exact hs c hc.1
  · refine System.absent_of_step (hs c hc.1) hm fun command result response a he => hc.2 ?_
    subst he
    rcases hl with ⟨ev, a', -, -, he⟩ | rfl
    · cases he
    · exact List.mem_singleton.2 rfl

theorem known_of_run {ls : List (Activity κ π ρ)} {known : List Nat} (hs : s.Known known)
    (hrun : run (step I) ls s = some t) : t.Known (known ++ ls.filterMap Activity.called?) := by
  induction ls generalizing s known with
  | nil =>
    cases hrun
    rw [List.filterMap_nil, List.append_nil]
    exact hs
  | cons l ls ih =>
    obtain ⟨s', hstep, hrest⟩ := run_cons_some hrun
    have hknown := ih (known_step hs hstep) hrest
    rw [List.append_assoc] at hknown
    rw [List.filterMap_cons]
    cases hl : l.called? with
    | none => rw [hl] at hknown; exact hknown
    | some c => rw [hl] at hknown; exact hknown

/-- The steps that the loop still has to make on what is posted. -/
def owed (s : Orchestrator κ π ρ δ) : Nat :=
  2 * s.events.queue.length + if s.loop = .getting ∨ s.loop = .stopped then 0 else 1

/-- An event may wake all calls. -/
def potential (known : Finset Nat) (s : Orchestrator κ π ρ δ) : Nat :=
  (known.card + 1) * s.owed + ∑ c ∈ known, s.system.busy c

theorem potential_le (known : Finset Nat) (s : Orchestrator κ π ρ δ) :
    s.potential known ≤ 2 * s.pending.length * (known.card + 1) + known.card := by
  have howed : s.owed ≤ 2 * s.pending.length := by
    unfold owed pending
    cases s.loop <;> simp
  have hsum := s.system.sum_busy_le known
  have hmul := Nat.mul_le_mul_left (known.card + 1) howed
  rw [Nat.mul_comm (2 * s.pending.length)]
  exact Nat.add_le_add hmul hsum

/-- **Each step that is not made from outside uses up potential.** -/
theorem potential_step {known : Finset Nat} {l : Activity κ π ρ} (hs : s.Undeferred)
    (hknown : ∀ c, c ∉ known → s.system.phase c = .absent) (hown : l.isOwn = true)
    (h : s.step I l = some s') : s'.potential known < s.potential known := by
  unfold potential
  cases step_cases h with
  | notify => cases hown
  | shutDown => cases hown
  | coolDown hl ht => exact absurd ht (no_worker_step hs.worker hl)
  | @taken ev rest hl hq hev =>
    have hbefore : s.owed = 2 * (rest.length + 1) := by
      unfold owed
      rw [hq, hl]
      rfl
    have hafter : owed { s with events := ⟨rest⟩, loop := .handling ev } = 2 * rest.length + 1 := rfl
    rw [hbefore, hafter]
    exact Nat.add_lt_add_right (Nat.mul_lt_mul_of_pos_left (by omega) (by omega)) _
  | @stopped rest hl hq =>
    have hbefore : s.owed = 2 * (rest.length + 1) := by
      unfold owed
      rw [hq, hl]
      rfl
    have hafter : owed { s with events := ⟨rest⟩, loop := .stopped } = 2 * rest.length := rfl
    rw [hbefore, hafter]
    exact Nat.add_lt_add_right (Nat.mul_lt_mul_of_pos_left (by omega) (by omega)) _
  | @handle ev a sys hl hsys =>
    have hbefore : s.owed = 2 * s.events.queue.length + 1 := by
      unfold owed
      rw [hl]
      rfl
    have hafter : owed { s with system := sys, loop := .getting } = 2 * s.events.queue.length := rfl
    -- what the event wakes is less than what it was worth
    have hsum : ∑ c ∈ known, sys.busy c ≤ known.card := sys.sum_busy_le known
    rw [hbefore, hafter, Nat.mul_add, Nat.mul_one]
    show _ + ∑ c ∈ known, sys.busy c < _
    omega
  | @caller m sys hl hsys =>
    refine Nat.add_lt_add_left ?_ _
    have hbusy : ∃ c, s.system.phase c ≠ .absent ∧ sys.busy c < s.system.busy c ∧
        ∀ d, sys.busy d ≤ s.system.busy d := by
      cases System.step_cases hsys with
      | call => cases hown
      | spurious => cases hown
      | @recheck c a _ hc h =>
        exact ⟨c, by rw [hc]; decide, System.busy_gate hc h⟩
      | @acquire c hc hpos =>
        exact ⟨c, by rw [hc]; decide, System.busy_acquire hc hpos⟩
      | handle => cases hl
    obtain ⟨c, hc, hlt, hle⟩ := hbusy
    have hmem : c ∈ known := by
      by_contra hnot
      exact hc (hknown c hnot)
    exact Finset.sum_lt_sum (fun d _ => hle d) ⟨c, hmem, hlt⟩

/-- The calls that have come in stay the same in steps that are not made from outside. -/
theorem known_of_own {known : Finset Nat} {l : Activity κ π ρ}
    (hknown : ∀ c, c ∉ known → s.system.phase c = .absent) (hown : l.isOwn = true)
    (h : s.step I l = some s') : ∀ c, c ∉ known → s'.system.phase c = .absent := by
  have hnone : l.called? = none := by
    cases l with
    | caller m => cases m with
      | call => cases hown
      | spurious => rfl
      | recheck => rfl
      | acquire => rfl
      | handle => rfl
    | notify => rfl
    | shutDown => rfl
    | coolDown => rfl
    | get => rfl
    | handle => rfl
  intro c hc
  have hlist : s.Known known.toList := fun d hd => hknown d (mt Finset.mem_toList.2 hd)
  have hstep := known_step hlist h
  rw [hnone] at hstep
  exact hstep c (by simpa using hc)

end Orchestrator

/-- **The threads come to rest**: from every reachable state, the loop, the timer and the callers
that have come in can make only so many steps by themselves: for `n` calls and `m` pending events,
no more than `2 * m * (n + 1) + n`. -/
theorem comes_to_rest {ctx : Context κ π ρ δ} {before ls : List (Activity κ π ρ)}
    {s t : Orchestrator κ π ρ δ}
    (hreach : run (Orchestrator.step I) before (Orchestrator.init ctx) = some s)
    (hown : ∀ l ∈ ls, l.isOwn = true) (hrun : run (Orchestrator.step I) ls s = some t) :
    ls.length ≤ 2 * s.pending.length * ((before.filterMap Activity.called?).length + 1) +
      (before.filterMap Activity.called?).length := by
  have hnil : (Orchestrator.init ctx).Known [] := fun _ _ => rfl
  have hknown := Orchestrator.known_of_run hnil hreach
  rw [List.nil_append] at hknown
  generalize before.filterMap Activity.called? = called at hknown
  obtain ⟨-, hlength⟩ := run_length_le (fun l => l.isOwn = true) (Orchestrator.potential called.toFinset)
    (fun s l s' (hs : s.Undeferred ∧ ∀ c, c ∉ called.toFinset → s.system.phase c = .absent) hl h =>
      ⟨Orchestrator.step_undeferred hs.1 h, Orchestrator.known_of_own hs.2 hl h⟩)
    (fun s l s' hs hl h => Orchestrator.potential_step hs.1 hs.2 hl h) ls s t
    ⟨Orchestrator.undeferred_of_run hreach, fun c hc => hknown c (mt List.mem_toFinset.2 hc)⟩ hown hrun
  have hcard : called.toFinset.card ≤ called.length := List.toFinset_card_le called
  have hpotential := Orchestrator.potential_le called.toFinset s
  have hmul := Nat.mul_le_mul_left (2 * s.pending.length) (Nat.add_le_add_right hcard 1)
  omega

/-! ## Where they rest -/

namespace Orchestrator

variable {s s' t : Orchestrator κ π ρ δ} {c : Nat} {a : Answers}

variable (I) in
/-- No step that is not made from outside can be taken. -/
def AtRest (s : Orchestrator κ π ρ δ) : Prop := ∀ l : Activity κ π ρ, l.isOwn = true → s.step I l = none

variable (I) in
/-- If the step sends a command, it succeeds. -/
def WritesSucceed (s : Orchestrator κ π ρ δ) : Activity κ π ρ → Prop
  | .caller l => WriteSucceeds I s.system l
  | .handle a => ∀ ev, s.loop = .handling ev → WriteSucceeds I s.system (.handle ev a)
  | _ => True

/-- What holds as long as no command fails to be sent. -/
structure Orderly (s : Orchestrator κ π ρ δ) : Prop where
  undeferred : s.Undeferred
  stored : StoredBlocked s.system
  orphan : NoOrphan s.system
  waiting : System.NoneWaiting s.system
  leftover_le : s.system.ctx.rx.leftover ≤ storageSize

theorem orderly_step {l : Activity κ π ρ} (hs : s.Orderly) (hl : s.WritesSucceed I l)
    (h : s.step I l = some s') : s'.Orderly := by
  have hundeferred := step_undeferred hs.undeferred h
  rcases system_of_step h with hsame | ⟨m, hm, hlabel⟩
  · exact ⟨hundeferred, by rw [hsame]; exact hs.stored, by rw [hsame]; exact hs.orphan,
      by rw [hsame]; exact hs.waiting, by rw [hsame]; exact hs.leftover_le⟩
  · have hsucceeds : WriteSucceeds I s.system m := by
      rcases hlabel with ⟨ev, a, rfl, hloop, rfl⟩ | rfl
      · exact hl ev hloop
      · exact hl
    exact ⟨hundeferred, System.storedBlocked_step hs.stored hm,
      (System.noOrphan_step_iff hs.stored hs.orphan hm).2 hsucceeds,
      System.noneWaiting_step hs.waiting hm, (System.stream_step hs.leftover_le hm).1⟩

/-! ### Steps that can be taken -/

theorem handle_enabled (hV : I.toVirtuals.Bounded) (hs : s.Orderly) {ev : Event}
    (hloop : s.loop = .handling ev) : (s.step I (.handle ⟨true, 0, []⟩)).isSome = true := by
  simp only [step, hloop, System.handle, Option.isSome_map]
  exact State.handle_isSome hV hs.undeferred.state hs.leftover_le ev (Nat.zero_le _)

/-- A call that has been notified can check the state again, if its command can be serialized
without an exception. -/
theorem recheck_enabled (hs : s.Orderly) (hc : s.system.phase c = .notified)
    (hcommand : (I.acceptCommand (s.system.ctx.calls c).command
      (Serializer.init s.system.ctx.txbuf)).isSome = true) :
    (s.step I (.caller (.recheck c ⟨true, 0, []⟩))).isSome = true := by
  have hpermits : s.permits (.recheck c ⟨true, 0, []⟩ : Step κ π ρ) = true := by
    unfold permits
    rw [hs.undeferred.canSend]
    rfl
  simp only [step, hpermits, if_true, Option.isSome_map, System.step, hc]
  unfold System.gate
  split
  · obtain ⟨⟨ok, serializer⟩, hser⟩ := Option.isSome_iff_exists.1 hcommand
    have hself : ((System.locals s.system.ctx c).calls c).command = (s.system.ctx.calls c).command := by
      unfold System.locals
      simp only [Function.update_self]
    have hser : I.acceptCommand ((System.locals s.system.ctx c).calls c).command
        (Serializer.init (System.locals s.system.ctx c).txbuf) = some (ok, serializer) := by
      rw [hself]
      exact hser
    simp only [Idle.process, SendCommand.start, if_true, Context.send, Option.isSome_map]
    unfold ATLink.send
    rw [hser]
    cases ok with
    | true => rfl
    | false => rfl
  · rfl

theorem acquire_enabled (hc : s.system.phase c = .blocked) (hpos : 0 < (s.system.ctx.calls c).sem) :
    (s.step I (.caller (.acquire c))).isSome = true := by
  simp only [step, permits, if_true, Option.isSome_map, System.step, hc, hpos, and_self,
    Option.isSome_some]

theorem get_enabled (hloop : s.loop = .getting) (hqueue : s.events.queue ≠ []) :
    (s.step I .get).isSome = true := by
  obtain ⟨ev, rest, hq⟩ := List.exists_cons_of_ne_nil hqueue
  have hget : s.events.get = some (ev, ⟨rest⟩) := MessageQueue.get_eq_some_iff.2 hq
  simp only [step, hloop, if_true, Orchestrator.get, hget, Option.map_some, Option.isSome_some]

/-- Either all calls have returned, or one waits for its reply and the others for the machine. -/
def Waits (s : Orchestrator κ π ρ δ) : Prop :=
  (s.system.state = .idle ∧
      ∀ c, s.system.phase c = .absent ∨ ∃ ec, s.system.phase c = .returned ec) ∨
    ∃ c, s.system.state = .waitForResponse ⟨c⟩ ∧ s.system.phase c = .blocked ∧
      ∀ d, d ≠ c → s.system.phase d = .absent ∨ s.system.phase d = .waiting ∨
        ∃ ec, s.system.phase d = .returned ec

/-- At rest everything that is posted has been handled, and a call is only left where it waits. -/
theorem waits_of_atRest (hV : I.toVirtuals.Bounded) (hs : s.Orderly) (hloop : s.loop ≠ .stopped)
    (hcommand : ∀ c, s.system.phase c = .notified → (I.acceptCommand (s.system.ctx.calls c).command
      (Serializer.init s.system.ctx.txbuf)).isSome = true) (hrest : s.AtRest I) :
    s.pending = [] ∧ s.Waits := by
  have hstuck : ∀ {l : Activity κ π ρ}, l.isOwn = true → (s.step I l).isSome ≠ true := by
    intro l hl
    rw [hrest l hl]
    exact fun he => by cases he
  have hpending : s.pending = [] := by
    unfold Orchestrator.pending
    cases hl : s.loop with
    | getting => exact by_contra fun hne => hstuck (l := .get) rfl (get_enabled hl hne)
    | handling ev => exact absurd (handle_enabled hV hs hl) (hstuck rfl)
    | stopped => exact absurd hl hloop
  have hnotified : ∀ c, s.system.phase c ≠ .notified := fun c hc =>
    hstuck rfl (recheck_enabled hs hc (hcommand c hc))
  -- a blocked call has no token, so its payload is in the machine
  have hblocked : ∀ c, s.system.phase c = .blocked → s.system.state.msg? = some ⟨c⟩ := by
    intro c hc
    refine hs.orphan c hc (Nat.eq_zero_of_not_pos fun hpos => ?_)
    exact hstuck (l := .caller (.acquire c)) rfl (acquire_enabled hc hpos)
  refine ⟨hpending, ?_⟩
  cases hst : s.system.state with
  | idle =>
    refine Or.inl ⟨hst, fun c => ?_⟩
    cases hc : s.system.phase c with
    | absent => exact Or.inl rfl
    | waiting => exact absurd hc (hs.waiting hst c)
    | notified => exact absurd hc (hnotified c)
    | blocked =>
      have hmsg := hblocked c hc
      rw [hst] at hmsg
      cases hmsg
    | returned ec => exact Or.inr ⟨ec, rfl⟩
  | sendCommand msg => exact absurd hst (hs.undeferred.state msg)
  | waitForResponse msg =>
    obtain ⟨c⟩ := msg
    refine Or.inr ⟨c, hst, (hs.stored c (by rw [hst]; rfl)).1, fun d hd => ?_⟩
    cases hc : s.system.phase d with
    | absent => exact Or.inl rfl
    | waiting => exact Or.inr (Or.inl rfl)
    | notified => exact absurd hc (hnotified d)
    | blocked =>
      have hmsg := hblocked d hc
      rw [hst] at hmsg
      cases hmsg
      exact absurd rfl hd
    | returned ec => exact Or.inr (Or.inr ⟨ec, rfl⟩)

/-- Where everything is handled and calls only wait, no step can be taken. -/
theorem atRest_of_waits (hs : s.Orderly) (hpending : s.pending = []) (hwaits : s.Waits) :
    s.AtRest I := by
  have hloop : s.loop = .getting ∧ s.events.queue = [] := by
    unfold Orchestrator.pending at hpending
    cases hl : s.loop with
    | getting => rw [hl] at hpending; exact ⟨rfl, hpending⟩
    | handling ev => rw [hl] at hpending; cases hpending
    | stopped => rw [hl] at hpending; cases hpending
  have hidle : (∀ c, s.system.phase c ≠ .notified) ∧
      ∀ c, ¬ (s.system.phase c = .blocked ∧ 0 < (s.system.ctx.calls c).sem) := by
    rcases hwaits with ⟨-, hall⟩ | ⟨c, hst, -, hother⟩
    · refine ⟨fun c hc => ?_, fun c hc => ?_⟩
      · rcases hall c with h | ⟨ec, h⟩ <;> rw [h] at hc <;> cases hc
      · rcases hall c with h | ⟨ec, h⟩ <;> rw [h] at hc <;> cases hc.1
    · obtain ⟨hblocked, hzero⟩ := hs.stored c (by rw [hst]; rfl)
      refine ⟨fun d hd => ?_, fun d hd => ?_⟩
      · by_cases hdc : d = c
        · rw [hdc, hblocked] at hd
          cases hd
        · rcases hother d hdc with h | h | ⟨ec, h⟩ <;> rw [h] at hd <;> cases hd
      · by_cases hdc : d = c
        · rw [hdc] at hd
          omega
        · rcases hother d hdc with h | h | ⟨ec, h⟩ <;> rw [h] at hd <;> cases hd.1
  intro l hl
  cases hstep : s.step I l with
  | none => rfl
  | some s' =>
    cases step_cases hstep with
    | notify => cases hl
    | shutDown => cases hl
    | coolDown hl' ht => exact absurd ht (no_worker_step hs.undeferred.worker hl')
    | taken _ hq => rw [hloop.2] at hq; cases hq
    | stopped _ hq => rw [hloop.2] at hq; cases hq
    | handle hl' => rw [hloop.1] at hl'; cases hl'
    | caller hpermits hsys =>
      cases System.step_cases hsys with
      | call => cases hl
      | spurious => cases hl
      | recheck hc => exact absurd hc (hidle.1 _)
      | acquire hc hpos => exact absurd ⟨hc, hpos⟩ (hidle.2 _)
      | handle => cases hpermits

end Orchestrator

/-- **Where the threads rest**: with parsers that return on every text and take no more than it holds,
as long as no command fails to be sent, the command of a call that has been woken up can be
serialized and the loop has not ended, they are at rest exactly where all that is posted has been
handled and either all calls have returned, or one waits for the reply to its command and the others
wait for the machine. -/
theorem atRest_iff {ctx : Context κ π ρ δ} {ls : List (Activity κ π ρ)} {s : Orchestrator κ π ρ δ}
    (hempty : ctx.rx.leftover = 0)
    (hreach : run (Orchestrator.step I) ls (Orchestrator.init ctx) = some s)
    (hwrites : Guarded (Orchestrator.step I) (Orchestrator.WritesSucceed I) ls (Orchestrator.init ctx))
    (hloop : s.loop ≠ .stopped) (hV : I.toVirtuals.Bounded)
    (hcommand : ∀ c, s.system.phase c = .notified → (I.acceptCommand (s.system.ctx.calls c).command
      (Serializer.init s.system.ctx.txbuf)).isSome = true) :
    s.AtRest I ↔ s.pending = [] ∧ s.Waits := by
  have hinit : (Orchestrator.init ctx).Orderly := by
    refine ⟨Orchestrator.init_undeferred ctx, fun _ h => (by cases h),
      fun _ h => (by cases h), fun _ _ h => (by cases h), ?_⟩
    show ctx.rx.leftover ≤ storageSize
    omega
  have hs : s.Orderly := forall_of_guarded (fun _ _ _ hu hl h => Orchestrator.orderly_step hu hl h) ls
    (Orchestrator.init ctx) hinit hwrites ls (List.prefix_refl _) s hreach
  constructor
  · exact Orchestrator.waits_of_atRest hV hs hloop hcommand
  · rintro ⟨hpending, hwaits⟩
    exact Orchestrator.atRest_of_waits hs hpending hwaits

/-! ## After the loop has ended -/

/-- A write that the device took in full. -/
def Action.isSent : Action → Bool
  | .write _ _ success => success
  | .completed _ => false

namespace System

variable {s s' : System κ π ρ δ} {c : Nat} {a : Answers}

/-- Passing the gate serves no call. -/
theorem served_gate (hc : ∀ ec, s.phase c ≠ .returned ec) (hblocked : s.phase c ≠ .blocked)
    (h : s.gate I c a = some s') (d : Nat) : s'.Served d ↔ s.Served d := by
  have hnot : ¬ s.Served c := fun hs => hs.elim (fun ⟨ec, he⟩ => hc ec he) fun he => hblocked he.1
  unfold Served at *
  rcases gate_cases h with ⟨-, rfl⟩ | ⟨-, hphase, hsem, -⟩
  · by_cases hd : d = c
    · subst hd
      refine iff_of_false ?_ hnot
      simp only [Function.update_self]
      rintro (⟨ec, he⟩ | ⟨he, -⟩) <;> cases he
    · simp only [Function.update_of_ne hd]
  · rw [hphase, hsem]
    by_cases hd : d = c
    · subst hd
      refine iff_of_false ?_ hnot
      simp only [Function.update_self, if_true]
      rintro (⟨ec, he⟩ | ⟨-, he⟩) <;> cases he
    · simp only [Function.update_of_ne hd, if_neg hd]

/-- **No caller serves a call**: without the loop the calls that are served stay the same. -/
theorem served_step {l : Step κ π ρ} (hl : ∀ ev a, l ≠ .handle ev a) (h : s.step I l = some s') (d : Nat) :
    s'.Served d ↔ s.Served d := by
  have hkeep : ∀ {e : Nat} {p : Phase}, s.phase e ≠ .blocked → (∀ ec, s.phase e ≠ .returned ec) →
      p ≠ .blocked → (∀ ec, p ≠ .returned ec) →
      (Served { s with phase := Function.update s.phase e p } d ↔ s.Served d) := by
    intro e p he he' hp hp'
    unfold Served
    by_cases hd : d = e
    · subst hd
      simp only [Function.update_self]
      exact iff_of_false (fun hs => hs.elim (fun ⟨ec, hec⟩ => hp' ec hec) fun hb => hp hb.1)
        (fun hs => hs.elim (fun ⟨ec, hec⟩ => he' ec hec) fun hb => he hb.1)
    · simp only [Function.update_of_ne hd]
  cases step_cases h with
  | @call c command result response a _ hc h =>
    have hcall : (s.arrive c command result response).Served d ↔ s.Served d := by
      unfold Served
      by_cases hd : d = c
      · subst hd
        have hphase : (s.arrive d command result response).phase d = .absent := hc
        simp only [hphase, hc]
        exact iff_of_false (by rintro (⟨ec, he⟩ | ⟨he, -⟩) <;> cases he)
          (by rintro (⟨ec, he⟩ | ⟨he, -⟩) <;> cases he)
      · have hother : (s.arrive c command result response).ctx.calls d = s.ctx.calls d :=
          Function.update_of_ne hd ..
        rw [hother]
        exact Iff.rfl
    have hphase : (s.arrive c command result response).phase c = .absent := hc
    rw [← hcall]
    exact served_gate (fun ec he => by rw [hphase] at he; cases he)
      (fun he => by rw [hphase] at he; cases he) h d
  | @spurious c hc =>
    exact hkeep (by rw [hc]; decide) (fun ec he => by rw [hc] at he; cases he) (by decide)
      (fun ec he => by cases he)
  | recheck hc h =>
    exact served_gate (fun ec he => by rw [hc] at he; cases he) (by rw [hc]; decide) h d
  | @acquire c hc hpos =>
    unfold Served acquire
    by_cases hd : d = c
    · subst hd
      simp only [Function.update_self]
      exact iff_of_true (Or.inl ⟨_, rfl⟩) (Or.inr ⟨hc, hpos⟩)
    · simp only [Function.update_of_ne hd]
  | handle => exact absurd rfl (hl _ _)

/-- What callers alone do to the line: they may send one command, and complete none. -/
theorem caller_acts {l : Step κ π ρ} (hl : ∀ ev a, l ≠ .handle ev a) (h : s.step I l = some s') :
    s'.ctx.rx = s.ctx.rx ∧ ∃ w, s'.ctx.actions = s.ctx.actions ++ w ∧ (∀ c, .completed c ∉ w) ∧
      (s.state ≠ .idle → w = [] ∧ s'.state = s.state) ∧
      w.countP Action.isSent + (if s'.state = .idle then 1 else 0) ≤ 1 := by
  have hsilent : ∀ {u : System κ π ρ δ}, u.ctx.actions = s.ctx.actions → u.state = s.state →
      ∃ w, u.ctx.actions = s.ctx.actions ++ w ∧ (∀ c, .completed c ∉ w) ∧
        (s.state ≠ .idle → w = [] ∧ u.state = s.state) ∧
        w.countP Action.isSent + (if u.state = .idle then 1 else 0) ≤ 1 := by
    intro u hactions hstate
    refine ⟨[], by rw [hactions, List.append_nil], fun _ => List.not_mem_nil, fun _ => ⟨rfl, hstate⟩, ?_⟩
    rw [List.countP_nil]
    split <;> omega
  have hgate : ∀ {u u' : System κ π ρ δ} {c : Nat} {a : Answers}, u.ctx.actions = s.ctx.actions →
      u.state = s.state → u.gate I c a = some u' →
      ∃ w, u'.ctx.actions = s.ctx.actions ++ w ∧ (∀ c, .completed c ∉ w) ∧
        (s.state ≠ .idle → w = [] ∧ u'.state = s.state) ∧
        w.countP Action.isSent + (if u'.state = .idle then 1 else 0) ≤ 1 := by
    intro u u' c a hactions hstate h
    rcases gate_emits h with ⟨-, rfl⟩ | ⟨hidle, -, w, hw, hemits⟩
    · exact hsilent hactions hstate
    · rw [hactions] at hw
      refine ⟨w, hw, ?_⟩
      rw [hstate] at hidle
      generalize u'.state = next at hemits
      cases hemits with
      | silent => exact ⟨fun _ => List.not_mem_nil, fun hne => absurd hidle hne, by simp⟩
      | unserialized => exact ⟨fun _ => List.not_mem_nil, fun hne => absurd hidle hne, by decide⟩
      | failed bytes => exact ⟨by simp, fun hne => absurd hidle hne, by simp [Action.isSent]⟩
      | sent bytes => exact ⟨by simp, fun hne => absurd hidle hne, by simp [Action.isSent]⟩
  cases step_cases h with
  | @call c command result response a _ hc h =>
    have hrx : s'.ctx.rx = (s.arrive c command result response).ctx.rx := (gate_same h).1
    exact ⟨hrx, @hgate (s.arrive c command result response) _ _ _ rfl rfl h⟩
  | spurious => exact ⟨rfl, hsilent rfl rfl⟩
  | recheck hc h => exact ⟨(gate_same h).1, hgate rfl rfl h⟩
  | acquire => exact ⟨rfl, hsilent rfl rfl⟩
  | handle => exact absurd rfl (hl _ _)

end System

/-- What a run from a state behind the loop keeps of it. -/
structure Orchestrator.Ended (s t : Orchestrator κ π ρ δ) : Prop where
  loop : t.loop = .stopped
  rx : t.system.ctx.rx = s.system.ctx.rx
  served : ∀ c, t.system.Served c ↔ s.system.Served c
  acts : ∃ w, t.system.ctx.actions = s.system.ctx.actions ++ w ∧ (∀ c, .completed c ∉ w) ∧
    (s.system.state ≠ .idle → w = [] ∧ t.system.state = s.system.state) ∧
    w.countP Action.isSent + (if t.system.state = .idle then 1 else 0) ≤ 1

theorem Orchestrator.ended_step {s u u' : Orchestrator κ π ρ δ} {l : Activity κ π ρ} (hs : Ended s u)
    (h : u.step I l = some u') : Ended s u' := by
  have hsame : u'.loop = .stopped → u'.system = u.system → Ended s u' := fun hloop hsystem =>
    ⟨hloop, by rw [hsystem]; exact hs.rx, by rw [hsystem]; exact hs.served,
      by rw [hsystem]; exact hs.acts⟩
  have hgetting : ∀ {lp : Loop}, u.loop = lp → lp ≠ .stopped → False := fun hl hne =>
    hne (hl.symm.trans hs.loop)
  cases step_cases h with
  | @notify ev => cases ev <;> exact hsame hs.loop rfl
  | shutDown => exact hsame hs.loop rfl
  | coolDown => exact hsame hs.loop rfl
  | taken hl => exact (hgetting hl (by decide)).elim
  | stopped hl => exact (hgetting hl (by decide)).elim
  | handle hl => exact (hgetting hl fun he => by cases he).elim
  | @caller m sys hl hsys =>
    have hm : ∀ ev a, m ≠ .handle ev a := by
      rintro ev a rfl
      cases hl
    obtain ⟨hrx, w', hw', hcompleted', hbusy', hcount'⟩ := System.caller_acts hm hsys
    obtain ⟨w, hw, hcompleted, hbusy, hcount⟩ := hs.acts
    refine ⟨hs.loop, hrx.trans hs.rx, fun c => (System.served_step hm hsys c).trans (hs.served c),
      w ++ w', by rw [← List.append_assoc, ← hw]; exact hw', fun c hmem => ?_, fun hne => ?_, ?_⟩
    · exact (List.mem_append.1 hmem).elim (hcompleted c) (hcompleted' c)
    · obtain ⟨rfl, hstate⟩ := hbusy hne
      obtain ⟨rfl, hstate'⟩ := hbusy' (by rw [hstate]; exact hne)
      exact ⟨rfl, hstate'.trans hstate⟩
    · rw [List.countP_append]
      show _ + (if sys.state = .idle then 1 else 0) ≤ 1
      by_cases hidle : u.system.state = .idle
      · rw [if_pos hidle] at hcount
        omega
      · obtain ⟨rfl, hstate⟩ := hbusy' hidle
        rw [hstate]
        exact hcount

/-- **After the shut-down**: once the loop has ended it stays so, and nothing is received; no command
is completed, and at most one more is sent, none if the machine is busy; and the calls that have
returned or are free to are the same for good: no other call ever returns. -/
theorem after_shutDown {s t : Orchestrator κ π ρ δ} {ls : List (Activity κ π ρ)}
    (hstopped : s.loop = .stopped) (hrun : run (Orchestrator.step I) ls s = some t) :
    t.loop = .stopped ∧ t.system.ctx.rx = s.system.ctx.rx ∧
      (∃ w, t.system.ctx.actions = s.system.ctx.actions ++ w ∧ (∀ c, .completed c ∉ w) ∧
        w.countP Action.isSent ≤ 1 ∧ (s.system.state ≠ .idle → w = [])) ∧
      ∀ c, t.system.Served c ↔ s.system.Served c := by
  have hinit : Orchestrator.Ended s s := by
    refine ⟨hstopped, rfl, fun _ => Iff.rfl, [], (List.append_nil _).symm, fun _ => List.not_mem_nil,
      fun _ => ⟨rfl, rfl⟩, ?_⟩
    rw [List.countP_nil]
    split <;> omega
  have hended := run_inv (P := fun u => Orchestrator.Ended s u)
    (fun _ _ _ hu h => Orchestrator.ended_step hu h) ls s t hinit hrun
  obtain ⟨w, hw, hcompleted, hbusy, hcount⟩ := hended.acts
  exact ⟨hended.loop, hended.rx, ⟨w, hw, hcompleted, Nat.le_of_add_right_le hcount,
    fun hne => (hbusy hne).1⟩, hended.served⟩

end Rest

/-! ## Runs of a driver -/

/-- The reply is handled, and the call returns. -/
theorem comes_to_rest_modemRun :
    ∃ s t, run (Orchestrator.step modemInterfaces) modemRun (Orchestrator.init modemContext) = some s ∧
      run (Orchestrator.step modemInterfaces)
        [.handle ⟨true, 0, text "+R:1\r\nOK\r\n"⟩, .caller (.acquire 0)] s = some t ∧
      2 ≤ 2 * s.pending.length * ((modemRun.filterMap Activity.called?).length + 1) +
        (modemRun.filterMap Activity.called?).length := by
  have hsome : (run (Orchestrator.step modemInterfaces)
      (modemRun ++ [.handle ⟨true, 0, text "+R:1\r\nOK\r\n"⟩, .caller (.acquire 0)])
      (Orchestrator.init modemContext)).isSome = true := by decide +kernel
  obtain ⟨t, hrun⟩ := Option.isSome_iff_exists.1 hsome
  obtain ⟨s, hs, ht⟩ := run_of_append hrun
  refine ⟨s, t, hs, ht, comes_to_rest hs (fun l hl => ?_) ht⟩
  simp only [List.mem_cons, List.not_mem_nil, or_false] at hl
  rcases hl with rfl | rfl
  · rfl
  · rfl

/-- The command is sent and its call waits. -/
theorem atRest_iff_sent :
    ∃ s, run (Orchestrator.step modemInterfaces) (modemRun.take 1) (Orchestrator.init modemContext) =
        some s ∧ (s.AtRest modemInterfaces ↔ s.pending = [] ∧ s.Waits) := by
  have hrun : (run (Orchestrator.step modemInterfaces) (modemRun.take 1)
      (Orchestrator.init modemContext)).map (fun s => (s.loop, s.system.phase 0)) =
      some (.getting, .blocked) := by decide +kernel
  obtain ⟨s, hs, hpair⟩ := Option.map_eq_some_iff.1 hrun
  obtain ⟨hloop, hphase⟩ := Prod.mk.inj hpair
  have hsent : SendSucceeds modemInterfaces ⟨text "AT+R?", Constants.Cr, []⟩ modemContext.txbuf 6 := by
    have haccept : (modemInterfaces.acceptCommand ⟨text "AT+R?", Constants.Cr, []⟩
        (Serializer.init modemContext.txbuf)).map (fun r => (r.1, r.2.written)) = some (true, 6) := by
      decide +kernel
    obtain ⟨⟨ok, serializer⟩, hser, hpair⟩ := Option.map_eq_some_iff.1 haccept
    obtain ⟨rfl, hwritten⟩ := Prod.mk.inj hpair
    exact ⟨serializer, hser, hwritten.symm⟩
  have hknown : s.Known [0] := by
    have hnil : (Orchestrator.init modemContext).Known [] := fun _ _ => rfl
    exact Orchestrator.known_of_run hnil hs
  refine ⟨s, hs, atRest_iff rfl hs ⟨fun _ _ => hsent, fun _ _ => trivial⟩ (by rw [hloop]; decide)
    (modem.bounded PacketCommand.accept) fun c hc => ?_⟩
  by_cases hzero : c = 0
  · rw [hzero, hphase] at hc
    cases hc
  · rw [hknown c (by simpa using hzero)] at hc
    cases hc

/-- A call that comes in behind the end of the loop is sent and never returns. -/
theorem after_shutDown_loopRun :
    ∃ s t, s.loop = .stopped ∧ run (Orchestrator.step intInterfaces)
        [.caller (.call 1 ⟨text "AT+R?", Constants.Cr, []⟩ none none ⟨true, 6, []⟩)] s = some t ∧
      t.loop = .stopped ∧ t.system.ctx.rx = s.system.ctx.rx ∧
      (∃ w, t.system.ctx.actions = s.system.ctx.actions ++ w ∧ (∀ c, .completed c ∉ w) ∧
        w.countP Action.isSent ≤ 1 ∧ (s.system.state ≠ .idle → w = [])) ∧
      ∀ c, t.system.Served c ↔ s.system.Served c := by
  have hrun : (run (Orchestrator.step intInterfaces)
      (loopRun ++ [.caller (.call 1 ⟨text "AT+R?", Constants.Cr, []⟩ none none ⟨true, 6, []⟩)])
      (Orchestrator.init intContext)).isSome = true := by decide +kernel
  obtain ⟨t, ht⟩ := Option.isSome_iff_exists.1 hrun
  obtain ⟨s, hs, ht⟩ := run_of_append ht
  obtain ⟨u, hu, hstopped⟩ := loopRun_ends
  rw [hs] at hu
  cases hu
  exact ⟨s, t, hstopped, ht, after_shutDown hstopped ht⟩

end ATLink
