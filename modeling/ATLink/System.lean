import ATLink.Completion
import ATLink.Lib.Run

/-!
# Callers and the event loop

Any number of calls of `Orchestrator::sendCommand` and the event loop, interleaved at the
critical sections of the mutex.

* `Phase` — where a call stands: before the mutex, waiting on the condition variable, notified
  but not yet back, blocked in `sem.acquire()`, or returned.
* `Step` — one critical section of a call, a spurious wake-up, the end of `sem.acquire()`, or
  `Orchestrator::handle` for an event, with what timer and device answer.
* `NoOrphan` — a call that is blocked without a token has its payload in the machine.

Principal results: `step_cases` — everything a step can do; `stored_blocked` — the call whose
payload is stored is blocked without a token, in every reachable state; `no_orphan_iff` — no call is
orphaned along a run exactly when every command that is sent in it serializes and is written in full.
-/

namespace ATLink

open LabelledRun

inductive Phase where
  | absent
  | waiting
  | notified
  | blocked
  | returned (ec : ErrorCode)
  deriving DecidableEq

structure System (κ π ρ δ : Type) where
  ctx : Context κ π ρ δ
  state : State
  phase : Nat → Phase

/-- An atomic step. -/
inductive Step (κ π ρ : Type) where
  | call (c : Nat) (command : κ) (result : π) (response : Option ρ) (a : Answers)
  | spurious (c : Nat)
  | recheck (c : Nat) (a : Answers)
  | acquire (c : Nat)
  | handle (event : Event) (a : Answers)

section System

variable {κ π ρ δ : Type} (I : Interfaces κ π ρ δ)

namespace System

/-- The orchestrator as constructed, before any call. -/
def init (ctx : Context κ π ρ δ) : System κ π ρ δ := ⟨ctx, .idle, fun _ => .absent⟩

/-- The arguments of a call. -/
def arrive (s : System κ π ρ δ) (c : Nat) (command : κ) (result : π) (response : Option ρ) :
    System κ π ρ δ :=
  { s with ctx := { s.ctx with
      calls := Function.update s.ctx.calls c ⟨command, result, response, .noError, 0⟩ } }

/-- The locals `ec` and `sem` of a call that has passed the gate. -/
def locals (ctx : Context κ π ρ δ) (c : Nat) : Context κ π ρ δ :=
  { ctx with calls := Function.update ctx.calls c { ctx.calls c with ec := .noError, sem := 0 } }

/-- `condvar.notifyAll()`. -/
def notifyAll (phase : Nat → Phase) (c : Nat) : Phase :=
  if phase c = .waiting then .notified else phase c

/-- The critical section of `sendCommand` from the check of the state on: `condvar.wait`, or
`process` and `unlock`.  Under the mutex the state is still `Idle` after the gate. -/
def gate (s : System κ π ρ δ) (c : Nat) (a : Answers) : Option (System κ π ρ δ) :=
  if s.state = .idle then
    (Idle.process I (locals s.ctx c) ⟨c⟩ a).map fun r =>
      { ctx := r.2, state := r.1,
        phase := Function.update s.phase c
          (if (r.2.calls c).ec = .noError then .blocked else .returned (r.2.calls c).ec) }
  else some { s with phase := Function.update s.phase c .waiting }

/-- `Orchestrator::handle`. -/
def handle (s : System κ π ρ δ) (event : Event) (a : Answers) : Option (System κ π ρ δ) :=
  (s.state.handle I s.ctx event a).map fun r =>
    { ctx := r.2, state := r.1,
      phase := if s.state ≠ .idle ∧ r.1 = .idle then notifyAll s.phase else s.phase }

/-- `sem.acquire()` returning. -/
def acquire (s : System κ π ρ δ) (c : Nat) : System κ π ρ δ :=
  let call := s.ctx.calls c
  { s with
    ctx := { s.ctx with
      calls := Function.update s.ctx.calls c { call with sem := call.sem - 1 } },
    phase := Function.update s.phase c (.returned call.ec) }

/-- A step; `none` where it cannot be taken. -/
def step (s : System κ π ρ δ) : Step κ π ρ → Option (System κ π ρ δ)
  | .call c command result response a =>
    if s.phase c = .absent then (s.arrive c command result response).gate I c a else none
  | .spurious c =>
    if s.phase c = .waiting then some { s with phase := Function.update s.phase c .notified } else none
  | .recheck c a => if s.phase c = .notified then s.gate I c a else none
  | .acquire c =>
    if s.phase c = .blocked ∧ 0 < (s.ctx.calls c).sem then some (s.acquire c) else none
  | .handle event a => s.handle I event a

end System

/-- A call that is blocked in `sem.acquire()` without a token has its payload in the machine. -/
def NoOrphan (s : System κ π ρ δ) : Prop :=
  ∀ c, s.phase c = .blocked → (s.ctx.calls c).sem = 0 → s.state.msg? = some ⟨c⟩

/-- The call whose payload is in the machine is blocked without a token. -/
def StoredBlocked (s : System κ π ρ δ) : Prop :=
  ∀ c, s.state.msg? = some ⟨c⟩ → s.phase c = .blocked ∧ (s.ctx.calls c).sem = 0

/-- If the step sends a command, the command serializes and the device takes all of it. -/
def WriteSucceeds (s : System κ π ρ δ) : Step κ π ρ → Prop
  | .call _ command _ _ a =>
    s.state = .idle → a.canSend = true → SendSucceeds I command s.ctx.txbuf a.written
  | .recheck c a =>
    s.state = .idle → a.canSend = true → SendSucceeds I (s.ctx.calls c).command s.ctx.txbuf a.written
  | .handle .txReady a => ∀ msg, s.state = .sendCommand msg →
    SendSucceeds I (s.ctx.calls msg.call).command s.ctx.txbuf a.written
  | _ => True

variable {I} {s s' : System κ π ρ δ} {c : Nat} {a : Answers}

namespace System

@[simp] theorem notifyAll_blocked (phase : Nat → Phase) (c : Nat) :
    notifyAll phase c = .blocked ↔ phase c = .blocked := by
  unfold notifyAll
  split
  · rename_i h; simp [h]
  · exact Iff.rfl

/-- An event blocks no call and unblocks none, whether it notifies or not. -/
theorem notified_blocked {cond : Prop} [Decidable cond] (phase : Nat → Phase) (d : Nat) :
    (if cond then notifyAll phase else phase) d = .blocked ↔ phase d = .blocked := by
  split
  · exact notifyAll_blocked phase d
  · exact Iff.rfl

/-- Moving a call to a phase other than `blocked` leaves the blocked ones. -/
theorem blocked_of_update {phase : Nat → Phase} {p : Phase} {d : Nat} (hp : p ≠ .blocked)
    (h : Function.update phase c p d = .blocked) : d ≠ c ∧ phase d = .blocked := by
  by_cases hd : d = c
  · subst hd
    rw [Function.update_self] at h
    exact absurd h hp
  · exact ⟨hd, by rwa [Function.update_of_ne hd] at h⟩

/-- **What the gate does**: the call waits; or its payload goes to the machine, unless sending
failed. -/
theorem gate_cases (h : s.gate I c a = some s') :
    (s.state ≠ .idle ∧ s' = { s with phase := Function.update s.phase c .waiting }) ∨
      s.state = .idle ∧ s'.phase = Function.update s.phase c .blocked ∧
        (∀ d, (s'.ctx.calls d).sem = if d = c then 0 else (s.ctx.calls d).sem) ∧
        (a.canSend = false ∧ s'.state = .sendCommand ⟨c⟩ ∨
          a.canSend = true ∧ SendSucceeds I (s.ctx.calls c).command s.ctx.txbuf a.written ∧
            s'.state = .waitForResponse ⟨c⟩ ∨
          a.canSend = true ∧ ¬ SendSucceeds I (s.ctx.calls c).command s.ctx.txbuf a.written ∧
            s'.state = .idle) := by
  unfold gate at h
  split at h
  · rename_i hidle
    obtain ⟨⟨next, ctx'⟩, hprocess, rfl⟩ := Option.map_eq_some_iff.1 h
    obtain ⟨hcalls, hnext⟩ := SendCommand.start_cases hprocess
    have hself : (locals s.ctx c).calls c = { s.ctx.calls c with ec := .noError, sem := 0 } :=
      Function.update_self ..
    rw [hself] at hnext
    refine Or.inr ⟨hidle, ?_, fun d => ?_, hnext⟩
    · simp only [hcalls, hself, if_true]
    · simp only [hcalls]
      split
      · rename_i hd; subst hd; rw [hself]
      · rename_i hd
        exact congrArg Call.sem (Function.update_of_ne hd ..)
  · rename_i hidle
    cases h
    exact Or.inl ⟨hidle, rfl⟩

/-- **What a step does**, by its label. -/
inductive Stepped (I : Interfaces κ π ρ δ) (s : System κ π ρ δ) : Step κ π ρ → System κ π ρ δ → Prop where
  | call {c : Nat} {command : κ} {result : π} {response : Option ρ} {a : Answers} {s' : System κ π ρ δ} :
      s.phase c = .absent → (s.arrive c command result response).gate I c a = some s' →
      Stepped I s (.call c command result response a) s'
  | spurious {c : Nat} : s.phase c = .waiting →
      Stepped I s (.spurious c) { s with phase := Function.update s.phase c .notified }
  | recheck {c : Nat} {a : Answers} {s' : System κ π ρ δ} : s.phase c = .notified →
      s.gate I c a = some s' → Stepped I s (.recheck c a) s'
  | acquire {c : Nat} : s.phase c = .blocked → 0 < (s.ctx.calls c).sem →
      Stepped I s (.acquire c) (s.acquire c)
  | handle {event : Event} {a : Answers} {s' : System κ π ρ δ} : s.handle I event a = some s' →
      Stepped I s (.handle event a) s'

theorem step_cases {l : Step κ π ρ} (h : s.step I l = some s') : Stepped I s l s' := by
  cases l with
  | call c command result response a =>
    simp only [step] at h
    split at h
    · rename_i hc
      exact .call hc h
    · cases h
  | spurious c =>
    simp only [step] at h
    split at h
    · rename_i hc
      cases h
      exact .spurious hc
    · cases h
  | recheck c a =>
    simp only [step] at h
    split at h
    · rename_i hc
      exact .recheck hc h
    · cases h
  | acquire c =>
    simp only [step] at h
    split at h
    · rename_i hc
      cases h
      exact .acquire hc.1 hc.2
    · cases h
  | handle event a => exact .handle h

/-! ## The stored payload -/

theorem storedBlocked_gate (hs : StoredBlocked s) (hc : s.phase c ≠ .blocked)
    (h : s.gate I c a = some s') : StoredBlocked s' := by
  rcases gate_cases h with ⟨-, rfl⟩ | ⟨-, hphase, hsem, hnext⟩
  · intro d hd
    obtain ⟨hblocked, hzero⟩ := hs d hd
    have hne : d ≠ c := fun he => hc (he ▸ hblocked)
    exact ⟨by rw [← hblocked]; exact Function.update_of_ne hne .., hzero⟩
  · intro d hd
    have hdc : d = c := by
      rcases hnext with ⟨-, hst⟩ | ⟨-, -, hst⟩ | ⟨-, -, hst⟩ <;> rw [hst] at hd <;> cases hd <;> rfl
    subst hdc
    exact ⟨by rw [hphase, Function.update_self], by rw [hsem, if_pos rfl]⟩

theorem storedBlocked_arrive {command : κ} {result : π} {response : Option ρ} (hs : StoredBlocked s)
    (hc : s.phase c ≠ .blocked) : StoredBlocked (s.arrive c command result response) := by
  intro d hd
  obtain ⟨hblocked, hzero⟩ := hs d hd
  have hne : d ≠ c := fun he => hc (he ▸ hblocked)
  refine ⟨hblocked, ?_⟩
  rw [← hzero]
  exact congrArg Call.sem (Function.update_of_ne hne ..)

theorem storedBlocked_handle {event : Event} (hs : StoredBlocked s)
    (h : s.handle I event a = some s') : StoredBlocked s' := by
  obtain ⟨⟨next, ctx'⟩, hhandle, rfl⟩ := Option.map_eq_some_iff.1 h
  rcases State.handle_cases hhandle with
    ⟨rfl, hsem, -⟩ | ⟨msg, -, hst, hcalls, ⟨-, rfl⟩ | ⟨-, rfl⟩⟩ | ⟨msg, -, hst, rfl, -⟩
  · intro d hd
    obtain ⟨hblocked, hzero⟩ := hs d hd
    exact ⟨(notified_blocked s.phase d).2 hblocked, by rw [← hzero]; exact hsem d⟩
  · intro d hd
    obtain ⟨hblocked, hzero⟩ := hs d (by rw [hst]; exact hd)
    exact ⟨(notified_blocked s.phase d).2 hblocked, by rw [← hzero, ← hcalls]⟩
  · intro d hd
    cases hd
  · intro d hd
    cases hd

/-- **The payload in the machine belongs to a blocked call without a token**: every step. -/
theorem storedBlocked_step {l : Step κ π ρ} (hs : StoredBlocked s) (h : s.step I l = some s') :
    StoredBlocked s' := by
  cases step_cases h with
  | @call c command result response a _ hc h =>
    have hnot : s.phase c ≠ .blocked := by rw [hc]; decide
    exact storedBlocked_gate (storedBlocked_arrive hs hnot) hnot h
  | @spurious c hc =>
    intro d hd
    obtain ⟨hblocked, hzero⟩ := hs d hd
    have hne : d ≠ c := fun he => by rw [he, hc] at hblocked; cases hblocked
    exact ⟨by rw [← hblocked]; exact Function.update_of_ne hne .., hzero⟩
  | recheck hc h => exact storedBlocked_gate hs (by rw [hc]; decide) h
  | @acquire c hc hpos =>
    intro d hd
    obtain ⟨hblocked, hzero⟩ := hs d hd
    have hne : d ≠ c := fun he => by rw [he] at hzero; omega
    refine ⟨by rw [← hblocked]; exact Function.update_of_ne hne .., ?_⟩
    rw [← hzero]
    exact congrArg Call.sem (Function.update_of_ne hne ..)
  | handle h => exact storedBlocked_handle hs h

/-! ## Orphans -/

/-- A call that leaves the gate is orphaned exactly when its command is sent and fails. -/
theorem noOrphan_gate_iff (hn : NoOrphan s) (hc : s.phase c ≠ .blocked) (h : s.gate I c a = some s') :
    NoOrphan s' ↔ (s.state = .idle → a.canSend = true →
      SendSucceeds I (s.ctx.calls c).command s.ctx.txbuf a.written) := by
  rcases gate_cases h with ⟨hbusy, rfl⟩ | ⟨hidle, hphase, hsem, hnext⟩
  · refine iff_of_true (fun d hd hzero => ?_) fun hidle => absurd hidle hbusy
    exact hn d (blocked_of_update (by decide) hd).2 hzero
  · have hblocked : s'.phase c = .blocked := by rw [hphase, Function.update_self]
    have hzero : (s'.ctx.calls c).sem = 0 := by rw [hsem, if_pos rfl]
    -- the machine was idle, so no other call is blocked without a token
    have hother : ∀ d, s'.phase d = .blocked → (s'.ctx.calls d).sem = 0 → d = c := by
      intro d hd hd0
      by_contra hne
      rw [hphase, Function.update_of_ne hne] at hd
      rw [hsem, if_neg hne] at hd0
      have := hn d hd hd0
      rw [hidle] at this
      cases this
    constructor
    · intro hn' _ hcan
      have hmsg := hn' c hblocked hzero
      rcases hnext with ⟨hcan', -⟩ | ⟨-, hsend, -⟩ | ⟨-, -, hst⟩
      · rw [hcan] at hcan'; cases hcan'
      · exact hsend
      · rw [hst] at hmsg; cases hmsg
    · intro hsend d hd hd0
      obtain rfl := hother d hd hd0
      rcases hnext with ⟨-, hst⟩ | ⟨-, -, hst⟩ | ⟨hcan, hfail, -⟩
      · rw [hst]; rfl
      · rw [hst]; rfl
      · exact absurd (hsend hidle hcan) hfail

theorem noOrphan_arrive {command : κ} {result : π} {response : Option ρ} (hn : NoOrphan s)
    (hc : s.phase c ≠ .blocked) : NoOrphan (s.arrive c command result response) := by
  intro d hd hzero
  have hne : d ≠ c := fun he => hc (he ▸ hd)
  refine hn d hd ?_
  rw [← hzero]
  exact congrArg Call.sem (Function.update_of_ne hne ..).symm

/-- An event orphans the pending call exactly when it makes the machine send and that fails. -/
theorem noOrphan_handle_iff {event : Event} (hs : StoredBlocked s) (hn : NoOrphan s)
    (h : s.handle I event a = some s') : NoOrphan s' ↔ WriteSucceeds I s (.handle event a) := by
  obtain ⟨⟨next, ctx'⟩, hhandle, rfl⟩ := Option.map_eq_some_iff.1 h
  rcases State.handle_cases hhandle with
    ⟨rfl, hsem, hnosend⟩ | ⟨msg, rfl, hst, hcalls, hnext⟩ | ⟨msg, rfl, hst, rfl, hsem, hother⟩
  · refine iff_of_true (fun d hd hzero => ?_) ?_
    · exact hn d ((notified_blocked s.phase d).1 hd) (by rw [← hsem d]; exact hzero)
    · cases event with
      | txReady => exact fun msg hst => absurd ⟨rfl, msg, hst⟩ hnosend
      | rxReady => trivial
      | shutDown => trivial
  · have hG : WriteSucceeds I s (.handle .txReady a) ↔
        SendSucceeds I (s.ctx.calls msg.call).command s.ctx.txbuf a.written := by
      constructor
      · exact fun h => h msg hst
      · intro h msg' hst'
        rw [hst] at hst'
        cases hst'
        exact h
    rw [hG]
    rcases hnext with ⟨hsend, rfl⟩ | ⟨hfail, rfl⟩
    · refine iff_of_true (fun d hd hzero => ?_) hsend
      have := hn d ((notified_blocked s.phase d).1 hd) (by rw [← hcalls]; exact hzero)
      rw [hst] at this
      exact this
    · refine iff_of_false (fun hn' => ?_) hfail
      obtain ⟨hblocked, hzero⟩ := hs msg.call (by rw [hst]; rfl)
      have := hn' msg.call ((notified_blocked s.phase msg.call).2 hblocked) (by rw [← hzero, ← hcalls])
      cases this
  · refine iff_of_true (fun d hd hzero => ?_) trivial
    have hne : d ≠ msg.call := by
      rintro rfl
      rw [show (ctx'.calls msg.call).sem = _ from hsem] at hzero
      omega
    have := hn d ((notified_blocked s.phase d).1 hd) (by rw [← hother d hne]; exact hzero)
    rw [hst] at this
    cases this
    exact absurd rfl hne

/-- **One step** orphans no call exactly when what it sends is sent successfully. -/
theorem noOrphan_step_iff {l : Step κ π ρ} (hs : StoredBlocked s) (hn : NoOrphan s)
    (h : s.step I l = some s') : NoOrphan s' ↔ WriteSucceeds I s l := by
  cases step_cases h with
  | @call c command result response a _ hc h =>
    have hnot : s.phase c ≠ .blocked := by rw [hc]; decide
    rw [noOrphan_gate_iff (noOrphan_arrive hn hnot) hnot h]
    show (s.state = .idle → a.canSend = true →
      SendSucceeds I (Function.update s.ctx.calls c _ c).command s.ctx.txbuf a.written) ↔ _
    rw [Function.update_self]
    exact Iff.rfl
  | spurious hc =>
    exact iff_of_true (fun d hd hzero => hn d (blocked_of_update (by decide) hd).2 hzero) trivial
  | recheck hc h => exact noOrphan_gate_iff hn (by rw [hc]; decide) h
  | acquire hc hpos =>
    refine iff_of_true (fun d hd hzero => ?_) trivial
    obtain ⟨hne, hblocked⟩ := blocked_of_update (by simp) hd
    refine hn d hblocked ?_
    rw [← hzero]
    exact congrArg Call.sem (Function.update_of_ne hne ..).symm
  | handle h => exact noOrphan_handle_iff hs hn h

end System

/-! ## Runs -/

/-- In every reachable state the payload in the machine belongs to a blocked call without a
token. -/
theorem stored_blocked {ctx : Context κ π ρ δ} {ls : List (Step κ π ρ)} {t : System κ π ρ δ}
    (hrun : run (System.step I) ls (System.init ctx) = some t) : StoredBlocked t :=
  run_inv (fun _ _ _ hs h => System.storedBlocked_step hs h) ls (System.init ctx) t
    (fun _ h => by cases h) hrun

/-- **No caller is orphaned** along a run of any number of calls and events exactly when every
command sent in it serializes and is written in full. -/
theorem no_orphan_iff {ctx : Context κ π ρ δ} {ls : List (Step κ π ρ)} {t : System κ π ρ δ}
    (hrun : run (System.step I) ls (System.init ctx) = some t) :
    (∀ pre, pre <+: ls → ∀ u, run (System.step I) pre (System.init ctx) = some u → NoOrphan u) ↔
      Guarded (System.step I) (WriteSucceeds I) ls (System.init ctx) :=
  forall_iff_guarded (fun _ _ _ hs h => System.storedBlocked_step hs h)
    (fun _ _ _ hs hn h => System.noOrphan_step_iff hs hn h) ls (System.init ctx) t
    (fun _ h => by cases h) (fun _ h => by cases h) hrun

end System

/-- A call that is sent at once and completed by `+R:1` and `OK`. -/
def completedRun : List (Step PacketCommand (ResponsePack.Variant (FinalResultCode cmsCode cmeCode []))
    intResponse.Obj) :=
  [.call 0 ⟨text "AT+R?", Constants.Cr, []⟩ none (some intResponse.init) ⟨true, 6, []⟩,
    .handle .rxReady ⟨true, 0, text "+R:1\r\nOK\r\n"⟩, .acquire 0]

theorem completedRun_ends :
    ∃ t, run (System.step intInterfaces) completedRun (System.init intContext) = some t := by
  have hsome : (run (System.step intInterfaces) completedRun (System.init intContext)).isSome = true := by
    decide +kernel
  exact Option.isSome_iff_exists.1 hsome

theorem no_orphan_iff_completedRun :
    (∀ pre, pre <+: completedRun → ∀ u,
        run (System.step intInterfaces) pre (System.init intContext) = some u → NoOrphan u) ↔
      Guarded (System.step intInterfaces) (WriteSucceeds intInterfaces) completedRun
        (System.init intContext) := by
  obtain ⟨t, hrun⟩ := completedRun_ends
  exact no_orphan_iff hrun

/-- Two calls at once: call 1 waits until the reply to call 0 is there. -/
def servedRun : List (Step PacketCommand (ResponsePack.Variant (FinalResultCode cmsCode cmeCode []))
    intResponse.Obj) :=
  [.call 0 ⟨text "AT+R?", Constants.Cr, []⟩ none (some intResponse.init) ⟨true, 6, []⟩,
    .call 1 ⟨text "AT+X=", Constants.Cr, [.int 7]⟩ none none ⟨true, 7, []⟩,
    .handle .rxReady ⟨true, 0, text "+R:1\r\nOK\r\n"⟩, .recheck 1 ⟨true, 7, []⟩, .acquire 0,
    .handle .rxReady ⟨true, 0, text "OK\r\n"⟩, .acquire 1]

theorem servedRun_ends : ∃ t, run (System.step intInterfaces) servedRun (System.init intContext) =
    some t ∧ t.phase 1 = .returned .noError := by
  have hphase : (run (System.step intInterfaces) servedRun (System.init intContext)).map
      (·.phase 1) = some (.returned .noError) := by decide +kernel
  obtain ⟨t, ht, h1⟩ := Option.map_eq_some_iff.1 hphase
  exact ⟨t, ht, h1⟩

/-- The device takes five of the six characters of `AT+R?`: the machine is idle again, and the
caller is blocked without a token. -/
theorem short_write_orphans :
    ∃ t, run (System.step intInterfaces)
        [.call 0 ⟨text "AT+R?", Constants.Cr, []⟩ none (some intResponse.init) ⟨true, 5, []⟩]
        (System.init intContext) = some t ∧ t.state = .idle ∧ ¬ NoOrphan t := by
  have hrun : (run (System.step intInterfaces)
      [.call 0 ⟨text "AT+R?", Constants.Cr, []⟩ none (some intResponse.init) ⟨true, 5, []⟩]
      (System.init intContext)).map (fun t => (t.state, t.phase 0, (t.ctx.calls 0).sem)) =
      some (.idle, .blocked, 0) := by decide +kernel
  obtain ⟨t, ht, hpair⟩ := Option.map_eq_some_iff.1 hrun
  simp only [Prod.mk.injEq] at hpair
  refine ⟨t, ht, hpair.1, fun hn => ?_⟩
  have hmsg := hn 0 hpair.2.1 hpair.2.2
  rw [hpair.1] at hmsg
  cases hmsg

end ATLink
