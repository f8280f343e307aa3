import ATLink.System

/-!
# Half duplex

What is written to the device, and when, along a run of any number of callers.

* `Emits` — the writes and completions of one transition of the machine.
* `lineStep` — the line as the device sees it: free, or held by the command whose reply is
  awaited; a write is taken only where it is free.
* `Writes` — how often the command of a call has been written.

Principal results: `line_held` — in every reachable state the actions so far are a run of the
line, held by the command that the machine waits for; `half_duplex` — each call writes at most
once, and between a successful write and the completion of its command nothing is written.
-/

namespace ATLink

open LabelledRun

/-! ## The actions of a transition -/

/-- What the machine does between two states. -/
inductive Emits : State → State → List Action → Prop where
  | silent (state : State) : Emits state state []
  | unserialized (msg : Payload) : Emits (.sendCommand msg) .idle []
  | failed (msg : Payload) (bytes : Text) :
      Emits (.sendCommand msg) .idle [.write msg.call bytes false]
  | sent (msg : Payload) (bytes : Text) :
      Emits (.sendCommand msg) (.waitForResponse msg) [.write msg.call bytes true]
  | completed (msg : Payload) : Emits (.waitForResponse msg) .idle [.completed msg.call]

section Fsm

variable {κ π ρ δ : Type} {I : Interfaces κ π ρ δ} {ctx ctx' : Context κ π ρ δ} {msg : Payload}
  {a : Answers}

/-- Sending a command emits its write, if it comes to that. -/
theorem Context.send_emits {success : Bool} (h : ctx.send I msg a = some (success, ctx')) :
    ∃ w, ctx'.actions = ctx.actions ++ w ∧
      Emits (.sendCommand msg) (if success then .waitForResponse msg else .idle) w := by
  obtain ⟨sent, hsent, hpair⟩ := Option.map_eq_some_iff.1 h
  cases hpair
  refine ⟨_, rfl, ?_⟩
  unfold ATLink.send at hsent
  split at hsent
  · cases hsent
  · rename_i serializer haccept
    cases hsent
    cases hreported : a.written == serializer.written with
    | true => exact .sent msg _
    | false => exact .failed msg _
  · cases hsent
    exact .unserialized msg

/-- Starting a command does what the state `SendCommand` does. -/
theorem SendCommand.start_emits {next : State}
    (h : SendCommand.start I ctx msg a = some (next, ctx')) :
    ∃ w, ctx'.actions = ctx.actions ++ w ∧ Emits (.sendCommand msg) next w := by
  unfold SendCommand.start at h
  split at h
  · obtain ⟨⟨success, ctx1⟩, hsend, hpair⟩ := Option.map_eq_some_iff.1 h
    cases hpair
    exact Context.send_emits hsend
  · cases h
    exact ⟨[], (List.append_nil _).symm, .silent _⟩

theorem Context.dispatchUrcs_actions (h : ctx.dispatchUrcs I a = some ctx') :
    ctx'.actions = ctx.actions := by
  obtain ⟨r, -, rfl⟩ := Option.map_eq_some_iff.1 h
  rfl

/-- **What handling an event emits.** -/
theorem State.handle_emits {state next : State} {event : Event}
    (h : state.handle I ctx event a = some (next, ctx')) :
    ∃ w, ctx'.actions = ctx.actions ++ w ∧ Emits state next w := by
  have hsilent : ∀ {state : State} {ctx' : Context κ π ρ δ}, ctx'.actions = ctx.actions →
      ∃ w, ctx'.actions = ctx.actions ++ w ∧ Emits state state w := by
    intro state ctx' hactions
    exact ⟨[], by rw [hactions, List.append_nil], .silent _⟩
  cases State.handled h with
  | ignored => exact hsilent rfl
  | dispatched _ hd => exact hsilent (Context.dispatchUrcs_actions hd)
  | sent hsend => exact Context.send_emits hsend
  | incomplete hreceive =>
    obtain ⟨r, -, -, rfl⟩ := Context.receive_iff.1 hreceive
    exact hsilent rfl
  | completed hreceive =>
    obtain ⟨r, -, -, rfl⟩ := Context.receive_iff.1 hreceive
    exact ⟨_, rfl, .completed _⟩

end Fsm

/-! ## The line -/

/-- One action on the line, held by the call whose reply is awaited; `none` where it is not
allowed. -/
def lineStep : Option Nat → Action → Option (Option Nat)
  | none, .write c _ success => some (if success then some c else none)
  | none, .completed _ => none
  | some _, .write _ _ _ => none
  | some c, .completed d => if d = c then some none else none

/-- The call whose reply the machine waits for. -/
def State.holder : State → Option Nat
  | .waitForResponse msg => some msg.call
  | .sendCommand _ => none
  | .idle => none

theorem Emits.line {state next : State} {w : List Action} (h : Emits state next w) :
    run lineStep w state.holder = some next.holder := by
  cases h with
  | silent => rfl
  | unserialized msg => rfl
  | failed msg bytes => rfl
  | sent msg bytes => rfl
  | completed msg =>
    show (if msg.call = msg.call then some none else none : Option (Option Nat)).bind some = _
    rw [if_pos rfl]
    rfl

/-- On a line that is held only a completion is allowed, so a line that is free again has seen
it. -/
theorem completed_of_run {c : Nat} {holder : Option Nat} {mid : List Action}
    (h : run lineStep mid (some c) = some holder) (hfree : holder ≠ some c) : .completed c ∈ mid := by
  cases mid with
  | nil =>
    cases h
    exact absurd rfl hfree
  | cons first mid =>
    obtain ⟨free, hstep, -⟩ := run_cons_some h
    cases first with
    | write d bytes success => cases hstep
    | completed d =>
      simp only [lineStep] at hstep
      split at hstep
      · rename_i hd
        rw [hd]
        exact List.mem_cons_self
      · cases hstep

/-- **Between a successful write and the next one lies the completion.** -/
theorem completed_between {holder : Option Nat} {pre mid post : List Action} {c d : Nat}
    {bytes bytes' : Text} {success : Bool}
    (h : run lineStep (pre ++ .write c bytes true :: (mid ++ .write d bytes' success :: post)) none =
      some holder) : .completed c ∈ mid := by
  rw [run_append] at h
  obtain ⟨before, -, h⟩ := Option.bind_eq_some_iff.1 h
  obtain ⟨held, hwrite, h⟩ := run_cons_some h
  have hheld : held = some c := by
    cases before with
    | none => cases hwrite; rfl
    | some e => cases hwrite
  rw [run_append, hheld] at h
  obtain ⟨after, hmid, h⟩ := Option.bind_eq_some_iff.1 h
  obtain ⟨held', hwrite', -⟩ := run_cons_some h
  apply completed_of_run hmid
  rintro rfl
  cases hwrite'

/-! ## Writes of a call -/

/-- A write of the command of the call. -/
def Action.isWrite (c : Nat) : Action → Bool
  | .write d _ _ => d == c
  | .completed _ => false

/-- The call has not passed the gate. -/
def Phase.arriving : Phase → Bool
  | .absent => true
  | .waiting => true
  | .notified => true
  | .blocked => false
  | .returned _ => false

/-- The writes that a state of the machine still owes a call. -/
def State.owed (state : State) (c : Nat) : Nat := if state = .sendCommand ⟨c⟩ then 1 else 0

theorem Emits.writes {state next : State} {w : List Action} (h : Emits state next w) (c : Nat) :
    w.countP (Action.isWrite c) + next.owed c ≤ state.owed c := by
  cases h with
  | silent => exact Nat.le_of_eq (Nat.zero_add _)
  | unserialized msg => exact Nat.zero_le _
  | failed msg bytes =>
    by_cases hc : msg.call = c
    · subst hc
      simp [State.owed, Action.isWrite]
    · simp [State.owed, Action.isWrite, hc]
  | sent msg bytes =>
    by_cases hc : msg.call = c
    · subst hc
      simp [State.owed, Action.isWrite]
    · simp [State.owed, Action.isWrite, hc]
  | completed msg => exact Nat.zero_le _

section System

variable {κ π ρ δ : Type} {I : Interfaces κ π ρ δ} {s s' t : System κ π ρ δ} {c : Nat} {a : Answers}

namespace System

/-- The actions so far are a run of the line, held by the call that the machine waits for. -/
def LineHeld (s : System κ π ρ δ) : Prop :=
  run lineStep s.ctx.actions none = some s.state.holder

/-- The writes of the call so far, and those it may still make. -/
def writes (s : System κ π ρ δ) (c : Nat) : Nat :=
  s.ctx.actions.countP (Action.isWrite c) + (s.phase c).arriving.toNat + s.state.owed c

/-- Actions that the machine emits between its two states keep the line. -/
theorem lineHeld_emits {w : List Action} (hs : LineHeld s) (hactions : s'.ctx.actions = s.ctx.actions ++ w)
    (hw : run lineStep w s.state.holder = some s'.state.holder) : LineHeld s' := by
  unfold LineHeld at *
  rw [hactions, run_append, hs]
  exact hw

/-- **What the gate emits**: nothing where the call has to wait, and else what `SendCommand`
does. -/
theorem gate_emits (h : s.gate I c a = some s') :
    (s.state ≠ .idle ∧ s' = { s with phase := Function.update s.phase c .waiting }) ∨
      s.state = .idle ∧ s'.phase = Function.update s.phase c .blocked ∧
        ∃ w, s'.ctx.actions = s.ctx.actions ++ w ∧ Emits (.sendCommand ⟨c⟩) s'.state w := by
  rcases gate_cases h with hbusy | ⟨hidle, hphase, -⟩
  · exact Or.inl hbusy
  · refine Or.inr ⟨hidle, hphase, ?_⟩
    unfold gate at h
    rw [if_pos hidle] at h
    obtain ⟨⟨next, ctx'⟩, hprocess, rfl⟩ := Option.map_eq_some_iff.1 h
    obtain ⟨w, hactions, hw⟩ := SendCommand.start_emits hprocess
    exact ⟨w, hactions, hw⟩

theorem handle_emits {event : Event} (h : s.handle I event a = some s') :
    (∀ d, (s'.phase d).arriving = (s.phase d).arriving) ∧
      ∃ w, s'.ctx.actions = s.ctx.actions ++ w ∧ Emits s.state s'.state w := by
  obtain ⟨⟨next, ctx'⟩, hhandle, rfl⟩ := Option.map_eq_some_iff.1 h
  refine ⟨fun d => ?_, State.handle_emits hhandle⟩
  show ((if s.state ≠ .idle ∧ next = .idle then notifyAll s.phase else s.phase) d).arriving = _
  split
  · unfold notifyAll
    split
    · rename_i hwaiting
      rw [hwaiting]
      rfl
    · rfl
  · rfl

/-! ## One step -/

theorem lineHeld_gate (hs : LineHeld s) (h : s.gate I c a = some s') : LineHeld s' := by
  rcases gate_emits h with ⟨-, rfl⟩ | ⟨hidle, -, w, hactions, hw⟩
  · exact hs
  · refine lineHeld_emits hs hactions ?_
    rw [hidle]
    exact hw.line

theorem lineHeld_step {l : Step κ π ρ} (hs : LineHeld s) (h : s.step I l = some s') : LineHeld s' := by
  cases step_cases h with
  | @call c command result response a _ hc h =>
    exact @lineHeld_gate _ _ _ _ _ (s.arrive c command result response) s' c a hs h
  | spurious hc => exact hs
  | recheck hc h => exact lineHeld_gate hs h
  | acquire hc hpos => exact hs
  | handle h =>
    obtain ⟨-, w, hactions, hw⟩ := handle_emits h
    exact lineHeld_emits hs hactions hw.line

theorem writes_gate (harriving : (s.phase c).arriving = true) (h : s.gate I c a = some s') (d : Nat) :
    s'.writes d ≤ s.writes d := by
  rcases gate_emits h with ⟨-, rfl⟩ | ⟨hidle, hphase, w, hactions, hw⟩
  · apply Nat.le_of_eq
    unfold writes
    by_cases hd : d = c
    · subst hd
      simp only [Function.update_self, harriving]
      rfl
    · simp only [Function.update_of_ne hd]
  · have hemits := hw.writes d
    unfold writes
    rw [hactions, hphase, List.countP_append]
    by_cases hd : d = c
    · -- the call passes the gate, and may write from now on through the machine only
      subst hd
      have hpassed : Phase.blocked.arriving.toNat = 0 := rfl
      simp only [Function.update_self, harriving, hpassed, Bool.toNat_true]
      simp only [State.owed, if_true] at hemits ⊢
      omega
    · have hne : ¬ State.sendCommand ⟨c⟩ = .sendCommand ⟨d⟩ := fun he => hd (by cases he; rfl)
      simp only [State.owed, if_neg hne] at hemits
      simp only [Function.update_of_ne hd, State.owed]
      omega

/-- **No step adds to the writes of a call, made and still to come.** -/
theorem writes_step {l : Step κ π ρ} (h : s.step I l = some s') (d : Nat) :
    s'.writes d ≤ s.writes d := by
  cases step_cases h with
  | @call c command result response a _ hc h =>
    have harriving : ((s.arrive c command result response).phase c).arriving = true := by
      show (s.phase c).arriving = true
      rw [hc]
      rfl
    exact writes_gate harriving h d
  | @spurious c hc =>
    apply Nat.le_of_eq
    unfold writes
    by_cases hd : d = c
    · subst hd
      simp only [Function.update_self, hc]
      rfl
    · simp only [Function.update_of_ne hd]
  | recheck hc h => exact writes_gate (by rw [hc]; rfl) h d
  | @acquire c hc hpos =>
    apply Nat.le_of_eq
    unfold writes acquire
    by_cases hd : d = c
    · subst hd
      simp only [Function.update_self, hc]
      rfl
    · simp only [Function.update_of_ne hd]
  | handle h =>
    obtain ⟨hphase, w, hactions, hw⟩ := handle_emits h
    have hemits := hw.writes d
    unfold writes
    rw [hactions, hphase, List.countP_append]
    omega

end System

/-! ## Runs -/

/-- In every reachable state the actions are a run of the line. -/
theorem line_held {ctx : Context κ π ρ δ} {ls : List (Step κ π ρ)} (hempty : ctx.actions = [])
    (hrun : run (System.step I) ls (System.init ctx) = some t) : t.LineHeld := by
  refine run_inv (fun _ _ _ hs h => System.lineHeld_step hs h) ls (System.init ctx) t ?_ hrun
  show run lineStep ctx.actions none = some none
  rw [hempty]
  rfl

theorem writes_le {ctx : Context κ π ρ δ} {ls : List (Step κ π ρ)} (hempty : ctx.actions = [])
    (hrun : run (System.step I) ls (System.init ctx) = some t) (c : Nat) : t.writes c ≤ 1 := by
  refine run_inv (P := fun s => s.writes c ≤ 1)
    (fun s l s' hs h => Nat.le_trans (System.writes_step h c) hs) ls (System.init ctx) t ?_ hrun
  show ctx.actions.countP (Action.isWrite c) + 1 + 0 ≤ 1
  rw [hempty]
  exact Nat.le_refl 1

/-- **Half duplex**: in every run each call writes its command at most once, and from a write that
succeeds to the completion of that command nothing is written. -/
theorem half_duplex {ctx : Context κ π ρ δ} {ls : List (Step κ π ρ)} (hempty : ctx.actions = [])
    (hrun : run (System.step I) ls (System.init ctx) = some t) :
    (∀ c, t.ctx.actions.countP (Action.isWrite c) ≤ 1) ∧
      ∀ pre mid post c d bytes bytes' success,
        t.ctx.actions = pre ++ .write c bytes true :: (mid ++ .write d bytes' success :: post) →
        .completed c ∈ mid := by
  refine ⟨fun c => ?_, fun pre mid post c d bytes bytes' success hactions => ?_⟩
  · have hwrites := writes_le hempty hrun c
    unfold System.writes at hwrites
    omega
  · have hline : run lineStep t.ctx.actions none = some t.state.holder := line_held hempty hrun
    rw [hactions] at hline
    exact completed_between hline

end System

/-- Both calls write, the second one behind the completion of the first. -/
theorem half_duplex_servedRun :
    ∃ t, run (System.step intInterfaces) servedRun (System.init intContext) = some t ∧
      t.phase 1 = .returned .noError ∧
      (∀ c, t.ctx.actions.countP (Action.isWrite c) ≤ 1) ∧
      ∀ pre mid post c d bytes bytes' success,
        t.ctx.actions = pre ++ .write c bytes true :: (mid ++ .write d bytes' success :: post) →
        .completed c ∈ mid := by
  obtain ⟨t, hrun, hreturned⟩ := servedRun_ends
  exact ⟨t, hrun, hreturned, half_duplex rfl hrun⟩

end ATLink
