import ATLink.Receive
import Mathlib.Logic.Function.Basic

/-!
# The state machine

Reference model of `core/fsm`: the states `Idle`, `SendCommand` and `WaitForResponse`, and the
`Context` they act on, as `Orchestrator` implements it.

* `Call` — the arguments and locals of one call of `sendCommand` that the pointers of
  `Command::SendCommand` lead to; `Payload` names the call.
* `Answers` — what `canSend`, `deviceIO.write` and `deviceIO.read` answer in a step.
* `Context` — the buffers, the dispatcher, the calls, and the history of writes and completions.
* `Idle.process`, `SendCommand.start`, `handle` — the transitions.  `none` is an exception or a
  failed `assert`.

Principal results: `State.handled`, `handle_cases` and `start_cases` — everything a transition can do.
-/

namespace ATLink

inductive ErrorCode where
  | noError
  | deviceBusy
  | internalError
  deriving DecidableEq

inductive Event where
  | txReady
  | rxReady
  | shutDown
  deriving DecidableEq

/-- The virtual functions behind `Command`, `AResponsePack`, `Response` and `AUrcDispatcher`. -/
structure Interfaces (κ π ρ δ : Type) extends Virtuals π ρ δ where
  acceptCommand : κ → Serializer → Option (Bool × Serializer)

/-- Arguments and locals of a call of `sendCommand`. -/
structure Call (κ π ρ : Type) where
  command : κ
  result : π
  response : Option ρ
  ec : ErrorCode
  sem : Nat

/-- `Command::SendCommand`; its pointers all lead to the same call. -/
structure Payload where
  call : Nat
  deriving DecidableEq

/-- `State::Variant`. -/
inductive State where
  | idle
  | sendCommand (msg : Payload)
  | waitForResponse (msg : Payload)
  deriving DecidableEq

/-- The payload stored in the state. -/
def State.msg? : State → Option Payload
  | .idle => none
  | .sendCommand msg => some msg
  | .waitForResponse msg => some msg

/-- A call of `deviceIO.write` for a command, or the completion of a command. -/
inductive Action where
  | write (call : Nat) (bytes : Text) (success : Bool)
  | completed (call : Nat)
  deriving DecidableEq

/-- What the timer and the device answer. -/
structure Answers where
  canSend : Bool
  written : Nat
  bytes : Text

structure Context (κ π ρ δ : Type) where
  rx : RxBuffer
  urcs : δ
  txbuf : Text
  calls : Nat → Call κ π ρ
  actions : List Action

section Fsm

variable {κ π ρ δ : Type} (I : Interfaces κ π ρ δ)

/-! ## The operations of the context -/

/-- `ctx->send(*msg.command)`. -/
def Context.send (ctx : Context κ π ρ δ) (msg : Payload) (a : Answers) :
    Option (Bool × Context κ π ρ δ) :=
  (ATLink.send (I.acceptCommand (ctx.calls msg.call).command) ctx.txbuf a.written).map fun sent =>
    (sent.success, { ctx with
      txbuf := sent.txbuf,
      actions := ctx.actions ++ sent.writes.map fun bytes => .write msg.call bytes sent.success })

/-- `ctx->receive(*msg.result, msg.response)`. -/
def Context.receive (ctx : Context κ π ρ δ) (msg : Payload) (a : Answers) :
    Option (Bool × Context κ π ρ δ) :=
  let call := ctx.calls msg.call
  match ATLink.receive I.toVirtuals ctx.rx a.bytes call.result call.response ctx.urcs with
  | some (.ok r) => some (r.success, { ctx with
      rx := r.rx, urcs := r.loop.urcs,
      calls := Function.update ctx.calls msg.call
        { call with result := r.loop.frc, response := r.loop.res } })
  | _ => none

/-- `ctx->dispatchUrcs()`. -/
def Context.dispatchUrcs (ctx : Context κ π ρ δ) (a : Answers) : Option (Context κ π ρ δ) :=
  (ATLink.dispatchUrcs I.toVirtuals ctx.rx a.bytes ctx.urcs).map fun r =>
    { ctx with rx := r.1, urcs := r.2.1 }

/-- `msg.sem->release()`. -/
def Context.release (ctx : Context κ π ρ δ) (msg : Payload) : Context κ π ρ δ :=
  { ctx with
    calls := Function.update ctx.calls msg.call
      { ctx.calls msg.call with sem := (ctx.calls msg.call).sem + 1 }
    actions := ctx.actions ++ [.completed msg.call] }

/-! ## The states -/

/-- `SendCommand::start`. -/
def SendCommand.start (ctx : Context κ π ρ δ) (msg : Payload) (a : Answers) :
    Option (State × Context κ π ρ δ) :=
  if a.canSend then
    (ctx.send I msg a).map fun r => (if r.1 then .waitForResponse msg else .idle, r.2)
  else some (.sendCommand msg, ctx)

/-- `Idle::process`. -/
def Idle.process (ctx : Context κ π ρ δ) (cmd : Payload) (a : Answers) :
    Option (State × Context κ π ρ δ) := SendCommand.start I ctx cmd a

/-- `Idle::handle`. -/
def Idle.handle (ctx : Context κ π ρ δ) (event : Event) (a : Answers) :
    Option (State × Context κ π ρ δ) :=
  match event with
  | .rxReady => (ctx.dispatchUrcs I a).map fun ctx => (.idle, ctx)
  | .txReady => some (.idle, ctx)
  | .shutDown => some (.idle, ctx)

/-- `SendCommand::handle`. -/
def SendCommand.handle (ctx : Context κ π ρ δ) (msg : Payload) (event : Event) (a : Answers) :
    Option (State × Context κ π ρ δ) :=
  match event with
  | .rxReady => (ctx.dispatchUrcs I a).map fun ctx => (.sendCommand msg, ctx)
  | .txReady => (ctx.send I msg a).map fun r => (if r.1 then .waitForResponse msg else .idle, r.2)
  | .shutDown => some (.sendCommand msg, ctx)

/-- `WaitForResponse::handle`. -/
def WaitForResponse.handle (ctx : Context κ π ρ δ) (msg : Payload) (event : Event) (a : Answers) :
    Option (State × Context κ π ρ δ) :=
  match event with
  | .rxReady => (ctx.receive I msg a).map fun r =>
      if r.1 then (.idle, r.2.release msg) else (.waitForResponse msg, r.2)
  | .txReady => some (.waitForResponse msg, ctx)
  | .shutDown => some (.waitForResponse msg, ctx)

/-- The dispatch on the state in `Orchestrator::handle`. -/
def State.handle (state : State) (ctx : Context κ π ρ δ) (event : Event) (a : Answers) :
    Option (State × Context κ π ρ δ) :=
  match state with
  | .idle => Idle.handle I ctx event a
  | .sendCommand msg => SendCommand.handle I ctx msg event a
  | .waitForResponse msg => WaitForResponse.handle I ctx msg event a

variable {I} {ctx ctx' : Context κ π ρ δ} {msg : Payload} {a : Answers}

/-! ## What a transition can do -/

/-- `receive` returns: the buffer, the dispatcher and the objects of the command are replaced. -/
theorem Context.receive_iff {success : Bool} :
    ctx.receive I msg a = some (success, ctx') ↔ ∃ r,
      ATLink.receive I.toVirtuals ctx.rx a.bytes (ctx.calls msg.call).result
          (ctx.calls msg.call).response ctx.urcs = some (.ok r) ∧ success = r.success ∧
        ctx' = { ctx with
          rx := r.rx, urcs := r.loop.urcs,
          calls := Function.update ctx.calls msg.call
            { ctx.calls msg.call with result := r.loop.frc, response := r.loop.res } } := by
  unfold Context.receive
  constructor
  · intro h
    simp only at h
    split at h
    · rename_i r hr
      cases h
      exact ⟨r, hr, rfl, rfl⟩
    · cases h
  · rintro ⟨r, hr, rfl, rfl⟩
    simp only [hr]

variable (I) in
/-- The command serializes into the buffer, and the device reports as many characters as were
serialized. -/
def SendSucceeds (command : κ) (txbuf : Text) (written : Nat) : Prop :=
  ∃ serializer, I.acceptCommand command (Serializer.init txbuf) = some (true, serializer) ∧
    written = serializer.written

/-- Sending changes no call, and reports success exactly when it has it. -/
theorem Context.send_cases {success : Bool} (h : ctx.send I msg a = some (success, ctx')) :
    ctx'.calls = ctx.calls ∧ (success = true ↔
      SendSucceeds I (ctx.calls msg.call).command ctx.txbuf a.written) := by
  obtain ⟨sent, hsent, hpair⟩ := Option.map_eq_some_iff.1 h
  cases hpair
  refine ⟨rfl, ?_⟩
  unfold ATLink.send at hsent
  unfold SendSucceeds
  split at hsent
  · cases hsent
  · rename_i serializer haccept
    cases hsent
    simp only [beq_iff_eq]
    constructor
    · exact fun hlen => ⟨serializer, haccept, hlen⟩
    · rintro ⟨serializer', haccept', hlen⟩
      rw [haccept] at haccept'
      cases haccept'
      exact hlen
  · rename_i serializer haccept
    cases hsent
    refine ⟨fun hfalse => (by cases hfalse), ?_⟩
    rintro ⟨serializer', haccept', -⟩
    rw [haccept] at haccept'
    cases haccept'

/-- Starting a command: it waits for the timer, or is sent, or the machine stays idle. -/
theorem SendCommand.start_cases {next : State} (h : SendCommand.start I ctx msg a = some (next, ctx')) :
    ctx'.calls = ctx.calls ∧
      (a.canSend = false ∧ next = .sendCommand msg ∨
        a.canSend = true ∧ SendSucceeds I (ctx.calls msg.call).command ctx.txbuf a.written ∧
          next = .waitForResponse msg ∨
        a.canSend = true ∧ ¬ SendSucceeds I (ctx.calls msg.call).command ctx.txbuf a.written ∧
          next = .idle) := by
  unfold SendCommand.start at h
  split at h
  · rename_i hcan
    obtain ⟨⟨success, ctx1⟩, hsend, hpair⟩ := Option.map_eq_some_iff.1 h
    cases hpair
    obtain ⟨hcalls, hsuccess⟩ := Context.send_cases hsend
    refine ⟨hcalls, Or.inr ?_⟩
    cases success with
    | true => exact Or.inl ⟨hcan, hsuccess.1 rfl, rfl⟩
    | false => exact Or.inr ⟨hcan, fun h => (by cases hsuccess.2 h), rfl⟩
  · rename_i hcan
    cases h
    exact ⟨rfl, Or.inl ⟨by simpa using hcan, rfl⟩⟩

/-- **What handling an event does**, by what it calls. -/
inductive Handled (I : Interfaces κ π ρ δ) (ctx : Context κ π ρ δ) (a : Answers) :
    State → Event → State → Context κ π ρ δ → Prop where
  | ignored {state : State} {event : Event} : event ≠ .rxReady →
      ¬ (event = .txReady ∧ ∃ msg, state = .sendCommand msg) → Handled I ctx a state event state ctx
  | dispatched {state : State} {ctx' : Context κ π ρ δ} : (∀ msg, state ≠ .waitForResponse msg) →
      ctx.dispatchUrcs I a = some ctx' → Handled I ctx a state .rxReady state ctx'
  | sent {msg : Payload} {success : Bool} {ctx' : Context κ π ρ δ} :
      ctx.send I msg a = some (success, ctx') → Handled I ctx a (.sendCommand msg) .txReady
        (if success then .waitForResponse msg else .idle) ctx'
  | incomplete {msg : Payload} {ctx' : Context κ π ρ δ} : ctx.receive I msg a = some (false, ctx') →
      Handled I ctx a (.waitForResponse msg) .rxReady (.waitForResponse msg) ctx'
  | completed {msg : Payload} {ctx' : Context κ π ρ δ} : ctx.receive I msg a = some (true, ctx') →
      Handled I ctx a (.waitForResponse msg) .rxReady .idle (ctx'.release msg)

theorem State.handled {state next : State} {event : Event}
    (h : state.handle I ctx event a = some (next, ctx')) :
    Handled I ctx a state event next ctx' := by
  cases state with
  | idle =>
    cases event with
    | rxReady =>
      obtain ⟨ctx1, hd, hpair⟩ := Option.map_eq_some_iff.1 h
      cases hpair
      exact .dispatched (fun _ he => by cases he) hd
    | txReady => cases h; exact .ignored (by decide) fun ⟨_, _, he⟩ => by cases he
    | shutDown => cases h; exact .ignored (by decide) fun ⟨he, _⟩ => by cases he
  | sendCommand msg =>
    cases event with
    | rxReady =>
      obtain ⟨ctx1, hd, hpair⟩ := Option.map_eq_some_iff.1 h
      cases hpair
      exact .dispatched (fun _ he => by cases he) hd
    | txReady =>
      obtain ⟨⟨success, ctx1⟩, hsend, hpair⟩ := Option.map_eq_some_iff.1 h
      cases hpair
      exact .sent hsend
    | shutDown => cases h; exact .ignored (by decide) fun ⟨he, _⟩ => by cases he
  | waitForResponse msg =>
    cases event with
    | rxReady =>
      obtain ⟨⟨success, ctx1⟩, hreceive, hpair⟩ := Option.map_eq_some_iff.1 h
      cases success with
      | true => cases hpair; exact .completed hreceive
      | false => cases hpair; exact .incomplete hreceive
    | txReady => cases h; exact .ignored (by decide) fun ⟨_, _, he⟩ => by cases he
    | shutDown => cases h; exact .ignored (by decide) fun ⟨he, _⟩ => by cases he

theorem Context.dispatchUrcs_calls (h : ctx.dispatchUrcs I a = some ctx') :
    ctx'.calls = ctx.calls := by
  obtain ⟨r, -, rfl⟩ := Option.map_eq_some_iff.1 h
  rfl

/-- `receive` touches no semaphore. -/
theorem Context.receive_sem {success : Bool} (h : ctx.receive I msg a = some (success, ctx')) (c : Nat) :
    (ctx'.calls c).sem = (ctx.calls c).sem := by
  obtain ⟨r, -, -, rfl⟩ := Context.receive_iff.1 h
  by_cases hc : c = msg.call
  · subst hc
    simp only [Function.update_self]
  · simp only [Function.update_of_ne hc]

/-- Handling an event: the state stays and no semaphore is touched; or the command is sent, or
fails to be, when the timer expires; or a complete reply releases its semaphore. -/
theorem State.handle_cases {state next : State} {event : Event}
    (h : state.handle I ctx event a = some (next, ctx')) :
    (next = state ∧ (∀ c, (ctx'.calls c).sem = (ctx.calls c).sem) ∧
        ¬ (event = .txReady ∧ ∃ msg, state = .sendCommand msg)) ∨
      (∃ msg, event = .txReady ∧ state = .sendCommand msg ∧ ctx'.calls = ctx.calls ∧
        (SendSucceeds I (ctx.calls msg.call).command ctx.txbuf a.written ∧
            next = .waitForResponse msg ∨
          ¬ SendSucceeds I (ctx.calls msg.call).command ctx.txbuf a.written ∧ next = .idle)) ∨
      ∃ msg, event = .rxReady ∧ state = .waitForResponse msg ∧ next = .idle ∧
        (ctx'.calls msg.call).sem = (ctx.calls msg.call).sem + 1 ∧
        ∀ c, c ≠ msg.call → (ctx'.calls c).sem = (ctx.calls c).sem := by
  cases State.handled h with
  | ignored _ hnosend => exact Or.inl ⟨rfl, fun _ => rfl, hnosend⟩
  | dispatched _ hd =>
    exact Or.inl ⟨rfl, fun c => by rw [Context.dispatchUrcs_calls hd], fun he => by cases he.1⟩
  | @sent msg success _ hsend =>
    obtain ⟨hcalls, hsuccess⟩ := Context.send_cases hsend
    refine Or.inr (Or.inl ⟨msg, rfl, rfl, hcalls, ?_⟩)
    cases success with
    | true => exact Or.inl ⟨hsuccess.1 rfl, rfl⟩
    | false => exact Or.inr ⟨fun h => (by cases hsuccess.2 h), rfl⟩
  | incomplete hreceive =>
    exact Or.inl ⟨rfl, Context.receive_sem hreceive, fun he => by cases he.1⟩
  | @completed msg ctx1 hreceive =>
    refine Or.inr (Or.inr ⟨msg, rfl, rfl, rfl, ?_, fun c hc => ?_⟩)
    · simp only [Context.release, Function.update_self, Context.receive_sem hreceive]
    · simp only [Context.release, Function.update_of_ne hc, Context.receive_sem hreceive]

end Fsm

end ATLink
