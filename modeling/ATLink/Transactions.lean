import ATLink.CommandCodec
import ATLink.HalfDuplex
import ATLink.Lib.Simulation

/-!
# The service that the callers see

What `Orchestrator::sendCommand` is for: it serves its callers one at a time.

* `Observation` — what can be seen of a run: calls and returns, writes and completions.
* `Service` — a server with one line: a call is invoked, its command is written and completed, and
  the call returns.  The commands of other calls are not written in between.
* `Script` — the observations of one call, by its stage.
* `Standing` — the stage that a call has reached in the machine.

Principal results: `script_of_run` — the service tells of a call no more than its script;
`calls_are_served` — a run of any number of callers is one of the service, and a call that has
returned has had its own command written, once and in full; `wire_lines_iff` — the device finds the
commands in what is written when it looks for CR.
-/

namespace ATLink

open LabelledRun

/-- A call that comes in, a write or a completion, and a call that returns. -/
inductive Observation (κ : Type) where
  | invoked (c : Nat) (command : κ)
  | action (a : Action)
  | returned (c : Nat) (ec : ErrorCode)

/-- The call that an action is for. -/
def Action.call : Action → Nat
  | .write c _ _ => c
  | .completed c => c

namespace Observation

variable {κ : Type}

/-- The call that is observed. -/
def call : Observation κ → Nat
  | .invoked c _ => c
  | .action a => a.call
  | .returned c _ => c

def action? : Observation κ → Option Action
  | .action a => some a
  | _ => none

/-- The observations of one call. -/
def of (c : Nat) (obs : List (Observation κ)) : List (Observation κ) := obs.filter (·.call = c)

@[simp] theorem of_append (c : Nat) (obs obs' : List (Observation κ)) :
    of c (obs ++ obs') = of c obs ++ of c obs' := List.filter_append ..

theorem of_self {o : Observation κ} {c : Nat} (h : o.call = c) : of c [o] = [o] := by
  unfold of
  rw [List.filter_singleton, decide_eq_true h]
  rfl

theorem of_other {o : Observation κ} {c : Nat} (h : o.call ≠ c) : of c [o] = [] := by
  unfold of
  rw [List.filter_singleton, decide_eq_false h]
  rfl

end Observation

/-! ## The service -/

/-- How far the service of a call has come. -/
inductive Stage (κ : Type) where
  | absent
  | invoked (command : κ)
  | sent
  | failed
  | completed
  | returned

/-- The call that has the line, and the stages of all calls. -/
structure Service (κ : Type) where
  line : Option Nat
  stage : Nat → Stage κ

namespace Service

variable {κ : Type} {Encodes : κ → Text → Prop} {sv sv' : Service κ} {c : Nat}

def init : Service κ := ⟨none, fun _ => .absent⟩

def enter (sv : Service κ) (c : Nat) (stage : Stage κ) : Service κ :=
  { sv with stage := Function.update sv.stage c stage }

@[simp] theorem enter_self (sv : Service κ) (c : Nat) (stage : Stage κ) :
    (sv.enter c stage).stage c = stage := Function.update_self ..

theorem enter_other {d : Nat} (h : d ≠ c) (sv : Service κ) (stage : Stage κ) :
    (sv.enter c stage).stage d = sv.stage d := Function.update_of_ne h ..

open Classical in
/-- A command is written only where the line is free, and its call has the line until it is
completed. -/
noncomputable def step (Encodes : κ → Text → Prop) (sv : Service κ) : Observation κ → Option (Service κ)
  | .invoked c command =>
    match sv.stage c with
    | .absent => some (sv.enter c (.invoked command))
    | _ => none
  | .action (.write c bytes success) =>
    match sv.line, sv.stage c with
    | none, .invoked command =>
      if Encodes command bytes then
        some (if success then { sv.enter c .sent with line := some c } else sv.enter c .failed)
      else none
    | _, _ => none
  | .action (.completed c) =>
    match sv.stage c with
    | .sent => if sv.line = some c then some { sv.enter c .completed with line := none } else none
    | _ => none
  | .returned c ec =>
    match sv.stage c with
    | .completed => if ec = .noError then some (sv.enter c .returned) else none
    | _ => none

/-- **What the service does**, by what is observed of it. -/
inductive Stepped (Encodes : κ → Text → Prop) (sv : Service κ) : Observation κ → Service κ → Prop where
  | invoked {c : Nat} {command : κ} : sv.stage c = .absent →
      Stepped Encodes sv (.invoked c command) (sv.enter c (.invoked command))
  | sent {c : Nat} {command : κ} {bytes : Text} : sv.line = none → sv.stage c = .invoked command →
      Encodes command bytes →
      Stepped Encodes sv (.action (.write c bytes true)) { sv.enter c .sent with line := some c }
  | failed {c : Nat} {command : κ} {bytes : Text} : sv.line = none → sv.stage c = .invoked command →
      Encodes command bytes → Stepped Encodes sv (.action (.write c bytes false)) (sv.enter c .failed)
  | completed {c : Nat} : sv.line = some c → sv.stage c = .sent →
      Stepped Encodes sv (.action (.completed c)) { sv.enter c .completed with line := none }
  | returned {c : Nat} : sv.stage c = .completed →
      Stepped Encodes sv (.returned c .noError) (sv.enter c .returned)

theorem step_iff {o : Observation κ} : sv.step Encodes o = some sv' ↔ Stepped Encodes sv o sv' := by
  constructor
  · intro h
    cases o with
    | invoked c command =>
      simp only [step] at h
      split at h
      · rename_i hc
        cases h
        exact .invoked hc
      · cases h
    | action a =>
      cases a with
      | write c bytes success =>
        simp only [step] at h
        split at h
        · rename_i command hline hc
          split at h
          · rename_i hbytes
            cases success with
            | true => cases h; exact .sent hline hc hbytes
            | false => cases h; exact .failed hline hc hbytes
          · cases h
        · cases h
      | completed c =>
        simp only [step] at h
        split at h
        · rename_i hc
          split at h
          · rename_i hline
            cases h
            exact .completed hline hc
          · cases h
        · cases h
    | returned c ec =>
      simp only [step] at h
      split at h
      · rename_i hc
        split at h
        · rename_i hec
          cases h
          subst hec
          exact .returned hc
        · cases h
      · cases h
  · intro h
    cases h with
    | invoked hc => simp only [step, hc]
    | sent hline hc hbytes => simp only [step, hline, hc, if_pos hbytes, if_true]
    | failed hline hc hbytes => simp [step, hline, hc, if_pos hbytes]
    | completed hline hc => simp only [step, hline, hc, if_true]
    | returned hc => simp only [step, hc, if_true]

/-! ## What the service tells of a call -/

/-- The observations of a call that has come so far. -/
inductive Script (Encodes : κ → Text → Prop) (c : Nat) : Stage κ → List (Observation κ) → Prop where
  | absent : Script Encodes c .absent []
  | invoked {command : κ} : Script Encodes c (.invoked command) [.invoked c command]
  | sent {command : κ} {bytes : Text} : Encodes command bytes →
      Script Encodes c .sent [.invoked c command, .action (.write c bytes true)]
  | failed {command : κ} {bytes : Text} : Encodes command bytes →
      Script Encodes c .failed [.invoked c command, .action (.write c bytes false)]
  | completed {command : κ} {bytes : Text} : Encodes command bytes → Script Encodes c .completed
      [.invoked c command, .action (.write c bytes true), .action (.completed c)]
  | returned {command : κ} {bytes : Text} : Encodes command bytes → Script Encodes c .returned
      [.invoked c command, .action (.write c bytes true), .action (.completed c), .returned c .noError]

/-- The other calls keep their stages. -/
theorem Stepped.stage_other {o : Observation κ} (h : Stepped Encodes sv o sv') (hc : c ≠ o.call) :
    sv'.stage c = sv.stage c := by
  cases h with
  | invoked => exact enter_other hc sv _
  | sent => exact enter_other hc sv _
  | failed => exact enter_other hc sv _
  | completed => exact enter_other hc sv _
  | returned => exact enter_other hc sv _

/-- An observation continues the script of its call. -/
theorem Stepped.script {o : Observation κ} {told : List (Observation κ)} (h : Stepped Encodes sv o sv')
    (hs : Script Encodes o.call (sv.stage o.call) told) :
    Script Encodes o.call (sv'.stage o.call) (told ++ [o]) := by
  cases h with
  | invoked hc =>
    simp only [Observation.call, hc, enter_self] at hs ⊢
    cases hs
    exact .invoked
  | sent hline hc hbytes =>
    simp only [Observation.call, Action.call, hc, enter_self] at hs ⊢
    cases hs
    exact .sent hbytes
  | failed hline hc hbytes =>
    simp only [Observation.call, Action.call, hc, enter_self] at hs ⊢
    cases hs
    exact .failed hbytes
  | completed hline hc =>
    simp only [Observation.call, Action.call, hc, enter_self] at hs ⊢
    cases hs with
    | sent hbytes => exact .completed hbytes
  | returned hc =>
    simp only [Observation.call, hc, enter_self] at hs ⊢
    cases hs with
    | completed hbytes => exact .returned hbytes

/-- **The service tells of a call what its stage says, in order.** -/
theorem script_of_run {obs : List (Observation κ)} (h : run (step Encodes) obs init = some sv) (c : Nat) :
    Script Encodes c (sv.stage c) (Observation.of c obs) := by
  induction obs using List.reverseRecOn generalizing sv with
  | nil =>
    cases h
    exact .absent
  | append_singleton obs o ih =>
    obtain ⟨sv1, sv2, hobs, hstep, hlast⟩ := run_split h
    cases hlast
    have hstepped := step_iff.1 hstep
    rw [Observation.of_append]
    by_cases hc : o.call = c
    · subst hc
      rw [Observation.of_self rfl]
      exact hstepped.script (ih hobs)
    · rw [Observation.of_other hc, List.append_nil, hstepped.stage_other (Ne.symm hc)]
      exact ih hobs

end Service

/-! ## What sending does -/

section Machine

variable {κ π ρ δ : Type} (I : Interfaces κ π ρ δ)

/-- The command is serialized to the bytes, whatever the buffer held before. -/
def Encodes (command : κ) (bytes : Text) : Prop :=
  ∃ txbuf serializer, I.acceptCommand command (Serializer.init txbuf) = some (true, serializer) ∧
    bytes = serializer.output

/-- What sending the command of a call writes, by the state in which it leaves the machine. -/
inductive Sends (command : κ) (c : Nat) : State → List Action → Prop where
  | deferred : Sends command c (.sendCommand ⟨c⟩) []
  | sent {bytes : Text} : Encodes I command bytes →
      Sends command c (.waitForResponse ⟨c⟩) [.write c bytes true]
  | failed {bytes : Text} : Encodes I command bytes → Sends command c .idle [.write c bytes false]
  | unserialized : Sends command c .idle []

variable {I} {ctx ctx' : Context κ π ρ δ} {msg : Payload} {a : Answers}

theorem Context.send_sends {success : Bool} (h : ctx.send I msg a = some (success, ctx')) :
    ctx'.calls = ctx.calls ∧ ∃ w, ctx'.actions = ctx.actions ++ w ∧
      Sends I (ctx.calls msg.call).command msg.call
        (if success then .waitForResponse msg else .idle) w := by
  obtain ⟨sent, hsent, hpair⟩ := Option.map_eq_some_iff.1 h
  cases hpair
  refine ⟨rfl, _, rfl, ?_⟩
  unfold ATLink.send at hsent
  split at hsent
  · cases hsent
  · rename_i serializer haccept
    cases hsent
    have hbytes : Encodes I (ctx.calls msg.call).command serializer.output :=
      ⟨ctx.txbuf, serializer, haccept, rfl⟩
    cases hreported : a.written == serializer.written with
    | true => exact .sent hbytes
    | false => exact .failed hbytes
  · cases hsent
    exact .unserialized

theorem SendCommand.start_sends {next : State}
    (h : SendCommand.start I ctx msg a = some (next, ctx')) :
    ctx'.calls = ctx.calls ∧ ∃ w, ctx'.actions = ctx.actions ++ w ∧
      Sends I (ctx.calls msg.call).command msg.call next w := by
  unfold SendCommand.start at h
  split at h
  · obtain ⟨⟨success, ctx1⟩, hsend, hpair⟩ := Option.map_eq_some_iff.1 h
    cases hpair
    exact Context.send_sends hsend
  · cases h
    exact ⟨rfl, [], (List.append_nil _).symm, .deferred⟩

end Machine

/-! ## The machine as a service -/

section System

variable {κ π ρ δ : Type} {I : Interfaces κ π ρ δ} {s s' t : System κ π ρ δ} {c : Nat} {a : Answers}

namespace System

/-- What is observed of a step: the call that comes in, what the machine does, and the call that
returns. -/
def observed (s : System κ π ρ δ) (l : Step κ π ρ) (s' : System κ π ρ δ) : List (Observation κ) :=
  let acts := (s'.ctx.actions.drop s.ctx.actions.length).map Observation.action
  match l with
  | .call c command _ _ _ => .invoked c command :: acts
  | .acquire c => acts ++ [.returned c (s.ctx.calls c).ec]
  | _ => acts

/-- Where a call of the machine stands in its service.  A call that is blocked for good is told of
no more. -/
inductive Standing (s : System κ π ρ δ) (c : Nat) : Stage κ → Prop where
  | absent : s.phase c = .absent → Standing s c .absent
  | gated : s.phase c = .waiting ∨ s.phase c = .notified →
      Standing s c (.invoked (s.ctx.calls c).command)
  | deferred : s.phase c = .blocked → s.state = .sendCommand ⟨c⟩ → (s.ctx.calls c).ec = .noError →
      Standing s c (.invoked (s.ctx.calls c).command)
  | sent : s.phase c = .blocked → s.state = .waitForResponse ⟨c⟩ → (s.ctx.calls c).ec = .noError →
      Standing s c .sent
  | orphaned {stage : Stage κ} : s.phase c = .blocked → s.state.msg? ≠ some ⟨c⟩ →
      (s.ctx.calls c).sem = 0 → Standing s c stage
  | completed : s.phase c = .blocked → s.state.msg? ≠ some ⟨c⟩ → 0 < (s.ctx.calls c).sem →
      (s.ctx.calls c).ec = .noError → Standing s c .completed
  | returned : s.phase c = .returned .noError → Standing s c .returned

/-- What a step leaves of a call that it does not move. -/
structure Kept (s s' : System κ π ρ δ) (c : Nat) : Prop where
  phase : s'.phase c = s.phase c ∨ s.phase c = .waiting ∧ s'.phase c = .notified
  command : (s'.ctx.calls c).command = (s.ctx.calls c).command
  ec : (s'.ctx.calls c).ec = (s.ctx.calls c).ec
  sem : (s'.ctx.calls c).sem = (s.ctx.calls c).sem
  state : s'.state = s.state ∨ s.state.msg? ≠ some ⟨c⟩ ∧ s'.state.msg? ≠ some ⟨c⟩

theorem Kept.standing {stage : Stage κ} (h : Kept s s' c) (hs : Standing s c stage) :
    Standing s' c stage := by
  have hphase : s.phase c ≠ .waiting → s'.phase c = s.phase c := fun hne =>
    h.phase.resolve_right fun hwake => hne hwake.1
  have hmsg : s.state.msg? ≠ some ⟨c⟩ → s'.state.msg? ≠ some ⟨c⟩ := by
    intro hne
    rcases h.state with he | ⟨-, hne'⟩
    · rw [he]
      exact hne
    · exact hne'
  have hstate : s.state.msg? = some ⟨c⟩ → s'.state = s.state := fun he =>
    h.state.resolve_right fun hne => hne.1 he
  cases hs with
  | absent hc => exact .absent (by rw [hphase (by rw [hc]; decide), hc])
  | gated hc =>
    rw [← h.command]
    refine .gated ?_
    rcases h.phase with he | ⟨-, hnotified⟩
    · rw [he]
      exact hc
    · exact Or.inr hnotified
  | deferred hc hst hec =>
    rw [← h.command]
    refine .deferred (by rw [hphase (by rw [hc]; decide), hc]) ?_ (by rw [h.ec, hec])
    rw [hstate (by rw [hst]; rfl), hst]
  | sent hc hst hec =>
    refine .sent (by rw [hphase (by rw [hc]; decide), hc]) ?_ (by rw [h.ec, hec])
    rw [hstate (by rw [hst]; rfl), hst]
  | orphaned hc hne hsem =>
    exact .orphaned (by rw [hphase (by rw [hc]; decide), hc]) (hmsg hne) (by rw [h.sem, hsem])
  | completed hc hne hsem hec =>
    exact .completed (by rw [hphase (by rw [hc]; decide), hc]) (hmsg hne) (by rw [h.sem]; exact hsem)
      (by rw [h.ec, hec])
  | returned hc => exact .returned (by rw [hphase (by rw [hc]; decide), hc])

/-- The service stands where the machine does. -/
structure Serving (s : System κ π ρ δ) (sv : Service κ) : Prop where
  stored : StoredBlocked s
  line : sv.line = s.state.holder
  stage : ∀ c, Standing s c (sv.stage c)

/-- The step from `s` to `s'` acts, and the service does the same. -/
def Acts (I : Interfaces κ π ρ δ) (s s' : System κ π ρ δ) (sv : Service κ) : Prop :=
  ∃ w sv', s'.ctx.actions = s.ctx.actions ++ w ∧
    run (Service.step (Encodes I)) (w.map .action) sv = some sv' ∧ sv'.line = s'.state.holder ∧
    ∀ c, Standing s' c (sv'.stage c)

variable {sv : Service κ}

/-- A step in which nothing is moved. -/
theorem Acts.silent (hs : Serving s sv) (hactions : s'.ctx.actions = s.ctx.actions)
    (hstate : s'.state = s.state) (hkept : ∀ c, Kept s s' c) : Acts I s s' sv :=
  ⟨[], sv, by rw [hactions, List.append_nil], rfl, by rw [hstate, hs.line],
    fun c => (hkept c).standing (hs.stage c)⟩

/-- One action, and the stage it leads to. -/
theorem Acts.single {o : Action} {sv' : Service κ} (hactions : s'.ctx.actions = s.ctx.actions ++ [o])
    (hstep : Service.Stepped (Encodes I) sv (.action o) sv') (hline : sv'.line = s'.state.holder)
    (hself : Standing s' o.call (sv'.stage o.call)) (hother : ∀ d, d ≠ o.call → Kept s s' d)
    (hs : ∀ d, d ≠ o.call → Standing s d (sv.stage d)) : Acts I s s' sv := by
  refine ⟨[o], sv', hactions, ?_, hline, fun d => ?_⟩
  · show run (Service.step (Encodes I)) [.action o] sv = some sv'
    rw [run_cons, Service.step_iff.2 hstep]
    rfl
  · by_cases hd : d = o.call
    · rw [hd]
      exact hself
    · rw [hstep.stage_other hd]
      exact (hother d hd).standing (hs d hd)

/-- What the command of a call comes to, once it is sent. -/
theorem Sends.acts {w : List Action} (h : Sends I (s.ctx.calls c).command c s'.state w)
    (hactions : s'.ctx.actions = s.ctx.actions ++ w) (hline : sv.line = none)
    (hstage : sv.stage c = .invoked (s.ctx.calls c).command)
    (hs : ∀ d, d ≠ c → Standing s d (sv.stage d)) (hother : ∀ d, d ≠ c → Kept s s' d)
    (hphase : s'.phase c = .blocked)
    (hcommand : (s'.ctx.calls c).command = (s.ctx.calls c).command)
    (hec : (s'.ctx.calls c).ec = .noError) (hsem : (s'.ctx.calls c).sem = 0) : Acts I s s' sv := by
  generalize hnext : s'.state = next at h
  cases h with
  | deferred =>
    refine ⟨[], sv, hactions, rfl, by rw [hline, hnext]; rfl, fun d => ?_⟩
    by_cases hd : d = c
    · subst hd
      rw [hstage, ← hcommand]
      exact .deferred hphase hnext hec
    · exact (hother d hd).standing (hs d hd)
  | sent hbytes =>
    refine Acts.single hactions (.sent hline hstage hbytes) (by rw [hnext]; rfl) ?_ hother hs
    simp only [Action.call, Service.enter_self]
    exact .sent hphase hnext hec
  | failed hbytes =>
    refine Acts.single hactions (.failed hline hstage hbytes) (by rw [hnext]; exact hline) ?_ hother hs
    exact .orphaned hphase (by rw [hnext]; exact fun he => by cases he) hsem
  | unserialized =>
    refine ⟨[], sv, hactions, rfl, by rw [hline, hnext]; rfl, fun d => ?_⟩
    by_cases hd : d = c
    · subst hd
      exact .orphaned hphase (by rw [hnext]; exact fun he => by cases he) hsem
    · exact (hother d hd).standing (hs d hd)

theorem Sends.msg {command : κ} {state : State} {w : List Action} (h : Sends I command c state w)
    {d : Nat} (hd : d ≠ c) : state.msg? ≠ some ⟨d⟩ := by
  cases h with
  | deferred => exact fun he => hd (by cases he; rfl)
  | sent => exact fun he => hd (by cases he; rfl)
  | failed => exact fun he => by cases he
  | unserialized => exact fun he => by cases he

/-- **The gate serves**: the call waits, or its command is sent. -/
theorem gate_acts (hline : sv.line = s.state.holder)
    (hstage : sv.stage c = .invoked (s.ctx.calls c).command)
    (hs : ∀ d, d ≠ c → Standing s d (sv.stage d)) (h : s.gate I c a = some s') : Acts I s s' sv := by
  rcases gate_cases h with ⟨-, rfl⟩ | ⟨hidle, hphase, hsem, -⟩
  · refine ⟨[], sv, (List.append_nil _).symm, rfl, hline, fun d => ?_⟩
    by_cases hd : d = c
    · subst hd
      rw [hstage]
      exact .gated (Or.inl (Function.update_self ..))
    · exact Kept.standing ⟨Or.inl (Function.update_of_ne hd ..), rfl, rfl, rfl, Or.inl rfl⟩ (hs d hd)
  · unfold gate at h
    rw [if_pos hidle] at h
    obtain ⟨⟨next, ctx'⟩, hprocess, rfl⟩ := Option.map_eq_some_iff.1 h
    obtain ⟨hcalls, w, hactions, hsends⟩ := SendCommand.start_sends hprocess
    have hself : ctx'.calls c = { s.ctx.calls c with ec := .noError, sem := 0 } := by
      rw [hcalls]
      exact Function.update_self ..
    have hcommand : ((locals s.ctx c).calls c).command = (s.ctx.calls c).command := by
      rw [← hcalls, hself]
    rw [hcommand] at hsends
    refine Sends.acts hsends hactions (by rw [hline, hidle]; rfl) hstage hs (fun d hd => ?_)
      (by rw [hphase, Function.update_self]) (by rw [hself]) (by rw [hself]) (by rw [hself])
    have hcall : ctx'.calls d = s.ctx.calls d := by
      rw [hcalls]
      exact Function.update_of_ne hd ..
    have hfree : s.state.msg? ≠ some ⟨d⟩ := by
      rw [hidle]
      exact fun he => by cases he
    exact ⟨Or.inl (by rw [hphase]; exact Function.update_of_ne hd ..), by rw [hcall], by rw [hcall],
      by rw [hcall], Or.inr ⟨hfree, Sends.msg hsends hd⟩⟩

/-- The stage of a blocked call. -/
theorem Standing.of_blocked {stage : Stage κ} (hc : Standing s c stage) (hblocked : s.phase c = .blocked) :
    (s.state = .sendCommand ⟨c⟩ ∧ stage = .invoked (s.ctx.calls c).command ∧
        (s.ctx.calls c).ec = .noError) ∨
      (s.state = .waitForResponse ⟨c⟩ ∧ stage = .sent ∧ (s.ctx.calls c).ec = .noError) ∨
      s.state.msg? ≠ some ⟨c⟩ ∧ ((s.ctx.calls c).sem = 0 ∨
        0 < (s.ctx.calls c).sem ∧ stage = .completed ∧ (s.ctx.calls c).ec = .noError) := by
  cases hc with
  | absent hp => rw [hblocked] at hp; cases hp
  | gated hp => rw [hblocked] at hp; rcases hp with hp | hp <;> cases hp
  | deferred _ hst hec => exact Or.inl ⟨hst, rfl, hec⟩
  | sent _ hst hec => exact Or.inr (Or.inl ⟨hst, rfl, hec⟩)
  | orphaned _ hne hzero => exact Or.inr (Or.inr ⟨hne, Or.inl hzero⟩)
  | completed _ hne hpos hec => exact Or.inr (Or.inr ⟨hne, Or.inr ⟨hpos, rfl, hec⟩⟩)
  | returned hp => rw [hblocked] at hp; cases hp

/-- The call whose command waits for the timer. -/
theorem Serving.stage_sendCommand (hs : Serving s sv) (hst : s.state = .sendCommand ⟨c⟩) :
    sv.stage c = .invoked (s.ctx.calls c).command ∧ (s.ctx.calls c).ec = .noError := by
  have hmsg : s.state.msg? = some ⟨c⟩ := by rw [hst]; rfl
  rcases (hs.stage c).of_blocked (hs.stored c hmsg).1 with ⟨-, h⟩ | ⟨hst', -⟩ | ⟨hne, -⟩
  · exact h
  · rw [hst] at hst'
    cases hst'
  · exact absurd hmsg hne

/-- The call whose reply is awaited. -/
theorem Serving.stage_waitForResponse (hs : Serving s sv) (hst : s.state = .waitForResponse ⟨c⟩) :
    sv.stage c = .sent ∧ (s.ctx.calls c).ec = .noError := by
  have hmsg : s.state.msg? = some ⟨c⟩ := by rw [hst]; rfl
  rcases (hs.stage c).of_blocked (hs.stored c hmsg).1 with ⟨hst', -⟩ | ⟨-, h⟩ | ⟨hne, -⟩
  · rw [hst] at hst'
    cases hst'
  · exact h
  · exact absurd hmsg hne

/-- A call that is about to return. -/
theorem Serving.stage_released (hs : Serving s sv) (hblocked : s.phase c = .blocked)
    (hpos : 0 < (s.ctx.calls c).sem) : sv.stage c = .completed ∧ (s.ctx.calls c).ec = .noError := by
  have hmsg : s.state.msg? ≠ some ⟨c⟩ := fun he => by
    have hzero := (hs.stored c he).2
    omega
  rcases (hs.stage c).of_blocked hblocked with ⟨hst, -⟩ | ⟨hst, -⟩ | ⟨-, hzero | ⟨-, h⟩⟩
  · rw [hst] at hmsg
    exact absurd rfl hmsg
  · rw [hst] at hmsg
    exact absurd rfl hmsg
  · omega
  · exact h

/-- Whether or not an event notifies, a call keeps its phase up to being woken. -/
theorem notified_phase {P : Prop} [Decidable P] (phase : Nat → Phase) (d : Nat) :
    (if P then notifyAll phase else phase) d = phase d ∨
      phase d = .waiting ∧ (if P then notifyAll phase else phase) d = .notified := by
  split
  · unfold notifyAll
    split
    · rename_i hd
      exact Or.inr ⟨hd, rfl⟩
    · exact Or.inl rfl
  · exact Or.inl rfl

/-- **An event serves**: nothing, the command that has waited for the timer, or the reply. -/
theorem handle_acts {event : Event} (hs : Serving s sv) (h : s.handle I event a = some s') :
    Acts I s s' sv := by
  obtain ⟨⟨next, ctx'⟩, hhandle, rfl⟩ := Option.map_eq_some_iff.1 h
  have hwake := notified_phase (P := s.state ≠ .idle ∧ next = .idle) s.phase
  show Acts I s ⟨ctx', next, if s.state ≠ .idle ∧ next = .idle then notifyAll s.phase else s.phase⟩ sv
  generalize (if s.state ≠ .idle ∧ next = .idle then notifyAll s.phase else s.phase) = phase
    at hwake ⊢
  have hblock : ∀ d, s.phase d = .blocked → phase d = .blocked := fun d hd =>
    ((hwake d).resolve_right fun he => by rw [hd] at he; cases he.1).trans hd
  generalize hstate : s.state = state at hhandle
  cases State.handled hhandle with
  | ignored =>
    exact Acts.silent hs rfl hstate.symm fun d =>
      ⟨hwake d, rfl, rfl, rfl, Or.inl hstate.symm⟩
  | dispatched _ hd =>
    have hcalls := Context.dispatchUrcs_calls hd
    exact Acts.silent hs (Context.dispatchUrcs_actions hd) hstate.symm fun d =>
      ⟨hwake d, by rw [hcalls], by rw [hcalls], by rw [hcalls], Or.inl hstate.symm⟩
  | @sent msg success _ hsend =>
    obtain ⟨c⟩ := msg
    obtain ⟨hcalls, w, hactions, hsends⟩ := Context.send_sends hsend
    obtain ⟨hstage, hec⟩ := hs.stage_sendCommand hstate
    obtain ⟨hblocked, hzero⟩ := hs.stored c (by rw [hstate]; rfl)
    refine Sends.acts hsends hactions (by rw [hs.line, hstate]; rfl) hstage (fun d _ => hs.stage d)
      (fun d hd => ?_) (hblock c hblocked) (by rw [hcalls])
      (by rw [hcalls]; exact hec) (by rw [hcalls]; exact hzero)
    have hfree : s.state.msg? ≠ some ⟨d⟩ := by
      rw [hstate]
      exact fun he => hd (by cases he; rfl)
    exact ⟨hwake d, by rw [hcalls], by rw [hcalls], by rw [hcalls], Or.inr ⟨hfree, Sends.msg hsends hd⟩⟩
  | @incomplete msg _ hreceive =>
    obtain ⟨r, -, -, rfl⟩ := Context.receive_iff.1 hreceive
    refine Acts.silent hs rfl hstate.symm fun d => ⟨hwake d, ?_, ?_, ?_, Or.inl hstate.symm⟩
    all_goals
      by_cases hd : d = msg.call
      · subst hd
        simp only [Function.update_self]
      · simp only [Function.update_of_ne hd]
  | @completed msg ctx1 hreceive =>
    obtain ⟨c⟩ := msg
    obtain ⟨r, -, -, rfl⟩ := Context.receive_iff.1 hreceive
    obtain ⟨hstage, hec⟩ := hs.stage_waitForResponse hstate
    obtain ⟨hblocked, -⟩ := hs.stored c (by rw [hstate]; rfl)
    refine Acts.single rfl (.completed (by rw [hs.line, hstate]; rfl) hstage) rfl ?_ (fun d hd => ?_)
      fun d _ => hs.stage d
    · simp only [Action.call, Service.enter_self]
      refine .completed (hblock c hblocked) (fun he => by cases he) ?_ ?_
      · simp only [Context.release, Function.update_self]
        omega
      · simp only [Context.release, Function.update_self]
        exact hec
    · have hd : d ≠ c := hd
      have hfree : s.state.msg? ≠ some ⟨d⟩ := by
        rw [hstate]
        exact fun he => hd (by cases he; rfl)
      refine ⟨hwake d, ?_, ?_, ?_, Or.inr ⟨hfree, fun he => by cases he⟩⟩
      all_goals simp only [Context.release, Function.update_of_ne hd]

/-- The new actions of the step, as observations. -/
theorem Acts.observed (h : Acts I s s' sv) : ∃ sv',
    run (Service.step (Encodes I))
        ((s'.ctx.actions.drop s.ctx.actions.length).map .action) sv = some sv' ∧
      sv'.line = s'.state.holder ∧ ∀ c, Standing s' c (sv'.stage c) := by
  obtain ⟨w, sv', hactions, h⟩ := h
  rw [hactions, List.drop_left]
  exact ⟨sv', h⟩

/-- A call that comes in is told of, and passes the gate or waits. -/
theorem call_serves {command : κ} {result : π} {response : Option ρ} (hs : Serving s sv)
    (hc : s.phase c = .absent) (h : (s.arrive c command result response).gate I c a = some s') :
    ∃ sv', run (Service.step (Encodes I)) (.invoked c command ::
        (s'.ctx.actions.drop s.ctx.actions.length).map .action) sv = some sv' ∧
      sv'.line = s'.state.holder ∧ ∀ c, Standing s' c (sv'.stage c) := by
  have hstage : sv.stage c = .absent := by
    have hstanding := hs.stage c
    generalize sv.stage c = stage at hstanding
    cases hstanding with
    | absent => rfl
    | gated hp => rw [hc] at hp; rcases hp with hp | hp <;> cases hp
    | deferred hp => rw [hc] at hp; cases hp
    | sent hp => rw [hc] at hp; cases hp
    | orphaned hp => rw [hc] at hp; cases hp
    | completed hp => rw [hc] at hp; cases hp
    | returned hp => rw [hc] at hp; cases hp
  have hself : ((s.arrive c command result response).ctx.calls c).command = command := by
    unfold arrive
    simp only [Function.update_self]
  have hother : ∀ d, d ≠ c → Standing (s.arrive c command result response) d
      ((sv.enter c (.invoked command)).stage d) := by
    intro d hd
    rw [Service.enter_other hd]
    have hcall : (s.arrive c command result response).ctx.calls d = s.ctx.calls d :=
      Function.update_of_ne hd ..
    have hkept : Kept s (s.arrive c command result response) d :=
      ⟨Or.inl rfl, by rw [hcall], by rw [hcall], by rw [hcall], Or.inl rfl⟩
    exact hkept.standing (hs.stage d)
  have hinvoked : (sv.enter c (.invoked command)).stage c =
      .invoked ((s.arrive c command result response).ctx.calls c).command := by
    rw [Service.enter_self, hself]
  have hline : (sv.enter c (.invoked command)).line =
      (s.arrive c command result response).state.holder := hs.line
  obtain ⟨sv', hrun, hrest⟩ := (gate_acts hline hinvoked hother h).observed
  refine ⟨sv', ?_, hrest⟩
  rw [run_cons, Service.step_iff.2 (.invoked hstage)]
  exact hrun

variable (I) in
/-- The machine and its callers, as a service. -/
def serviceSimulation : Simulation (step I) (Service.step (Encodes I)) where
  rel := Serving
  answer := System.observed
  answered s sv l s' hs h := by
    have hstored := storedBlocked_step hs.stored h
    -- a step of a caller alone adds no action
    have hsilent : ((s.ctx.actions.drop s.ctx.actions.length).map Observation.action) =
        ([] : List (Observation κ)) := by rw [List.drop_length, List.map_nil]
    cases step_cases h with
    | @call c command result response a _ hc h =>
      obtain ⟨sv', hrun, hline, hstage⟩ := call_serves hs hc h
      exact ⟨sv', hrun, hstored, hline, hstage⟩
    | @spurious c hc =>
      refine ⟨sv, ?_, hstored, hs.line, fun d => (Kept.standing ?_ (hs.stage d))⟩
      · unfold System.observed
        simp only [hsilent]
        rfl
      · refine ⟨?_, rfl, rfl, rfl, Or.inl rfl⟩
        show Function.update s.phase c .notified d = s.phase d ∨ _ ∧ Function.update _ _ _ d = _
        by_cases hd : d = c
        · subst hd
          exact Or.inr ⟨hc, Function.update_self ..⟩
        · exact Or.inl (Function.update_of_ne hd ..)
    | @recheck c a _ hc h =>
      have hstage : sv.stage c = .invoked (s.ctx.calls c).command := by
        have hc' := hs.stage c
        generalize sv.stage c = stage at hc'
        cases hc' <;> simp_all
      obtain ⟨sv', hrun, hline, hstage'⟩ :=
        (gate_acts hs.line hstage (fun d _ => hs.stage d) h).observed
      exact ⟨sv', hrun, hstored, hline, hstage'⟩
    | @acquire c hc hpos =>
      obtain ⟨hstage, hec⟩ := hs.stage_released hc hpos
      have hstep : Service.Stepped (Encodes I) sv (.returned c .noError) (sv.enter c .returned) :=
        .returned hstage
      refine ⟨sv.enter c .returned, ?_, hstored, hs.line, fun d => ?_⟩
      · unfold System.observed acquire
        simp only [hsilent, hec, List.nil_append]
        rw [run_cons, Service.step_iff.2 hstep]
        rfl
      · by_cases hd : d = c
        · subst hd
          rw [Service.enter_self]
          refine .returned ?_
          show Function.update s.phase d (.returned (s.ctx.calls d).ec) d = _
          rw [Function.update_self, hec]
        · rw [Service.enter_other hd]
          have hcall : (s.acquire c).ctx.calls d = s.ctx.calls d := Function.update_of_ne hd ..
          exact Kept.standing ⟨Or.inl (Function.update_of_ne hd ..), by rw [hcall], by rw [hcall],
            by rw [hcall], Or.inl rfl⟩ (hs.stage d)
    | @handle event a _ h =>
      obtain ⟨sv', hrun, hline, hstage⟩ := (handle_acts hs h).observed
      exact ⟨sv', hrun, hstored, hline, hstage⟩

/-- A step adds the actions that are observed of it. -/
theorem observed_actions {l : Step κ π ρ} (h : s.step I l = some s') :
    s'.ctx.actions = s.ctx.actions ++ (System.observed s l s').filterMap Observation.action? := by
  have hacts : ∀ acts : List Action,
      (acts.map (Observation.action : Action → Observation κ)).filterMap Observation.action? = acts := by
    intro acts
    rw [List.filterMap_map]
    exact List.filterMap_some
  have hgrows : ∃ w, s'.ctx.actions = s.ctx.actions ++ w := by
    have hgate : ∀ {s s' : System κ π ρ δ} {c : Nat} {a : Answers}, s.gate I c a = some s' →
        ∃ w, s'.ctx.actions = s.ctx.actions ++ w := by
      intro s s' c a h
      rcases gate_emits h with ⟨-, rfl⟩ | ⟨-, -, w, hw, -⟩
      · exact ⟨[], (List.append_nil _).symm⟩
      · exact ⟨w, hw⟩
    cases step_cases h with
    | @call c command result response a _ _ h => exact @hgate (s.arrive c command result response) _ _ _ h
    | spurious => exact ⟨[], (List.append_nil _).symm⟩
    | recheck _ h => exact hgate h
    | acquire => exact ⟨[], (List.append_nil _).symm⟩
    | handle h =>
      obtain ⟨-, w, hw, -⟩ := handle_emits h
      exact ⟨w, hw⟩
  obtain ⟨w, hw⟩ := hgrows
  rw [hw]
  unfold System.observed
  rw [hw, List.drop_left]
  cases l with
  | call c command result response a =>
    rw [List.filterMap_cons_none rfl, hacts]
  | acquire c =>
    rw [List.filterMap_append, hacts]
    exact congrArg _ (List.append_nil w).symm
  | spurious c => rw [hacts]
  | recheck c a => rw [hacts]
  | handle event a => rw [hacts]

end System

/-- A run is answered by the service, and adds the actions that are observed of it. -/
theorem System.served {ctx : Context κ π ρ δ} {ls : List (Step κ π ρ)}
    (hrun : run (System.step I) ls (System.init ctx) = some t) :
    (∃ sv, run (Service.step (Encodes I)) (collect (System.step I) System.observed ls (System.init ctx))
        Service.init = some sv ∧ t.Serving sv) ∧
      t.ctx.actions = ctx.actions ++ (collect (System.step I) System.observed ls
        (System.init ctx)).filterMap Observation.action? := by
  have hinit : (System.init ctx).Serving Service.init :=
    ⟨fun _ h => (by cases h), rfl, fun _ => .absent rfl⟩
  refine ⟨(System.serviceSimulation I).run_answered hinit hrun, ?_⟩
  exact run_history System.observed
    (P := fun s obs => s.ctx.actions = ctx.actions ++ obs.filterMap Observation.action?)
    (fun s l s' obs hs h => by
      rw [System.observed_actions h, hs, List.filterMap_append, List.append_assoc])
    ls (System.init ctx) t [] (List.append_nil _).symm hrun

/-- **Calls are served one at a time**: a run of any number of callers is a run of the service, with
the line held by the call that the machine waits for; the actions of the machine are those that are
observed; and of a call that has returned is observed, in this order, that it came in, that its own
command was written in full, that it was completed, and that it returned without an error. -/
theorem calls_are_served {ctx : Context κ π ρ δ} {ls : List (Step κ π ρ)}
    (hrun : run (System.step I) ls (System.init ctx) = some t) :
    let obs := collect (System.step I) System.observed ls (System.init ctx)
    (∃ sv, run (Service.step (Encodes I)) obs Service.init = some sv ∧ sv.line = t.state.holder) ∧
      t.ctx.actions = ctx.actions ++ obs.filterMap Observation.action? ∧
      ∀ c ec, t.phase c = .returned ec → ec = .noError ∧ ∃ command bytes, Encodes I command bytes ∧
        Observation.of c obs = [.invoked c command, .action (.write c bytes true),
          .action (.completed c), .returned c .noError] := by
  obtain ⟨⟨sv, hsv, hserving⟩, hactions⟩ := System.served hrun
  refine ⟨⟨sv, hsv, hserving.line⟩, hactions, fun c ec hc => ?_⟩
  have hscript := Service.script_of_run hsv c
  have hstanding := hserving.stage c
  generalize sv.stage c = stage at hstanding hscript
  cases hstanding with
  | absent hp => rw [hc] at hp; cases hp
  | gated hp => rw [hc] at hp; rcases hp with hp | hp <;> cases hp
  | deferred hp => rw [hc] at hp; cases hp
  | sent hp => rw [hc] at hp; cases hp
  | orphaned hp => rw [hc] at hp; cases hp
  | completed hp => rw [hc] at hp; cases hp
  | returned hp =>
    rw [hc] at hp
    cases hp
    generalize Observation.of c (collect (System.step I) System.observed ls (System.init ctx)) = told
      at hscript ⊢
    cases hscript with
    | returned hbytes => exact ⟨rfl, _, _, hbytes, rfl⟩

end System

/-! ## Lines on the wire -/

/-- Joining texts with a terminator and splitting at it gives the texts back, with an empty one
behind, exactly when none of them holds it. -/
theorem splitOn_terminated_iff {α : Type} [DecidableEq α] (a : α) (lines : List (List α)) :
    (lines.flatMap (· ++ [a])).splitOn a = lines ++ [[]] ↔ ∀ line ∈ lines, a ∉ line := by
  have hlength : ∀ xs : List α, (xs.splitOn a).length = xs.count a + 1 := by
    intro xs
    induction xs with
    | nil => rfl
    | cons x xs ih =>
      rw [List.splitOn_cons_eq_if_modifyHead, List.count_cons]
      split
      · rw [List.length_cons, ih]
      · rw [List.length_modifyHead, ih, Nat.add_zero]
  have hcount : (lines.flatMap (· ++ [a])).count a = lines.flatten.count a + lines.length := by
    induction lines with
    | nil => rfl
    | cons line lines ih =>
      simp only [List.flatMap_cons, List.flatten_cons, List.count_append, List.count_singleton_self, ih,
        List.length_cons]
      omega
  constructor
  · intro h line hline hmem
    have hlines := congrArg List.length h
    rw [hlength, hcount, List.length_append, List.length_singleton] at hlines
    have hzero : lines.flatten.count a = 0 := by omega
    exact List.count_eq_zero.1 hzero (List.mem_flatten.2 ⟨line, hline, hmem⟩)
  · clear hcount
    intro h
    induction lines with
    | nil => rfl
    | cons line lines ih =>
      rw [List.flatMap_cons, List.append_assoc, List.singleton_append,
        List.splitOn_append_cons_self_of_not_mem (h line List.mem_cons_self),
        ih fun x hx => h x (List.mem_cons_of_mem line hx), List.cons_append]

/-- The call and the bytes of a write. -/
def Action.written? : Action → Option (Nat × Text)
  | .write c bytes _ => some (c, bytes)
  | .completed _ => none

/-- What the device is handed. -/
def wire (actions : List Action) : Text := (actions.filterMap Action.written?).flatMap (·.2)

/-- The line of a command without its terminator. -/
def PacketCommand.body (cmd : PacketCommand) : Text := cmd.tag ++ Serializer.encodeFields cmd.fields

theorem PacketCommand.encoding_eq {cmd : PacketCommand} (h : cmd.term = Constants.Cr) :
    cmd.encoding = cmd.body ++ [carriageReturn] := by
  unfold encoding Serializer.encodePacket
  rw [h]
  rfl

/-- A write that is told of a call is one of the command it came in with. -/
theorem Service.Script.of_write {κ : Type} {Encodes : κ → Text → Prop} {c : Nat} {stage : Stage κ}
    {told : List (Observation κ)} {bytes : Text} {success : Bool} (h : Script Encodes c stage told)
    (hmem : .action (.write c bytes success) ∈ told) :
    ∃ command, .invoked c command ∈ told ∧ Encodes command bytes := by
  cases h with
  | absent => cases hmem
  | invoked => simp at hmem
  | @sent command _ hbytes =>
    simp at hmem
    exact ⟨command, List.mem_cons_self, hmem.1 ▸ hbytes⟩
  | @failed command _ hbytes =>
    simp at hmem
    exact ⟨command, List.mem_cons_self, hmem.1 ▸ hbytes⟩
  | @completed command _ hbytes =>
    simp at hmem
    exact ⟨command, List.mem_cons_self, hmem.1 ▸ hbytes⟩
  | @returned command _ hbytes =>
    simp at hmem
    exact ⟨command, List.mem_cons_self, hmem.1 ▸ hbytes⟩

/-- **The commands on the wire**: in every run whose commands end with CR, the device is handed the
encodings of the commands of the calls that write, in that order and nothing else; and splitting at
CR gives these commands back exactly when none of them holds one before its end. -/
theorem wire_lines_iff {π ρ δ : Type} {I : Interfaces PacketCommand π ρ δ}
    (haccept : I.acceptCommand = PacketCommand.accept) {ctx : Context PacketCommand π ρ δ}
    (hempty : ctx.actions = []) {ls : List (Step PacketCommand π ρ)} {t : System PacketCommand π ρ δ}
    (hrun : run (System.step I) ls (System.init ctx) = some t)
    (hterm : ∀ c command, .invoked c command ∈
        collect (System.step I) System.observed ls (System.init ctx) → command.term = Constants.Cr) :
    ∃ served : List (Nat × PacketCommand),
      served.map (·.1) = (t.ctx.actions.filterMap Action.written?).map (·.1) ∧
      (∀ p ∈ served, .invoked p.1 p.2 ∈
        collect (System.step I) System.observed ls (System.init ctx)) ∧
      wire t.ctx.actions = served.flatMap (·.2.encoding) ∧
      ((wire t.ctx.actions).splitOn carriageReturn = served.map (·.2.body) ++ [[]] ↔
        ∀ p ∈ served, carriageReturn ∉ p.2.body) := by
  obtain ⟨⟨sv, hsv, -⟩, hactions⟩ := System.served hrun
  generalize collect (System.step I) System.observed ls (System.init ctx) = obs at *
  rw [hempty, List.nil_append] at hactions
  have hsent : ∀ w ∈ t.ctx.actions.filterMap Action.written?, ∃ command,
      .invoked w.1 command ∈ obs ∧ command.encoding = w.2 := by
    rintro ⟨c, bytes⟩ hw
    obtain ⟨a, ha, hwritten⟩ := List.mem_filterMap.1 hw
    cases a with
    | completed d => cases hwritten
    | write d bytes' success =>
      cases hwritten
      rw [hactions] at ha
      obtain ⟨o, ho, hact⟩ := List.mem_filterMap.1 ha
      cases o with
      | invoked => cases hact
      | returned => cases hact
      | action a =>
        cases hact
        have htold : .action (.write c bytes success) ∈ Observation.of c obs :=
          List.mem_filter.2 ⟨ho, decide_eq_true rfl⟩
        obtain ⟨command, hinvoked, txbuf, serializer, hser, hbytes⟩ :=
          (Service.script_of_run hsv c).of_write htold
        have hmem := (List.mem_filter.1 hinvoked).1
        rw [haccept] at hser
        obtain ⟨-, hout⟩ := PacketCommand.accept_output (Or.inl (hterm c command hmem)) hser
        exact ⟨command, hmem, hout.symm.trans hbytes.symm⟩
  have hinhabited : Nonempty PacketCommand := ⟨⟨[], [], []⟩⟩
  choose! command hinvoked hencoding using hsent
  have hwire : wire t.ctx.actions =
      (t.ctx.actions.filterMap Action.written?).flatMap fun w => (command w).encoding := by
    unfold wire
    exact List.flatMap_congr fun w hw => (hencoding w hw).symm
  refine ⟨(t.ctx.actions.filterMap Action.written?).map fun w => (w.1, command w), ?_, ?_, ?_, ?_⟩
  · rw [List.map_map]
    rfl
  · intro p hp
    obtain ⟨w, hw, rfl⟩ := List.mem_map.1 hp
    exact hinvoked w hw
  · rw [hwire, List.flatMap_map]
  · have hlines : wire t.ctx.actions = ((t.ctx.actions.filterMap Action.written?).map fun w =>
        (command w).body).flatMap (· ++ [carriageReturn]) := by
      rw [hwire, List.flatMap_map]
      exact List.flatMap_congr fun w hw => PacketCommand.encoding_eq (hterm _ _ (hinvoked w hw))
    rw [hlines, List.map_map]
    have hsplit := splitOn_terminated_iff carriageReturn
      ((t.ctx.actions.filterMap Action.written?).map fun w => (command w).body)
    rw [show (fun p : Nat × PacketCommand => p.2.body) ∘ (fun w => (w.1, command w)) =
      fun w => (command w).body from rfl, hsplit, List.forall_mem_map, List.forall_mem_map]

theorem calls_are_served_servedRun :
    ∃ t, run (System.step intInterfaces) servedRun (System.init intContext) = some t ∧
      t.phase 1 = .returned .noError ∧
      (let obs := collect (System.step intInterfaces) System.observed servedRun (System.init intContext)
      (∃ sv, run (Service.step (Encodes intInterfaces)) obs Service.init = some sv ∧
          sv.line = t.state.holder) ∧
        t.ctx.actions = intContext.actions ++ obs.filterMap Observation.action? ∧
        ∀ c ec, t.phase c = .returned ec → ec = .noError ∧ ∃ command bytes,
          Encodes intInterfaces command bytes ∧
          Observation.of c obs = [.invoked c command, .action (.write c bytes true),
            .action (.completed c), .returned c .noError]) := by
  obtain ⟨t, hrun, hreturned⟩ := servedRun_ends
  exact ⟨t, hrun, hreturned, calls_are_served hrun⟩

/-- `AT+R?` and `AT+X=7` are found again. -/
theorem wire_lines_iff_servedRun :
    ∃ t, run (System.step intInterfaces) servedRun (System.init intContext) = some t ∧
      ∃ served : List (Nat × PacketCommand),
        served.map (·.1) = (t.ctx.actions.filterMap Action.written?).map (·.1) ∧
        (∀ p ∈ served, .invoked p.1 p.2 ∈
          collect (System.step intInterfaces) System.observed servedRun (System.init intContext)) ∧
        wire t.ctx.actions = served.flatMap (·.2.encoding) ∧
        ((wire t.ctx.actions).splitOn carriageReturn = served.map (·.2.body) ++ [[]] ↔
          ∀ p ∈ served, carriageReturn ∉ p.2.body) := by
  obtain ⟨t, hrun, -⟩ := servedRun_ends
  have hall : (collect (System.step intInterfaces) System.observed servedRun
      (System.init intContext)).all (fun o => match o with
        | .invoked _ command => command.term == Constants.Cr
        | _ => true) = true := by decide +kernel
  exact ⟨t, hrun, wire_lines_iff rfl rfl hrun fun c command hmem =>
    beq_iff_eq.1 (List.all_eq_true.1 hall _ hmem)⟩

end ATLink
