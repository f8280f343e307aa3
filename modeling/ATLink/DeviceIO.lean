import ATLink.Driver

/-!
# The device and the line

Reference model of `platform/linux/DeviceIO.h`, and of the orchestrator attached to it: what the
modem sends goes through the tty and the calls of `read`, and what the commands write goes out
through `write`.

* `DeviceIO` — the descriptor, with what the tty holds unread and what has been written, and the
  thread of `pollLoop`.
* `DeviceIO.Step` — the modem sends, the thread polls or notifies, or the loop or a caller reads or
  writes; each call with what it returns.
* `deviceCalls` — the calls of the device that a step of the orchestrator makes.
* `Link` — the orchestrator and the device, all threads and the modem interleaved.
* `Action.Carried` — what the device has taken of a write.

Principal results: `Link.step_cases` — everything a step can do; `link_conserves` — in every run,
what the modem sends is what the parsers take, what the buffer holds and what the tty holds, in this
order and nothing else, and what goes out is what the commands write.
-/

namespace ATLink

open LabelledRun

/-! ## The device -/

/-- The thread of `pollLoop`: in front of `poll`, or with `POLLIN` to report. -/
inductive Poller where
  | polling
  | notifying
  deriving DecidableEq

/-- `fd >= 0`, the bytes that the tty holds, those that were written to it, and the thread. -/
structure DeviceIO where
  opened : Bool
  inbox : Text
  outbox : Text
  poller : Poller

namespace DeviceIO

/-- What happens at the device. -/
inductive Step where
  | arrive (bytes : Text)
  | poll
  | notifyRx
  | read (size : Nat) (bytes : Text)
  | write (s : Text) (n : Nat)

/-- `DeviceIO::read` into a span of `size` characters; `r` is what `::read` returns, `none` for -1.
`none` where it cannot return this. -/
def read (io : DeviceIO) (size : Nat) (r : Option Nat) : Option (Text × DeviceIO) :=
  if !io.opened || size == 0 then some ([], io)
  else match r with
    | none => some ([], io)
    | some r =>
      if r ≤ size ∧ r ≤ io.inbox.length then
        some (io.inbox.take r, { io with inbox := io.inbox.drop r })
      else none

/-- `DeviceIO::write`; `n` is what `::write` returns. -/
def write (io : DeviceIO) (s : Text) (n : Option Nat) : Option (Nat × DeviceIO) :=
  if !io.opened || s.isEmpty then some (0, io)
  else match n with
    | none => some (0, io)
    | some n =>
      if n ≤ s.length then some (n, { io with outbox := io.outbox ++ s.take n }) else none

/-- One round of `pollLoop` up to `notifyRx`: `poll` returns `POLLIN` while there is something to
read.  The rounds in which it times out or is interrupted change nothing. -/
def poll (io : DeviceIO) : Option DeviceIO :=
  if io.opened ∧ io.poller = .polling ∧ io.inbox ≠ [] then some { io with poller := .notifying }
  else none

/-- A step; `none` where it cannot be taken.  A call of `read` or `write` is one in which the system
call moves as many bytes as are returned. -/
def step (io : DeviceIO) : Step → Option DeviceIO
  | .arrive bytes => if io.opened then some { io with inbox := io.inbox ++ bytes } else none
  | .poll => io.poll
  | .notifyRx => if io.poller = .notifying then some { io with poller := .polling } else none
  | .read size bytes =>
    (io.read size (some bytes.length)).bind fun r => if r.1 = bytes then some r.2 else none
  | .write s n => (io.write s (some n)).bind fun r => if r.1 = n then some r.2 else none

variable {io io' : DeviceIO}

/-- **What a read does**: it takes the front of what the tty holds, no more than the span. -/
theorem read_cases {size : Nat} {r : Option Nat} {bytes : Text} (h : io.read size r = some (bytes, io')) :
    bytes.length ≤ size ∧ io.inbox = bytes ++ io'.inbox ∧ io' = { io with inbox := io'.inbox } := by
  unfold read at h
  split at h
  · cases h
    exact ⟨Nat.zero_le _, rfl, rfl⟩
  · cases r with
    | none =>
      cases h
      exact ⟨Nat.zero_le _, rfl, rfl⟩
    | some r =>
      simp only at h
      split at h
      · rename_i hle
        cases h
        refine ⟨?_, (List.take_append_drop r io.inbox).symm, rfl⟩
        rw [List.length_take]
        omega
      · cases h

/-- **What a write does**: the front of the text goes out, as much as is returned. -/
theorem write_cases {s : Text} {r : Option Nat} {n : Nat} (h : io.write s r = some (n, io')) :
    n ≤ s.length ∧ io' = { io with outbox := io.outbox ++ s.take n } := by
  have hnone : io = { io with outbox := io.outbox ++ s.take 0 } := by
    rw [List.take_zero, List.append_nil]
  unfold write at h
  split at h
  · cases h
    exact ⟨Nat.zero_le _, hnone⟩
  · cases r with
    | none =>
      cases h
      exact ⟨Nat.zero_le _, hnone⟩
    | some r =>
      simp only at h
      split at h
      · rename_i hle
        cases h
        exact ⟨hle, rfl⟩
      · cases h

/-- A call of `read` is a step whatever the system call has returned. -/
theorem step_of_read {size : Nat} {r : Option Nat} {bytes : Text}
    (h : io.read size r = some (bytes, io')) : io.step (.read size bytes) = some io' := by
  obtain ⟨hle, hinbox, hio⟩ := read_cases h
  have hread : io.read size (some bytes.length) = some (bytes, io') := by
    unfold read at h ⊢
    split at h
    · rename_i hclosed
      cases h
      exact if_pos hclosed
    · rename_i hopen
      have hlen : bytes.length ≤ io.inbox.length := by
        rw [hinbox, List.length_append]
        omega
      have htake : io.inbox.take bytes.length = bytes := by rw [hinbox, List.take_left]
      have hdrop : io.inbox.drop bytes.length = io'.inbox := by rw [hinbox, List.drop_left]
      rw [if_neg hopen]
      simp only [hle, hlen, and_self, if_true, htake, hdrop]
      rw [← hio]
  show (io.read size (some bytes.length)).bind _ = some io'
  rw [hread]
  exact if_pos rfl

/-- **What a step does**, by its label. -/
inductive Stepped (io : DeviceIO) : Step → DeviceIO → Prop where
  | arrive {bytes : Text} : io.opened = true →
      Stepped io (.arrive bytes) { io with inbox := io.inbox ++ bytes }
  | poll : io.opened = true → io.poller = .polling → io.inbox ≠ [] →
      Stepped io .poll { io with poller := .notifying }
  | notifyRx : io.poller = .notifying → Stepped io .notifyRx { io with poller := .polling }
  | read {size : Nat} {bytes rest : Text} : bytes.length ≤ size → io.inbox = bytes ++ rest →
      Stepped io (.read size bytes) { io with inbox := rest }
  | write {s : Text} {n : Nat} : n ≤ s.length →
      Stepped io (.write s n) { io with outbox := io.outbox ++ s.take n }

theorem step_cases {l : Step} (h : io.step l = some io') : Stepped io l io' := by
  cases l with
  | arrive bytes =>
    simp only [step] at h
    split at h
    · rename_i hopen
      cases h
      exact .arrive hopen
    · cases h
  | poll =>
    simp only [step, poll] at h
    split at h
    · rename_i hpoll
      cases h
      exact .poll hpoll.1 hpoll.2.1 hpoll.2.2
    · cases h
  | notifyRx =>
    simp only [step] at h
    split at h
    · rename_i hnotify
      cases h
      exact .notifyRx hnotify
    · cases h
  | read size bytes =>
    obtain ⟨⟨got, io1⟩, hread, hgot⟩ := Option.bind_eq_some_iff.1 h
    simp only at hgot
    split at hgot
    · rename_i heq
      cases hgot
      subst heq
      obtain ⟨hle, hinbox, hio⟩ := read_cases hread
      rw [hio]
      exact .read hle hinbox
    · cases hgot
  | write s n =>
    obtain ⟨⟨sent, io1⟩, hwrite, hsent⟩ := Option.bind_eq_some_iff.1 h
    simp only at hsent
    split at hsent
    · rename_i heq
      cases hsent
      subst heq
      obtain ⟨hle, rfl⟩ := write_cases hwrite
      exact .write hle
    · cases hsent

end DeviceIO

/-! ## What the orchestrator asks of it -/

/-- What the device has taken of a write; nothing goes out for a completion. -/
def Action.Carried : Action → Text → Prop
  | .write _ bytes true, sent => sent = bytes
  | .write _ bytes false, sent => sent <+: bytes ∧ sent ≠ bytes
  | .completed _, sent => sent = []

/-- The actions of a step in which the device reports `written`. -/
inductive Acted (written : Nat) : List Action → Prop where
  | nothing : Acted written []
  | completed {c : Nat} : Acted written [.completed c]
  | write {c : Nat} {bytes : Text} {success : Bool} : (success = true ↔ written = bytes.length) →
      Acted written [.write c bytes success]

section Calls

variable {κ π ρ δ : Type} {I : Interfaces κ π ρ δ} {ctx ctx' : Context κ π ρ δ} {a : Answers}

/-- The device's answer in a step. -/
def Step.answers? : Step κ π ρ → Option Answers
  | .call _ _ _ _ a => some a
  | .recheck _ a => some a
  | .handle _ a => some a
  | .spurious _ => none
  | .acquire _ => none

def Activity.answers? : Activity κ π ρ → Option Answers
  | .handle a => some a
  | .caller l => l.answers?
  | _ => none

theorem Serializer.output_length (serializer : Serializer) :
    serializer.output.length = serializer.written := by
  unfold Serializer.output Serializer.written
  rw [List.length_take]
  omega

theorem Context.send_acted {msg : Payload} {success : Bool}
    (h : ctx.send I msg a = some (success, ctx')) :
    ∃ w, ctx'.actions = ctx.actions ++ w ∧ Acted a.written w := by
  obtain ⟨sent, hsent, hpair⟩ := Option.map_eq_some_iff.1 h
  cases hpair
  refine ⟨_, rfl, ?_⟩
  unfold ATLink.send at hsent
  split at hsent
  · cases hsent
  · rename_i serializer haccept
    cases hsent
    refine .write ?_
    rw [serializer.output_length]
    exact beq_iff_eq
  · cases hsent
    exact .nothing

namespace System

variable {s s' : System κ π ρ δ} {c : Nat}

theorem gate_acted (h : s.gate I c a = some s') :
    ∃ w, s'.ctx.actions = s.ctx.actions ++ w ∧ Acted a.written w := by
  unfold gate at h
  split at h
  · obtain ⟨⟨next, ctx'⟩, hprocess, rfl⟩ := Option.map_eq_some_iff.1 h
    simp only [Idle.process, SendCommand.start] at hprocess
    split at hprocess
    · obtain ⟨⟨success, ctx1⟩, hsend, hpair⟩ := Option.map_eq_some_iff.1 hprocess
      cases hpair
      obtain ⟨w, hactions, hacted⟩ := Context.send_acted hsend
      exact ⟨w, hactions, hacted⟩
    · cases hprocess
      exact ⟨[], (List.append_nil _).symm, .nothing⟩
  · cases h
    exact ⟨[], (List.append_nil _).symm, .nothing⟩

theorem handle_acted {event : Event} (h : s.handle I event a = some s') :
    ∃ w, s'.ctx.actions = s.ctx.actions ++ w ∧ Acted a.written w := by
  obtain ⟨⟨next, ctx'⟩, hhandle, rfl⟩ := Option.map_eq_some_iff.1 h
  generalize s.state = state at hhandle
  cases State.handled hhandle with
  | ignored => exact ⟨[], (List.append_nil _).symm, .nothing⟩
  | dispatched _ hd =>
    exact ⟨[], by rw [List.append_nil]; exact Context.dispatchUrcs_actions hd, .nothing⟩
  | sent hsend => exact Context.send_acted hsend
  | incomplete hreceive =>
    obtain ⟨r, -, -, rfl⟩ := Context.receive_iff.1 hreceive
    exact ⟨[], (List.append_nil _).symm, .nothing⟩
  | completed hreceive =>
    obtain ⟨r, -, -, rfl⟩ := Context.receive_iff.1 hreceive
    exact ⟨_, rfl, .completed⟩

/-- **The actions of a step**: none, or one that fits the device's answer. -/
theorem step_acted {l : Step κ π ρ} (h : s.step I l = some s') :
    ∃ w, s'.ctx.actions = s.ctx.actions ++ w ∧
      (w = [] ∨ ∃ a, l.answers? = some a ∧ Acted a.written w) := by
  cases step_cases h with
  | @call d command result response a _ hd h =>
    obtain ⟨w, hactions, hacted⟩ := gate_acted h
    exact ⟨w, hactions, Or.inr ⟨a, rfl, hacted⟩⟩
  | spurious => exact ⟨[], (List.append_nil _).symm, Or.inl rfl⟩
  | @recheck d a _ hd h =>
    obtain ⟨w, hactions, hacted⟩ := gate_acted h
    exact ⟨w, hactions, Or.inr ⟨a, rfl, hacted⟩⟩
  | acquire => exact ⟨[], (List.append_nil _).symm, Or.inl rfl⟩
  | @handle event a _ h =>
    obtain ⟨w, hactions, hacted⟩ := handle_acted h
    exact ⟨w, hactions, Or.inr ⟨a, rfl, hacted⟩⟩

end System

namespace Orchestrator

variable {s s' t : Orchestrator κ π ρ δ} {io io' : DeviceIO}

/-- The call of `deviceIO.read` in a step. -/
def reads (s : Orchestrator κ π ρ δ) (l : Activity κ π ρ) : List DeviceIO.Step :=
  match l, s.loop with
  | .handle a, .handling .rxReady => [.read (storageSize - s.system.ctx.rx.leftover) a.bytes]
  | _, _ => []

/-- The call of `deviceIO.write`. -/
def writes (s : Orchestrator κ π ρ δ) (l : Activity κ π ρ) (s' : Orchestrator κ π ρ δ) :
    List DeviceIO.Step :=
  let acts := s'.system.ctx.actions.drop s.system.ctx.actions.length
  match l.answers? with
  | some a => (acts.filterMap Action.written?).map fun p => .write p.2 a.written
  | none => []

/-- The calls of the device in a step. -/
def deviceCalls (s : Orchestrator κ π ρ δ) (l : Activity κ π ρ) (s' : Orchestrator κ π ρ δ) :
    List DeviceIO.Step := s.reads l ++ s.writes l s'

/-- The actions of a step of the orchestrator. -/
theorem step_acted {l : Activity κ π ρ} (h : s.step I l = some s') :
    ∃ w, s'.system.ctx.actions = s.system.ctx.actions ++ w ∧
      (w = [] ∨ ∃ a, l.answers? = some a ∧ Acted a.written w) := by
  rcases system_of_step h with hsame | ⟨m, hm, ⟨ev, a, rfl, -, rfl⟩ | rfl⟩
  · exact ⟨[], by rw [hsame, List.append_nil], Or.inl rfl⟩
  · exact System.step_acted hm
  · exact System.step_acted hm

/-- **What goes out in a step** is what its actions write, and nothing else changes. -/
theorem writes_carry {l : Activity κ π ρ} {w : List Action}
    (hactions : s'.system.ctx.actions = s.system.ctx.actions ++ w)
    (hacted : w = [] ∨ ∃ a, l.answers? = some a ∧ Acted a.written w)
    (hio : run DeviceIO.step (s.writes l s') io = some io') :
    ∃ sent, List.Forall₂ Action.Carried w sent ∧
      io' = { io with outbox := io.outbox ++ sent.flatten } := by
  have hsame : io = { io with outbox := io.outbox ++ [] } := by rw [List.append_nil]
  unfold writes at hio
  rw [hactions, List.drop_left] at hio
  rcases hacted with rfl | ⟨a, ha, hacted⟩
  · refine ⟨[], .nil, ?_⟩
    cases hanswers : l.answers? with
    | none => rw [hanswers] at hio; cases hio; exact hsame
    | some a => rw [hanswers] at hio; cases hio; exact hsame
  · simp only [ha] at hio
    cases hacted with
    | nothing => cases hio; exact ⟨[], .nil, hsame⟩
    | completed => cases hio; exact ⟨[[]], .cons rfl .nil, hsame⟩
    | @write c bytes success hsuccess =>
      obtain ⟨io1, hstep, hlast⟩ := run_cons_some hio
      cases hlast
      cases DeviceIO.step_cases hstep with
      | write hle =>
        refine ⟨[bytes.take a.written], .cons ?_ .nil, by rw [List.flatten_singleton]⟩
        cases success with
        | true => exact List.take_of_length_le (Nat.le_of_eq (hsuccess.1 rfl).symm)
        | false =>
          refine ⟨List.take_prefix _ _, fun he => ?_⟩
          have hlen := congrArg List.length he
          rw [List.length_take_of_le hle] at hlen
          exact absurd (hsuccess.2 hlen) (by decide)

end Orchestrator

end Calls

/-! ## The orchestrator and the device -/

structure Link (κ π ρ δ : Type) where
  orchestrator : Orchestrator κ π ρ δ
  io : DeviceIO

/-- The modem sends, the thread of `pollLoop` makes a step, or one of the others does. -/
inductive Link.Step (κ π ρ : Type) where
  | arrive (bytes : Text)
  | poll
  | notifyRx
  | activity (l : Activity κ π ρ)

section Link

variable {κ π ρ δ : Type} (I : Interfaces κ π ρ δ)

namespace Link

/-- The orchestrator as constructed over a device: `deviceIO.subscribe(*this)`. -/
def init (ctx : Context κ π ρ δ) (io : DeviceIO) : Link κ π ρ δ := ⟨Orchestrator.init ctx, io⟩

/-- A step; `none` where it cannot be taken.  Only the thread of the device notifies, and the device
answers the calls of the others. -/
def step (s : Link κ π ρ δ) : Step κ π ρ → Option (Link κ π ρ δ)
  | .arrive bytes => (s.io.step (.arrive bytes)).map fun io => { s with io := io }
  | .poll => (s.io.step .poll).map fun io => { s with io := io }
  | .notifyRx => (s.io.step .notifyRx).map fun io => ⟨s.orchestrator.notify .rxReady, io⟩
  | .activity (.notify _) => none
  | .activity l => (s.orchestrator.step I l).bind fun o =>
      (run DeviceIO.step (s.orchestrator.deviceCalls l o) s.io).map fun io => ⟨o, io⟩

variable {I} {s s' t : Link κ π ρ δ}

/-- **What a step does**, by its label. -/
inductive Stepped (I : Interfaces κ π ρ δ) (s : Link κ π ρ δ) : Step κ π ρ → Link κ π ρ δ → Prop where
  | arrive {bytes : Text} : s.io.opened = true →
      Stepped I s (.arrive bytes) { s with io := { s.io with inbox := s.io.inbox ++ bytes } }
  | poll : s.io.opened = true → s.io.poller = .polling → s.io.inbox ≠ [] →
      Stepped I s .poll { s with io := { s.io with poller := .notifying } }
  | notifyRx : s.io.poller = .notifying →
      Stepped I s .notifyRx ⟨s.orchestrator.notify .rxReady, { s.io with poller := .polling }⟩
  | activity {l : Activity κ π ρ} {o : Orchestrator κ π ρ δ} {io : DeviceIO} :
      (∀ ev, l ≠ .notify ev) → s.orchestrator.step I l = some o →
      run DeviceIO.step (s.orchestrator.deviceCalls l o) s.io = some io →
      Stepped I s (.activity l) ⟨o, io⟩

theorem activity_step {l : Activity κ π ρ} (hl : ∀ ev, l ≠ .notify ev) :
    s.step I (.activity l) = (s.orchestrator.step I l).bind fun o =>
      (run DeviceIO.step (s.orchestrator.deviceCalls l o) s.io).map fun io => ⟨o, io⟩ := by
  cases l with
  | notify ev => exact absurd rfl (hl ev)
  | shutDown => rfl
  | coolDown l => rfl
  | get => rfl
  | handle a => rfl
  | caller l => rfl

theorem step_cases {l : Step κ π ρ} (h : s.step I l = some s') : Stepped I s l s' := by
  cases l with
  | arrive bytes =>
    obtain ⟨io, hio, rfl⟩ := Option.map_eq_some_iff.1 h
    cases DeviceIO.step_cases hio with
    | arrive hopen => exact .arrive hopen
  | poll =>
    obtain ⟨io, hio, rfl⟩ := Option.map_eq_some_iff.1 h
    cases DeviceIO.step_cases hio with
    | poll hopen hpoller hinbox => exact .poll hopen hpoller hinbox
  | notifyRx =>
    obtain ⟨io, hio, rfl⟩ := Option.map_eq_some_iff.1 h
    cases DeviceIO.step_cases hio with
    | notifyRx hpoller => exact .notifyRx hpoller
  | activity l =>
    by_cases hl : ∃ ev, l = .notify ev
    · obtain ⟨ev, rfl⟩ := hl
      cases h
    · have hl : ∀ ev, l ≠ .notify ev := fun ev he => hl ⟨ev, he⟩
      rw [activity_step hl] at h
      obtain ⟨o, ho, hrest⟩ := Option.bind_eq_some_iff.1 h
      obtain ⟨io, hio, rfl⟩ := Option.map_eq_some_iff.1 hrest
      exact .activity hl ho hio

/-! ## What crosses the line -/

/-- What the modem sends. -/
def Step.arrived? : Step κ π ρ → Option Text
  | .arrive bytes => some bytes
  | _ => none

def arrived (ls : List (Step κ π ρ)) : Text := (ls.filterMap Step.arrived?).flatten

theorem arrived_cons (l : Step κ π ρ) (ls : List (Step κ π ρ)) :
    arrived (l :: ls) = arrived [l] ++ arrived ls := by
  unfold arrived
  rw [← List.flatten_append, ← List.filterMap_append, List.singleton_append]

variable (I) in
/-- The steps of the orchestrator. -/
def simulation : Simulation (step I) (Orchestrator.step I) where
  rel s o := o = s.orchestrator
  answer _ l _ :=
    match l with
    | .arrive _ => []
    | .poll => []
    | .notifyRx => [.notify .rxReady]
    | .activity l => [l]
  answered s o l s' hrel h := by
    subst hrel
    cases step_cases h with
    | arrive => exact ⟨_, rfl, rfl⟩
    | poll => exact ⟨_, rfl, rfl⟩
    | notifyRx => exact ⟨_, rfl, rfl⟩
    | @activity l o io hl ho hio =>
      refine ⟨o, ?_, rfl⟩
      simp only [run_cons, ho]
      rfl

/-- The steps of the orchestrator in a run. -/
abbrev activities (I : Interfaces κ π ρ δ) (ls : List (Step κ π ρ)) (s : Link κ π ρ δ) :
    List (Activity κ π ρ) := (simulation I).answers ls s

/-- The steps of the machine and its callers. -/
abbrev systemSteps (I : Interfaces κ π ρ δ) (ls : List (Step κ π ρ)) (s : Link κ π ρ δ) :
    List (ATLink.Step κ π ρ) := Orchestrator.systemSteps I (activities I ls s) s.orchestrator

/-- A run of the link is one of the orchestrator. -/
theorem run_orchestrator {ls : List (Step κ π ρ)} (h : run (step I) ls s = some t) :
    run (Orchestrator.step I) (activities I ls s) s.orchestrator = some t.orchestrator := by
  obtain ⟨o, ho, rfl⟩ := (simulation I).run_answered rfl h
  exact ho

theorem systemSteps_cons {l : Step κ π ρ} (h : s.step I l = some s') (ls : List (Step κ π ρ)) :
    systemSteps I (l :: ls) s =
      Orchestrator.systemSteps I ((simulation I).answer s l s') s.orchestrator ++
        systemSteps I ls s' := by
  obtain ⟨o, ho, rfl⟩ := (simulation I).answered s s.orchestrator l s' rfl h
  have hall : activities I (l :: ls) s = (simulation I).answer s l s' ++ activities I ls s' :=
    collect_cons h ls
  show collect (Orchestrator.step I) (Orchestrator.simulation I).answer (activities I (l :: ls) s)
    s.orchestrator = _
  rw [hall]
  exact collect_append ho _

/-- A step of the orchestrator reads what the machine is given. -/
theorem reads_chunks {o o' : Orchestrator κ π ρ δ} {io io' : DeviceIO} {l : Activity κ π ρ}
    (h : o.step I l = some o') (hio : run DeviceIO.step (o.reads l) io = some io') :
    (chunks ((Orchestrator.simulation I).answer o l o')).flatten ++ io'.inbox = io.inbox := by
  cases Orchestrator.step_cases h with
  | notify => cases hio; rfl
  | shutDown => cases hio; rfl
  | coolDown => cases hio; rfl
  | taken => cases hio; rfl
  | stopped => cases hio; rfl
  | @handle ev a sys hloop hsys =>
    simp only [Orchestrator.reads, Orchestrator.simulation, hloop] at hio ⊢
    cases ev with
    | rxReady =>
      obtain ⟨io1, hstep, hlast⟩ := run_cons_some hio
      cases hlast
      cases DeviceIO.step_cases hstep with
      | read hle hinbox =>
        show [a.bytes].flatten ++ _ = io.inbox
        rw [List.flatten_singleton, hinbox]
    | txReady => cases hio; rfl
    | shutDown => cases hio; rfl
  | @caller m sys hpermits hsys =>
    cases hio
    cases m with
    | handle ev a => cases hpermits
    | call c command result response a => rfl
    | spurious c => rfl
    | recheck c a => rfl
    | acquire c => rfl

/-- The device in a step of one of the others. -/
theorem activity_cases {l : Activity κ π ρ} {o o' : Orchestrator κ π ρ δ} {io io' : DeviceIO}
    (h : o.step I l = some o') (hio : run DeviceIO.step (o.deviceCalls l o') io = some io') :
    (chunks ((Orchestrator.simulation I).answer o l o')).flatten ++ io'.inbox = io.inbox ∧
      ∃ w sent, o'.system.ctx.actions = o.system.ctx.actions ++ w ∧
        List.Forall₂ Action.Carried w sent ∧ io'.outbox = io.outbox ++ sent.flatten := by
  obtain ⟨io1, hreads, hwrites⟩ := run_of_append hio
  obtain ⟨w, hactions, hacted⟩ := Orchestrator.step_acted h
  obtain ⟨sent, hcarried, rfl⟩ := Orchestrator.writes_carry hactions hacted hwrites
  have hchunks := reads_chunks h hreads
  refine ⟨hchunks, w, sent, hactions, hcarried, ?_⟩
  have hout : io1.outbox = io.outbox := by
    unfold Orchestrator.reads at hreads
    split at hreads
    · obtain ⟨io2, hstep, hlast⟩ := run_cons_some hreads
      cases hlast
      cases DeviceIO.step_cases hstep with
      | read => rfl
    · cases hreads
      rfl
  rw [hout]

/-- **What a step moves**: the chunk that is read leaves the tty, and what is written goes out. -/
theorem step_moves {l : Step κ π ρ} (h : s.step I l = some s') :
    (chunks (Orchestrator.systemSteps I ((simulation I).answer s l s') s.orchestrator)).flatten ++
        s'.io.inbox = s.io.inbox ++ arrived [l] ∧
      ∃ w sent, s'.orchestrator.system.ctx.actions = s.orchestrator.system.ctx.actions ++ w ∧
        List.Forall₂ Action.Carried w sent ∧ s'.io.outbox = s.io.outbox ++ sent.flatten := by
  have hnothing : ∀ {s s' : Link κ π ρ δ},
      s'.orchestrator.system.ctx.actions = s.orchestrator.system.ctx.actions →
      s'.io.outbox = s.io.outbox →
      ∃ w sent, s'.orchestrator.system.ctx.actions = s.orchestrator.system.ctx.actions ++ w ∧
        List.Forall₂ Action.Carried w sent ∧ s'.io.outbox = s.io.outbox ++ sent.flatten := by
    intro s s' hactions hout
    exact ⟨[], [], by rw [hactions, List.append_nil], .nil, by rw [hout, List.flatten_nil, List.append_nil]⟩
  cases step_cases h with
  | @arrive bytes hopen =>
    refine ⟨?_, hnothing rfl rfl⟩
    show s.io.inbox ++ bytes = s.io.inbox ++ [bytes].flatten
    rw [List.flatten_singleton]
  | poll => exact ⟨(List.append_nil _).symm, hnothing rfl rfl⟩
  | notifyRx => exact ⟨(List.append_nil _).symm, hnothing rfl rfl⟩
  | @activity l o io hl ho hio =>
    obtain ⟨hchunks, hrest⟩ := activity_cases ho hio
    refine ⟨?_, hrest⟩
    have hsteps : Orchestrator.systemSteps I [l] s.orchestrator =
        (Orchestrator.simulation I).answer s.orchestrator l o := by
      show collect (Orchestrator.step I) (Orchestrator.simulation I).answer [l] s.orchestrator = _
      rw [collect_cons ho, collect, List.append_nil]
    show (chunks (Orchestrator.systemSteps I [l] s.orchestrator)).flatten ++ io.inbox = _
    rw [hsteps, hchunks]
    exact (List.append_nil _).symm

/-- **What a run moves.** -/
theorem run_moves {ls : List (Step κ π ρ)} (hrun : run (step I) ls s = some t) :
    (chunks (systemSteps I ls s)).flatten ++ t.io.inbox = s.io.inbox ++ arrived ls ∧
      ∃ w sent, t.orchestrator.system.ctx.actions = s.orchestrator.system.ctx.actions ++ w ∧
        List.Forall₂ Action.Carried w sent ∧ t.io.outbox = s.io.outbox ++ sent.flatten := by
  induction ls generalizing s with
  | nil =>
    cases hrun
    exact ⟨(List.append_nil _).symm, [], [], (List.append_nil _).symm, .nil, (List.append_nil _).symm⟩
  | cons l ls ih =>
    obtain ⟨s', h1, h2⟩ := run_cons_some hrun
    obtain ⟨hin, w, sent, hactions, hcarried, hout⟩ := step_moves h1
    obtain ⟨hin', w', sent', hactions', hcarried', hout'⟩ := ih h2
    refine ⟨?_, w ++ w', sent ++ sent', ?_, List.rel_append hcarried hcarried', ?_⟩
    · rw [systemSteps_cons h1, arrived_cons, ← List.append_assoc, ← hin, List.append_assoc, ← hin']
      simp only [chunks, List.filterMap_append, List.flatten_append, List.append_assoc]
    · rw [hactions', hactions, List.append_assoc]
    · rw [hout', hout, List.flatten_append, List.append_assoc]

end Link

variable {I}

/-- **Nothing is lost on the line**: in every run of the modem, the thread that polls, the loop, the
timer and any number of callers, the slices taken, in order, what is unread in the buffer and what
the tty holds are the bytes that came in; and what goes out is what the writes of the machine
hand over, each in full where it reports success and cut short where it does not. -/
theorem link_conserves {ctx : Context κ π ρ δ} {io : DeviceIO} {ls : List (Link.Step κ π ρ)}
    {t : Link κ π ρ δ} (hempty : ctx.rx.leftover = 0) (hnone : ctx.actions = [])
    (hrun : run (Link.step I) ls (Link.init ctx io) = some t) :
    let steps := Link.systemSteps I ls (Link.init ctx io)
    let taken := collect (System.step I) (System.takes I) steps (System.init ctx)
    run (System.step I) steps (System.init ctx) = some t.orchestrator.system ∧
      consumedText (taken.map (·.2)) ++ t.orchestrator.system.ctx.rx.unread ++ t.io.inbox =
        io.inbox ++ Link.arrived ls ∧
      ∃ sent, List.Forall₂ Action.Carried t.orchestrator.system.ctx.actions sent ∧
        t.io.outbox = io.outbox ++ sent.flatten := by
  have hsystem := Orchestrator.run_system (Link.run_orchestrator hrun)
  have hle : (System.init ctx).ctx.rx.leftover ≤ storageSize := by
    show ctx.rx.leftover ≤ storageSize
    omega
  have hunread : (System.init ctx).ctx.rx.unread = [] := by
    show ctx.rx.rxstorage.chars.take ctx.rx.leftover = []
    rw [hempty, List.take_zero]
  obtain ⟨-, hstream, -⟩ := System.run_stream hle hsystem
  obtain ⟨hin, w, sent, hactions, hcarried, hout⟩ := Link.run_moves hrun
  rw [hunread, List.nil_append] at hstream
  refine ⟨hsystem, ?_, sent, ?_, hout⟩
  · exact (congrArg (· ++ t.io.inbox) hstream).trans hin
  · have hw : t.orchestrator.system.ctx.actions = ctx.actions ++ w := hactions
    rw [hw, hnone]
    exact hcarried

end Link

/-- `AT+R?` goes out and its reply comes in, in two pieces around a poll; they are read in two
chunks, cut elsewhere. -/
def linkRun : List (Link.Step PacketCommand (ResponsePack.Variant modem.resultTypes)
    ContainedResponse) :=
  [.activity (.caller (.call 0 ⟨text "AT+R?", Constants.Cr, []⟩ none (some intObject) ⟨true, 6, []⟩)),
    .arrive (text "+R:1\r\nO"), .poll, .arrive (text "K\r\n"), .notifyRx, .activity .get, .poll,
    .activity (.handle ⟨true, 0, text "+R"⟩), .notifyRx, .activity .get,
    .activity (.handle ⟨true, 0, text ":1\r\nOK\r\n"⟩), .activity (.caller (.acquire 0))]

/-- A tty that was opened and has not been used. -/
def idleTty : DeviceIO := ⟨true, [], [], .polling⟩

theorem linkRun_ends : ∃ t, run (Link.step modemInterfaces) linkRun (Link.init modemContext idleTty) =
    some t ∧ t.orchestrator.system.phase 0 = .returned .noError := by
  have hphase : (run (Link.step modemInterfaces) linkRun (Link.init modemContext idleTty)).map
      (·.orchestrator.system.phase 0) = some (.returned .noError) := by decide +kernel
  obtain ⟨t, ht, hreturned⟩ := Option.map_eq_some_iff.1 hphase
  exact ⟨t, ht, hreturned⟩

theorem link_conserves_linkRun :
    ∃ t, run (Link.step modemInterfaces) linkRun (Link.init modemContext idleTty) = some t ∧
      (let steps := Link.systemSteps modemInterfaces linkRun (Link.init modemContext idleTty)
      let taken := collect (System.step modemInterfaces) (System.takes modemInterfaces) steps
        (System.init modemContext)
      run (System.step modemInterfaces) steps (System.init modemContext) =
          some t.orchestrator.system ∧
        consumedText (taken.map (·.2)) ++ t.orchestrator.system.ctx.rx.unread ++ t.io.inbox =
          idleTty.inbox ++ Link.arrived linkRun ∧
        ∃ sent, List.Forall₂ Action.Carried t.orchestrator.system.ctx.actions sent ∧
          t.io.outbox = idleTty.outbox ++ sent.flatten) := by
  obtain ⟨t, hrun, -⟩ := linkRun_ends
  exact ⟨t, hrun, link_conserves rfl rfl hrun⟩

end ATLink
