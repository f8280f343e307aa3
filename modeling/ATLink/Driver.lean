import ATLink.EventLoop
import ATLink.Exchange
import ATLink.Urc
import ATLink.Visits

/-!
# Drivers

What a driver hands to the orchestrator, and when no exception reaches the loop.

* `ResponseField.Contained` — a field that no visit leaves the input at.
* `ContainedResponse` — an object of a response class with such fields only.
* `Driver` — the responses of a driver: its own final results in front of those of
  `core/FinalResultCode.h`, its URCs in front of `AnyUrc`.

Principal results: `Driver.bounded` — its parsers throw nothing and take at most the text;
`handles_every_event` — the loop handles each event that it takes, whatever the device sends.
-/

namespace ATLink

open StringView Deserializer LabelledRun

/-! ## Fields -/

/-- No quoted string, and no enum that spells a value twice. -/
def ResponseField.Contained : ResponseField → Prop
  | .int _ => True
  | .quoted _ => False
  | .line _ => True
  | .enum e =>
    match e.traits with
    | .numeric _ => True
    | .custom c => (c.map.map (·.2)).Nodup

section Visits

variable {input : Text} {length : Nat} {f f' : ResponseField} {ok : Bool} {n : Nat}

theorem ResponseField.contained_of_traits {e e' : AEnum} (h : e'.traits = e.traits)
    (he : (ResponseField.enum e).Contained) : (ResponseField.enum e').Contained := by
  simp only [Contained] at he ⊢
  rw [h]
  exact he

theorem ResponseField.Contained.fits (hf : f.Contained) : Fits input length (.field f) := by
  cases f with
  | int i => trivial
  | quoted storage => exact absurd hf id
  | line buf => trivial
  | enum e =>
    show SpellingFits e _
    unfold SpellingFits
    simp only [ResponseField.Contained] at hf
    split
    · trivial
    · rename_i c htraits
      simp only [htraits] at hf
      intro v k hfound hk
      -- the only string of the value is the one that matched
      obtain ⟨k', hmem, hstarts⟩ := EnumCustomStringConverter.lookup_sound hfound
      rw [EnumCustomStringConverter.lookupString_of_mem hf hmem] at hk
      cases hk
      exact hstarts.length_le

theorem visitField_keeps (hf : f.Contained) (h : visitField input f length = some (ok, f', n)) :
    f'.Contained := by
  cases f with
  | int i =>
    obtain ⟨r, -, hr⟩ := Option.map_eq_some_iff.1 h
    cases hr
    trivial
  | quoted storage => exact absurd hf id
  | line buf =>
    obtain ⟨r, -, hr⟩ := Option.map_eq_some_iff.1 h
    cases hr
    trivial
  | enum e =>
    obtain ⟨⟨ok, e', m⟩, hvisit, hr⟩ := Option.map_eq_some_iff.1 h
    cases hr
    unfold visitEnum at hvisit
    obtain ⟨length', -, hvisit⟩ := Option.bind_eq_some_iff.1 hvisit
    obtain ⟨rest, -, hvisit⟩ := Option.bind_eq_some_iff.1 hvisit
    cases hvisit
    exact ResponseField.contained_of_traits (Enum.parse_traits e rest) hf

theorem visitField_returns (hf : f.Contained) (hle : length ≤ input.length) :
    ∃ ok f' n, visitField input f length = some (ok, f', n) ∧ n ≤ input.length := by
  obtain ⟨n, hconsumed, hn⟩ := (consumed_iff input length (.field f) hle).2 hf.fits
  obtain ⟨⟨ok, f', n'⟩, hvisit, rfl⟩ := Option.map_eq_some_iff.1 hconsumed
  exact ⟨ok, f', n', hvisit, hn⟩

theorem visitSequence_returns (seq : Text) (hle : length ≤ input.length) :
    ∃ ok n, visitSequence input seq length = some (ok, n) ∧ n ≤ input.length := by
  obtain ⟨n, hconsumed, hn⟩ := (consumed_iff input length (.sequence seq) hle).2 trivial
  obtain ⟨⟨ok, n'⟩, hvisit, rfl⟩ := Option.map_eq_some_iff.1 hconsumed
  exact ⟨ok, n', hvisit, hn⟩

/-- The fields stay what they are. -/
theorem follow_keeps : ∀ (vs : List Visit) {fs fs' : List ResponseField} {length n : Nat} {ok : Bool},
    (∀ f ∈ fs, f.Contained) → follow input vs fs length = some (ok, fs', n) → ∀ f ∈ fs', f.Contained
  | [], fs, _, _, _, _, hfs, h => by
    cases h
    exact hfs
  | .attempt seq :: vs, fs, _, length, _, _, hfs, h => by
    simp only [follow] at h
    split at h
    · cases h
    · exact follow_keeps vs hfs h
  | .expect seq :: vs, fs, _, length, _, _, hfs, h => by
    simp only [follow] at h
    split at h
    · cases h
    · cases h
      exact hfs
    · exact follow_keeps vs hfs h
  | .field :: vs, [], _, length, _, _, hfs, h => follow_keeps vs hfs h
  | .field :: vs, f :: fs, _, length, _, _, hfs, h => by
    have hf := hfs f List.mem_cons_self
    have hrest : ∀ g ∈ fs, g.Contained := fun g hg => hfs g (List.mem_cons_of_mem f hg)
    simp only [follow] at h
    split at h
    · cases h
    · rename_i f' m hvisit
      cases h
      exact List.forall_mem_cons.2 ⟨visitField_keeps hf hvisit, hrest⟩
    · rename_i f' m hvisit
      obtain ⟨⟨ok, fs', n⟩, hfollow, hr⟩ := Option.map_eq_some_iff.1 h
      cases hr
      exact List.forall_mem_cons.2 ⟨visitField_keeps hf hvisit, follow_keeps vs hrest hfollow⟩

/-- **No visit throws**, and none leaves the input. -/
theorem follow_returns : ∀ (vs : List Visit) {fs : List ResponseField} {length : Nat},
    (∀ f ∈ fs, f.Contained) → length ≤ input.length →
      ∃ ok fs' n, follow input vs fs length = some (ok, fs', n) ∧ n ≤ input.length
  | [], fs, length, _, hle => ⟨true, fs, length, rfl, hle⟩
  | .attempt seq :: vs, fs, length, hfs, hle => by
    obtain ⟨ok, n, hvisit, hn⟩ := visitSequence_returns seq hle
    simp only [follow, hvisit]
    exact follow_returns vs hfs hn
  | .expect seq :: vs, fs, length, hfs, hle => by
    obtain ⟨ok, n, hvisit, hn⟩ := visitSequence_returns seq hle
    cases ok with
    | false => exact ⟨false, fs, n, by simp only [follow, hvisit], hn⟩
    | true =>
      simp only [follow, hvisit]
      exact follow_returns vs hfs hn
  | .field :: vs, [], length, hfs, hle => follow_returns vs hfs hle
  | .field :: vs, f :: fs, length, hfs, hle => by
    obtain ⟨ok, f', n, hvisit, hn⟩ := visitField_returns (hfs f List.mem_cons_self) hle
    cases ok with
    | false => exact ⟨false, f' :: fs, n, by simp only [follow, hvisit], hn⟩
    | true =>
      obtain ⟨ok, fs', m, hfollow, hm⟩ :=
        follow_returns vs (fun g hg => hfs g (List.mem_cons_of_mem f hg)) hn
      exact ⟨ok, f' :: fs', m, by simp only [follow, hvisit, hfollow, Option.map_some], hm⟩

end Visits

/-! ## Responses -/

theorem ResponseObject.accept_returns {o : ResponseObject} (ho : ∀ f ∈ o.fields, f.Contained)
    (input : Text) : ∃ ok o' n, o.accept input 0 = some (ok, o', n) ∧ n ≤ input.length := by
  obtain ⟨ok, fs, n, hfollow, hn⟩ := follow_returns o.visits ho (Nat.zero_le input.length)
  rw [← o.accept_follow input 0] at hfollow
  obtain ⟨⟨ok', o', n'⟩, haccept, hr⟩ := Option.map_eq_some_iff.1 hfollow
  cases hr
  exact ⟨ok', o', n', haccept, hn⟩

theorem ResponseObject.accept_keeps {o o' : ResponseObject} {input : Text} {length n : Nat} {ok : Bool}
    (ho : ∀ f ∈ o.fields, f.Contained) (h : o.accept input length = some (ok, o', n)) :
    ∀ f ∈ o'.fields, f.Contained := by
  have hfollow := o.accept_follow input length
  rw [h, Option.map_some] at hfollow
  exact follow_keeps _ ho hfollow.symm

/-- An object of a response class, no field of which can leave the input. -/
structure ContainedResponse where
  object : ResponseObject
  contained : ∀ f ∈ object.fields, f.Contained

namespace ContainedResponse

/-- `accept`, and the object afterwards. -/
def accept (r : ContainedResponse) (input : Text) (length : Nat) :
    Option (Bool × ContainedResponse × Nat) :=
  match h : r.object.accept input length with
  | none => none
  | some (ok, object, n) => some (ok, ⟨object, ResponseObject.accept_keeps r.contained h⟩, n)

theorem accept_returns (r : ContainedResponse) (input : Text) :
    ∃ ok r' n, r.accept input 0 = some (ok, r', n) ∧ n ≤ input.length := by
  obtain ⟨ok, object, n, haccept, hn⟩ := ResponseObject.accept_returns r.contained input
  have hkeeps := ResponseObject.accept_keeps r.contained haccept
  refine ⟨ok, ⟨object, hkeeps⟩, n, ?_, hn⟩
  unfold accept
  split
  · rename_i hthrows
    rw [haccept] at hthrows
    cases hthrows
  · rename_i h
    rw [haccept] at h
    cases h
    rfl

/-- The class with this object as the default-constructed one. -/
def type (r : ContainedResponse) : ResponseType := ⟨ContainedResponse, r, accept⟩

end ContainedResponse

/-! ## Packs -/

/-- The trial of a fresh object throws nothing and takes at most the text. -/
def ResponseType.Bounded (R : ResponseType) : Prop :=
  ∀ input, ∃ ok obj n, R.accept R.init input 0 = some (ok, obj, n) ∧ n ≤ input.length

theorem ContainedResponse.bounded (r : ContainedResponse) : r.type.Bounded := r.accept_returns

theorem Response.bounded {fields : List ResponseField} (tag : Text) (h : ∀ f ∈ fields, f.Contained) :
    (Response.type tag fields).Bounded := by
  intro input
  obtain ⟨ok, o, n, haccept, hn⟩ :=
    ResponseObject.accept_returns (o := .response tag fields) h input
  obtain ⟨⟨ok', fs, n'⟩, haccept', hr⟩ := Option.map_eq_some_iff.1 haccept
  cases hr
  exact ⟨ok', fs, n', haccept', hn⟩

theorem APacket.bounded {fields : List ResponseField} (tag : Text) (h : ∀ f ∈ fields, f.Contained) :
    (APacket.type tag fields).Bounded := by
  intro input
  obtain ⟨ok, o, n, haccept, hn⟩ := ResponseObject.accept_returns (o := .packet tag fields) h input
  obtain ⟨⟨ok', fs, n'⟩, haccept', hr⟩ := Option.map_eq_some_iff.1 haccept
  cases hr
  exact ⟨ok', fs, n', haccept', hn⟩

theorem AnyUrc.bounded : AnyUrc.Bounded :=
  Response.bounded [] fun f hf => by
    rw [List.mem_singleton.1 hf]
    trivial

theorem final_bounded (cms : NumericEnum CmsError.Code) (cme : NumericEnum CmeError.Code) :
    ∀ R ∈ [Ok, Error, CmsError cms, CmeError cme], R.Bounded := by
  have hcode : ∀ {values : List Int} (e : NumericEnum values), ∀ f ∈ [e.field 0], f.Contained := by
    intro values e f hf
    rw [List.mem_singleton.1 hf]
    trivial
  intro R hR
  simp only [List.mem_cons, List.not_mem_nil, or_false] at hR
  rcases hR with rfl | rfl | rfl | rfl
  · exact Response.bounded _ fun f hf => by cases hf
  · exact APacket.bounded _ fun f hf => by cases hf
  · exact APacket.bounded _ (hcode cms)
  · exact APacket.bounded _ (hcode cme)

theorem tryAll_bounded (input : Text) : ∀ {Rs : List ResponseType} {length : Nat},
    (∀ R ∈ Rs, R.Bounded) → length ≤ input.length →
      ∃ value n, ResponsePack.tryAll Rs input length = some (value, n) ∧ n ≤ input.length
  | [], length, _, hle => ⟨none, length, rfl, hle⟩
  | R :: Rs, length, hRs, hle => by
    obtain ⟨ok, obj, n, haccept, hn⟩ := hRs R List.mem_cons_self input
    cases ok with
    | true => exact ⟨_, n, ResponsePack.tryAll_of_accepts haccept length, hn⟩
    | false =>
      obtain ⟨value, m, htry, hm⟩ := tryAll_bounded input
        (fun S hS => hRs S (List.mem_cons_of_mem R hS)) hn
      exact ⟨_, m, by rw [ResponsePack.tryAll_of_rejects haccept, htry]; rfl, hm⟩

theorem dispatch_bounded {Rs : List ResponseType} (hRs : ∀ R ∈ Rs, R.Bounded) (d : UrcDispatcher Rs)
    (input : Text) : ∃ n d', d.dispatch input = some (n, d') ∧ n ≤ input.length := by
  have hall : ∀ R ∈ Urc Rs, R.Bounded := by
    intro R hR
    rcases List.mem_append.1 hR with hR | hR
    · exact hRs R hR
    · rw [List.mem_singleton.1 hR]
      exact AnyUrc.bounded
  obtain ⟨value, n, htry, hn⟩ := tryAll_bounded input hall (Nat.zero_le input.length)
  unfold UrcDispatcher.dispatch ResponsePack.accept
  rw [htry]
  cases value with
  | none => exact ⟨0, _, rfl, Nat.zero_le _⟩
  | some obj => exact ⟨n, _, rfl, hn⟩

/-! ## Drivers -/

/-- The responses that a driver brings. -/
structure Driver where
  cms : NumericEnum CmsError.Code
  cme : NumericEnum CmeError.Code
  results : List ContainedResponse
  urcs : List ContainedResponse

namespace Driver

/-- The final results that it waits for. -/
def resultTypes (d : Driver) : List ResponseType :=
  FinalResultCode d.cms d.cme (d.results.map ContainedResponse.type)

def urcTypes (d : Driver) : List ResponseType := d.urcs.map ContainedResponse.type

/-- Its parsers, beside some commands. -/
def interfaces {κ : Type} (d : Driver) (acceptCommand : κ → Serializer → Option (Bool × Serializer)) :
    Interfaces κ (ResponsePack.Variant d.resultTypes) ContainedResponse
      (UrcDispatcher d.urcTypes) where
  acceptResult value txt := ResponsePack.accept d.resultTypes value txt 0
  acceptResponse r txt := r.accept txt 0
  dispatch := UrcDispatcher.dispatch
  acceptCommand := acceptCommand

/-- **The parsers of a driver** throw nothing and take at most the text. -/
theorem bounded {κ : Type} (d : Driver)
    (acceptCommand : κ → Serializer → Option (Bool × Serializer)) :
    (d.interfaces acceptCommand).toVirtuals.Bounded where
  result frc txt := by
    have hall : ∀ R ∈ d.resultTypes, R.Bounded := by
      intro R hR
      rcases List.mem_append.1 hR with hR | hR
      · obtain ⟨r, -, rfl⟩ := List.mem_map.1 hR
        exact r.bounded
      · exact final_bounded d.cms d.cme R hR
    obtain ⟨value, n, htry, hn⟩ := tryAll_bounded txt hall (Nat.zero_le txt.length)
    refine ⟨value.isSome, value.or frc, n, ?_, fun _ => hn⟩
    show ResponsePack.accept d.resultTypes frc txt 0 = _
    unfold ResponsePack.accept
    rw [htry]
    rfl
  response r txt := by
    obtain ⟨ok, r', n, haccept, hn⟩ := r.accept_returns txt
    exact ⟨ok, r', n, haccept, fun _ => hn⟩
  dispatch d' txt := by
    refine dispatch_bounded (fun R hR => ?_) d' txt
    obtain ⟨r, -, rfl⟩ := List.mem_map.1 hR
    exact r.bounded

end Driver

/-! ## The loop -/

section Loop

variable {κ π ρ δ : Type} {I : Interfaces κ π ρ δ}

/-- The machine can handle an event on which the device sends what fits the buffer. -/
theorem State.handle_isSome (hV : I.toVirtuals.Bounded) {state : State} {ctx : Context κ π ρ δ}
    (hstate : ∀ msg, state ≠ .sendCommand msg) (hle : ctx.rx.leftover ≤ storageSize) (ev : Event)
    {a : Answers} (hfit : a.bytes.length ≤ storageSize - ctx.rx.leftover) :
    (state.handle I ctx ev a).isSome = true := by
  have hbefore : (History.mk ctx.rx ctx.urcs ctx.rx.unread []).Conserved := ⟨hle, rfl⟩
  have hcall : ∀ call : RxCall π ρ, call.bytes = a.bytes →
      ∃ u, rxCall I.toVirtuals ⟨ctx.rx, ctx.urcs, ctx.rx.unread, []⟩ call = some u := by
    intro call hbytes
    refine rxCall_returns hV hbefore call ?_
    rw [hbytes]
    exact hfit
  cases state with
  | idle =>
    cases ev with
    | rxReady =>
      obtain ⟨u, hu⟩ := hcall (.dispatchUrcs a.bytes) rfl
      obtain ⟨r, hr, -⟩ := Option.map_eq_some_iff.1 hu
      simp only [State.handle, Idle.handle, Context.dispatchUrcs, hr, Option.map_some,
        Option.isSome_some]
    | txReady => rfl
    | shutDown => rfl
  | sendCommand msg => exact absurd rfl (hstate msg)
  | waitForResponse msg =>
    cases ev with
    | rxReady =>
      obtain ⟨u, hu⟩ :=
        hcall (.receive (ctx.calls msg.call).result (ctx.calls msg.call).response a.bytes) rfl
      simp only [rxCall] at hu
      split at hu
      · rename_i r hr
        have hreceive : ctx.receive I msg a = some (r.success, _) :=
          Context.receive_iff.2 ⟨r, hr, rfl, rfl⟩
        simp only [State.handle, WaitForResponse.handle, hreceive, Option.map_some, Option.isSome_some]
      · cases hu
    | txReady => rfl
    | shutDown => rfl

/-- What is left in the buffer fits it, in every state that is reached. -/
theorem Orchestrator.leftover_of_run {ls : List (Activity κ π ρ)} {s t : Orchestrator κ π ρ δ}
    (hs : s.system.ctx.rx.leftover ≤ storageSize) (hrun : run (step I) ls s = some t) :
    t.system.ctx.rx.leftover ≤ storageSize := by
  refine run_inv (P := fun u => u.system.ctx.rx.leftover ≤ storageSize) (fun u l u' hu h => ?_) ls s t
    hs hrun
  rcases system_of_step h with hsame | ⟨m, hm, -⟩
  · rw [hsame]
    exact hu
  · exact (System.stream_step hu hm).1

end Loop

/-- **Every event is handled**: with the parsers of such a driver, in every state that callers, loop
and timer can reach, the loop handles the event that it has taken whatever the device answers: it
throws nothing, as long as a read stays in the span it is given. -/
theorem handles_every_event {κ : Type} (d : Driver)
    {acceptCommand : κ → Serializer → Option (Bool × Serializer)}
    {ctx : Context κ (ResponsePack.Variant d.resultTypes) ContainedResponse (UrcDispatcher d.urcTypes)}
    {ls : List (Activity κ (ResponsePack.Variant d.resultTypes) ContainedResponse)}
    {s : Orchestrator κ (ResponsePack.Variant d.resultTypes) ContainedResponse
      (UrcDispatcher d.urcTypes)} (hroom : ctx.rx.leftover ≤ storageSize)
    (hrun : run (Orchestrator.step (d.interfaces acceptCommand)) ls (Orchestrator.init ctx) = some s)
    {ev : Event} (hloop : s.loop = .handling ev) {a : Answers}
    (hfit : a.bytes.length ≤ storageSize - s.system.ctx.rx.leftover) :
    ∃ t, s.step (d.interfaces acceptCommand) (.handle a) = some t ∧ t.loop = .getting := by
  have hle : s.system.ctx.rx.leftover ≤ storageSize := Orchestrator.leftover_of_run hroom hrun
  have hsome := State.handle_isSome (d.bounded acceptCommand)
    (Orchestrator.undeferred_of_run hrun).state hle ev hfit
  obtain ⟨⟨next, sys⟩, hhandle⟩ := Option.isSome_iff_exists.1 hsome
  simp only [Orchestrator.step, hloop, System.handle, hhandle, Option.map_some]
  exact ⟨_, rfl, rfl⟩

/-- A driver whose modem reports its registration. -/
def modem : Driver where
  cms := cmsCode
  cme := cmeCode
  results := []
  urcs := [⟨.response (text "+CREG:") [.int 0], fun f hf => by rw [List.mem_singleton.1 hf]; trivial⟩]

def modemInterfaces : Interfaces PacketCommand (ResponsePack.Variant modem.resultTypes)
    ContainedResponse (UrcDispatcher modem.urcTypes) := modem.interfaces PacketCommand.accept

/-- The response `+R:` and an int. -/
def intObject : ContainedResponse :=
  ⟨.response (text "+R:") [.int 0], fun f hf => by rw [List.mem_singleton.1 hf]; trivial⟩

/-- Nothing has been received. -/
def modemContext : Context PacketCommand (ResponsePack.Variant modem.resultTypes) ContainedResponse
    (UrcDispatcher modem.urcTypes) where
  rx := RxBuffer.init
  urcs := ⟨none, []⟩
  txbuf := List.replicate storageSize 0
  calls _ := ⟨⟨text "AT", Constants.Cr, []⟩, none, none, .noError, 0⟩
  actions := []

/-- `AT+R?` is sent, and the loop takes the event that its reply posts. -/
def modemRun : List (Activity PacketCommand (ResponsePack.Variant modem.resultTypes)
    ContainedResponse) :=
  [.caller (.call 0 ⟨text "AT+R?", Constants.Cr, []⟩ none (some intObject) ⟨true, 6, []⟩),
    .notify .rxReady, .get]

theorem handles_every_event_modemRun :
    ∃ s, run (Orchestrator.step modemInterfaces) modemRun (Orchestrator.init modemContext) = some s ∧
      ∃ t, s.step modemInterfaces (.handle ⟨true, 0, text "+R:1\r\nO"⟩) = some t ∧
        t.loop = .getting := by
  have hrun : (run (Orchestrator.step modemInterfaces) modemRun (Orchestrator.init modemContext)).map
      (fun s => (s.loop, s.system.ctx.rx.leftover)) = some (.handling .rxReady, 0) := by decide +kernel
  obtain ⟨s, hs, hpair⟩ := Option.map_eq_some_iff.1 hrun
  obtain ⟨hloop, hleftover⟩ := Prod.mk.inj hpair
  have hfit : (text "+R:1\r\nO").length ≤ storageSize - s.system.ctx.rx.leftover := by
    rw [hleftover]
    decide
  exact ⟨s, hs, handles_every_event modem (Nat.zero_le _) hs hloop hfit⟩

end ATLink
