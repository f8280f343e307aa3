import ATLink.Demux
import ATLink.Fsm
import Mathlib.Logic.Relation

/-!
# A final result code ends the command

* `Passes` — the states at the head of an iteration that `receive` goes through.
* `TakesResult`, `TakesResponse` — there the result pack, or the response, accepts the input.
* `EndsCommand` — the step releases the semaphore once and leaves the machine in `Idle`.

Principal result: `result_ends_command_iff` — a result code taken in a step ends the command
exactly when a response that is expected is taken in the same step as well, and no parser throws
in it.
-/

namespace ATLink

open Relation

section Loop

variable {π ρ δ : Type} (V : Virtuals π ρ δ) {s s' t : RxLoop π ρ δ}

/-- The loop of `receive` from `start` passes `s`: the attempt before the loop is over, and some
iterations are. -/
def Passes (start s : RxLoop π ρ δ) : Prop :=
  ∃ found s0, tryMissingResponse V start = .ok (found, s0) ∧
    ReflTransGen (fun s s' => Turn V s true s')
      (if found then { s0 with haveResponse := true } else s0) s

/-- The result pack, its code still missing, is asked and accepts. -/
def TakesResult (s : RxLoop π ρ δ) : Prop :=
  s.haveResult = false ∧ (∃ res', NoResponse V s.haveResponse s.res s.input res') ∧
    ∃ frc n, V.acceptResult s.frc s.input = some (true, frc, n)

/-- The response, still missing, is asked and accepts. -/
def TakesResponse (s : RxLoop π ρ δ) : Prop :=
  s.haveResponse = false ∧ ∃ res res' n, s.res = some res ∧
    V.acceptResponse res s.input = some (true, res', n)

variable {V}

theorem Turn.unique {more more' : Bool} (h : Turn V s more s') (h' : Turn V s more' t) :
    more = more' ∧ s' = t := by
  have := (loopBody_iff.2 h).symm.trans (loopBody_iff.2 h')
  simpa using this

/-- A flag that is set stays set. -/
theorem Turn.flags_le {more : Bool} (h : Turn V s more s') :
    (s.haveResponse = true → s'.haveResponse = true) ∧ (s.haveResult = true → s'.haveResult = true) := by
  cases h <;> simp_all

theorem Runs.flags_le (h : Runs V s t) :
    (s.haveResponse = true → t.haveResponse = true) ∧ (s.haveResult = true → t.haveResult = true) := by
  induction h with
  | last h => exact h.flags_le
  | turn h _ ih => exact ⟨fun hf => ih.1 (h.flags_le.1 hf), fun hf => ih.2 (h.flags_le.2 hf)⟩

/-- Where the loop ends, every state passed has a turn to the same end. -/
theorem Runs.of_passed (h : Runs V s t) (hs : ReflTransGen (fun s s' => Turn V s true s') s s') :
    Runs V s' t := by
  induction hs with
  | refl => exact h
  | tail _ hturn ih =>
    cases ih with
    | last hlast => exact absurd (hturn.unique hlast).1 (by simp)
    | turn hturn' hrest => rw [(hturn.unique hturn').2]; exact hrest

/-- The loop ends where every state it passes has a turn. -/
theorem runs_of_turns (s : RxLoop π ρ δ)
    (h : ∀ s', ReflTransGen (fun s s' => Turn V s true s') s s' → ∃ more s'', Turn V s' more s'') :
    ∃ t, Runs V s t := by
  obtain ⟨more, s1, hturn⟩ := h s .refl
  cases more with
  | false => exact ⟨s1, .last hturn⟩
  | true =>
    have := hturn.weight_lt
    obtain ⟨t, ht⟩ := runs_of_turns s1 fun s' hs' => h s' (.head hturn hs')
    exact ⟨t, .turn hturn ht⟩
termination_by s.weight

/-- A turn from a state where the result accepts takes the result. -/
theorem TakesResult.turn {more : Bool} (h : TakesResult V s) (hturn : Turn V s more s') :
    s'.haveResult = true := by
  obtain ⟨hflag, ⟨res', hno⟩, frc, n, ha⟩ := h
  cases hturn with
  | response hflag' hres haccept _ => exact absurd haccept (hno.not_accepts hflag' hres)
  | result => rfl
  | urc _ hno' => exact absurd ha (hno'.not_accepts hflag)
  | last _ hno' => exact absurd ha (hno'.not_accepts hflag)

theorem TakesResponse.turn {more : Bool} (h : TakesResponse V s) (hturn : Turn V s more s') :
    s'.haveResponse = true := by
  obtain ⟨hflag, res, res', n, hres, ha⟩ := h
  cases hturn with
  | response => rfl
  | result hno => exact absurd ha (hno.not_accepts hflag hres)
  | urc hno => exact absurd ha (hno.not_accepts hflag hres)
  | last hno => exact absurd ha (hno.not_accepts hflag hres)

/-- A response that is there at the end was there from the start or is taken on the way. -/
theorem Runs.takesResponse (h : Runs V s t) (ht : t.haveResponse = true) (hs : s.haveResponse = false) :
    ∃ s', ReflTransGen (fun s s' => Turn V s true s') s s' ∧ TakesResponse V s' := by
  induction h with
  | last hturn =>
    cases hturn
    rw [hs] at ht
    cases ht
  | @turn s s' t hturn hrest ih =>
    cases hflag : s'.haveResponse with
    | false =>
      obtain ⟨s'', hs'', htakes⟩ := ih ht hflag
      exact ⟨s'', .head hturn hs'', htakes⟩
    | true =>
      cases hturn with
      | response hf hres haccept hn => exact ⟨s, .refl, hf, _, _, _, hres, haccept⟩
      | result => rw [hs] at hflag; cases hflag
      | urc => rw [hs] at hflag; cases hflag

/-- A result that is there at the end is taken on the way. -/
theorem Runs.takesResult (h : Runs V s t) (ht : t.haveResult = true) (hs : s.haveResult = false) :
    ∃ s', ReflTransGen (fun s s' => Turn V s true s') s s' ∧ TakesResult V s' := by
  induction h with
  | last hturn =>
    cases hturn
    rw [hs] at ht
    cases ht
  | @turn s s' t hturn hrest ih =>
    cases hflag : s'.haveResult with
    | false =>
      obtain ⟨s'', hs'', htakes⟩ := ih ht hflag
      exact ⟨s'', .head hturn hs'', htakes⟩
    | true =>
      cases hturn with
      | response => rw [hs] at hflag; cases hflag
      | result hno hf haccept hn => exact ⟨s, .refl, hf, ⟨_, hno⟩, _, _, haccept⟩
      | urc => rw [hs] at hflag; cases hflag

/-! ## The attempt before the loop -/

theorem receiveLoop_of_tried {found : Bool} {s0 : RxLoop π ρ δ}
    (h : tryMissingResponse V s = .ok (found, s0)) :
    receiveLoop V s = rxLoop V (if found then { s0 with haveResponse := true } else s0) := by
  unfold receiveLoop
  rw [h]
  cases found <;> rfl

/-- The loop starts behind the attempt. -/
theorem passes_iff {found : Bool} {s0 : RxLoop π ρ δ} (h : tryMissingResponse V s = .ok (found, s0)) :
    Passes V s s' ↔ ReflTransGen (fun s s' => Turn V s true s')
      (if found then { s0 with haveResponse := true } else s0) s' := by
  constructor
  · rintro ⟨found', s0', h', hpath⟩
    rw [h] at h'
    cases h'
    exact hpath
  · exact fun hpath => ⟨found, s0, h, hpath⟩

/-- At the head of the loop the response is there when none was expected, or the attempt took
it. -/
theorem haveResponse_of_tried {found : Bool} {s0 : RxLoop π ρ δ}
    (h : tryMissingResponse V s = .ok (found, s0)) :
    (if found then { s0 with haveResponse := true } else s0).haveResponse = true ↔
      s.haveResponse = true ∨ TakesResponse V s := by
  rcases responseTried_iff.1 h with
    ⟨rfl, res', hno, rfl⟩ | ⟨res, res', n, rfl, hflag, hres, haccept, hn, rfl⟩
  · refine ⟨Or.inl, fun h => h.resolve_right ?_⟩
    rintro ⟨hflag, res, res', n, hres, ha⟩
    exact absurd ha (hno.not_accepts hflag hres)
  · exact iff_of_true rfl (Or.inr ⟨hflag, res, res', n, hres, haccept⟩)

/-- The attempt before the loop does not look at the result. -/
theorem haveResult_of_tried {found : Bool} {s0 : RxLoop π ρ δ}
    (h : tryMissingResponse V s = .ok (found, s0)) :
    (if found then { s0 with haveResponse := true } else s0).haveResult = s.haveResult := by
  rcases responseTried_iff.1 h with
    ⟨rfl, res', -, rfl⟩ | ⟨res, res', n, rfl, -, -, -, -, rfl⟩
  · rfl
  · rfl

variable (V) in
/-- The response is taken before the loop or in it. -/
def ResponseTaken (start : RxLoop π ρ δ) : Prop :=
  TakesResponse V start ∨ ∃ s, Passes V start s ∧ TakesResponse V s

variable (V) in
/-- No parser throws, and none reports more than its text, in any iteration. -/
def NothingThrown (start : RxLoop π ρ δ) : Prop :=
  ∀ s, Passes V start s → ∃ more s', Turn V s more s'

/-- A loop that ends with a result has passed a state where the result pack accepts. -/
theorem takesResult_of_loop {start : RxLoop π ρ δ} (hstart : start.haveResult = false)
    (h : receiveLoop V start = .ok t) (ht : t.haveResult = true) :
    ∃ s, Passes V start s ∧ TakesResult V s := by
  obtain ⟨⟨found, s0⟩, htried⟩ : ∃ r, tryMissingResponse V start = .ok r := by
    unfold receiveLoop at h
    split at h
    · cases h
    · rename_i htried
      exact ⟨_, htried⟩
    · rename_i htried
      exact ⟨_, htried⟩
  rw [receiveLoop_of_tried htried] at h
  have hfirst := haveResult_of_tried htried
  rw [hstart] at hfirst
  obtain ⟨s, hpath, htakes⟩ := (rxLoop_iff.1 h).takesResult ht hfirst
  exact ⟨s, (passes_iff htried).2 hpath, htakes⟩

/-- **The loop in which a result is accepted**: it ends with both flags set exactly when nothing
throws and the response, if it is missing at the start, is taken as well. -/
theorem receiveLoop_complete_iff {start : RxLoop π ρ δ} (hs : Passes V start s)
    (hresult : TakesResult V s) :
    (∃ t, receiveLoop V start = .ok t ∧ t.haveResult = true ∧ t.haveResponse = true) ↔
      (start.haveResponse = true ∨ ResponseTaken V start) ∧ NothingThrown V start := by
  obtain ⟨found, s0, htried, hpath⟩ := hs
  rw [receiveLoop_of_tried htried]
  have hopened := haveResponse_of_tried htried
  have hpasses : ∀ s', Passes V start s' ↔ _ := fun s' => passes_iff htried
  generalize (if found then { s0 with haveResponse := true } else s0) = s1 at hpath hopened hpasses ⊢
  constructor
  · rintro ⟨t, hloop, -, hresponse⟩
    have hruns := rxLoop_iff.1 hloop
    refine ⟨?_, fun s' hs' => ?_⟩
    · cases hflag : s1.haveResponse with
      | true => exact (hopened.1 hflag).imp_right Or.inl
      | false =>
        obtain ⟨s', hs', htakes⟩ := hruns.takesResponse hresponse hflag
        exact Or.inr (Or.inr ⟨s', (hpasses s').2 hs', htakes⟩)
    · cases hruns.of_passed ((hpasses s').1 hs') with
      | last h => exact ⟨false, _, h⟩
      | turn h _ => exact ⟨true, _, h⟩
  · rintro ⟨hresponse, hnothing⟩
    obtain ⟨t, hruns⟩ := runs_of_turns s1 fun s' hs' => hnothing s' ((hpasses s').2 hs')
    -- from a state that takes something, the flag is set to the end
    have hflags : ∀ {s'}, ReflTransGen (fun s s' => Turn V s true s') s1 s' →
        (TakesResult V s' → t.haveResult = true) ∧ (TakesResponse V s' → t.haveResponse = true) := by
      intro s' hs'
      cases hruns.of_passed hs' with
      | last h => exact ⟨fun h' => h'.turn h, fun h' => h'.turn h⟩
      | turn h hrest =>
        exact ⟨fun h' => hrest.flags_le.2 (h'.turn h), fun h' => hrest.flags_le.1 (h'.turn h)⟩
    refine ⟨t, rxLoop_iff.2 hruns, (hflags hpath).1 hresult, ?_⟩
    rcases hresponse with h | h | ⟨s', hs', htakes⟩
    · exact hruns.flags_le.1 (hopened.2 (Or.inl h))
    · exact hruns.flags_le.1 (hopened.2 (Or.inr h))
    · exact (hflags ((hpasses s').1 hs')).2 htakes

end Loop

section Step

variable {κ π ρ δ : Type} (I : Interfaces κ π ρ δ) (ctx : Context κ π ρ δ) (msg : Payload) (a : Answers)

/-- The locals of `receive` for the command of `msg` over the text `input`. -/
def pendingStart (input : Text) : RxLoop π ρ δ :=
  RxLoop.start input (ctx.calls msg.call).result (ctx.calls msg.call).response ctx.urcs

/-- The step releases the semaphore of the command once and leaves `Idle`. -/
def EndsCommand : Prop :=
  ∃ ctx', WaitForResponse.handle I ctx msg .rxReady a = some (.idle, ctx') ∧
    (ctx'.calls msg.call).sem = (ctx.calls msg.call).sem + 1

/-- The result pack accepts a result code from the input of the step. -/
def ResultAccepted (input : Text) : Prop :=
  ∃ s, Passes I.toVirtuals (pendingStart ctx msg input) s ∧ TakesResult I.toVirtuals s

variable {I ctx msg a}

/-- The step ends the command exactly when the loop ends with both flags set. -/
theorem endsCommand_iff {rxstorage : Storage} {input : Text}
    (hread : ctx.rx.read a.bytes = some (rxstorage, input)) :
    EndsCommand I ctx msg a ↔ ∃ t, receiveLoop I.toVirtuals (pendingStart ctx msg input) = .ok t ∧
      t.haveResult = true ∧ t.haveResponse = true := by
  constructor
  · rintro ⟨ctx', hhandle, -⟩
    obtain ⟨⟨success, ctx1⟩, hreceive, hnext⟩ := Option.map_eq_some_iff.1 hhandle
    obtain ⟨r, hr, rfl, rfl⟩ := Context.receive_iff.1 hreceive
    obtain ⟨rxstorage', input', t, hread', hloop, rfl⟩ := receive_ok_iff.1 hr
    rw [hread] at hread'
    cases hread'
    refine ⟨t, hloop, ?_⟩
    rw [← Bool.and_eq_true]
    by_contra hflags
    rw [if_neg hflags] at hnext
    cases hnext
  · rintro ⟨t, hloop, hresult, hresponse⟩
    have hr := receive_ok_iff.2 ⟨rxstorage, input, t, hread, hloop, rfl⟩
    have hreceive := Context.receive_iff.2 ⟨_, hr, rfl, rfl⟩
    unfold EndsCommand WaitForResponse.handle
    simp only [hreceive, Option.map_some, hresult, hresponse, Bool.and_self, if_true]
    exact ⟨_, rfl, by simp [Context.release]⟩

/-- A step that ends the command has taken its result, and its response if one is expected. -/
theorem EndsCommand.accepted (h : EndsCommand I ctx msg a) :
    ∃ rxstorage input, ctx.rx.read a.bytes = some (rxstorage, input) ∧
      ResultAccepted I ctx msg input ∧
      ((ctx.calls msg.call).response = none ∨
        ResponseTaken I.toVirtuals (pendingStart ctx msg input)) := by
  obtain ⟨rxstorage, input, hread⟩ : ∃ rxstorage input, ctx.rx.read a.bytes = some (rxstorage, input) := by
    obtain ⟨ctx', hhandle, -⟩ := h
    obtain ⟨⟨success, ctx1⟩, hreceive, -⟩ := Option.map_eq_some_iff.1 hhandle
    obtain ⟨r, hr, -⟩ := Context.receive_iff.1 hreceive
    obtain ⟨rxstorage, input, t, hread, -⟩ := receive_ok_iff.1 hr
    exact ⟨rxstorage, input, hread⟩
  obtain ⟨t, hloop, hresult, hresponse⟩ := (endsCommand_iff hread).1 h
  obtain ⟨s, hs, htakes⟩ := takesResult_of_loop rfl hloop hresult
  refine ⟨rxstorage, input, hread, ⟨s, hs, htakes⟩, ?_⟩
  refine ((receiveLoop_complete_iff hs htakes).1 ⟨t, hloop, hresult, hresponse⟩).1.imp_left ?_
  exact fun hnone => Option.isNone_iff_eq_none.1 hnone

/-- **A result code ends the command**, for every buffer and all bytes read, exactly when the
response, if one is expected, is taken in the same step and no parser throws. -/
theorem result_ends_command_iff {rxstorage : Storage} {input : Text}
    (hread : ctx.rx.read a.bytes = some (rxstorage, input)) :
    (ResultAccepted I ctx msg input → EndsCommand I ctx msg a) ↔
      (ResultAccepted I ctx msg input →
        ((ctx.calls msg.call).response = none ∨
            ResponseTaken I.toVirtuals (pendingStart ctx msg input)) ∧
          NothingThrown I.toVirtuals (pendingStart ctx msg input)) := by
  refine forall_congr' fun haccepted => ?_
  obtain ⟨s, hs, hresult⟩ := haccepted
  rw [endsCommand_iff hread, receiveLoop_complete_iff hs hresult]
  have hstart : (pendingStart ctx msg input).haveResponse = true ↔
      (ctx.calls msg.call).response = none := by
    show (ctx.calls msg.call).response.isNone = true ↔ _
    exact Option.isNone_iff_eq_none
  rw [hstart]

end Step

/-! ## A command that expects `+R:` and an int -/

/-- The response `+R:` and an int. -/
def intResponse : ResponseType := Response.type (text "+R:") [.int 0]

def intInterfaces :
    Interfaces PacketCommand (ResponsePack.Variant (FinalResultCode cmsCode cmeCode []))
      intResponse.Obj Unit where
  toVirtuals := .ofTypes (FinalResultCode cmsCode cmeCode []) intResponse takesNothing
  acceptCommand := PacketCommand.accept

/-- The command `AT+R?` is pending in call 0, and nothing has been received. -/
def intContext :
    Context PacketCommand (ResponsePack.Variant (FinalResultCode cmsCode cmeCode []))
      intResponse.Obj Unit where
  rx := RxBuffer.init
  urcs := ()
  txbuf := List.replicate storageSize 0
  calls _ := ⟨⟨text "AT+R?", Constants.Cr, []⟩, none, some intResponse.init, .noError, 0⟩
  actions := []

theorem result_ends_command_iff_at_ok :
    (ResultAccepted intInterfaces intContext ⟨0⟩ (text "+R:1\r\nOK\r\n") →
        EndsCommand intInterfaces intContext ⟨0⟩ ⟨true, 0, text "+R:1\r\nOK\r\n"⟩) ↔
      (ResultAccepted intInterfaces intContext ⟨0⟩ (text "+R:1\r\nOK\r\n") →
        ((intContext.calls 0).response = none ∨
            ResponseTaken intInterfaces.toVirtuals
              (pendingStart intContext ⟨0⟩ (text "+R:1\r\nOK\r\n"))) ∧
          NothingThrown intInterfaces.toVirtuals
            (pendingStart intContext ⟨0⟩ (text "+R:1\r\nOK\r\n"))) := by
  have hread : (RxBuffer.init.read (text "+R:1\r\nOK\r\n")).map (·.2) =
      some (text "+R:1\r\nOK\r\n") := by decide +kernel
  obtain ⟨⟨rxstorage, input⟩, hread, rfl⟩ := Option.map_eq_some_iff.1 hread
  exact @result_ends_command_iff _ _ _ _ intInterfaces intContext ⟨0⟩
    ⟨true, 0, text "+R:1\r\nOK\r\n"⟩ _ _ hread

/-- The device answers `ERROR`: the code is accepted and gone from the buffer, and the command
stays pending. -/
theorem error_reply_is_lost :
    ResultAccepted intInterfaces intContext ⟨0⟩ (text "ERROR\r\n") ∧
      ¬ EndsCommand intInterfaces intContext ⟨0⟩ ⟨true, 0, text "ERROR\r\n"⟩ ∧
      (WaitForResponse.handle intInterfaces intContext ⟨0⟩ .rxReady
          ⟨true, 0, text "ERROR\r\n"⟩).map (fun r => (r.1, r.2.rx.leftover, (r.2.calls 0).sem)) =
        some (.waitForResponse ⟨0⟩, 0, 0) := by
  have hstep : (WaitForResponse.handle intInterfaces intContext ⟨0⟩ .rxReady
      ⟨true, 0, text "ERROR\r\n"⟩).map (fun r => (r.1, r.2.rx.leftover, (r.2.calls 0).sem)) =
      some (.waitForResponse ⟨0⟩, 0, 0) := by decide +kernel
  refine ⟨⟨pendingStart intContext ⟨0⟩ (text "ERROR\r\n"), ⟨false, _, rfl, .refl⟩, rfl,
    ⟨_, .rejects rfl rfl rfl⟩, _, _, rfl⟩, ?_, hstep⟩
  rintro ⟨ctx', hhandle, -⟩
  rw [hhandle] at hstep
  cases hstep

end ATLink
