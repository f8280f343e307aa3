import ATLink.DeviceIO
import ATLink.Quiescence
import ATLink.UrcLines

/-!
# Delivery

What has come of the bytes by the time all threads are at rest.

* `LineDriver` — a driver whose final results and URCs each take one line: `ResponseType.OneLine`
  for those beside the standard ones.
* `LineDriver.parsers` — its parsers as functions of the text, for a command without a response
  object.
* `Link.AtRest` — no thread can make a step by itself; the modem may still send.

Principal results: `result_delivered` — such a command has returned, at rest, exactly when all that
has come in since, read in one go, holds its final result, however the bytes were cut and the
threads interleaved.
-/

namespace ATLink

open StringView LabelledRun FragmentReader Deserializer

/-! ## Parsers of one line -/

/-- In front of the end of a blank line a tag is not found. -/
theorem acceptWithTerm_blank {tag l z : Text} (fs : List ResponseField) (hl : Unbroken l)
    (htag : carriageReturn ∉ tag) (hne : tag ≠ []) (hz : EndsLine z) (hb : Blanks l) :
    ∃ n, acceptWithTerm (visitor (l ++ z)) tag Constants.CrLf fs 0 = some (false, fs, n) := by
  have hnot : ¬ 0 < Sequence.parse tag (skip l) := by
    rw [Sequence.parse_pos, (skip_eq_nil_iff l).2 hb]
    exact fun h => h.1 (List.prefix_nil.1 h.2)
  have hvisit := visitSequence_eq [] l tag
  rw [List.nil_append, List.length_nil, decide_eq_false hnot] at hvisit
  have hinside : InsideLine l 0 := ⟨Nat.zero_le _, hl⟩
  refine ⟨0 + gap l + Sequence.parse tag (skip l), ?_⟩
  simp only [acceptWithTerm, List.length_pos_iff.2 hne, if_true, visitor_visitSequence,
    visitSequence_ends hinside htag hz, hvisit]

/-- A packet without the optional CRLF in front takes a line from its start. -/
theorem APacket.oneLine {tag : Text} {fs : List ResponseField} (htag : carriageReturn ∉ tag)
    (hne : tag ≠ []) (hf : ∀ f ∈ fs, InLine f) : (APacket.type tag fs).OneLine where
  outcome x := by
    rcases unbroken_or_line x with hx | ⟨l, y, rfl, hl⟩
    · obtain ⟨ok, fs', n, haccept, hok⟩ :=
        acceptWithTerm_outcome ⟨Nat.zero_le _, hx⟩ htag hf (z := []) (Or.inl rfl)
      rw [List.append_nil] at haccept
      exact ⟨ok, fs', n, haccept, fun hsuccess => absurd rfl (hok hsuccess).1⟩
    · obtain ⟨ok, fs', n, haccept, hok⟩ :=
        acceptWithTerm_outcome ⟨Nat.zero_le _, hl⟩ htag hf (endsLine_crLf y)
      refine ⟨ok, fs', n, haccept, fun hsuccess => ?_⟩
      have hlen : (l ++ (Constants.CrLf ++ y)).length = l.length + (2 + y.length) := by
        rw [List.length_append, List.length_append]
        rfl
      have hn := (hok hsuccess).2
      refine ⟨?_, by omega, by omega⟩
      have hb : ¬ Blanks l := by
        intro hb
        obtain ⟨m, hblank⟩ := acceptWithTerm_blank fs hl htag hne (endsLine_crLf y) hb
        rw [hblank] at haccept
        cases haccept
        cases hsuccess
      unfold HasLine
      rw [body_of_line hl hb]
      exact crLf_infix_line _ y
  append x t h := by
    have hinfix : Constants.CrLf <:+: x :=
      (h.trans (body_suffix_skip x).isInfix).trans (skipSet_suffix blanks x).isInfix
    obtain ⟨l, y, rfl, hl⟩ := exists_line hinfix
    show acceptWithTerm (visitor _) tag Constants.CrLf fs 0 =
      acceptWithTerm (visitor _) tag Constants.CrLf fs 0
    rw [List.append_assoc, List.append_assoc]
    exact acceptWithTerm_ends ⟨Nat.zero_le _, hl⟩ htag hf (endsLine_crLf (y ++ t)) (endsLine_crLf y)
      (iff_of_false (crLf_append_ne_nil (y ++ t)) (crLf_append_ne_nil y))

/-- A driver whose results, beside the standard ones, and URCs, beside `AnyUrc`, each take one line. -/
structure LineDriver where
  cms : NumericEnum CmsError.Code
  cme : NumericEnum CmeError.Code
  results : List ResponseType
  urcs : List ResponseType
  results_oneLine : ∀ R ∈ results, R.OneLine
  urcs_oneLine : ∀ R ∈ urcs, R.OneLine

namespace LineDriver

/-- The final results that it waits for. -/
def resultTypes (d : LineDriver) : List ResponseType :=
  FinalResultCode d.cms d.cme d.results

/-- Its parsers, beside some commands and responses. -/
def interfaces {κ ρ : Type} (d : LineDriver)
    (acceptCommand : κ → Serializer → Option (Bool × Serializer))
    (acceptResponse : ρ → Text → Option (Bool × ρ × Nat)) :
    Interfaces κ (ResponsePack.Variant d.resultTypes) ρ
      (UrcDispatcher d.urcs) where
  acceptResult value txt := ResponsePack.accept d.resultTypes value txt 0
  acceptResponse := acceptResponse
  dispatch := UrcDispatcher.dispatch
  acceptCommand := acceptCommand

/-- Its dispatcher as constructed. -/
def dispatcher (d : LineDriver) : UrcDispatcher d.urcs := ⟨none, []⟩

/-- The same as functions of the text, where no response is expected. -/
def parsers (d : LineDriver) : TextParsers (ResponsePack.Variant d.resultTypes) Unit where
  result x := verdict id (ResponsePack.accept d.resultTypes none x 0)
  response _ := .rejects
  dispatch x := (d.dispatcher.dispatch x).map (·.1)

theorem resultTypes_oneLine (d : LineDriver) : ∀ R ∈ d.resultTypes, R.OneLine := by
  have hok : Ok.OneLine :=
    (LineResponse.mk (text "OK") [] (by decide +kernel) fun _ h => by cases h).oneLine
  have herror : Error.OneLine :=
    APacket.oneLine (by decide +kernel) (by decide) fun _ h => by cases h
  have hcms : (CmsError d.cms).OneLine :=
    APacket.oneLine (by decide +kernel) (by decide) fun f hf => by
      rw [List.mem_singleton.1 hf]
      trivial
  have hcme : (CmeError d.cme).OneLine :=
    APacket.oneLine (by decide +kernel) (by decide) fun f hf => by
      rw [List.mem_singleton.1 hf]
      trivial
  intro R hR
  rcases List.mem_append.1 hR with hR | hR
  · exact d.results_oneLine R hR
  · simp only [List.mem_cons, List.not_mem_nil, or_false] at hR
    rcases hR with rfl | rfl | rfl | rfl
    · exact hok
    · exact herror
    · exact hcms
    · exact hcme

variable (d : LineDriver) {x : Text}

theorem parsers_result (x : Text) : d.parsers.result x =
    verdict id ((ResponsePack.tryAll d.resultTypes x 0).map
      fun r => (r.1.isSome, r.1.or none, r.2)) := rfl

theorem parsers_urc (x : Text) : d.parsers.urc x =
    match (d.dispatcher.dispatch x).map (·.1) with
    | none => .throws
    | some n => if 0 < n then .accepts () n else .rejects := rfl

/-- **An attempt** rejects, or takes a line: a URC, or the final result that is not there yet. -/
theorem attempt_cases (p : Progress (ResponsePack.Variant d.resultTypes) Unit) (x : Text) :
    d.parsers.attempt p x = .rejects ∨ ∃ p' n, d.parsers.attempt p x = .accepts p' n ∧
      HasLine x ∧ 0 < n ∧ n ≤ x.length ∧ (p' = p ∨ p'.missing = p.missing ∧ p'.result.isSome = true) := by
  have hresponse : d.parsers.missingResponse p x = .rejects := by
    unfold TextParsers.missingResponse
    split <;> rfl
  have hurc : d.parsers.urc x = .rejects ∨ ∃ n, d.parsers.urc x = .accepts () n ∧
      HasLine x ∧ 0 < n ∧ n ≤ x.length := by
    rw [parsers_urc]
    rcases d.dispatcher.dispatch_outcome d.urcs_oneLine x with h | ⟨value, n, h, hline, hpos, hle⟩
    · rw [h]
      exact Or.inl rfl
    · rw [h]
      exact Or.inr ⟨n, if_pos hpos, hline, hpos, hle⟩
  have hrest : (d.parsers.urc x).map (fun _ => p) = .rejects ∨ ∃ n,
      (d.parsers.urc x).map (fun _ => p) = .accepts p n ∧ HasLine x ∧ 0 < n ∧ n ≤ x.length := by
    rcases hurc with h | ⟨n, h, hn⟩
    · exact Or.inl (by rw [h]; rfl)
    · exact Or.inr ⟨n, by rw [h]; rfl, hn⟩
  unfold TextParsers.attempt
  rw [hresponse, Verdict.rejects_orElse]
  by_cases hp : p.result.isSome = true
  · have hresult : d.parsers.missingResult p x = .rejects := if_pos hp
    rw [hresult, Verdict.rejects_orElse]
    rcases hrest with h | ⟨n, h, hline, hpos, hle⟩
    · exact Or.inl h
    · exact Or.inr ⟨p, n, h, hline, hpos, hle, Or.inl rfl⟩
  · obtain ⟨value, n, htry, hvalue⟩ :=
      ResponseType.OneLine.tryAll_outcome d.resultTypes_oneLine x 0
    have hresult : d.parsers.missingResult p x =
        (verdict id (some (value.isSome, value.or none, n))).map
          fun v => { p with result := some v } := by
      unfold TextParsers.missingResult
      rw [if_neg hp, parsers_result, htry]
      rfl
    rw [hresult]
    cases value with
    | none =>
      rcases hrest with h | ⟨n, h, hline, hpos, hle⟩
      · exact Or.inl h
      · exact Or.inr ⟨p, n, h, hline, hpos, hle, Or.inl rfl⟩
    | some v =>
      obtain ⟨hline, hpos, hle⟩ := hvalue rfl
      exact Or.inr ⟨_, n, rfl, hline, hpos, hle, Or.inr ⟨rfl, rfl⟩⟩

/-- With a whole line on the input, text behind it does not matter. -/
theorem attempt_append (h : HasLine x) (t : Text) (p : Progress (ResponsePack.Variant d.resultTypes) Unit) :
    d.parsers.attempt p (x ++ t) = d.parsers.attempt p x := by
  have hresult : d.parsers.result (x ++ t) = d.parsers.result x := by
    rw [parsers_result, parsers_result, ResponseType.OneLine.tryAll_append h t d.resultTypes_oneLine]
  have hurc : d.parsers.urc (x ++ t) = d.parsers.urc x := by
    rw [parsers_urc, parsers_urc, d.dispatcher.dispatch_append d.urcs_oneLine h t]
  unfold TextParsers.attempt TextParsers.missingResponse TextParsers.missingResult
  rw [hresult, hurc]
  rfl

/-- A step takes nothing or a whole line. -/
theorem reader_cases (p : Progress (ResponsePack.Variant d.resultTypes) Unit) (x : Text) :
    d.parsers.reader.step p x = .rejects ∨ ∃ p' n, d.parsers.reader.step p x = .accepts p' n ∧
      HasLine x ∧ 0 < n ∧ (p' = p ∨ p'.missing = p.missing ∧ p'.result.isSome = true) := by
  rcases d.attempt_cases p x with h | ⟨p', n, h, hline, hpos, hle, hp'⟩
  · exact Or.inl (Verdict.within_eq_rejects.2 h)
  · exact Or.inr ⟨p', n, Verdict.within_eq_accepts.2 ⟨h, hle⟩, hline, hpos, hp'⟩

theorem reader_next (p : Progress (ResponsePack.Variant d.resultTypes) Unit) (x : Text) :
    d.parsers.reader.step p x = .rejects ∨
      ∃ p' n, d.parsers.reader.step p x = .accepts p' n ∧ 0 < n := by
  rcases d.reader_cases p x with h | ⟨p', n, h, -, hpos, -⟩
  · exact Or.inl h
  · exact Or.inr ⟨p', n, h, hpos⟩

theorem reader_stable : d.parsers.reader.Stable := by
  intro p p' x n t hstep
  obtain ⟨hattempt, hle⟩ := Verdict.within_eq_accepts.1 hstep
  have hline : HasLine x := by
    rcases d.attempt_cases p x with h | ⟨_, _, h, hline, -⟩
    · rw [h] at hattempt
      cases hattempt
    · exact hline
  refine Verdict.within_eq_accepts.2 ⟨?_, ?_⟩
  · rw [d.attempt_append hline t, hattempt]
  · rw [List.length_append]
    omega

/-- Without a response to wait for, the final result is all there is to find. -/
theorem reader_atOnce : d.parsers.reader.AtOnce (.start false) := by
  intro p' x n hstep
  rcases d.reader_cases (.start false) x with h | ⟨q, m, h, -, -, hq⟩
  · rw [h] at hstep
    cases hstep
  · rw [h] at hstep
    cases hstep
    exact hq.imp id fun hq => ⟨hq.1, hq.2⟩

/-- The parsers are those of the driver, for a command without a response object. -/
theorem realises {κ ρ : Type} (acceptCommand : κ → Serializer → Option (Bool × Serializer))
    (acceptResponse : ρ → Text → Option (Bool × ρ × Nat)) (stream : Text) :
    Realises (d.interfaces acceptCommand acceptResponse).toVirtuals d.parsers (fun _ => False)
      (fun _ => ()) stream where
  result value x _ := by
    simp only [interfaces, parsers, ResponsePack.accept]
    rcases ResponsePack.tryAll d.resultTypes x 0 with _ | ⟨_ | v, n⟩ <;> rfl
  response _ _ hC := hC.elim
  keeps _ _ _ _ _ hC := hC.elim
  dispatch d' x _ := by
    simp only [interfaces, parsers, UrcDispatcher.dispatch, ResponsePack.accept]
    rcases ResponsePack.tryAll (Urc d.urcs) x 0 with _ | ⟨_ | v, n⟩ <;> rfl

end LineDriver

/-! ## Calls on fragments -/

theorem RxBuffer.fits_of_read {rx : RxBuffer} {bytes input : Text} {rxstorage : Storage}
    (h : rx.read bytes = some (rxstorage, input)) : rx.leftover + bytes.length ≤ storageSize := by
  unfold read at h
  simp only at h
  split at h
  · rename_i hle
    exact hle
  · cases h

section Fragments

variable {π ρ δ β : Type} {V : Virtuals π ρ δ} {T : TextParsers π β} {C : ρ → Prop} {val : ρ → β}
  {stream : Text} {rx : RxBuffer} {frc : π} {res : Option ρ} {urcs : δ}

/-- **Calls of `receive` that all return** read the fragments: one returns true exactly where the
reading finishes. -/
theorem receiveFragments_cases {cs : List Text} {r : Option (π × Option ρ)}
    (hT : Realises V T C val stream) (hC : ∀ obj, res = some obj → C obj)
    (hle : rx.leftover ≤ storageSize) (hin : rx.unread ++ cs.flatten <:+: stream)
    (h : receiveFragments V cs rx frc res urcs = some r) :
    (r = none ∧ ∀ q, ¬ T.reader.Finishes (.start res.isSome) rx.unread cs q) ∨
      ∃ q, ∃ t : RxLoop π ρ δ, r = some (t.frc, t.res) ∧
        T.reader.Finishes (.start res.isSome) rx.unread cs q ∧ q.Complete ∧
        Represents C val res.isSome t q := by
  induction cs generalizing rx frc res urcs with
  | nil =>
    cases h
    exact Or.inl ⟨rfl, fun q hfinishes => by cases hfinishes⟩
  | cons c cs ih =>
    rw [List.flatten_cons, ← List.append_assoc] at hin
    have hin1 : rx.unread ++ c <:+: stream := (List.prefix_append _ _).isInfix.trans hin
    rw [receiveFragments] at h
    split at h
    · rename_i r1 hr1
      obtain ⟨p, y, hread, hrep, hsuccess⟩ := reads_of_receive hT hC hle hin1 hr1
      obtain ⟨rxstorage, input, -, hbytes, -, -⟩ := receive_ok_iff.1 hr1
      obtain ⟨r2, hr2, -, -, hunread, hleftover⟩ :=
        receive_of_reads hT hC (RxBuffer.fits_of_read hbytes) hin1 hread
      rw [hr1] at hr2
      cases hr2
      split at h
      · rename_i hs
        cases h
        exact Or.inr ⟨p, r1.loop, rfl, .now hread (hsuccess.1 hs), hsuccess.1 hs, hrep⟩
      · rename_i hs
        have hp : ¬ p.Complete := fun hp => hs (hsuccess.2 hp)
        have hlen := hread.suffix.length_le
        rw [List.length_append, rx.unread_length hle] at hlen
        have hfit := RxBuffer.fits_of_read hbytes
        have hrest := @ih r1.rx r1.loop.frc r1.loop.res r1.loop.urcs hrep.inClass (by omega)
          (by rw [hunread]; exact (List.suffix_append_self_iff.2 hread.suffix).isInfix.trans hin) h
        rw [hrep.object, hunread] at hrest
        rcases hrest with ⟨rfl, hnone⟩ | ⟨q, t, hr, hfinishes, hq, ht⟩
        · refine Or.inl ⟨rfl, fun q hfinishes => ?_⟩
          cases hfinishes with
          | now hread' hq => exact hp ((hread.unique hread').1 ▸ hq)
          | later hread' _ hrest =>
            rw [← (hread.unique hread').2] at hrest
            exact hnone q hrest
        · exact Or.inr ⟨q, t, hr, .later hread hp hfinishes, hq, ht⟩
    · cases h

end Fragments

/-! ## The line at rest -/

section Rest

variable {κ π ρ δ : Type} {I : Interfaces κ π ρ δ}

namespace Link

variable {s s' t : Link κ π ρ δ} {c : Nat}

/-- Not a step of the modem, nor one that the orchestrator does not make by itself. -/
def Step.isOwn : Step κ π ρ → Bool
  | .arrive _ => false
  | .poll => true
  | .notifyRx => true
  | .activity l => l.isOwn

variable (I) in
/-- No such step can be taken. -/
def AtRest (s : Link κ π ρ δ) : Prop := ∀ l : Step κ π ρ, l.isOwn = true → s.step I l = none

theorem opened_step {l : Step κ π ρ} (h : s.step I l = some s') : s'.io.opened = s.io.opened := by
  cases step_cases h with
  | arrive => rfl
  | poll => rfl
  | notifyRx => rfl
  | activity hl ho hio =>
    refine run_inv (P := fun io => io.opened = s.io.opened) (fun io l io' hio h => ?_) _ _ _ rfl hio
    rw [← hio]
    cases DeviceIO.step_cases h <;> rfl

theorem opened_of_run {ls : List (Step κ π ρ)} (h : run (step I) ls s = some t) :
    t.io.opened = s.io.opened :=
  run_inv (P := fun u => u.io.opened = s.io.opened)
    (fun _ _ _ hu h => (opened_step h).trans hu) ls s t rfl h

/-- At rest the tty is empty: otherwise there is something to poll or to report. -/
theorem inbox_of_atRest (hopen : s.io.opened = true) (hrest : s.AtRest I) : s.io.inbox = [] := by
  by_contra hne
  cases hpoller : s.io.poller with
  | polling =>
    have hstep := hrest .poll rfl
    simp only [step, DeviceIO.step, DeviceIO.poll, hopen, hpoller, hne, ne_eq, not_false_eq_true,
      and_self, if_true, Option.map_some] at hstep
    cases hstep
  | notifying =>
    have hstep := hrest .notifyRx rfl
    simp only [step, DeviceIO.step, hpoller, if_true, Option.map_some] at hstep
    cases hstep

/-- At rest no call is free to return. -/
theorem blocked_of_atRest (hrest : s.AtRest I) (hc : s.orchestrator.system.phase c = .blocked) :
    ¬ 0 < (s.orchestrator.system.ctx.calls c).sem := by
  intro hpos
  obtain ⟨o, ho⟩ := Option.isSome_iff_exists.1
    (Orchestrator.acquire_enabled (I := I) (s := s.orchestrator) hc hpos)
  have hstep := hrest (.activity (.caller (.acquire c))) rfl
  rw [activity_step (fun _ he => by cases he), ho] at hstep
  cases hstep

theorem atRest_of (hinbox : s.io.inbox = []) (hpoller : s.io.poller = .polling)
    (hrest : s.orchestrator.AtRest I) : s.AtRest I := by
  intro l hl
  cases l with
  | arrive bytes => cases hl
  | poll => simp [step, DeviceIO.step, DeviceIO.poll, hinbox]
  | notifyRx => simp [step, DeviceIO.step, hpoller]
  | activity l =>
    rw [activity_step (fun ev he => by rw [he] at hl; cases hl), hrest l hl]
    rfl

/-- **A call at rest**: all that came in since its command was sent has been handed to `receive`; it
has returned if one of the calls has returned true, and waits otherwise. -/
theorem settled_at_rest {ctx : Context κ π ρ δ} {io : DeviceIO} {before ls : List (Step κ π ρ)}
    (hopen : io.opened = true) (hreach : run (step I) before (init ctx io) = some s)
    (hst : s.orchestrator.system.state = .waitForResponse ⟨c⟩)
    (hrun : run (step I) ls s = some t) (hrest : t.AtRest I) :
    ∃ cs r, cs.flatten = s.io.inbox ++ arrived ls ∧
      receiveFragments I.toVirtuals cs s.orchestrator.system.ctx.rx
          (s.orchestrator.system.ctx.calls c).result (s.orchestrator.system.ctx.calls c).response
          s.orchestrator.system.ctx.urcs = some r ∧
      (r = none → ∀ ec, t.orchestrator.system.phase c ≠ .returned ec) ∧
      ∀ frc res, r = some (frc, res) → (∃ ec, t.orchestrator.system.phase c = .returned ec) ∧
        (t.orchestrator.system.ctx.calls c).result = frc := by
  have hsystem := Orchestrator.run_system (run_orchestrator hreach)
  have hsystem' := Orchestrator.run_system (run_orchestrator hrun)
  have hs : StoredBlocked s.orchestrator.system :=
    run_inv (fun _ _ _ hu h => System.storedBlocked_step hu h) _ _ _ (fun _ he => by cases he) hsystem
  have ht : StoredBlocked t.orchestrator.system :=
    run_inv (fun _ _ _ hu h => System.storedBlocked_step hu h) _ _ _ hs hsystem'
  obtain ⟨r, hr, hnone, hsome⟩ := System.run_waiting hs hst hsystem'
  obtain ⟨hin, -⟩ := run_moves hrun
  have hopen' : t.io.opened = true := by rw [opened_of_run hrun, opened_of_run hreach]; exact hopen
  rw [inbox_of_atRest hopen' hrest, List.append_nil] at hin
  refine ⟨_, r, hin, hr, fun he ec hec => ?_, fun frc res he => ?_⟩
  · have hblocked := (ht c (by rw [hnone he]; rfl)).1
    rw [hec] at hblocked
    cases hblocked
  · have hsettled := hsome frc res he
    refine ⟨?_, hsettled.result⟩
    rcases hsettled.passed with ⟨hblocked, hpos⟩ | hreturned
    · exact absurd hpos (blocked_of_atRest hrest hblocked)
    · exact hreturned

end Link

end Rest

/-- **Results are delivered**: with a driver whose results and URCs each take one line, whatever type
they have, consider a command without a response object that has been sent, and any run from there
to a state in which all threads are at rest and the modem has sent something.  The call has returned
exactly when what came in since then, read in one go behind what was unread, holds its final result;
and then with this result.  It does not matter how the tty and the reads have cut the text, which
other calls wait and which events are handled in between. -/
theorem result_delivered {κ ρ : Type} (d : LineDriver)
    {acceptCommand : κ → Serializer → Option (Bool × Serializer)}
    {acceptResponse : ρ → Text → Option (Bool × ρ × Nat)}
    {ctx : Context κ (ResponsePack.Variant d.resultTypes) ρ
      (UrcDispatcher d.urcs)} {io : DeviceIO}
    {before ls : List (Link.Step κ (ResponsePack.Variant d.resultTypes) ρ)}
    {s t : Link κ (ResponsePack.Variant d.resultTypes) ρ (UrcDispatcher d.urcs)}
    {c : Nat} (hroom : ctx.rx.leftover ≤ storageSize) (hopen : io.opened = true)
    (hreach : run (Link.step (d.interfaces acceptCommand acceptResponse)) before (Link.init ctx io) =
      some s)
    (hst : s.orchestrator.system.state = .waitForResponse ⟨c⟩)
    (hnone : (s.orchestrator.system.ctx.calls c).response = none)
    (hrun : run (Link.step (d.interfaces acceptCommand acceptResponse)) ls s = some t)
    (hrest : t.AtRest (d.interfaces acceptCommand acceptResponse))
    (harrived : s.io.inbox ++ Link.arrived ls ≠ []) :
    ∃ q y, d.parsers.reader.Reads (.start false)
        (s.orchestrator.system.ctx.rx.unread ++ (s.io.inbox ++ Link.arrived ls)) q y ∧
      ((∃ ec, t.orchestrator.system.phase c = .returned ec) ↔ q.Complete) ∧
      (q.Complete → some (t.orchestrator.system.ctx.calls c).result = q.result) := by
  obtain ⟨cs, r, hcs, hcalls, hno, hyes⟩ := Link.settled_at_rest hopen hreach hst hrun hrest
  have hle : s.orchestrator.system.ctx.rx.leftover ≤ storageSize :=
    Orchestrator.leftover_of_run hroom (Link.run_orchestrator hreach)
  have hT := d.realises acceptCommand acceptResponse
    (s.orchestrator.system.ctx.rx.unread ++ cs.flatten)
  obtain ⟨q, y, hread⟩ := Reader.exists_reads d.reader_next (.start false)
    (s.orchestrator.system.ctx.rx.unread ++ cs.flatten)
  have hne : cs ≠ [] := by
    rintro rfl
    exact harrived hcs.symm
  have hcases := receiveFragments_cases hT (by rw [hnone]; exact fun _ he => by cases he) hle
    (List.infix_refl _) hcalls
  rw [hnone] at hcases
  rw [← hcs]
  refine ⟨q, y, hread, ?_⟩
  rcases hcases with ⟨rfl, hunfinished⟩ | ⟨q', u, rfl, hfinishes, hq', hu⟩
  · have hq : ¬ q.Complete := fun hq =>
      hunfinished q (hread.finishes d.reader_stable d.reader_atOnce d.reader_next hne hq)
    exact ⟨iff_of_false (fun ⟨ec, hec⟩ => hno rfl ec hec) hq, fun h => absurd h hq⟩
  · obtain ⟨-, y', hread'⟩ := hfinishes.reads d.reader_stable d.reader_atOnce d.reader_next
    obtain ⟨rfl, -⟩ := hread.unique hread'
    obtain ⟨hreturned, hresult⟩ := hyes u.frc u.res rfl
    refine ⟨iff_of_true hreturned hq', fun _ => ?_⟩
    rw [hresult]
    exact hu.result (by rw [hu.haveResult, hq'.2])

/-- A driver with the URC of the tests. -/
def lineModem : LineDriver :=
  ⟨cmsCode, cmeCode, [], [fooUrc.type], fun _ h => (by cases h), oneLine_map_type [fooUrc]⟩

def lineInterfaces : Interfaces PacketCommand (ResponsePack.Variant lineModem.resultTypes) Unit
    (UrcDispatcher lineModem.urcs) :=
  lineModem.interfaces PacketCommand.accept noParser

def lineContext : Context PacketCommand (ResponsePack.Variant lineModem.resultTypes) Unit
    (UrcDispatcher lineModem.urcs) where
  rx := RxBuffer.init
  urcs := lineModem.dispatcher
  txbuf := List.replicate storageSize 0
  calls _ := ⟨⟨text "AT", Constants.Cr, []⟩, none, none, .noError, 0⟩
  actions := []

/-- `AT+X=7` goes out. -/
def sentLine : List (Link.Step PacketCommand (ResponsePack.Variant lineModem.resultTypes) Unit) :=
  [.activity (.caller (.call 0 ⟨text "AT+X=", Constants.Cr, [.int 7]⟩ none none ⟨true, 7, []⟩))]

/-- A URC and an `OK`, cut inside the `OK`. -/
def deliveredLine : List (Link.Step PacketCommand (ResponsePack.Variant lineModem.resultTypes) Unit) :=
  [.arrive (text "+FOO: 12\r\nO"), .poll, .notifyRx, .activity .get,
    .activity (.handle ⟨true, 0, text "+FOO: 12\r\nO"⟩), .arrive (text "K\r\n"), .poll, .notifyRx,
    .activity .get, .activity (.handle ⟨true, 0, text "K\r\n"⟩), .activity (.caller (.acquire 0))]

theorem sentLine_ends : ∃ s, run (Link.step lineInterfaces) sentLine (Link.init lineContext idleTty) =
    some s ∧ s.orchestrator.system.state = .waitForResponse ⟨0⟩ ∧
      (s.orchestrator.system.ctx.calls 0).response = none := by
  have hsent : (run (Link.step lineInterfaces) sentLine (Link.init lineContext idleTty)).map
      (fun s => (s.orchestrator.system.state, (s.orchestrator.system.ctx.calls 0).response)) =
      some (.waitForResponse ⟨0⟩, none) := by decide +kernel
  obtain ⟨s, hs, hpair⟩ := Option.map_eq_some_iff.1 hsent
  obtain ⟨hst, hnone⟩ := Prod.mk.inj hpair
  exact ⟨s, hs, hst, hnone⟩

/-- All has been handled, and the call has returned. -/
theorem deliveredLine_rests : ∃ t, run (Link.step lineInterfaces) (sentLine ++ deliveredLine)
    (Link.init lineContext idleTty) = some t ∧ t.AtRest lineInterfaces := by
  have hdevice : (run (Link.step lineInterfaces) (sentLine ++ deliveredLine)
      (Link.init lineContext idleTty)).map (fun t =>
        (t.io.inbox, t.io.poller, t.orchestrator.pending)) = some ([], .polling, []) := by
    decide +kernel
  obtain ⟨t, ht, hfacts⟩ := Option.map_eq_some_iff.1 hdevice
  simp only [Prod.mk.injEq] at hfacts
  obtain ⟨hinbox, hpoller, hpending⟩ := hfacts
  have hmachine : (run (Link.step lineInterfaces) (sentLine ++ deliveredLine)
      (Link.init lineContext idleTty)).map (fun t =>
        (t.orchestrator.system.state, t.orchestrator.system.phase 0)) =
      some (.idle, .returned .noError) := by decide +kernel
  rw [ht] at hmachine
  obtain ⟨hidle, hreturned⟩ := Prod.mk.inj (Option.some.inj hmachine)
  have hreach := Link.run_orchestrator ht
  have hnil : (Orchestrator.init lineContext).Known [] := fun _ _ => rfl
  have hknown := Orchestrator.known_of_run hnil hreach
  have hcalled : (Link.activities lineInterfaces (sentLine ++ deliveredLine)
      (Link.init lineContext idleTty)).filterMap Activity.called? = [0] := by decide +kernel
  have hphase : ∀ c, t.orchestrator.system.phase c = .absent ∨
      ∃ ec, t.orchestrator.system.phase c = .returned ec := by
    intro c
    by_cases hc : c = 0
    · exact Or.inr ⟨_, hc ▸ hreturned⟩
    · refine Or.inl (hknown c ?_)
      rw [List.nil_append, hcalled, List.mem_singleton]
      exact hc
  have horderly : t.orchestrator.Orderly := by
    refine ⟨Orchestrator.undeferred_of_run hreach, fun c hc => ?_, fun c hc => ?_, fun _ c hc => ?_,
      Orchestrator.leftover_of_run (Nat.zero_le _) hreach⟩
    · rw [hidle] at hc
      cases hc
    · rcases hphase c with h | ⟨ec, h⟩ <;> rw [h] at hc <;> cases hc
    · rcases hphase c with h | ⟨ec, h⟩ <;> rw [h] at hc <;> cases hc
  exact ⟨t, ht, Link.atRest_of hinbox hpoller
    (Orchestrator.atRest_of_waits horderly hpending (Or.inl ⟨hidle, hphase⟩))⟩

theorem result_delivered_deliveredLine :
    ∃ s t, run (Link.step lineInterfaces) sentLine (Link.init lineContext idleTty) = some s ∧
      run (Link.step lineInterfaces) deliveredLine s = some t ∧
      ∃ q y, lineModem.parsers.reader.Reads (.start false)
          (s.orchestrator.system.ctx.rx.unread ++ (s.io.inbox ++ Link.arrived deliveredLine)) q y ∧
        ((∃ ec, t.orchestrator.system.phase 0 = .returned ec) ↔ q.Complete) ∧
        (q.Complete → some (t.orchestrator.system.ctx.calls 0).result = q.result) := by
  obtain ⟨s, hs, hst, hnone⟩ := sentLine_ends
  obtain ⟨t, hall, hrest⟩ := deliveredLine_rests
  obtain ⟨u, hu, ht⟩ := run_of_append hall
  rw [hs] at hu
  cases hu
  have harrived : s.io.inbox ++ Link.arrived deliveredLine ≠ [] := by
    rw [Ne, List.append_eq_nil_iff]
    exact fun h => absurd h.2 (by decide +kernel)
  exact ⟨s, t, hs, ht,
    result_delivered lineModem (Nat.zero_le _) rfl hs hst hnone ht hrest harrived⟩

end ATLink
