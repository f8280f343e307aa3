import ATLink.Quiescence

/-!
# Blockage

The parsers are tried at the start of the unread text only.  What none of them takes stays there,
and everything behind it waits.

* `Blocks` — texts that no parser takes from, whatever arrives behind them.
* `Stray` — the text starts with a character that no standard reply starts with.
* `LinuxExample` — the parsers of the Linux example: the final results, responses whose tag starts
  with a plus sign, and a dispatcher that takes nothing.

Principal results: `blocked_for_good` — once such a text is unread nothing is ever taken and no call
is ever served; `LinuxExample.stray_blocks` — with the parsers of the example any stray character
is enough, such as the echo of a command.
-/

namespace ATLink

open StringView Deserializer LabelledRun

section Blocks

variable {π ρ δ : Type}

/-- Texts from which no parser takes anything. -/
structure Blocks (V : Virtuals π ρ δ) (P : Text → Prop) : Prop where
  append : ∀ x y, P x → P (x ++ y)
  result : ∀ x frc frc' n, P x → V.acceptResult frc x ≠ some (true, frc', n)
  response : ∀ x res res' n, P x → V.acceptResponse res x ≠ some (true, res', n)
  dispatch : ∀ x urcs urcs' n, P x → V.dispatch urcs x = some (n, urcs') → n = 0

/-! ## One call -/

variable {V : Virtuals π ρ δ} {P : Text → Prop} {rx : RxBuffer} {bytes : Text}

/-- A call of `receive` takes nothing. -/
theorem Blocks.receive {frc : π} {res : Option ρ} {urcs : δ} {r : Received π ρ δ} (hV : Blocks V P)
    (hle : rx.leftover ≤ storageSize) (hP : P (rx.unread ++ bytes))
    (h : ATLink.receive V rx bytes frc res urcs = some (.ok r)) :
    r.success = false ∧ r.loop.taken = [] := by
  obtain ⟨rxstorage, input, t, hread, hloop, rfl⟩ := receive_ok_iff.1 h
  obtain ⟨rfl, -⟩ := RxBuffer.read_eq hle hread
  obtain ⟨res', -, hruns⟩ := receiveLoop_runs hloop
  cases hruns with
  | last hturn =>
    cases hturn with
    | last => exact ⟨rfl, rfl⟩
  | turn hturn =>
    cases hturn with
    | response _ _ haccept => exact absurd haccept (hV.response _ _ _ _ hP)
    | result _ _ haccept => exact absurd haccept (hV.result _ _ _ _ hP)
    | urc _ _ hdispatch hpos =>
      rw [hV.dispatch _ _ _ _ hP hdispatch] at hpos
      cases hpos

/-- Nor does a call of `dispatchUrcs`. -/
theorem Blocks.dispatchUrcs {urcs urcs' : δ} {rx' : RxBuffer} {taken : List Slice} (hV : Blocks V P)
    (hle : rx.leftover ≤ storageSize) (hP : P (rx.unread ++ bytes))
    (h : ATLink.dispatchUrcs V rx bytes urcs = some (rx', urcs', taken)) : taken = [] := by
  obtain ⟨rxstorage, input, m, hread, hall, -, -⟩ := dispatchUrcs_iff.1 h
  obtain ⟨rfl, -⟩ := RxBuffer.read_eq hle hread
  obtain ⟨n, urcs1, hdispatch, hloop⟩ := dispatchAllUrcs_iff.1 hall
  rw [hV.dispatch _ _ _ _ hP hdispatch, dispatchLoop] at hloop
  cases hloop
  rfl

theorem Blocks.rxCall {h h' : History δ} {call : RxCall π ρ} (hV : Blocks V P)
    (hle : h.rx.leftover ≤ storageSize) (hP : P (h.rx.unread ++ call.bytes))
    (hstep : ATLink.rxCall V h call = some h') : h'.taken = h.taken := by
  cases call with
  | receive frc res bytes =>
    simp only [ATLink.rxCall] at hstep
    split at hstep
    · rename_i r hr
      cases hstep
      rw [(hV.receive hle hP hr).2, List.append_nil]
    · cases hstep
  | dispatchUrcs bytes =>
    obtain ⟨⟨rx, urcs, taken⟩, hd, rfl⟩ := Option.map_eq_some_iff.1 hstep
    rw [hV.dispatchUrcs hle hP hd, List.append_nil]

end Blocks

/-! ## Runs -/

section Runs

variable {κ π ρ δ : Type} {I : Interfaces κ π ρ δ} {P : Text → Prop} {s s' t : System κ π ρ δ}

namespace System

/-- A step takes nothing from the text, and puts behind it what it reads. -/
theorem blocked_stream {l : Step κ π ρ} (hV : Blocks I.toVirtuals P)
    (hle : s.ctx.rx.leftover ≤ storageSize) (hP : P s.ctx.rx.unread) (h : s.step I l = some s') :
    takes I s l s' = [] ∧ s'.ctx.rx.unread = s.ctx.rx.unread ++ (chunks [l]).flatten := by
  have htakes : takes I s l s' = [] := by
    unfold takes
    rcases calls_of_step h with ⟨-, hcall, -⟩ | ⟨call, u, hcalls⟩
    · rw [hcall]
      rfl
    · have hnone : u.taken = [] := hV.rxCall hle (hV.append _ _ hP) hcalls.returns
      rw [hcalls.made, Option.bind_some, hcalls.returns]
      simp only [hnone, List.map_nil]
  obtain ⟨-, hbytes, -⟩ := stream_step hle h
  rw [htakes] at hbytes
  exact ⟨htakes, hbytes⟩

/-- Waking the callers serves none of them. -/
theorem served_notified {Q : Prop} [Decidable Q] {ctx' : Context κ π ρ δ} {next : State}
    (hsem : ∀ d, (ctx'.calls d).sem = (s.ctx.calls d).sem) (d : Nat) :
    (System.mk ctx' next (if Q then notifyAll s.phase else s.phase)).Served d ↔ s.Served d := by
  unfold Served
  rw [show ((System.mk ctx' next (if Q then notifyAll s.phase else s.phase)).ctx.calls d).sem =
    (s.ctx.calls d).sem from hsem d]
  rcases notified_phase (P := Q) s.phase d with hphase | ⟨hwaiting, hphase⟩
  · simp only [hphase]
  · simp only [hphase, hwaiting, reduceCtorEq, exists_false, false_and, or_self]

/-- A step completes no command and serves no call. -/
theorem blocked_serves {l : Step κ π ρ} (hV : Blocks I.toVirtuals P)
    (hle : s.ctx.rx.leftover ≤ storageSize) (hP : P s.ctx.rx.unread) (h : s.step I l = some s') :
    (∃ w, s'.ctx.actions = s.ctx.actions ++ w ∧ ∀ c, .completed c ∉ w) ∧
      ∀ d, s'.Served d ↔ s.Served d := by
  by_cases hl : ∃ ev a, l = .handle ev a
  · obtain ⟨ev, a, rfl⟩ := hl
    obtain ⟨⟨next, ctx'⟩, hhandle, rfl⟩ := Option.map_eq_some_iff.1 h
    generalize s.state = state at hhandle
    have hsilent : ∀ {u : Context κ π ρ δ}, u.actions = s.ctx.actions →
        ∃ w, u.actions = s.ctx.actions ++ w ∧ ∀ c, .completed c ∉ w := fun hactions =>
      ⟨[], by rw [hactions, List.append_nil], fun _ => List.not_mem_nil⟩
    cases State.handled hhandle with
    | ignored => exact ⟨hsilent rfl, served_notified fun _ => rfl⟩
    | dispatched _ hd =>
      refine ⟨hsilent (Context.dispatchUrcs_actions hd), served_notified fun d => ?_⟩
      rw [Context.dispatchUrcs_calls hd]
    | @sent msg success _ hsend =>
      obtain ⟨w, hactions, hemits⟩ := Context.send_emits hsend
      refine ⟨⟨w, hactions, fun c hmem => ?_⟩, served_notified fun d => ?_⟩
      · generalize (if success = true then State.waitForResponse msg else .idle) = next at hemits
        cases hemits <;> simp at hmem
      · rw [(Context.send_cases hsend).1]
    | incomplete hreceive =>
      obtain ⟨r, -, -, rfl⟩ := Context.receive_iff.1 hreceive
      exact ⟨hsilent rfl, served_notified fun d => Context.receive_sem hreceive d⟩
    | completed hreceive =>
      -- `receive` returns false
      obtain ⟨r, hr, hsuccess, -⟩ := Context.receive_iff.1 hreceive
      rw [(hV.receive hle (hV.append _ _ hP) hr).1] at hsuccess
      cases hsuccess
  · have hl : ∀ ev a, l ≠ .handle ev a := fun ev a he => hl ⟨ev, a, he⟩
    obtain ⟨-, w, hactions, hcompleted, -⟩ := caller_acts hl h
    exact ⟨⟨w, hactions, hcompleted⟩, served_step hl h⟩

end System

/-- **Blocked for good**: once the unread text is one that no parser takes from, in every run that
follows, of any number of callers and events, nothing is taken any more and all that is read is put
behind it; no command is completed, and the calls that have returned or are free to are the same: no
other call ever returns. -/
theorem blocked_for_good {ls : List (Step κ π ρ)} (hV : Blocks I.toVirtuals P)
    (hle : s.ctx.rx.leftover ≤ storageSize) (hP : P s.ctx.rx.unread)
    (hrun : run (System.step I) ls s = some t) :
    collect (System.step I) (System.takes I) ls s = [] ∧
      t.ctx.rx.unread = s.ctx.rx.unread ++ (chunks ls).flatten ∧
      (∃ w, t.ctx.actions = s.ctx.actions ++ w ∧ ∀ c, .completed c ∉ w) ∧
      ∀ d, t.Served d ↔ s.Served d := by
  induction ls generalizing s with
  | nil =>
    cases hrun
    exact ⟨rfl, (List.append_nil _).symm, ⟨[], (List.append_nil _).symm, fun _ => List.not_mem_nil⟩,
      fun _ => Iff.rfl⟩
  | cons l ls ih =>
    obtain ⟨s', hstep, hrest⟩ := run_cons_some hrun
    obtain ⟨htakes, hunread⟩ := System.blocked_stream hV hle hP hstep
    obtain ⟨⟨w, hactions, hcompleted⟩, hserved⟩ := System.blocked_serves hV hle hP hstep
    have hP' : P s'.ctx.rx.unread := by
      rw [hunread]
      exact hV.append _ _ hP
    obtain ⟨htakes', hunread', ⟨w', hactions', hcompleted'⟩, hserved'⟩ :=
      ih (System.stream_step hle hstep).1 hP' hrest
    have hchunks : chunks (l :: ls) = chunks [l] ++ chunks ls := by
      unfold chunks
      rw [← List.filterMap_append, List.singleton_append]
    refine ⟨?_, ?_, ⟨w ++ w', ?_, fun c hmem => ?_⟩, fun d => (hserved' d).trans (hserved d)⟩
    · rw [collect_cons hstep, htakes, htakes']
      rfl
    · rw [hunread', hunread, hchunks, List.flatten_append, List.append_assoc]
    · rw [hactions', hactions, List.append_assoc]
    · exact (List.mem_append.1 hmem).elim (hcompleted c) (hcompleted' c)

end Runs

/-! ## The Linux example -/

/-- No tag of the example starts with the first character, and it is not skipped. -/
def Stray (x : Text) : Prop := ∃ c r, x = c :: r ∧ c ∉ blanks ∧ c ∉ text "\r+OE"

/-- A text that starts otherwise is not found there. -/
theorem visitSequence_stray {x seq : Text} {d : Byte} (hx : Stray x) (hseq : seq.head? = some d)
    (hd : d ∈ text "\r+OE") : visitSequence x seq 0 = some (false, 0) := by
  obtain ⟨c, r, rfl, hblank, hc⟩ := hx
  refine visitSequence_absent Blanks.nil (fun e he => ?_) (fun hlead => ?_) []
  · cases Option.some.inj he
    exact hblank
  · obtain ⟨tail, rfl⟩ := List.head?_eq_some_iff.1 hseq
    rw [List.cons_prefix_cons] at hlead
    exact hc (hlead.1 ▸ hd)

theorem acceptWithTerm_stray {x tag term : Text} {fields : List ResponseField} {d : Byte} (hx : Stray x)
    (htag : tag.head? = some d) (hd : d ∈ text "\r+OE") :
    acceptWithTerm (visitor x) tag term fields 0 = some (false, fields, 0) := by
  have hpos : 0 < tag.length := by
    obtain ⟨tail, rfl⟩ := List.head?_eq_some_iff.1 htag
    exact Nat.succ_pos _
  unfold acceptWithTerm
  rw [if_pos hpos]
  simp only [visitor_visitSequence, visitSequence_stray hx htag hd]

namespace ResponseObject

def tag : ResponseObject → Text
  | .packet tag _ => tag
  | .response tag _ => tag
  | .multiLine tag _ => tag

/-- A response rejects such a text at its first character. -/
theorem accept_stray {o : ResponseObject} {x : Text} {d : Byte} (hx : Stray x)
    (htag : o.tag.head? = some d) (hd : d ∈ text "\r+OE") : o.accept x 0 = some (false, o, 0) := by
  have hcrLf : visitSequence x Constants.CrLf 0 = some (false, 0) :=
    visitSequence_stray hx rfl (by decide)
  cases o with
  | packet tag fields =>
    have htag : tag.head? = some d := htag
    simp only [accept, APacket.accept, acceptWithTerm_stray hx htag hd, Option.map_some]
  | response tag fields =>
    have htag : tag.head? = some d := htag
    simp only [accept, Response.acceptImpl, hcrLf, acceptWithTerm_stray hx htag hd, Option.map_some]
  | multiLine tag lines =>
    have htag : tag.head? = some d := htag
    have hpos : 0 < tag.length := by
      obtain ⟨tail, rfl⟩ := List.head?_eq_some_iff.1 htag
      exact Nat.succ_pos _
    simp only [accept, MultiLineResponse.acceptImpl, hcrLf, hpos, if_true,
      visitSequence_stray hx htag hd, Option.map_some]

theorem accept_tag {o o' : ResponseObject} {input : Text} {length n : Nat} {ok : Bool}
    (h : o.accept input length = some (ok, o', n)) : o'.tag = o.tag := by
  cases o with
  | packet tag fields =>
    obtain ⟨r, -, hr⟩ := Option.map_eq_some_iff.1 h
    cases hr
    rfl
  | response tag fields =>
    obtain ⟨r, -, hr⟩ := Option.map_eq_some_iff.1 h
    cases hr
    rfl
  | multiLine tag lines =>
    obtain ⟨r, -, hr⟩ := Option.map_eq_some_iff.1 h
    cases hr
    rfl

end ResponseObject

/-- None of the standard results starts with such a character. -/
theorem final_rejects_stray {x : Text} (hx : Stray x) (cms : NumericEnum CmsError.Code)
    (cme : NumericEnum CmeError.Code) : ∀ R ∈ FinalResultCode cms cme [], ResponsePack.Rejects R x := by
  have hcrLf : visitSequence x Constants.CrLf 0 = some (false, 0) :=
    visitSequence_stray hx rfl (by decide)
  have hpacket : ∀ {tag : Text} {d : Byte} (fields : List ResponseField), tag.head? = some d →
      d ∈ text "\r+OE" → ResponsePack.Rejects (APacket.type tag fields) x :=
    fun fields htag hd => ⟨fields, 0, acceptWithTerm_stray hx htag hd⟩
  intro R hR
  simp only [FinalResultCode, List.nil_append, List.mem_cons, List.not_mem_nil, or_false] at hR
  rcases hR with rfl | rfl | rfl | rfl
  · refine ⟨[], 0, ?_⟩
    show Response.acceptImpl (text "OK") [] x 0 = _
    simp only [Response.acceptImpl, hcrLf]
    exact acceptWithTerm_stray hx rfl (by decide)
  · exact hpacket [] rfl (by decide)
  · exact hpacket [cms.field 0] rfl (by decide)
  · exact hpacket [cme.field 0] rfl (by decide)

/-- A response whose tag starts with a plus sign, as all of `protocols/standard`. -/
structure PlusResponse where
  object : ResponseObject
  plus : object.tag.head? = some 43

/-- `accept` on a fresh deserializer, and the object afterwards. -/
def PlusResponse.accept (r : PlusResponse) (input : Text) : Option (Bool × PlusResponse × Nat) :=
  match h : r.object.accept input 0 with
  | none => none
  | some (ok, object, n) =>
    some (ok, ⟨object, by rw [ResponseObject.accept_tag h]; exact r.plus⟩, n)

namespace LinuxExample

/-- `FinalResultCode<>`, responses as `Ati::Write::Response`, and the dispatcher of `main.cpp`. -/
def interfaces : Interfaces PacketCommand
    (ResponsePack.Variant (FinalResultCode cmsCode cmeCode [])) PlusResponse Unit where
  acceptResult value txt := ResponsePack.accept (FinalResultCode cmsCode cmeCode []) value txt 0
  acceptResponse r txt := r.accept txt
  dispatch := takesNothing
  acceptCommand := PacketCommand.accept

/-- **A stray character blocks** the parsers of the example. -/
theorem stray_blocks : Blocks interfaces.toVirtuals Stray where
  append := by
    rintro x y ⟨c, r, rfl, hc⟩
    exact ⟨c, r ++ y, rfl, hc⟩
  result x frc frc' n hx h := by
    obtain ⟨⟨value, m⟩, htry, hpair⟩ := Option.map_eq_some_iff.1 h
    obtain ⟨k, hnone⟩ :=
      (ResponsePack.exists_tryAll_none_iff 0).2 (final_rejects_stray hx cmsCode cmeCode)
    rw [hnone] at htry
    cases htry
    cases hpair
  response x res res' n hx h := by
    have hreject := ResponseObject.accept_stray hx res.plus (by decide)
    have h : res.accept x = some (true, res', n) := h
    unfold PlusResponse.accept at h
    split at h
    · cases h
    · rename_i ok object m haccept
      rw [hreject] at haccept
      cases haccept
      cases h
  dispatch x urcs urcs' n _ h := by
    cases h
    rfl

/-- Nothing has been received. -/
def context : Context PacketCommand (ResponsePack.Variant (FinalResultCode cmsCode cmeCode []))
    PlusResponse Unit where
  rx := RxBuffer.init
  urcs := ()
  txbuf := List.replicate storageSize 0
  calls _ := ⟨⟨text "ATI", Constants.Cr, []⟩, none, none, .noError, 0⟩
  actions := []

/-- `Ati::Write::Response`. -/
def atiResponse : PlusResponse :=
  ⟨.multiLine (text "+ATI:") [⟨[], [.line (List.replicate 32 0)]⟩], rfl⟩

/-- `ATI` is sent to a modem that echoes it. -/
def echoRun : List (Step PacketCommand (ResponsePack.Variant (FinalResultCode cmsCode cmeCode []))
    PlusResponse) :=
  [.call 0 ⟨text "ATI", Constants.Cr, []⟩ none (some atiResponse) ⟨true, 4, []⟩,
    .handle .rxReady ⟨true, 0, text "ATI\r"⟩]

/-- Its reply is put behind the echo, and the call is not served. -/
theorem blocked_for_good_echoRun :
    ∃ s t, run (System.step interfaces) echoRun (System.init context) = some s ∧
      run (System.step interfaces) [.handle .rxReady ⟨true, 0, text "\r\n+ATI:\r\nV1\r\n\r\nOK\r\n"⟩] s =
        some t ∧
      collect (System.step interfaces) (System.takes interfaces)
        [.handle .rxReady ⟨true, 0, text "\r\n+ATI:\r\nV1\r\n\r\nOK\r\n"⟩] s = [] ∧
      t.ctx.rx.unread = s.ctx.rx.unread ++
        (chunks [(.handle .rxReady ⟨true, 0, text "\r\n+ATI:\r\nV1\r\n\r\nOK\r\n"⟩ :
          Step PacketCommand (ResponsePack.Variant (FinalResultCode cmsCode cmeCode []))
            PlusResponse)]).flatten ∧
      (∃ w, t.ctx.actions = s.ctx.actions ++ w ∧ ∀ c, .completed c ∉ w) ∧
      ∀ d, t.Served d ↔ s.Served d := by
  have hsome : (run (System.step interfaces) (echoRun ++
      [.handle .rxReady ⟨true, 0, text "\r\n+ATI:\r\nV1\r\n\r\nOK\r\n"⟩])
      (System.init context)).isSome = true := by decide +kernel
  obtain ⟨t, ht⟩ := Option.isSome_iff_exists.1 hsome
  obtain ⟨s, hs, ht⟩ := run_of_append ht
  have hunread : (run (System.step interfaces) echoRun (System.init context)).map
      (fun s => (s.ctx.rx.leftover, s.ctx.rx.unread)) = some (4, text "ATI\r") := by decide +kernel
  rw [hs] at hunread
  obtain ⟨hleftover, hunread⟩ := Prod.mk.inj (Option.some.inj hunread)
  have hle : s.ctx.rx.leftover ≤ storageSize := by
    rw [hleftover]
    decide
  have hstray : Stray s.ctx.rx.unread :=
    ⟨65, text "TI\r", hunread, by decide +kernel, by decide +kernel⟩
  exact ⟨s, t, hs, ht, blocked_for_good stray_blocks hle hstray ht⟩

end LinuxExample

end ATLink
