import ATLink.System
import ATLink.UrcFragmentation

/-!
# Room in the receive buffer

Whether a read of the device can take a byte: `leftover` has to stay below the size of `rxbuf`.

* `UrcTaken` — a known response takes part of a text, or none matches and `AnyUrc` does.
* `ReplyTaken` — the machine waits for a reply, and the result or the response takes part of a
  text.
* `Drains` — an event `RxReady` that leaves the buffer short of full, or finds something to take.

Principal results: `dispatchUrcs_has_room_iff` — after `dispatchUrcs` there is room exactly when the
text was shorter than the buffer or a URC was taken from it; `rx_has_room` — in every run whose
events drain the buffer there is room in every state; `unended_text_stays` — a text without CRLF is
not taken at all.
-/

namespace ATLink

open LabelledRun

/-! ## What a URC takes -/

section Urcs

variable {Rs : List ResponseType} {x : Text}

/-- A known response takes part of the text, or none matches and its head is a line for
`AnyUrc`. -/
def UrcTaken (Rs : List ResponseType) (x : Text) : Prop :=
  (∃ value n, ResponsePack.tryAll Rs x 0 = some (some value, n) ∧ 0 < n) ∨
    (∃ n, ResponsePack.tryAll Rs x 0 = some (none, n)) ∧ HeadLine x

theorem dispatch_takes_iff (d : UrcDispatcher Rs) (hlen : x.length ≤ storageSize) :
    (∃ n d', d.dispatch x = some (n, d') ∧ 0 < n) ↔ UrcTaken Rs x := by
  constructor
  · rintro ⟨n, d', hd, hpos⟩
    rcases UrcDispatcher.dispatch_decides hd with ⟨obj, hfirst⟩ | hrejects
    · exact Or.inl ⟨obj, n, (ResponsePack.tryAll_eq_match_iff 0).2 hfirst, hpos⟩
    · rcases d.dispatch_unknown hlen hrejects with ⟨-, hd'⟩ | ⟨hhead, -⟩
      · rw [hd] at hd'
        cases hd'
        exact absurd hpos (Nat.lt_irrefl 0)
      · exact Or.inr ⟨(ResponsePack.exists_tryAll_none_iff 0).2 hrejects, hhead⟩
  · rintro (⟨obj, n, htry, hpos⟩ | ⟨hnone, hhead⟩)
    · obtain ⟨d', hd⟩ := d.dispatch_known ((ResponsePack.tryAll_eq_match_iff 0).1 htry)
      exact ⟨n, d', hd, hpos⟩
    · have hrejects := (ResponsePack.exists_tryAll_none_iff 0).1 hnone
      rcases d.dispatch_unknown hlen hrejects with ⟨hno, -⟩ | ⟨-, n, fs, d', -, hd, hpos, -⟩
      · exact absurd hhead hno
      · exact ⟨n, d', hd, hpos⟩

end Urcs

/-! ## Calls of `dispatchUrcs` -/

section Dispatch

variable {π ρ δ : Type} {V : Virtuals π ρ δ} {rx rx' : RxBuffer} {bytes : Text}

theorem dispatchLoop_ge {urcs urcs' : δ} {input : Text} {n consumed m : Nat}
    {taken taken' : List Slice}
    (h : dispatchLoop V urcs input n consumed taken = some (m, urcs', taken')) : consumed ≤ m := by
  fun_induction dispatchLoop V urcs input n consumed taken with
  | case1 => cases h
  | case2 => cases h
  | case3 urcs input n consumed taken hpos rest hsub n' urcs1 hd ih =>
    have hsum := ih h
    omega
  | case4 => cases h; exact Nat.le_refl _

/-- A call takes something exactly when the first dispatch does. -/
theorem dispatchUrcs_takes_iff {urcs urcs' : δ} {taken : List Slice} (hle : rx.leftover ≤ storageSize)
    (h : dispatchUrcs V rx bytes urcs = some (rx', urcs', taken)) :
    (rx.unread ++ bytes).length ≤ storageSize ∧ rx'.leftover ≤ (rx.unread ++ bytes).length ∧
      (rx'.leftover < (rx.unread ++ bytes).length ↔
        ∃ n urcs1, V.dispatch urcs (rx.unread ++ bytes) = some (n, urcs1) ∧ 0 < n) := by
  obtain ⟨rxstorage, input, m, hread, hall, hm, rfl⟩ := dispatchUrcs_iff.1 h
  obtain ⟨hinput, htake⟩ := RxBuffer.read_eq hle hread
  have hfull := congrArg List.length htake
  rw [List.length_take, rxstorage.size] at hfull
  rw [← hinput]
  have hleftover : (RxBuffer.keep rxstorage input.length (input.drop m)).leftover =
      input.length - m := List.length_drop
  obtain ⟨n, urcs1, hd, hloop⟩ := dispatchAllUrcs_iff.1 hall
  have hge := dispatchLoop_ge hloop
  rw [hleftover, hd]
  refine ⟨by omega, by omega, ?_⟩
  constructor
  · intro hlt
    refine ⟨n, urcs1, rfl, Nat.pos_of_ne_zero fun hzero => ?_⟩
    rw [hzero, dispatchLoop, if_neg (Nat.lt_irrefl 0)] at hloop
    cases hloop
    omega
  · rintro ⟨n', urcs', hd', hpos⟩
    cases hd'
    omega

/-- **Room after `dispatchUrcs`, exactly**. -/
theorem dispatchUrcs_has_room_iff {Rs : List ResponseType} {V : Virtuals π ρ (UrcDispatcher Rs)}
    {urcs urcs' : UrcDispatcher Rs} {taken : List Slice} (hV : V.dispatch = UrcDispatcher.dispatch)
    (hle : rx.leftover ≤ storageSize)
    (h : dispatchUrcs V rx bytes urcs = some (rx', urcs', taken)) :
    rx'.leftover < storageSize ↔
      (rx.unread ++ bytes).length < storageSize ∨ UrcTaken Rs (rx.unread ++ bytes) := by
  obtain ⟨hlen, hrest, htakes⟩ := dispatchUrcs_takes_iff hle h
  rw [hV, dispatch_takes_iff urcs hlen] at htakes
  rw [← htakes]
  omega

end Dispatch

/-! ## Calls of `receive` -/

section Receive

variable {π ρ δ : Type} {V : Virtuals π ρ δ} {s s' t : RxLoop π ρ δ} {n : Nat}

theorem Turn.input_le {more : Bool} (h : Turn V s more s') : s'.input.length ≤ s.input.length := by
  cases h <;> simp

theorem Runs.input_le (h : Runs V s t) : t.input.length ≤ s.input.length := by
  induction h with
  | last h => exact h.input_le
  | turn h _ ih => exact Nat.le_trans ih h.input_le

/-- What a turn takes is gone at the end of the loop. -/
theorem Runs.input_lt_of_drop (h : Runs V s' t) (hinput : s'.input = s.input.drop n) (hpos : 0 < n)
    (hle : n ≤ s.input.length) : t.input.length < s.input.length := by
  have hrest := h.input_le
  rw [hinput, List.length_drop] at hrest
  omega

/-- A missing response that is there is taken at once. -/
theorem Runs.takes_response {obj obj' : ρ} (h : Runs V s t) (hflag : s.haveResponse = false)
    (hres : s.res = some obj) (haccept : V.acceptResponse obj s.input = some (true, obj', n))
    (hpos : 0 < n) : t.input.length < s.input.length := by
  cases h with
  | last hturn =>
    cases hturn with
    | last hno => exact absurd haccept (hno.not_accepts hflag hres)
  | turn hturn hruns =>
    cases hturn with
    | response _ hres' haccept' hle =>
      rw [hres] at hres'
      cases hres'
      rw [haccept] at haccept'
      cases haccept'
      exact hruns.input_lt_of_drop rfl hpos hle
    | result hno => exact absurd haccept (hno.not_accepts hflag hres)
    | urc hno => exact absurd haccept (hno.not_accepts hflag hres)

/-- A missing result that is there is taken, or a response is taken before it. -/
theorem Runs.takes_result {frc : π} (h : Runs V s t) (hflag : s.haveResult = false)
    (haccept : V.acceptResult s.frc s.input = some (true, frc, n)) (hpos : 0 < n) :
    t.input.length < s.input.length := by
  induction h with
  | last hturn =>
    cases hturn with
    | last _ hno => exact absurd haccept (hno.not_accepts hflag)
  | turn hturn hruns ih =>
    cases hturn with
    | @response _ _ m _ _ _ hle =>
      rcases Nat.eq_zero_or_pos m with rfl | hm
      · exact ih hflag haccept
      · exact hruns.input_lt_of_drop rfl hm hle
    | result _ _ haccept' hle =>
      rw [haccept] at haccept'
      cases haccept'
      exact hruns.input_lt_of_drop rfl hpos hle
    | urc _ hno => exact absurd haccept (hno.not_accepts hflag)

/-- A URC that every state of the dispatcher takes is taken, or something is taken before it. -/
theorem Runs.takes_urc (h : Runs V s t)
    (hurc : ∀ urcs, ∃ n urcs', V.dispatch urcs s.input = some (n, urcs') ∧ 0 < n) :
    t.input.length < s.input.length := by
  induction h with
  | @last s _ hturn =>
    cases hturn with
    | last _ _ hd =>
      obtain ⟨n, urcs', hd', hpos⟩ := hurc s.urcs
      rw [hd] at hd'
      cases hd'
      exact absurd hpos (Nat.lt_irrefl 0)
  | turn hturn hruns ih =>
    cases hturn with
    | @response _ _ m _ _ _ hle =>
      rcases Nat.eq_zero_or_pos m with rfl | hm
      · exact ih hurc
      · exact hruns.input_lt_of_drop rfl hm hle
    | @result _ _ m _ _ _ hle =>
      rcases Nat.eq_zero_or_pos m with rfl | hm
      · exact ih hurc
      · exact hruns.input_lt_of_drop rfl hm hle
    | urc _ _ _ hpos hle => exact hruns.input_lt_of_drop rfl hpos hle

/-- A call of `receive` takes something where the response, the result or a URC is there. -/
theorem receive_takes {rx : RxBuffer} {bytes : Text} {frc : π} {res : Option ρ} {urcs : δ}
    {r : Received π ρ δ} (hle : rx.leftover ≤ storageSize)
    (h : receive V rx bytes frc res urcs = some (.ok r)) :
    (rx.unread ++ bytes).length ≤ storageSize ∧ r.rx.leftover ≤ (rx.unread ++ bytes).length ∧
      ((∃ obj obj' n, res = some obj ∧
            V.acceptResponse obj (rx.unread ++ bytes) = some (true, obj', n) ∧ 0 < n) ∨
          (∃ frc' n, V.acceptResult frc (rx.unread ++ bytes) = some (true, frc', n) ∧ 0 < n) ∨
          (∀ urcs, ∃ n urcs', V.dispatch urcs (rx.unread ++ bytes) = some (n, urcs') ∧ 0 < n) →
        r.rx.leftover < (rx.unread ++ bytes).length) := by
  obtain ⟨rxstorage, input, t, hread, hloop, rfl⟩ := receive_ok_iff.1 h
  obtain ⟨hinput, htake⟩ := RxBuffer.read_eq hle hread
  have hfull := congrArg List.length htake
  rw [List.length_take, rxstorage.size] at hfull
  rw [← hinput]
  obtain ⟨res', hres', hruns⟩ := receiveLoop_runs hloop
  refine ⟨by omega, hruns.input_le, ?_⟩
  rintro (⟨obj, obj', n, hobj, haccept, hpos⟩ | ⟨frc', n, haccept, hpos⟩ | hurc)
  · have hflag : (RxLoop.start input frc res urcs).haveResponse = false := by rw [hobj]; rfl
    rcases hres' with rfl | hno
    · exact hruns.takes_response hflag hobj haccept hpos
    · exact absurd haccept (hno.not_accepts hflag hobj)
  · exact hruns.takes_result rfl haccept hpos
  · exact hruns.takes_urc hurc

end Receive

/-! ## Runs -/

section System

variable {κ π ρ : Type} {Rs : List ResponseType} {I : Interfaces κ π ρ (UrcDispatcher Rs)}
  {s s' : System κ π ρ (UrcDispatcher Rs)}

variable (I) in
/-- The machine waits for a reply, and its result or its response takes part of the text. -/
def ReplyTaken (s : System κ π ρ (UrcDispatcher Rs)) (x : Text) : Prop :=
  ∃ msg, s.state = .waitForResponse msg ∧
    ((∃ obj obj' n, (s.ctx.calls msg.call).response = some obj ∧
        I.acceptResponse obj x = some (true, obj', n) ∧ 0 < n) ∨
      ∃ frc n, I.acceptResult (s.ctx.calls msg.call).result x = some (true, frc, n) ∧ 0 < n)

variable (I) in
/-- An event `RxReady` that leaves the buffer short of full, or finds a URC or a part of the reply
at its head. -/
def Drains (s : System κ π ρ (UrcDispatcher Rs)) : Step κ π ρ → Prop
  | .handle .rxReady a =>
    (s.ctx.rx.unread ++ a.bytes).length < storageSize ∨ UrcTaken Rs (s.ctx.rx.unread ++ a.bytes) ∨
      ReplyTaken I s (s.ctx.rx.unread ++ a.bytes)
  | _ => True

/-- The next read can take a byte. -/
def HasRoom (s : System κ π ρ (UrcDispatcher Rs)) : Prop := s.ctx.rx.leftover < storageSize

variable {ctx ctx' : Context κ π ρ (UrcDispatcher Rs)} {msg : Payload} {a : Answers}

theorem Context.send_rx {success : Bool} (h : ctx.send I msg a = some (success, ctx')) :
    ctx'.rx = ctx.rx := by
  obtain ⟨sent, -, hpair⟩ := Option.map_eq_some_iff.1 h
  cases hpair
  rfl

theorem SendCommand.start_rx {next : State} (h : SendCommand.start I ctx msg a = some (next, ctx')) :
    ctx'.rx = ctx.rx := by
  unfold SendCommand.start at h
  split at h
  · obtain ⟨⟨success, ctx1⟩, hsend, hpair⟩ := Option.map_eq_some_iff.1 h
    cases hpair
    exact Context.send_rx hsend
  · cases h
    rfl

theorem System.gate_rx {c : Nat} (h : s.gate I c a = some s') : s'.ctx.rx = s.ctx.rx := by
  unfold System.gate at h
  split at h
  · obtain ⟨⟨next, ctx'⟩, hprocess, rfl⟩ := Option.map_eq_some_iff.1 h
    have hstart : SendCommand.start I (System.locals s.ctx c) ⟨c⟩ a = some (next, ctx') := hprocess
    have hrx := SendCommand.start_rx hstart
    exact hrx
  · cases h
    rfl

/-- Only `RxReady` touches the buffer. -/
theorem State.handle_rx {state next : State} {event : Event} (hevent : event ≠ .rxReady)
    (h : state.handle I ctx event a = some (next, ctx')) : ctx'.rx = ctx.rx := by
  cases State.handled h with
  | ignored => rfl
  | dispatched => exact absurd rfl hevent
  | sent hsend => exact Context.send_rx hsend
  | incomplete => exact absurd rfl hevent
  | completed => exact absurd rfl hevent

/-- `receive` leaves room where the text is short, or a URC or a part of the reply is there. -/
theorem Context.receive_has_room (hdispatch : I.dispatch = UrcDispatcher.dispatch) {success : Bool}
    (phase : Nat → Phase) (hroom : ctx.rx.leftover < storageSize)
    (hdrains : Drains I ⟨ctx, .waitForResponse msg, phase⟩ (.handle .rxReady a))
    (h : ctx.receive I msg a = some (success, ctx')) : ctx'.rx.leftover < storageSize := by
  obtain ⟨r, hr, -, rfl⟩ := Context.receive_iff.1 h
  obtain ⟨hlen, hrest, htakes⟩ := receive_takes (Nat.le_of_lt hroom) hr
  show r.rx.leftover < storageSize
  rcases hdrains with hshort | hurc | ⟨msg', hwait, hreply⟩
  · exact Nat.lt_of_le_of_lt hrest hshort
  · refine Nat.lt_of_lt_of_le (htakes (Or.inr (Or.inr fun urcs => ?_))) hlen
    have htaken := (dispatch_takes_iff urcs hlen).2 hurc
    rwa [← hdispatch] at htaken
  · cases hwait
    refine Nat.lt_of_lt_of_le (htakes ?_) hlen
    exact hreply.elim Or.inl fun hresult => Or.inr (Or.inl hresult)

/-- **One event `RxReady`** that drains the buffer leaves room in it. -/
theorem State.handle_has_room (hdispatch : I.dispatch = UrcDispatcher.dispatch) {state next : State}
    (phase : Nat → Phase) (hroom : ctx.rx.leftover < storageSize)
    (hdrains : Drains I ⟨ctx, state, phase⟩ (.handle .rxReady a))
    (h : state.handle I ctx .rxReady a = some (next, ctx')) : ctx'.rx.leftover < storageSize := by
  cases State.handled h with
  | ignored hevent => exact absurd rfl hevent
  | dispatched hstate hcall =>
    obtain ⟨⟨rx, urcs, taken⟩, hd, rfl⟩ := Option.map_eq_some_iff.1 hcall
    apply (dispatchUrcs_has_room_iff hdispatch (Nat.le_of_lt hroom) hd).2
    rcases hdrains with hshort | hurc | ⟨msg, hwait, -⟩
    · exact Or.inl hshort
    · exact Or.inr hurc
    · exact absurd hwait (hstate msg)
  | incomplete hreceive => exact Context.receive_has_room hdispatch phase hroom hdrains hreceive
  | completed hreceive =>
    have hkept := Context.receive_has_room hdispatch phase hroom hdrains hreceive
    exact hkept

/-- **One step** that drains the buffer leaves room in it. -/
theorem System.step_has_room (hdispatch : I.dispatch = UrcDispatcher.dispatch) {l : Step κ π ρ}
    (hroom : HasRoom s) (hdrains : Drains I s l) (h : s.step I l = some s') : HasRoom s' := by
  have hsame : s'.ctx.rx = s.ctx.rx → HasRoom s' := fun hrx => by
    unfold HasRoom
    rw [hrx]
    exact hroom
  cases step_cases h with
  | @call c command result response a _ hc h =>
    exact hsame (@gate_rx _ _ _ _ _ (s.arrive c command result response) s' a c h)
  | spurious hc => exact hroom
  | recheck hc h => exact hsame (gate_rx h)
  | acquire hc hpos => exact hroom
  | @handle event a _ h =>
    obtain ⟨⟨next, ctx'⟩, hhandle, rfl⟩ := Option.map_eq_some_iff.1 h
    by_cases hevent : event = .rxReady
    · subst hevent
      exact State.handle_has_room hdispatch s.phase hroom hdrains hhandle
    · exact hsame (State.handle_rx hevent hhandle)

/-- **The buffer never wedges in a run whose events drain it**: in every state on the way the next
read can take a byte. -/
theorem rx_has_room (hdispatch : I.dispatch = UrcDispatcher.dispatch)
    {ctx : Context κ π ρ (UrcDispatcher Rs)} {ls : List (Step κ π ρ)}
    (hroom : ctx.rx.leftover < storageSize)
    (hdrains : Guarded (System.step I) (Drains I) ls (System.init ctx)) :
    ∀ pre, pre <+: ls → ∀ t, run (System.step I) pre (System.init ctx) = some t →
      t.ctx.rx.leftover < storageSize :=
  forall_of_guarded (fun _ _ _ hs hg h => System.step_has_room hdispatch hs hg h) ls
    (System.init ctx) hroom hdrains

end System

/-! ## A buffer that is full for good -/

theorem HasLine.mem_carriageReturn {x : Text} (h : HasLine x) : carriageReturn ∈ x := by
  have hin : Constants.CrLf <:+: x := h.trans (List.drop_suffix _ x).isInfix
  refine hin.subset ?_
  rw [crLf_eq]
  exact List.mem_cons_self

/-- **A text without CRLF stays**: a dispatcher over responses of one line takes nothing of it.  Once
it fills the buffer no new bytes can arrive, and every later call leaves it as it is. -/
theorem unended_text_stays {π ρ : Type} (acceptResult : π → Text → Option (Bool × π × Nat))
    (acceptResponse : ρ → Text → Option (Bool × ρ × Nat)) (us : List LineResponse) {rx : RxBuffer}
    {bytes : Text} (d : UrcDispatcher (us.map LineResponse.type))
    (hfit : rx.leftover + bytes.length ≤ storageSize) (hline : ¬ HasLine (rx.unread ++ bytes)) :
    ∃ rx' taken, dispatchUrcs (urcVirtuals acceptResult acceptResponse us) rx bytes d =
        some (rx', d, taken) ∧ rx'.unread = rx.unread ++ bytes ∧
      rx'.leftover = (rx.unread ++ bytes).length := by
  have hquiet := urcVirtuals_quiet acceptResult acceptResponse us
  apply dispatchUrcs_of_reads hquiet hfit
  apply FragmentReader.Reader.Reads.done
  rw [urcReader_rejects_iff hquiet]
  show d.dispatch (rx.unread ++ bytes) = some (0, d)
  rcases d.dispatch_outcome (oneLine_map_type us) (rx.unread ++ bytes) with h | ⟨value, n, -, hhas, -⟩
  · exact h
  · exact absurd hhas hline

/-- Final result codes, the response `+R:` and the URC `+FOO:`. -/
def urcInterfaces :
    Interfaces PacketCommand (ResponsePack.Variant (FinalResultCode cmsCode cmeCode []))
      intResponse.Obj (UrcDispatcher ([fooUrc].map LineResponse.type)) where
  toVirtuals := .ofTypes (FinalResultCode cmsCode cmeCode []) intResponse UrcDispatcher.dispatch
  acceptCommand := PacketCommand.accept

/-- Nothing has been received. -/
def urcContext :
    Context PacketCommand (ResponsePack.Variant (FinalResultCode cmsCode cmeCode []))
      intResponse.Obj (UrcDispatcher ([fooUrc].map LineResponse.type)) where
  rx := RxBuffer.init
  urcs := ⟨none, []⟩
  txbuf := List.replicate storageSize 0
  calls _ := ⟨⟨text "AT", Constants.Cr, []⟩, none, none, .noError, 0⟩
  actions := []

/-- A URC and the start of another one; and a URC that fills the buffer together with what follows
it. -/
theorem rx_has_room_foo :
    (∃ t, run (System.step urcInterfaces)
        [.handle .rxReady ⟨true, 0, text "\r\n+FOO: 1\r\nRI"⟩] (System.init urcContext) = some t ∧
      t.ctx.rx.leftover < storageSize) ∧
      ∃ t, run (System.step urcInterfaces)
          [.handle .rxReady ⟨true, 0, text "\r\n+FOO: 1\r\n" ++ List.replicate 501 65⟩]
          (System.init urcContext) = some t ∧ t.ctx.rx.leftover < storageSize := by
  constructor
  · have hsome : (run (System.step urcInterfaces)
        [.handle .rxReady ⟨true, 0, text "\r\n+FOO: 1\r\nRI"⟩]
        (System.init urcContext)).isSome = true := by decide +kernel
    obtain ⟨t, hrun⟩ := Option.isSome_iff_exists.1 hsome
    have hdrains : Guarded (System.step urcInterfaces) (Drains urcInterfaces)
        [.handle .rxReady ⟨true, 0, text "\r\n+FOO: 1\r\nRI"⟩] (System.init urcContext) :=
      ⟨Or.inl (by decide), fun _ _ => trivial⟩
    exact ⟨t, hrun, rx_has_room rfl (by decide) hdrains _ (List.prefix_refl _) t hrun⟩
  · have hsome : (run (System.step urcInterfaces)
        [.handle .rxReady ⟨true, 0, text "\r\n+FOO: 1\r\n" ++ List.replicate 501 65⟩]
        (System.init urcContext)).isSome = true := by decide +kernel
    obtain ⟨t, hrun⟩ := Option.isSome_iff_exists.1 hsome
    -- nothing is short any more, but the URC is there
    have htry : (ResponsePack.tryAll ([fooUrc].map LineResponse.type)
        (RxBuffer.init.unread ++ (text "\r\n+FOO: 1\r\n" ++ List.replicate 501 65)) 0).map
        (fun r => (r.1.isSome, r.2)) = some (true, 11) := by decide +kernel
    obtain ⟨⟨found, n⟩, htry, hpair⟩ := Option.map_eq_some_iff.1 htry
    obtain ⟨hfound, rfl⟩ := Prod.mk.inj hpair
    obtain ⟨value, rfl⟩ := Option.isSome_iff_exists.1 hfound
    have hdrains : Guarded (System.step urcInterfaces) (Drains urcInterfaces)
        [.handle .rxReady ⟨true, 0, text "\r\n+FOO: 1\r\n" ++ List.replicate 501 65⟩]
        (System.init urcContext) :=
      ⟨Or.inr (Or.inl (Or.inl ⟨value, 11, htry, by decide⟩)), fun _ _ => trivial⟩
    exact ⟨t, hrun, rx_has_room rfl (by decide) hdrains _ (List.prefix_refl _) t hrun⟩

/-- 512 characters without CRLF arrive while the machine is idle: the buffer is full. -/
theorem unended_line_fills_buffer :
    ∃ t, run (System.step urcInterfaces) [.handle .rxReady ⟨true, 0, List.replicate 512 65⟩]
        (System.init urcContext) = some t ∧ ¬ t.ctx.rx.leftover < storageSize := by
  have hunread : RxBuffer.init.unread = [] := List.take_zero
  have hline : ¬ HasLine (RxBuffer.init.unread ++ List.replicate 512 65) := by
    intro h
    have hmem := h.mem_carriageReturn
    rw [hunread, List.nil_append, List.mem_replicate] at hmem
    exact absurd hmem.2 (by decide)
  have hfit : RxBuffer.init.leftover + (List.replicate 512 (65 : Byte)).length ≤ storageSize := by
    rw [List.length_replicate]
    decide
  obtain ⟨rx', taken, hcall, -, hleftover⟩ := unended_text_stays urcInterfaces.acceptResult
    urcInterfaces.acceptResponse [fooUrc] ⟨none, []⟩ hfit hline
  rw [hunread, List.nil_append, List.length_replicate] at hleftover
  have hcall : dispatchUrcs urcInterfaces.toVirtuals urcContext.rx (List.replicate 512 65)
      urcContext.urcs = some (rx', ⟨none, []⟩, taken) := hcall
  refine ⟨⟨{ urcContext with rx := rx', urcs := ⟨none, []⟩ }, .idle, fun _ => .absent⟩, ?_, ?_⟩
  · simp only [run, System.step, System.handle, System.init, State.handle, Idle.handle,
      Context.dispatchUrcs, hcall, Option.map_some, Option.bind_some]
    rfl
  · show ¬ rx'.leftover < storageSize
    rw [hleftover]
    decide

end ATLink
