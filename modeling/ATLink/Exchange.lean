import ATLink.Fragmentation
import ATLink.Callers
import ATLink.Transactions

/-!
# The exchange of one call

What arrives between the command of a call and its completion, among the steps of all the other
callers and events.

* `chunks` — the bytes that the device returns along a run, one text for each `RxReady`.
* `Settled` — the call is released or has returned, with these values in its objects.
* `takes` — the slices consumed in a step, with the call that has the line.

Principal results: `reply_is_fragments` — the outcome of a call depends on the chunks alone, as if
`receive` were called on one after the other with nothing in between; `reply_completes` — where the
reader of the reply finishes on them, the call is completed with the values read;
`stream_conserved` — in every run the slices taken and the unread text are the bytes received, and
only URCs are taken while no reply is awaited.
-/

namespace ATLink

open LabelledRun FragmentReader

section Exchange

variable {κ π ρ δ : Type} {I : Interfaces κ π ρ δ} {ctx ctx' : Context κ π ρ δ}
  {s s' t : System κ π ρ δ} {c : Nat} {a : Answers}

/-- What the device returns in a step. -/
def Step.chunk? : Step κ π ρ → Option Text
  | .handle .rxReady a => some a.bytes
  | _ => none

def chunks (ls : List (Step κ π ρ)) : List Text := ls.filterMap Step.chunk?

theorem chunks_cons_none {l : Step κ π ρ} (h : l.chunk? = none) (ls : List (Step κ π ρ)) :
    chunks (l :: ls) = chunks ls := List.filterMap_cons_none h

theorem chunks_cons_some {l : Step κ π ρ} {bytes : Text} (h : l.chunk? = some bytes)
    (ls : List (Step κ π ρ)) : chunks (l :: ls) = bytes :: chunks ls := List.filterMap_cons_some h

/-! ## What sending leaves alone -/

theorem Context.send_same {msg : Payload} {success : Bool} (h : ctx.send I msg a = some (success, ctx')) :
    ctx'.rx = ctx.rx ∧ ctx'.urcs = ctx.urcs ∧ ctx'.calls = ctx.calls := by
  obtain ⟨sent, -, hpair⟩ := Option.map_eq_some_iff.1 h
  cases hpair
  exact ⟨rfl, rfl, rfl⟩

theorem SendCommand.start_same {msg : Payload} {next : State}
    (h : SendCommand.start I ctx msg a = some (next, ctx')) :
    ctx'.rx = ctx.rx ∧ ctx'.urcs = ctx.urcs ∧ ctx'.calls = ctx.calls := by
  unfold SendCommand.start at h
  split at h
  · obtain ⟨⟨success, ctx1⟩, hsend, hpair⟩ := Option.map_eq_some_iff.1 h
    cases hpair
    exact Context.send_same hsend
  · cases h
    exact ⟨rfl, rfl, rfl⟩

namespace System

theorem gate_same (h : s.gate I c a = some s') :
    s'.ctx.rx = s.ctx.rx ∧ s'.ctx.urcs = s.ctx.urcs ∧ ∀ d, d ≠ c → s'.ctx.calls d = s.ctx.calls d := by
  unfold gate at h
  split at h
  · obtain ⟨⟨next, ctx'⟩, hprocess, rfl⟩ := Option.map_eq_some_iff.1 h
    obtain ⟨hrx, hurcs, hcalls⟩ := SendCommand.start_same hprocess
    refine ⟨hrx, hurcs, fun d hd => ?_⟩
    show ctx'.calls d = _
    rw [hcalls]
    exact Function.update_of_ne hd ..
  · cases h
    exact ⟨rfl, rfl, fun _ _ => rfl⟩

/-- A call that comes in while the machine is busy waits. -/
theorem gate_busy (hbusy : s.state ≠ .idle) (h : s.gate I c a = some s') :
    s' = { s with phase := Function.update s.phase c .waiting } := by
  rcases gate_cases h with ⟨-, hs'⟩ | ⟨hidle, -⟩
  · exact hs'
  · exact absurd hidle hbusy

/-! ## The call that waits -/

/-- The call is released or has returned, and its objects hold the values. -/
structure Settled (c : Nat) (frc : π) (res : Option ρ) (s : System κ π ρ δ) : Prop where
  result : (s.ctx.calls c).result = frc
  response : (s.ctx.calls c).response = res
  stored : s.state.msg? ≠ some ⟨c⟩
  passed : s.phase c = .blocked ∧ 0 < (s.ctx.calls c).sem ∨ ∃ ec, s.phase c = .returned ec

/-- One step while the call waits: it is left alone, or `receive` is called for it. -/
theorem waiting_step {l : Step κ π ρ} (hs : StoredBlocked s) (hst : s.state = .waitForResponse ⟨c⟩)
    (h : s.step I l = some s') :
    (l.chunk? = none ∧ s'.state = s.state ∧ s'.ctx.rx = s.ctx.rx ∧ s'.ctx.urcs = s.ctx.urcs ∧
        s'.ctx.calls c = s.ctx.calls c) ∨
      ∃ bytes r, l.chunk? = some bytes ∧
        ATLink.receive I.toVirtuals s.ctx.rx bytes (s.ctx.calls c).result (s.ctx.calls c).response
          s.ctx.urcs = some (.ok r) ∧
        (r.success = false ∧ s'.state = s.state ∧ s'.ctx.rx = r.rx ∧ s'.ctx.urcs = r.loop.urcs ∧
            (s'.ctx.calls c).result = r.loop.frc ∧ (s'.ctx.calls c).response = r.loop.res ∨
          r.success = true ∧ Settled c r.loop.frc r.loop.res s') := by
  have hbusy : s.state ≠ .idle := by rw [hst]; exact fun he => by cases he
  obtain ⟨hblocked, hzero⟩ := hs c (by rw [hst]; rfl)
  have hne : ∀ {d : Nat} {p : Phase}, s.phase d = p → p ≠ .blocked → c ≠ d := by
    rintro d p hd hp rfl
    exact hp (hd.symm.trans hblocked)
  cases step_cases h with
  | @call d command result response a _ hd h =>
    rw [gate_busy (s := s.arrive d command result response) hbusy h]
    have hcd : c ≠ d := hne hd (by decide)
    exact Or.inl ⟨rfl, rfl, rfl, rfl, Function.update_of_ne hcd ..⟩
  | spurious hd => exact Or.inl ⟨rfl, rfl, rfl, rfl, rfl⟩
  | recheck hd h =>
    rw [gate_busy hbusy h]
    exact Or.inl ⟨rfl, rfl, rfl, rfl, rfl⟩
  | @acquire d hd hpos =>
    have hcd : c ≠ d := by
      rintro rfl
      omega
    exact Or.inl ⟨rfl, rfl, rfl, rfl, Function.update_of_ne hcd ..⟩
  | @handle event a _ h =>
    obtain ⟨⟨next, ctx'⟩, hhandle, rfl⟩ := Option.map_eq_some_iff.1 h
    rw [hst] at hhandle
    cases State.handled hhandle with
    | ignored hevent =>
      refine Or.inl ⟨?_, hst.symm, rfl, rfl, rfl⟩
      cases event with
      | rxReady => exact absurd rfl hevent
      | txReady => rfl
      | shutDown => rfl
    | dispatched hno => exact absurd rfl (hno _)
    | incomplete hreceive =>
      obtain ⟨r, hr, hsuccess, rfl⟩ := Context.receive_iff.1 hreceive
      refine Or.inr ⟨a.bytes, r, rfl, hr, Or.inl ⟨hsuccess.symm, hst.symm, rfl, rfl, ?_, ?_⟩⟩
      · simp only [Function.update_self]
      · simp only [Function.update_self]
    | completed hreceive =>
      obtain ⟨r, hr, hsuccess, rfl⟩ := Context.receive_iff.1 hreceive
      refine Or.inr ⟨a.bytes, r, rfl, hr, Or.inr ⟨hsuccess.symm, ?_, ?_, fun he => (by cases he),
        Or.inl ⟨(notified_blocked s.phase c).2 hblocked, ?_⟩⟩⟩
      · simp only [Context.release, Function.update_self]
      · simp only [Context.release, Function.update_self]
      · simp only [Context.release, Function.update_self]
        omega

/-- Passing the gate leaves the settled calls. -/
theorem settled_gate {frc : π} {res : Option ρ} {d : Nat} (hs : Settled c frc res s) (hd : c ≠ d)
    (h : s.gate I d a = some s') : Settled c frc res s' := by
  obtain ⟨-, -, hcalls⟩ := gate_same h
  have hphase : s'.phase c = s.phase c ∧ s'.state.msg? ≠ some ⟨c⟩ := by
    rcases gate_cases h with ⟨-, rfl⟩ | ⟨-, hphase, -, hnext⟩
    · exact ⟨Function.update_of_ne hd .., hs.stored⟩
    · refine ⟨by rw [hphase]; exact Function.update_of_ne hd .., ?_⟩
      rcases hnext with ⟨-, hst⟩ | ⟨-, -, hst⟩ | ⟨-, -, hst⟩ <;> rw [hst]
      · exact fun he => hd (by cases he; rfl)
      · exact fun he => hd (by cases he; rfl)
      · exact fun he => by cases he
  refine ⟨?_, ?_, hphase.2, ?_⟩
  · rw [hcalls c hd]
    exact hs.result
  · rw [hcalls c hd]
    exact hs.response
  · rw [hcalls c hd, hphase.1]
    exact hs.passed

/-- **Every step leaves the values of a settled call.** -/
theorem settled_step {frc : π} {res : Option ρ} {l : Step κ π ρ} (hs : Settled c frc res s)
    (h : s.step I l = some s') : Settled c frc res s' := by
  have hne : ∀ {d : Nat} {p : Phase}, s.phase d = p → p ≠ .blocked → (∀ ec, p ≠ .returned ec) →
      c ≠ d := by
    rintro d p hd hblocked hreturned rfl
    rcases hs.passed with ⟨hc, -⟩ | ⟨ec, hc⟩
    · exact hblocked (hd.symm.trans hc)
    · exact hreturned ec (hd.symm.trans hc)
  cases step_cases h with
  | @call d command result response a _ hd h =>
    have hcd : c ≠ d := hne hd (by decide) fun _ he => by cases he
    have hcall : (s.arrive d command result response).ctx.calls c = s.ctx.calls c :=
      Function.update_of_ne hcd ..
    have harrive : Settled c frc res (s.arrive d command result response) :=
      ⟨by rw [hcall]; exact hs.result, by rw [hcall]; exact hs.response, hs.stored,
        by rw [hcall]; exact hs.passed⟩
    exact settled_gate harrive hcd h
  | @spurious d hd =>
    have hcd : c ≠ d := hne hd (by decide) fun _ he => by cases he
    refine ⟨hs.result, hs.response, hs.stored, ?_⟩
    simp only [Function.update_of_ne hcd]
    exact hs.passed
  | recheck hd h => exact settled_gate hs (hne hd (by decide) fun _ he => by cases he) h
  | @acquire d hd hpos =>
    unfold acquire
    by_cases hcd : c = d
    · subst hcd
      refine ⟨?_, ?_, hs.stored, Or.inr ⟨_, Function.update_self ..⟩⟩
      · simp only [Function.update_self]
        exact hs.result
      · simp only [Function.update_self]
        exact hs.response
    · refine ⟨?_, ?_, hs.stored, ?_⟩
      · simp only [Function.update_of_ne hcd]
        exact hs.result
      · simp only [Function.update_of_ne hcd]
        exact hs.response
      · simp only [Function.update_of_ne hcd]
        exact hs.passed
  | @handle event a _ h =>
    obtain ⟨⟨next, ctx'⟩, hhandle, rfl⟩ := Option.map_eq_some_iff.1 h
    have hphase := (notified_phase (P := s.state ≠ .idle ∧ next = .idle) s.phase c).resolve_right
      fun hwake => hne hwake.1 (by decide) (fun _ he => by cases he) rfl
    -- the machine changes the objects of the call it waits for, which is another one
    have hkept : ctx'.calls c = s.ctx.calls c ∧ next.msg? ≠ some ⟨c⟩ := by
      have hother : ∀ {msg : Payload}, s.state = .waitForResponse msg → c ≠ msg.call := by
        rintro ⟨d⟩ hst rfl
        exact hs.stored (by rw [hst]; rfl)
      have hstored := hs.stored
      generalize s.state = state at hhandle hother hstored
      cases State.handled hhandle with
      | ignored => exact ⟨rfl, hstored⟩
      | dispatched _ hd => exact ⟨by rw [Context.dispatchUrcs_calls hd], hstored⟩
      | @sent msg success _ hsend =>
        obtain ⟨-, -, hcalls⟩ := Context.send_same hsend
        refine ⟨by rw [hcalls], ?_⟩
        cases success with
        | true => exact hstored
        | false => exact fun he => by cases he
      | incomplete hreceive =>
        obtain ⟨r, -, -, rfl⟩ := Context.receive_iff.1 hreceive
        exact ⟨Function.update_of_ne (hother rfl) .., hstored⟩
      | completed hreceive =>
        obtain ⟨r, -, -, rfl⟩ := Context.receive_iff.1 hreceive
        refine ⟨?_, fun he => by cases he⟩
        simp only [Context.release, Function.update_of_ne (hother rfl)]
    refine ⟨?_, ?_, hkept.2, ?_⟩
    · show (ctx'.calls c).result = frc
      rw [hkept.1]
      exact hs.result
    · show (ctx'.calls c).response = res
      rw [hkept.1]
      exact hs.response
    · simp only [hkept.1, hphase]
      exact hs.passed

/-- **The chunks decide**: a run from a state in which the call waits does with its objects what
consecutive calls of `receive` on the chunks do. -/
theorem run_waiting {ls : List (Step κ π ρ)} (hs : StoredBlocked s)
    (hst : s.state = .waitForResponse ⟨c⟩) (hrun : run (step I) ls s = some t) :
    ∃ r, receiveFragments I.toVirtuals (chunks ls) s.ctx.rx (s.ctx.calls c).result
        (s.ctx.calls c).response s.ctx.urcs = some r ∧
      (r = none → t.state = .waitForResponse ⟨c⟩) ∧
      ∀ frc res, r = some (frc, res) → Settled c frc res t := by
  induction ls generalizing s with
  | nil =>
    cases hrun
    exact ⟨none, rfl, fun _ => hst, fun _ _ he => by cases he⟩
  | cons l ls ih =>
    obtain ⟨s', hstep, hrest⟩ := run_cons_some hrun
    have hs' := storedBlocked_step hs hstep
    rcases waiting_step hs hst hstep with
      ⟨hchunk, hstate, hrx, hurcs, hcall⟩ | ⟨bytes, r, hchunk, hr, hnext⟩
    · rw [chunks_cons_none hchunk, ← hrx, ← hurcs, ← hcall]
      exact ih hs' (hstate.trans hst) hrest
    · rw [chunks_cons_some hchunk, receiveFragments, hr]
      rcases hnext with ⟨hsuccess, hstate, hrx, hurcs, hresult, hresponse⟩ | ⟨hsuccess, hsettled⟩
      · -- the next call of `receive` finds what this one has left
        simp only [hsuccess]
        rw [← hrx, ← hurcs, ← hresult, ← hresponse]
        exact ih hs' (hstate.trans hst) hrest
      · simp only [hsuccess, if_true]
        refine ⟨_, rfl, fun he => (by cases he), fun frc res he => ?_⟩
        cases he
        exact run_inv (fun _ _ _ hu h => settled_step hu h) ls s' t hsettled hrest

end System

/-- **The reply of a call**: from a state that a run reaches with the machine waiting for the call,
whatever the other callers do and whichever events arrive, the call is completed exactly when one
of the calls of `receive` on the chunks returns true, and its objects then hold the values of that
call, until it returns and after. -/
theorem reply_is_fragments {ctx : Context κ π ρ δ} {before ls : List (Step κ π ρ)}
    (hreach : run (System.step I) before (System.init ctx) = some s)
    (hst : s.state = .waitForResponse ⟨c⟩) (hrun : run (System.step I) ls s = some t) :
    ∃ r, receiveFragments I.toVirtuals (chunks ls) s.ctx.rx (s.ctx.calls c).result
        (s.ctx.calls c).response s.ctx.urcs = some r ∧
      (t.state = .waitForResponse ⟨c⟩ ↔ r = none) ∧
      (∀ frc res, r = some (frc, res) →
        (t.ctx.calls c).result = frc ∧ (t.ctx.calls c).response = res ∧
          (t.phase c = .blocked ∧ 0 < (t.ctx.calls c).sem ∨ ∃ ec, t.phase c = .returned ec)) := by
  have hs : StoredBlocked s := run_inv (fun _ _ _ hu h => System.storedBlocked_step hu h) before
    (System.init ctx) s (fun _ he => by cases he) hreach
  obtain ⟨r, hr, hnone, hsome⟩ := System.run_waiting hs hst hrun
  refine ⟨r, hr, ⟨fun ht => ?_, hnone⟩, fun frc res he => ?_⟩
  · cases r with
    | none => rfl
    | some p => exact absurd (by rw [ht]; rfl) (hsome p.1 p.2 rfl).stored
  · have hsettled := hsome frc res he
    exact ⟨hsettled.result, hsettled.response, hsettled.passed⟩

/-- **A reply completes its call**: where reading all chunks in one go completes with some values, and
the chunks are cut harmlessly, the call is completed with these values in every such run. -/
theorem reply_completes {β : Type} {T : TextParsers π β} {C : ρ → Prop} {val : ρ → β}
    {ctx : Context κ π ρ δ} {before ls : List (Step κ π ρ)} {q : Progress π β} {y : Text}
    (hreach : run (System.step I) before (System.init ctx) = some s)
    (hst : s.state = .waitForResponse ⟨c⟩) (hrun : run (System.step I) ls s = some t)
    (hT : Realises I.toVirtuals T C val (s.ctx.rx.unread ++ (chunks ls).flatten))
    (hC : ∀ obj, (s.ctx.calls c).response = some obj → C obj)
    (hfit : s.ctx.rx.leftover + (chunks ls).flatten.length ≤ storageSize)
    (hread : T.reader.Reads (.start (s.ctx.calls c).response.isSome)
      (s.ctx.rx.unread ++ (chunks ls).flatten) q y) (hq : q.Complete)
    (hmeets : T.reader.Meets (.start (s.ctx.calls c).response.isSome) s.ctx.rx.unread (chunks ls)) :
    some (t.ctx.calls c).result = q.result ∧ (t.ctx.calls c).response.map val = q.response ∧
      (t.phase c = .blocked ∧ 0 < (t.ctx.calls c).sem ∨ ∃ ec, t.phase c = .returned ec) := by
  have hs : StoredBlocked s := run_inv (fun _ _ _ hu h => System.storedBlocked_step hu h) before
    (System.init ctx) s (fun _ he => by cases he) hreach
  have hstart : ¬ (Progress.start (s.ctx.calls c).response.isSome : Progress π β).Complete :=
    fun h => by cases h.2
  have hfragments : ∃ u : RxLoop π ρ δ, receiveFragments I.toVirtuals (chunks ls) s.ctx.rx
        (s.ctx.calls c).result (s.ctx.calls c).response s.ctx.urcs = some (some (u.frc, u.res)) ∧
      q.Complete ∧ Represents C val (s.ctx.calls c).response.isSome u q :=
    receiveFragments_of_finishes hT (hmeets.finishes hstart hread hq) rfl hC rfl hfit (List.infix_refl _)
  obtain ⟨u, hcalls, -, hu⟩ := hfragments
  obtain ⟨r, hr, -, hsome⟩ := System.run_waiting hs hst hrun
  rw [hcalls] at hr
  have hsettled := hsome u.frc u.res (Option.some.inj hr).symm
  rw [hsettled.result, hsettled.response]
  exact ⟨hu.result (by rw [hu.haveResult, hq.2]), hu.response hq.1, hsettled.passed⟩

/-! ## The stream -/

/-- The dispatching loop takes URCs only. -/
theorem dispatchLoop_urcs {V : Virtuals π ρ δ} {urcs urcs' : δ} {input : Text} {n consumed m : Nat}
    {taken taken' : List Slice} (htaken : ∀ slice ∈ taken, slice.1 = .urc)
    (h : dispatchLoop V urcs input n consumed taken = some (m, urcs', taken')) :
    ∀ slice ∈ taken', slice.1 = .urc := by
  fun_induction dispatchLoop V urcs input n consumed taken with
  | case1 => cases h
  | case2 => cases h
  | case3 urcs input n consumed taken hpos rest hsub n' urcs1 hd ih =>
    refine ih (fun slice hmem => ?_) h
    rcases List.mem_append.1 hmem with hmem | hmem
    · exact htaken slice hmem
    · rw [List.mem_singleton.1 hmem]
  | case4 => cases h; exact htaken

theorem dispatchUrcs_urcs {V : Virtuals π ρ δ} {rx rx' : RxBuffer} {bytes : Text} {urcs urcs' : δ}
    {taken : List Slice} (h : dispatchUrcs V rx bytes urcs = some (rx', urcs', taken)) :
    ∀ slice ∈ taken, slice.1 = .urc := by
  obtain ⟨rxstorage, input, m, -, hall, -, -⟩ := dispatchUrcs_iff.1 h
  obtain ⟨n, urcs1, -, hloop⟩ := dispatchAllUrcs_iff.1 hall
  exact dispatchLoop_urcs (fun _ hmem => by cases hmem) hloop

namespace System

/-- The call of `receive` or `dispatchUrcs` that a step makes. -/
def rxCall? (s : System κ π ρ δ) : Step κ π ρ → Option (RxCall π ρ)
  | .handle .rxReady a =>
    match s.state with
    | .waitForResponse msg =>
      some (.receive (s.ctx.calls msg.call).result (s.ctx.calls msg.call).response a.bytes)
    | _ => some (.dispatchUrcs a.bytes)
  | _ => none

variable (I) in
/-- The slices that a step consumes, with the call that has the line. -/
def takes (s : System κ π ρ δ) (l : Step κ π ρ) (_ : System κ π ρ δ) : List (Option Nat × Slice) :=
  match (s.rxCall? l).bind (rxCall I.toVirtuals ⟨s.ctx.rx, s.ctx.urcs, s.ctx.rx.unread, []⟩) with
  | some h => h.taken.map fun slice => (s.state.holder, slice)
  | none => []

variable (I) in
/-- The call that a step makes, and what comes of it. -/
structure Calls (s : System κ π ρ δ) (l : Step κ π ρ) (rx : RxBuffer) (call : RxCall π ρ)
    (u : History δ) : Prop where
  chunk : l.chunk? = some call.bytes
  made : s.rxCall? l = some call
  returns : rxCall I.toVirtuals ⟨s.ctx.rx, s.ctx.urcs, s.ctx.rx.unread, []⟩ call = some u
  rx : u.rx = rx
  read : u.read = s.ctx.rx.unread ++ call.bytes
  urcs : s.state.holder = none → ∀ slice ∈ u.taken, slice.1 = .urc

theorem calls_receive {msg : Payload} {success : Bool} (hst : s.state = .waitForResponse msg)
    (h : s.ctx.receive I msg a = some (success, ctx')) :
    ∃ call u, Calls I s (.handle .rxReady a) ctx'.rx call u := by
  obtain ⟨r, hr, -, rfl⟩ := Context.receive_iff.1 h
  refine ⟨.receive (s.ctx.calls msg.call).result (s.ctx.calls msg.call).response a.bytes,
    ⟨r.rx, r.loop.urcs, s.ctx.rx.unread ++ a.bytes, [] ++ r.loop.taken⟩, rfl, ?_, ?_, rfl, rfl, ?_⟩
  · simp only [rxCall?, hst]
  · simp only [rxCall, hr]
  · intro hfree
    rw [hst] at hfree
    cases hfree

theorem calls_dispatchUrcs (hno : ∀ msg, s.state ≠ .waitForResponse msg)
    (h : s.ctx.dispatchUrcs I a = some ctx') :
    ∃ call u, Calls I s (.handle .rxReady a) ctx'.rx call u := by
  obtain ⟨⟨rx, urcs, taken⟩, hd, rfl⟩ := Option.map_eq_some_iff.1 h
  refine ⟨.dispatchUrcs a.bytes, ⟨rx, urcs, s.ctx.rx.unread ++ a.bytes, [] ++ taken⟩, rfl, ?_, ?_, rfl,
    rfl, fun _ => dispatchUrcs_urcs hd⟩
  · unfold rxCall?
    cases hst : s.state with
    | idle => rfl
    | sendCommand msg => rfl
    | waitForResponse msg => exact absurd hst (hno msg)
  · simp only [rxCall, hd, Option.map_some]

/-- The buffer after a step is that after the call it makes. -/
theorem calls_of_step {l : Step κ π ρ} (h : s.step I l = some s') :
    (l.chunk? = none ∧ s.rxCall? l = none ∧ s'.ctx.rx = s.ctx.rx) ∨
      ∃ call u, Calls I s l s'.ctx.rx call u := by
  cases step_cases h with
  | @call d command result response a _ hd h =>
    have hrx : s'.ctx.rx = (s.arrive d command result response).ctx.rx := (gate_same h).1
    exact Or.inl ⟨rfl, rfl, hrx⟩
  | spurious => exact Or.inl ⟨rfl, rfl, rfl⟩
  | recheck hd h => exact Or.inl ⟨rfl, rfl, (gate_same h).1⟩
  | acquire => exact Or.inl ⟨rfl, rfl, rfl⟩
  | @handle event a _ h =>
    obtain ⟨⟨next, ctx'⟩, hhandle, rfl⟩ := Option.map_eq_some_iff.1 h
    generalize hst : s.state = state at hhandle
    cases State.handled hhandle with
    | ignored hevent =>
      cases event with
      | rxReady => exact absurd rfl hevent
      | txReady => exact Or.inl ⟨rfl, rfl, rfl⟩
      | shutDown => exact Or.inl ⟨rfl, rfl, rfl⟩
    | dispatched hno hd => exact Or.inr (calls_dispatchUrcs (by rw [hst]; exact hno) hd)
    | sent hsend => exact Or.inl ⟨rfl, rfl, (Context.send_same hsend).1⟩
    | incomplete hreceive => exact Or.inr (calls_receive hst hreceive)
    | completed hreceive =>
      obtain ⟨call, u, hcalls⟩ := calls_receive hst hreceive
      exact Or.inr ⟨call, u, hcalls⟩

/-- One step: the slices it takes and what is unread after it are what was unread before it and
the bytes it reads. -/
theorem stream_step {l : Step κ π ρ} (hle : s.ctx.rx.leftover ≤ storageSize)
    (h : s.step I l = some s') :
    s'.ctx.rx.leftover ≤ storageSize ∧
      consumedText ((takes I s l s').map (·.2)) ++ s'.ctx.rx.unread =
        s.ctx.rx.unread ++ (chunks [l]).flatten ∧
      ∀ p ∈ takes I s l s', p.1 = none → p.2.1 = .urc := by
  rcases calls_of_step h with
    ⟨hchunk, hcall, hrx⟩ | ⟨call, u, hchunk, hcall, hreturns, hrx, hread, hurcs⟩
  · have htakes : takes I s l s' = [] := by
      unfold takes
      rw [hcall]
      rfl
    rw [htakes, hrx, chunks_cons_none hchunk]
    exact ⟨hle, (List.append_nil _).symm, fun _ hmem => by cases hmem⟩
  · have htakes : takes I s l s' = u.taken.map fun slice => (s.state.holder, slice) := by
      unfold takes
      rw [hcall, Option.bind_some, hreturns]
    have hbefore : (History.mk s.ctx.rx s.ctx.urcs s.ctx.rx.unread []).Conserved := ⟨hle, rfl⟩
    have hafter := rxCall_conserves hbefore hreturns
    rw [htakes, chunks_cons_some hchunk, ← hrx, List.map_map]
    refine ⟨hafter.leftover_le, ?_, fun p hp hfree => ?_⟩
    · rw [show (·.2) ∘ (fun slice : Slice => (s.state.holder, slice)) = id from rfl, List.map_id,
        hafter.bytes, hread]
      exact congrArg _ (List.append_nil _).symm
    · obtain ⟨slice, hslice, rfl⟩ := List.mem_map.1 hp
      exact hurcs hfree slice hslice

theorem run_stream {ls : List (Step κ π ρ)} (hle : s.ctx.rx.leftover ≤ storageSize)
    (hrun : run (step I) ls s = some t) :
    t.ctx.rx.leftover ≤ storageSize ∧
      consumedText ((collect (step I) (takes I) ls s).map (·.2)) ++ t.ctx.rx.unread =
        s.ctx.rx.unread ++ (chunks ls).flatten ∧
      ∀ p ∈ collect (step I) (takes I) ls s, p.1 = none → p.2.1 = .urc := by
  induction ls generalizing s with
  | nil =>
    cases hrun
    exact ⟨hle, (List.append_nil _).symm, fun _ hmem => by cases hmem⟩
  | cons l ls ih =>
    obtain ⟨s', hstep, hrest⟩ := run_cons_some hrun
    obtain ⟨hle', hbytes, hurcs⟩ := stream_step hle hstep
    obtain ⟨hlet, hbytes', hurcs'⟩ := ih hle' hrest
    have hchunks : chunks (l :: ls) = chunks [l] ++ chunks ls := by
      unfold chunks
      rw [← List.filterMap_append, List.singleton_append]
    rw [collect_cons hstep, List.map_append, consumedText_append, List.append_assoc, hbytes',
      ← List.append_assoc, hbytes, hchunks, List.flatten_append, List.append_assoc]
    refine ⟨hlet, rfl, fun p hp => ?_⟩
    exact (List.mem_append.1 hp).elim (hurcs p) (hurcs' p)

end System

/-- **The stream is conserved**: in every run of any number of callers and events the slices taken,
in order, and what is unread at the end are the bytes received, and fit the buffer; and while no
call has the line only URCs are taken. -/
theorem stream_conserved {ls : List (Step κ π ρ)} {ctx : Context κ π ρ δ} (hempty : ctx.rx.leftover = 0)
    (hrun : run (System.step I) ls (System.init ctx) = some t) :
    let taken := collect (System.step I) (System.takes I) ls (System.init ctx)
    t.ctx.rx.leftover ≤ storageSize ∧
      consumedText (taken.map (·.2)) ++ t.ctx.rx.unread = (chunks ls).flatten ∧
      ∀ p ∈ taken, p.1 = none → p.2.1 = .urc := by
  have hle : (System.init ctx).ctx.rx.leftover ≤ storageSize := by
    show ctx.rx.leftover ≤ storageSize
    omega
  have hunread : (System.init ctx).ctx.rx.unread = [] := by
    show ctx.rx.rxstorage.chars.take ctx.rx.leftover = []
    rw [hempty, List.take_zero]
  have hstream := System.run_stream hle hrun
  rw [hunread, List.nil_append] at hstream
  exact hstream

end Exchange

/-- `AT+R?` is sent, and a response `+R:` is awaited. -/
def sentRun : List (Step PacketCommand (ResponsePack.Variant (FinalResultCode cmsCode cmeCode []))
    intResponse.Obj) :=
  [.call 0 ⟨text "AT+R?", Constants.Cr, []⟩ none (some intResponse.init) ⟨true, 6, []⟩]

/-- Its response and its result come in two reads, with another call, a stale event and a wake-up
around them. -/
def replyRun : List (Step PacketCommand (ResponsePack.Variant (FinalResultCode cmsCode cmeCode []))
    intResponse.Obj) :=
  [.call 1 ⟨text "AT+X=", Constants.Cr, [.int 7]⟩ none none ⟨true, 7, []⟩,
    .handle .rxReady ⟨true, 0, text "\r\n+R:"⟩, .spurious 1, .handle .txReady ⟨true, 0, []⟩,
    .recheck 1 ⟨true, 7, []⟩, .handle .rxReady ⟨true, 0, text "1\r\nOK\r\n"⟩, .acquire 0]

/-- The value of a response with one int. -/
def soleInt? : intResponse.Obj → Option Int
  | [.int i] => some i
  | _ => none

theorem soleInt?_eq_some {obj : intResponse.Obj} {i : Int} (h : soleInt? obj = some i) :
    obj = [.int i] := by
  unfold soleInt? at h
  split at h
  · cases h
    rfl
  · cases h

theorem replyRun_ends :
    ∃ s t, run (System.step intInterfaces) sentRun (System.init intContext) = some s ∧
      s.state = .waitForResponse ⟨0⟩ ∧ s.ctx.rx.leftover = 0 ∧
      (s.ctx.calls 0).response = some intResponse.init ∧
      run (System.step intInterfaces) replyRun s = some t := by
  have hsent : (run (System.step intInterfaces) sentRun (System.init intContext)).map (fun s =>
      (s.state, s.ctx.rx.leftover, (s.ctx.calls 0).response.bind soleInt?,
        (run (System.step intInterfaces) replyRun s).isSome)) =
      some (.waitForResponse ⟨0⟩, 0, some 0, true) := by decide +kernel
  obtain ⟨s, hs, hfacts⟩ := Option.map_eq_some_iff.1 hsent
  simp only [Prod.mk.injEq] at hfacts
  obtain ⟨hst, hempty, hint, hsome⟩ := hfacts
  obtain ⟨obj, hobj, hint⟩ := Option.bind_eq_some_iff.1 hint
  obtain ⟨t, ht⟩ := Option.isSome_iff_exists.1 hsome
  exact ⟨s, t, hs, hst, hempty, hobj.trans (congrArg some (soleInt?_eq_some hint)), ht⟩

theorem reply_is_fragments_replyRun :
    ∃ s t, run (System.step intInterfaces) sentRun (System.init intContext) = some s ∧
      run (System.step intInterfaces) replyRun s = some t ∧
      ∃ r, receiveFragments intInterfaces.toVirtuals (chunks replyRun) s.ctx.rx (s.ctx.calls 0).result
          (s.ctx.calls 0).response s.ctx.urcs = some r ∧
        (t.state = .waitForResponse ⟨0⟩ ↔ r = none) ∧
        (∀ frc res, r = some (frc, res) →
          (t.ctx.calls 0).result = frc ∧ (t.ctx.calls 0).response = res ∧
            (t.phase 0 = .blocked ∧ 0 < (t.ctx.calls 0).sem ∨ ∃ ec, t.phase 0 = .returned ec)) := by
  obtain ⟨s, t, hs, hst, -, -, ht⟩ := replyRun_ends
  exact ⟨s, t, hs, ht, reply_is_fragments hs hst ht⟩

theorem stream_conserved_replyRun :
    ∃ t, run (System.step intInterfaces) (sentRun ++ replyRun) (System.init intContext) = some t ∧
      (let taken := collect (System.step intInterfaces) (System.takes intInterfaces)
        (sentRun ++ replyRun) (System.init intContext)
      t.ctx.rx.leftover ≤ storageSize ∧
        consumedText (taken.map (·.2)) ++ t.ctx.rx.unread = (chunks (sentRun ++ replyRun)).flatten ∧
        ∀ p ∈ taken, p.1 = none → p.2.1 = .urc) := by
  obtain ⟨s, t, hs, -, -, -, ht⟩ := replyRun_ends
  have hrun := run_join hs ht
  exact ⟨t, hrun, stream_conserved rfl hrun⟩

/-- The response is `+R:1` and the result `OK`; the first read ends in the response. -/
theorem reply_completes_replyRun :
    ∃ s t, run (System.step intInterfaces) sentRun (System.init intContext) = some s ∧
      run (System.step intInterfaces) replyRun s = some t ∧
      ∃ q : Progress _ intResponse.Obj, q.Complete ∧ some (t.ctx.calls 0).result = q.result ∧
        (t.ctx.calls 0).response.map id = q.response ∧ q.response = some [.int 1] ∧
        (t.phase 0 = .blocked ∧ 0 < (t.ctx.calls 0).sem ∨ ∃ ec, t.phase 0 = .returned ec) := by
  obtain ⟨s, t, hs, hst, hempty, hexpected, ht⟩ := replyRun_ends
  have hunread : s.ctx.rx.unread = [] := by rw [RxBuffer.unread, hempty, List.take_zero]
  have hT : Realises intInterfaces.toVirtuals
      (.ofTypes (FinalResultCode cmsCode cmeCode []) intResponse fun _ => some 0) _ id
      (s.ctx.rx.unread ++ (chunks replyRun).flatten) :=
    realises_ofTypes (fun _ _ => rfl) _ _ (by simp [ResponseField.shape]) _
  have hread : ∃ q y, (TextParsers.ofTypes (FinalResultCode cmsCode cmeCode []) intResponse
      fun _ => some 0).reader.Reads (.start true) (text "\r\n+R:1\r\nOK\r\n") q y ∧ q.Complete ∧
        q.response = some [.int 1] :=
    ⟨_, _, .next rfl (.next rfl (.done rfl)), ⟨rfl, rfl⟩, rfl⟩
  obtain ⟨q, y, hread, hq, hresponse⟩ := hread
  have hchunks : chunks replyRun = [text "\r\n+R:", text "1\r\nOK\r\n"] := rfl
  have hflat : [text "\r\n+R:", text "1\r\nOK\r\n"].flatten = text "\r\n+R:1\r\nOK\r\n" := by
    decide +kernel
  have hread' : (TextParsers.ofTypes (FinalResultCode cmsCode cmeCode []) intResponse
      fun _ => some 0).reader.Reads (.start (s.ctx.calls 0).response.isSome)
      (s.ctx.rx.unread ++ (chunks replyRun).flatten) q y := by
    rw [hexpected, hunread, hchunks, List.nil_append, hflat]
    exact hread
  have hclass : ∀ obj, (s.ctx.calls 0).response = some obj →
      [ResponseField.int 0].map (·.shape) = obj.map (·.shape) := by
    rw [hexpected]
    exact fun obj hobj => by cases hobj; rfl
  have hfit : s.ctx.rx.leftover + (chunks replyRun).flatten.length ≤ storageSize := by
    rw [hempty, hchunks, hflat]
    decide
  have hmeets : (TextParsers.ofTypes (FinalResultCode cmsCode cmeCode []) intResponse
      fun _ => some 0).reader.Meets (.start (s.ctx.calls 0).response.isSome) s.ctx.rx.unread
      (chunks replyRun) := by
    rw [hexpected, hunread, hchunks]
    exact .undecided ⟨.done rfl, .refl⟩ .last
  obtain ⟨hresult, hmap, hserved⟩ := reply_completes hs hst ht hT hclass hfit hread' hq hmeets
  exact ⟨s, t, hs, ht, q, hq, hresult, hmap, hresponse, hserved⟩

end ATLink
