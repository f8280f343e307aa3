import ATLink.HalfDuplex

/-!
# Semaphores and wake-ups of the callers

* `releases` — how often a run releases the semaphore of a call.
* `pending` — 1 as long as a release of the call's semaphore may still come.
* `NoneWaiting` — where the machine is idle no call waits without having been notified.

Principal results: `completion_sound` — the machine refers only to a call that is blocked and not
released, each call is released at most once, and only by a step in which its result, and its
response if it expects one, is accepted; `no_lost_wake_up`.
-/

namespace ATLink

open LabelledRun

section Callers

variable {κ π ρ δ : Type} {I : Interfaces κ π ρ δ} {s s' t : System κ π ρ δ} {c : Nat} {a : Answers}

namespace System

/-- How often the step from `s` to `s'` releases the semaphore of the call. -/
def released (c : Nat) (s s' : System κ π ρ δ) : Nat := (s'.ctx.calls c).sem - (s.ctx.calls c).sem

variable (I) in
/-- How often the run from `s` does. -/
def releases (c : Nat) (ls : List (Step κ π ρ)) (s : System κ π ρ δ) : Nat :=
  total (System.step I) (released c) ls s

/-- The call has not passed the gate, or its payload is in the machine. -/
def pending (c : Nat) (s : System κ π ρ δ) : Nat :=
  (s.phase c).arriving.toNat + if s.state.msg? = some ⟨c⟩ then 1 else 0

/-! ## Releases -/

/-- Passing the gate releases nothing; the call that passes is pending in the machine, if at
all. -/
theorem pending_gate (harriving : (s.phase c).arriving = true) (h : s.gate I c a = some s') (d : Nat) :
    released d s s' + pending d s' ≤ pending d s := by
  unfold released pending
  rcases gate_cases h with ⟨-, rfl⟩ | ⟨hidle, hphase, hsem, hnext⟩
  · by_cases hd : d = c
    · subst hd
      have hwaiting : Phase.waiting.arriving = true := rfl
      simp only [Function.update_self, harriving, hwaiting]
      omega
    · simp only [Function.update_of_ne hd]
      omega
  · rw [hphase, hsem]
    by_cases hd : d = c
    · subst hd
      have hpassed : Phase.blocked.arriving.toNat = 0 := rfl
      simp only [Function.update_self, harriving, hpassed, if_true, Bool.toNat_true]
      split <;> omega
    · have hmsg : s'.state.msg? ≠ some ⟨d⟩ := by
        rcases hnext with ⟨-, hst⟩ | ⟨-, -, hst⟩ | ⟨-, -, hst⟩ <;> rw [hst]
        · exact fun he => hd (by cases he; rfl)
        · exact fun he => hd (by cases he; rfl)
        · exact fun he => by cases he
      simp only [Function.update_of_ne hd, if_neg hd, if_neg hmsg]
      omega

/-- A release uses up the payload in the machine. -/
theorem pending_handle {event : Event} (h : s.handle I event a = some s') (d : Nat) :
    released d s s' + pending d s' ≤ pending d s := by
  have harriving := (handle_emits h).1 d
  obtain ⟨⟨next, ctx'⟩, hhandle, rfl⟩ := Option.map_eq_some_iff.1 h
  unfold released pending
  rw [harriving]
  rcases State.handle_cases hhandle with
    ⟨rfl, hsem, -⟩ | ⟨msg, -, hst, hcalls, hnext⟩ | ⟨msg, -, hst, rfl, hsem, hother⟩
  · have hd : (ctx'.calls d).sem = (s.ctx.calls d).sem := hsem d
    simp only [hd]
    omega
  · have hmsg : next.msg? = some ⟨d⟩ → s.state.msg? = some ⟨d⟩ := by
      rw [hst]
      rcases hnext with ⟨-, rfl⟩ | ⟨-, rfl⟩
      · exact id
      · exact fun he => by cases he
    simp only [hcalls]
    split
    · rename_i he
      rw [if_pos (hmsg he)]
      omega
    · omega
  · rw [hst]
    by_cases hd : d = msg.call
    · subst hd
      have hself : (State.waitForResponse msg).msg? = some ⟨msg.call⟩ := rfl
      have hnone : State.idle.msg? ≠ some ⟨msg.call⟩ := fun he => by cases he
      simp only [hself, if_neg hnone, if_true]
      omega
    · have hd' : (ctx'.calls d).sem = (s.ctx.calls d).sem := hother d hd
      have hnone : State.idle.msg? ≠ some ⟨d⟩ := fun he => by cases he
      simp only [hd', if_neg hnone]
      omega

/-- A call that arrives starts with its semaphore at zero, and leaves the others alone. -/
theorem arrive_sem_le (s : System κ π ρ δ) (c d : Nat) (command : κ) (result : π)
    (response : Option ρ) :
    ((s.arrive c command result response).ctx.calls d).sem ≤ (s.ctx.calls d).sem := by
  unfold arrive
  by_cases hd : d = c
  · subst hd
    simp only [Function.update_self]
    exact Nat.zero_le _
  · simp only [Function.update_of_ne hd]
    exact Nat.le_refl _

theorem gate_sem_le (h : s.gate I c a = some s') (d : Nat) :
    (s'.ctx.calls d).sem ≤ (s.ctx.calls d).sem := by
  rcases gate_cases h with ⟨-, rfl⟩ | ⟨-, -, hsem, -⟩
  · exact Nat.le_refl _
  · rw [hsem]
    split <;> omega

/-- **Each release is paid for**: what a step releases it takes from what is pending. -/
theorem pending_step {l : Step κ π ρ} (h : s.step I l = some s') (d : Nat) :
    released d s s' + pending d s' ≤ pending d s := by
  cases step_cases h with
  | @call c command result response a _ hc h =>
    have harriving : ((s.arrive c command result response).phase c).arriving = true := by
      show (s.phase c).arriving = true
      rw [hc]
      rfl
    have hgate := pending_gate harriving h d
    have hreleased : released d s s' ≤ released d (s.arrive c command result response) s' := by
      have hle := arrive_sem_le s c d command result response
      unfold released
      omega
    exact Nat.le_trans (Nat.add_le_add_right hreleased _) hgate
  | @spurious c hc =>
    unfold released pending
    by_cases hd : d = c
    · subst hd
      have hnotified : Phase.notified.arriving = Phase.waiting.arriving := rfl
      simp only [Function.update_self, hc, hnotified]
      omega
    · simp only [Function.update_of_ne hd]
      omega
  | recheck hc h => exact pending_gate (by rw [hc]; rfl) h d
  | @acquire c hc hpos =>
    unfold released pending acquire
    by_cases hd : d = c
    · subst hd
      have hreturned : ∀ ec, (Phase.returned ec).arriving = Phase.blocked.arriving := fun _ => rfl
      simp only [Function.update_self, hc, hreturned]
      omega
    · simp only [Function.update_of_ne hd]
      omega
  | handle h => exact pending_handle h d

/-- Only an event releases a semaphore, and it ends the command of that call. -/
theorem ends_of_release {l : Step κ π ρ} (h : s.step I l = some s')
    (hlt : (s.ctx.calls c).sem < (s'.ctx.calls c).sem) :
    ∃ a, l = .handle .rxReady a ∧ s.state = .waitForResponse ⟨c⟩ ∧ EndsCommand I s.ctx ⟨c⟩ a := by
  cases step_cases h with
  | @call d command result response a _ hd h =>
    have hle := gate_sem_le h c
    have harrive := arrive_sem_le s d c command result response
    omega
  | spurious hd => exact absurd hlt (Nat.lt_irrefl _)
  | recheck hd h =>
    have hle := gate_sem_le h c
    omega
  | @acquire d hd hpos =>
    unfold acquire at hlt
    by_cases hd : c = d
    · subst hd
      simp only [Function.update_self] at hlt
      omega
    · simp only [Function.update_of_ne hd, Nat.lt_irrefl] at hlt
  | @handle event a _ h =>
    obtain ⟨⟨next, ctx'⟩, hhandle, rfl⟩ := Option.map_eq_some_iff.1 h
    have hlt : (s.ctx.calls c).sem < (ctx'.calls c).sem := hlt
    rcases State.handle_cases hhandle with
      ⟨-, hsem, -⟩ | ⟨msg, -, -, hcalls, -⟩ | ⟨⟨d⟩, rfl, hst, rfl, hsem, hother⟩
    · rw [hsem] at hlt
      exact absurd hlt (Nat.lt_irrefl _)
    · rw [hcalls] at hlt
      exact absurd hlt (Nat.lt_irrefl _)
    · by_cases hc : c = d
      · subst hc
        rw [hst] at hhandle
        exact ⟨a, rfl, hst, ctx', hhandle, hsem⟩
      · rw [hother c hc] at hlt
        exact absurd hlt (Nat.lt_irrefl _)

/-! ## Wake-ups -/

/-- Where the machine is idle no call waits without having been notified. -/
def NoneWaiting (s : System κ π ρ δ) : Prop := s.state = .idle → ∀ c, s.phase c ≠ .waiting

theorem noneWaiting_gate (hs : NoneWaiting s) (h : s.gate I c a = some s') : NoneWaiting s' := by
  rcases gate_cases h with ⟨hbusy, rfl⟩ | ⟨hidle, hphase, -⟩
  · exact fun hidle => absurd hidle hbusy
  · intro _ d hd
    rw [hphase] at hd
    by_cases hdc : d = c
    · subst hdc
      rw [Function.update_self] at hd
      cases hd
    · rw [Function.update_of_ne hdc] at hd
      exact hs hidle d hd

/-- An event that makes the machine idle notifies all that wait. -/
theorem noneWaiting_handle {event : Event} (hs : NoneWaiting s) (h : s.handle I event a = some s') :
    NoneWaiting s' := by
  obtain ⟨⟨next, ctx'⟩, -, rfl⟩ := Option.map_eq_some_iff.1 h
  intro hidle d
  have hidle : next = .idle := hidle
  show (if s.state ≠ .idle ∧ next = .idle then notifyAll s.phase else s.phase) d ≠ .waiting
  split
  · unfold notifyAll
    split
    · exact fun hd => by cases hd
    · rename_i hd
      exact hd
  · rename_i hentered
    exact hs (by_contra fun hbusy => hentered ⟨hbusy, hidle⟩) d

/-- **No wake-up is lost in a step.** -/
theorem noneWaiting_step {l : Step κ π ρ} (hs : NoneWaiting s) (h : s.step I l = some s') :
    NoneWaiting s' := by
  have hupdate : ∀ {p : Phase} {d e : Nat}, p ≠ .waiting → Function.update s.phase e p d = .waiting →
      s.phase d = .waiting := by
    intro p d e hp hd
    by_cases hde : d = e
    · subst hde
      rw [Function.update_self] at hd
      exact absurd hd hp
    · rwa [Function.update_of_ne hde] at hd
  cases step_cases h with
  | @call d command result response a _ hd h =>
    exact @noneWaiting_gate _ _ _ _ _ (s.arrive d command result response) s' d a hs h
  | spurious hd => exact fun hidle e he => hs hidle e (hupdate (by decide) he)
  | recheck hd h => exact noneWaiting_gate hs h
  | acquire hd hpos => exact fun hidle e he => hs hidle e (hupdate (fun hp => by cases hp) he)
  | handle h => exact noneWaiting_handle hs h

end System

/-! ## Runs -/

/-- **Completion is sound**: in every state that a run reaches, the payload in the machine belongs
to a call that is blocked and has not been released; no call is released twice; and a step that
releases one is an `RxReady` in which the result pack accepts, and the response of the call, if
it expects one. -/
theorem completion_sound {ctx : Context κ π ρ δ} {ls : List (Step κ π ρ)}
    (hrun : run (System.step I) ls (System.init ctx) = some t) :
    (∀ c, t.state.msg? = some ⟨c⟩ →
        t.phase c = .blocked ∧ System.releases I c ls (System.init ctx) = 0) ∧
      (∀ c, System.releases I c ls (System.init ctx) ≤ 1) ∧
      ∀ l t' c, t.step I l = some t' → (t.ctx.calls c).sem < (t'.ctx.calls c).sem →
        ∃ a, l = .handle .rxReady a ∧ t.state = .waitForResponse ⟨c⟩ ∧
          ∃ rxstorage input, t.ctx.rx.read a.bytes = some (rxstorage, input) ∧
            ResultAccepted I t.ctx ⟨c⟩ input ∧
            ((t.ctx.calls c).response = none ∨
              ResponseTaken I.toVirtuals (pendingStart t.ctx ⟨c⟩ input)) := by
  have htotal : ∀ c, System.releases I c ls (System.init ctx) + System.pending c t ≤ 1 := fun c =>
    run_total_le (R := fun _ => True) (fun _ _ _ _ _ => trivial)
      (fun _ _ _ _ h => System.pending_step h c) ls (System.init ctx) t trivial hrun
  refine ⟨fun c hc => ?_, fun c => ?_, fun l t' c h hlt => ?_⟩
  · refine ⟨(stored_blocked hrun c hc).1, ?_⟩
    have hle := htotal c
    unfold System.pending at hle
    rw [if_pos hc] at hle
    omega
  · have hle := htotal c
    omega
  · obtain ⟨a, hl, hst, hends⟩ := System.ends_of_release h hlt
    exact ⟨a, hl, hst, hends.accepted⟩

/-- **No lost wake-up**: in every state that a run reaches with the machine idle, each caller that
waits on the condition variable has been notified. -/
theorem no_lost_wake_up {ctx : Context κ π ρ δ} {ls : List (Step κ π ρ)}
    (hrun : run (System.step I) ls (System.init ctx) = some t) (hidle : t.state = .idle) :
    ∀ c, t.phase c ≠ .waiting :=
  run_inv (fun _ _ _ hs h => System.noneWaiting_step hs h) ls (System.init ctx) t
    (fun _ _ h => by cases h) hrun hidle

end Callers

/-- Two calls: each is released once, by its own reply. -/
theorem completion_sound_servedRun :
    ∃ t, run (System.step intInterfaces) servedRun (System.init intContext) = some t ∧
      t.phase 1 = .returned .noError ∧
      (∀ c, t.state.msg? = some ⟨c⟩ → t.phase c = .blocked ∧
          System.releases intInterfaces c servedRun (System.init intContext) = 0) ∧
      (∀ c, System.releases intInterfaces c servedRun (System.init intContext) ≤ 1) ∧
      ∀ l t' c, t.step intInterfaces l = some t' → (t.ctx.calls c).sem < (t'.ctx.calls c).sem →
        ∃ a, l = .handle .rxReady a ∧ t.state = .waitForResponse ⟨c⟩ ∧
          ∃ rxstorage input, t.ctx.rx.read a.bytes = some (rxstorage, input) ∧
            ResultAccepted intInterfaces t.ctx ⟨c⟩ input ∧
            ((t.ctx.calls c).response = none ∨
              ResponseTaken intInterfaces.toVirtuals (pendingStart t.ctx ⟨c⟩ input)) := by
  obtain ⟨t, hrun, hreturned⟩ := servedRun_ends
  exact ⟨t, hrun, hreturned, completion_sound hrun⟩

/-- Call 1 finds the machine busy and waits; the reply to call 0 wakes it up. -/
def contendedRun : List (Step PacketCommand (ResponsePack.Variant (FinalResultCode cmsCode cmeCode []))
    intResponse.Obj) :=
  [.call 0 ⟨text "AT+R?", Constants.Cr, []⟩ none (some intResponse.init) ⟨true, 6, []⟩,
    .call 1 ⟨text "AT+R?", Constants.Cr, []⟩ none (some intResponse.init) ⟨true, 6, []⟩,
    .handle .rxReady ⟨true, 0, text "+R:1\r\nOK\r\n"⟩]

theorem no_lost_wake_up_contendedRun :
    ∃ t, run (System.step intInterfaces) contendedRun (System.init intContext) = some t ∧
      t.phase 1 = .notified ∧ ∀ c, t.phase c ≠ .waiting := by
  have hrun : (run (System.step intInterfaces) contendedRun (System.init intContext)).map
      (fun t => (t.state, t.phase 1)) = some (.idle, .notified) := by decide +kernel
  obtain ⟨t, ht, hpair⟩ := Option.map_eq_some_iff.1 hrun
  obtain ⟨hidle, hphase⟩ := Prod.mk.inj hpair
  exact ⟨t, ht, hphase, no_lost_wake_up ht hidle⟩

end ATLink
