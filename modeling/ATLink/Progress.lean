import ATLink.Conservation

/-!
# The receive loops end, and leave nothing behind

* `rxLoopWithin`, `dispatchLoopWithin` — the loops of `receive` and of `dispatchAllUrcs`, cut
  after a number of iterations; `none` is a loop that is not over by then.
* `RxLoop.Tally` — the two flags say what the slices say: a response or a result is taken at most
  once.
* `Progressed` — what holds when `receive` returns.

Principal result: `receive_progress` — each loop is over after a number of iterations that the
length of its input bounds, and no parser that is still waiting takes anything from the leftover.
-/

namespace ATLink

open StringView CopyDown

section Bounds

variable {π ρ δ : Type} (V : Virtuals π ρ δ)

/-- The loop of `receive`, if it is over within so many iterations. -/
def rxLoopWithin : Nat → RxLoop π ρ δ → Option (Except (RxLoop π ρ δ) (RxLoop π ρ δ))
  | 0, _ => none
  | k + 1, s =>
    match loopBody V s with
    | .error s => some (.error s)
    | .ok (true, s') => rxLoopWithin k s'
    | .ok (false, s') => some (.ok s')

/-- The loop of `dispatchAllUrcs`, if it is over within so many iterations. -/
def dispatchLoopWithin : Nat → δ → Text → Nat → Nat → List Slice →
    Option (Option (Nat × δ × List Slice))
  | 0, _, _, _, _, _ => none
  | k + 1, urcs, input, n, consumed, taken =>
    if 0 < n then
      match substr input n with
      | none => some none
      | some rest =>
        match V.dispatch urcs rest with
        | none => some none
        | some (n', urcs) =>
          dispatchLoopWithin k urcs rest n' (consumed + n') (taken ++ [(.urc, input.take n)])
    else some (some (consumed, urcs, taken))

variable {V}

/-- More iterations than the weight are never needed: each one that goes on lowers it. -/
theorem rxLoopWithin_of_weight {k : Nat} {s : RxLoop π ρ δ} (hk : s.weight < k) :
    rxLoopWithin V k s = some (rxLoop V s) := by
  induction k generalizing s with
  | zero => omega
  | succ k ih =>
    rw [rxLoopWithin]
    cases hbody : loopBody V s with
    | error t => exact congrArg some (rxLoop_throws hbody).symm
    | ok r =>
      obtain ⟨more, s'⟩ := r
      have hturn : Turn V s more s' := loopBody_iff.1 hbody
      cases more with
      | false => exact congrArg some (rxLoop_last hturn).symm
      | true =>
        have hlt := hturn.weight_lt
        rw [rxLoop_turn hturn]
        exact ih (by omega)

theorem RxLoop.weight_le (s : RxLoop π ρ δ) : s.weight ≤ s.input.length + 2 := by
  unfold RxLoop.weight
  split <;> split <;> omega

/-- Each iteration shortens the input. -/
theorem dispatchLoopWithin_of_length {k : Nat} {urcs : δ} {input : Text} {n consumed : Nat}
    {taken : List Slice} (hk : input.length < k) :
    dispatchLoopWithin V k urcs input n consumed taken =
      some (dispatchLoop V urcs input n consumed taken) := by
  induction k generalizing urcs input n consumed taken with
  | zero => omega
  | succ k ih =>
    rw [dispatchLoopWithin, dispatchLoop]
    by_cases hpos : 0 < n
    · rw [if_pos hpos, if_pos hpos]
      cases hsub : substr input n with
      | none => rfl
      | some rest =>
        obtain ⟨hn, rfl⟩ := substr_eq_some hsub
        have hlen : (input.drop n).length < k := by
          rw [List.length_drop]
          omega
        simp only
        cases V.dispatch urcs (input.drop n) with
        | none => rfl
        | some r => exact ih hlen
    · rw [if_neg hpos, if_neg hpos]

end Bounds

section Progress

variable {π ρ δ : Type} {V : Virtuals π ρ δ} {s s' : RxLoop π ρ δ} {pending : Option ρ}

/-- The slices of a consumer. -/
def slices (c : Consumer) (taken : List Slice) : Nat := taken.countP (·.1 = c)

@[simp] theorem slices_concat (c c' : Consumer) (taken : List Slice) (txt : Text) :
    slices c (taken ++ [(c', txt)]) = slices c taken + (decide (c' = c)).toNat := by
  by_cases h : c' = c <;> simp [slices, h]

theorem exists_slice {c : Consumer} {taken : List Slice} (h : 0 < slices c taken) :
    ∃ txt, (c, txt) ∈ taken := by
  obtain ⟨⟨c', txt⟩, hmem, hc⟩ := List.countP_pos_iff.1 h
  obtain rfl : c' = c := by simpa using hc
  exact ⟨txt, hmem⟩

/-- The flags tell what has been taken.  `pending` is the response that `receive` was called
with; without one the flag is set from the start. -/
structure RxLoop.Tally (pending : Option ρ) (s : RxLoop π ρ δ) : Prop where
  response : slices .response s.taken = (s.haveResponse && pending.isSome).toNat
  result : slices .result s.taken = s.haveResult.toNat
  object : s.res.isSome = pending.isSome

theorem RxLoop.start_tally (input : Text) (frc : π) (res : Option ρ) (urcs : δ) :
    (RxLoop.start input frc res urcs).Tally res := by
  refine ⟨?_, rfl, rfl⟩
  cases res <;> rfl

/-- The object is kept or is what the rejecting parser has left. -/
theorem NoResponse.isSome_eq {haveResponse : Bool} {res res' : Option ρ} {input : Text}
    (h : NoResponse V haveResponse res input res') : res'.isSome = res.isSome := by
  cases h with
  | taken => rfl
  | absent hnone => rw [hnone]
  | rejects _ hres => rw [hres]; rfl

/-- A turn that goes on keeps the tally. -/
theorem Turn.tally (h : Turn V s true s') (hs : s.Tally pending) : s'.Tally pending := by
  obtain ⟨hresponse, hresult, hobject⟩ := hs
  cases h with
  | response hflag hres =>
    have hpending : pending.isSome = true := by rw [← hobject, hres]; rfl
    refine ⟨?_, ?_, ?_⟩
    · rw [hflag] at hresponse
      simp only [slices_concat, hresponse, hpending]
      rfl
    · simpa using hresult
    · exact hpending.symm
  | result hno hflag =>
    refine ⟨?_, ?_, ?_⟩
    · simpa using hresponse
    · rw [hflag] at hresult
      simp only [slices_concat, hresult]
      rfl
    · exact hno.isSome_eq.trans hobject
  | urc hno =>
    refine ⟨?_, ?_, ?_⟩
    · simpa using hresponse
    · simpa using hresult
    · exact hno.isSome_eq.trans hobject

/-- What holds when `receive` returns: at most one response and one result are taken, the last
dispatch took nothing from the leftover, and a parser that has taken nothing rejects the leftover.
A parser leaves its object behind whether it accepts or not. -/
structure Progressed (V : Virtuals π ρ δ) (pending : Option ρ) (r : Received π ρ δ) : Prop where
  one_response : slices .response r.loop.taken ≤ 1
  one_result : slices .result r.loop.taken ≤ 1
  dispatched : ∃ urcs, V.dispatch urcs r.rx.unread = some (0, r.loop.urcs)
  result : (∃ txt, (.result, txt) ∈ r.loop.taken) ∨
    ∃ frc n, V.acceptResult frc r.rx.unread = some (false, r.loop.frc, n)
  response : pending = none ∨ (∃ txt, (.response, txt) ∈ r.loop.taken) ∨
    ∃ obj obj' n, V.acceptResponse obj r.rx.unread = some (false, obj', n) ∧ r.loop.res = some obj'

/-- The last turn tries every parser that is still waiting. -/
theorem Turn.progressed {r : Received π ρ δ} {u : RxLoop π ρ δ} (hu : u.Tally pending)
    (hturn : Turn V u false r.loop) (hunread : r.rx.unread = r.loop.input) :
    Progressed V pending r := by
  obtain ⟨success, rx, loop⟩ := r
  obtain ⟨hresponse, hresult, hobject⟩ := hu
  simp only at hturn hunread
  cases hturn with
  | @last res' frc urcs hno hno' hdispatch =>
    simp only at hunread
    refine ⟨?_, ?_, ?_, ?_, ?_⟩
    · exact hresponse.trans_le (Bool.toNat_le _)
    · exact hresult.trans_le (Bool.toNat_le _)
    · exact ⟨u.urcs, by rw [hunread]; exact hdispatch⟩
    · cases hno' with
      | taken hflag =>
        rw [hflag] at hresult
        exact Or.inl (exists_slice (hresult ▸ Nat.one_pos))
      | rejects _ hreject => exact Or.inr ⟨_, _, by rw [hunread]; exact hreject⟩
    · cases pending with
      | none => exact Or.inl rfl
      | some obj =>
        refine Or.inr ?_
        cases hno with
        | taken hflag =>
          rw [hflag] at hresponse
          exact Or.inl (exists_slice (hresponse ▸ Nat.one_pos))
        | absent hnone =>
          rw [hnone] at hobject
          cases hobject
        | rejects _ _ hreject => exact Or.inr ⟨_, _, _, by rw [hunread]; exact hreject, rfl⟩

/-- What the buffer keeps is the input that the loop leaves. -/
theorem receive_unread {rx : RxBuffer} {bytes : Text} {frc : π} {res : Option ρ} {urcs : δ}
    {r : Received π ρ δ} (h : receive V rx bytes frc res urcs = some (.ok r)) :
    r.rx.unread = r.loop.input := by
  obtain ⟨rxstorage, input, t, hread, hloop, rfl⟩ := receive_ok_iff.1 h
  have hle : rx.leftover ≤ storageSize := by
    unfold RxBuffer.read at hread
    simp only at hread
    split at hread
    · omega
    · cases hread
  have hsplit : consumedText t.taken ++ t.input = input := receiveLoop_conserves hloop
  obtain ⟨-, htake⟩ := RxBuffer.read_eq hle hread
  rw [← hsplit] at htake ⊢
  exact RxBuffer.unread_keep htake

/-- A call of `receive` that returns has made all the progress there is to make. -/
theorem receive_progressed {rx : RxBuffer} {bytes : Text} {frc : π} {res : Option ρ} {urcs : δ}
    {r : Received π ρ δ} (h : receive V rx bytes frc res urcs = some (.ok r)) :
    Progressed V res r := by
  have hunread : r.rx.unread = r.loop.input := receive_unread h
  obtain ⟨rxstorage, input, t, -, hloop, rfl⟩ := receive_ok_iff.1 h
  obtain ⟨res', hres', hruns⟩ := receiveLoop_runs hloop
  have hstart : RxLoop.Tally res { RxLoop.start input frc res urcs with res := res' } := by
    obtain ⟨hresponse, hresult, hobject⟩ := RxLoop.start_tally input frc res urcs
    refine ⟨hresponse, hresult, ?_⟩
    rcases hres' with rfl | hno
    · exact hobject
    · exact hno.isSome_eq.trans hobject
  obtain ⟨u, hu, hturn⟩ := hruns.last_turn (fun _ _ hs h => h.tally hs) hstart
  exact hturn.progressed hu hunread

/-- **The loops end with maximal progress**: whatever the parsers do, the loop of `receive` is over
after `input.size() + 3` iterations and the one of `dispatchAllUrcs` after `input.size() + 1`; a
`receive` that returns has `Progressed`; and it returns where the parsers are bounded and the device
respects the span. -/
theorem receive_progress (V : Virtuals π ρ δ) :
    (∀ s : RxLoop π ρ δ, rxLoopWithin V (s.input.length + 3) s = some (rxLoop V s)) ∧
      (∀ urcs input n consumed taken,
        dispatchLoopWithin V (input.length + 1) urcs input n consumed taken =
          some (dispatchLoop V urcs input n consumed taken)) ∧
      (∀ rx bytes frc res urcs r, receive V rx bytes frc res urcs = some (.ok r) →
        Progressed V res r) ∧
      (V.Bounded → ∀ rx bytes frc res urcs, rx.leftover + bytes.length ≤ storageSize →
        ∃ r, receive V rx bytes frc res urcs = some (.ok r)) := by
  refine ⟨fun s => ?_, fun urcs input n consumed taken => ?_, fun rx bytes frc res urcs r h => ?_, ?_⟩
  · have hle := s.weight_le
    exact rxLoopWithin_of_weight (by omega)
  · exact dispatchLoopWithin_of_length (Nat.lt_succ_self _)
  · exact receive_progressed h
  · intro hV rx bytes frc res urcs hfit
    obtain ⟨⟨rxstorage, input⟩, hread⟩ := rx.exists_read hfit
    obtain ⟨t, ht⟩ := hV.receiveLoop_returns (RxLoop.start input frc res urcs)
    exact ⟨_, receive_ok_iff.2 ⟨rxstorage, input, t, hread, ht, rfl⟩⟩

end Progress

end ATLink
