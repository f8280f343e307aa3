import ATLink.Lib.Run
import ATLink.FinalResult
import ATLink.Receive

/-!
# Conservation of the bytes received

* `RxCall` — a call of `receive` (with the pack and the response object of its command) or of
  `dispatchUrcs`, with the bytes the device returns to it.
* `History` — the receive buffer and the dispatcher, all bytes read from the device so far and
  all slices consumed so far.  Only calls that return are steps.

Principal result: `bytes_conserved` — in every run the slices consumed and the unread part of
the buffer make up the bytes read, and the next call is never stuck as long as the parsers are
bounded and the device respects the span.
-/

namespace ATLink

open StringView CopyDown LabelledRun

/-- The characters of the slices, in order. -/
def consumedText (taken : List Slice) : Text := taken.flatMap (·.2)

@[simp] theorem consumedText_nil : consumedText [] = [] := rfl

@[simp] theorem consumedText_append (a b : List Slice) :
    consumedText (a ++ b) = consumedText a ++ consumedText b := List.flatMap_append

@[simp] theorem consumedText_singleton (c : Consumer) (t : Text) : consumedText [(c, t)] = t := by
  simp [consumedText]

section Loops

variable {π ρ δ : Type} {V : Virtuals π ρ δ} {s s' t : RxLoop π ρ δ}

/-- A turn moves the front of the input to the slices. -/
theorem Turn.conserves {more : Bool} (h : Turn V s more s') :
    consumedText s'.taken ++ s'.input = consumedText s.taken ++ s.input := by
  cases h <;> simp

theorem Runs.conserves (h : Runs V s t) :
    consumedText t.taken ++ t.input = consumedText s.taken ++ s.input := by
  have hkeep : ∀ u u', consumedText u.taken ++ u.input = consumedText s.taken ++ s.input →
      Turn V u true u' → consumedText u'.taken ++ u'.input = consumedText s.taken ++ s.input :=
    fun _ _ hu hturn => hturn.conserves.trans hu
  obtain ⟨u, hu, hlast⟩ := h.last_turn hkeep rfl
  exact hlast.conserves.trans hu

/-- The loop splits the input into the slices taken and what is left. -/
theorem receiveLoop_conserves (h : receiveLoop V s = .ok t) :
    consumedText t.taken ++ t.input = consumedText s.taken ++ s.input := by
  obtain ⟨res', -, hruns⟩ := receiveLoop_runs h
  exact hruns.conserves

/-- The dispatching loop reports the length of the slices it has taken. -/
theorem dispatchLoop_conserves {urcs urcs' : δ} {input : Text} {n consumed m : Nat}
    {taken taken' : List Slice}
    (h : dispatchLoop V urcs input n consumed taken = some (m, urcs', taken')) :
    ∃ more, taken' = taken ++ more ∧ m + n = consumed + (consumedText more).length ∧
      consumedText more <+: input := by
  fun_induction dispatchLoop V urcs input n consumed taken with
  | case1 => cases h
  | case2 => cases h
  | case3 urcs input n consumed taken hpos rest hsub n' urcs1 hd ih =>
    obtain ⟨hn, rfl⟩ := substr_eq_some hsub
    obtain ⟨more, rfl, hsum, r, hr⟩ := ih h
    refine ⟨(.urc, input.take n) :: more, by simp, ?_, r, ?_⟩
    · have hlen : (consumedText ((Consumer.urc, input.take n) :: more)).length =
          n + (consumedText more).length := by
        simp [consumedText, Nat.min_eq_left hn]
      omega
    · show input.take n ++ consumedText more ++ r = input
      rw [List.append_assoc, hr, List.take_append_drop]
  | case4 urcs input n consumed taken hpos =>
    obtain rfl : n = 0 := by omega
    cases h
    exact ⟨[], by simp, rfl, List.nil_prefix⟩

/-- `dispatchAllUrcs` reports how much of the input its slices take up. -/
theorem dispatchAllUrcs_conserves {urcs urcs' : δ} {input : Text} {m : Nat} {taken : List Slice}
    (h : dispatchAllUrcs V urcs input = some (m, urcs', taken)) :
    consumedText taken ++ input.drop m = input := by
  obtain ⟨n, urcs1, -, hloop⟩ := dispatchAllUrcs_iff.1 h
  obtain ⟨more, hmore, hsum, r, hr⟩ := dispatchLoop_conserves hloop
  rw [List.nil_append] at hmore
  subst hmore
  obtain rfl : m = (consumedText taken).length := by omega
  rw [← hr, List.drop_left]

end Loops

/-! ## The buffer -/

/-- Bytes that fit the span are read. -/
theorem RxBuffer.exists_read {rx : RxBuffer} {bytes : Text}
    (hfit : rx.leftover + bytes.length ≤ storageSize) : ∃ r, rx.read bytes = some r := by
  unfold RxBuffer.read
  simp only
  rw [dif_pos hfit]
  exact ⟨_, rfl⟩

theorem RxBuffer.unread_length (rx : RxBuffer) (hle : rx.leftover ≤ storageSize) :
    rx.unread.length = rx.leftover := by
  rw [RxBuffer.unread, List.length_take, rx.rxstorage.size, Nat.min_eq_left hle]

/-- Reading appends the bytes to what is unread. -/
theorem RxBuffer.read_eq {rx : RxBuffer} {bytes input : Text} {rxstorage : Storage}
    (hle : rx.leftover ≤ storageSize) (h : rx.read bytes = some (rxstorage, input)) :
    input = rx.unread ++ bytes ∧ rxstorage.chars.take input.length = input := by
  unfold RxBuffer.read at h
  simp only at h
  split at h
  · rename_i hfit
    have hunread := rx.unread_length hle
    have hinput : (rx.unread ++ bytes ++ rx.rxstorage.chars.drop (rx.leftover + bytes.length)).take
        (rx.leftover + bytes.length) = rx.unread ++ bytes := by
      rw [← hunread, ← List.length_append, List.take_left]
    cases h
    rw [hinput]
    exact ⟨rfl, List.take_left⟩
  · cases h

/-- The copying loop leaves the end of the text at the start of the buffer. -/
theorem RxBuffer.unread_keep {rxstorage : Storage} {front input : Text}
    (h : rxstorage.chars.take (front ++ input).length = front ++ input) :
    (RxBuffer.keep rxstorage (front ++ input).length input).unread = input := by
  have hlen : (front ++ input).length ≤ rxstorage.chars.length := by
    have := congrArg List.length h
    rw [List.length_take] at this
    omega
  have hoff : (front ++ input).length - input.length = front.length := by
    rw [List.length_append]
    omega
  have hchars : rxstorage.chars = front ++ (input ++ rxstorage.chars.drop (front ++ input).length) := by
    have hsplit := (List.take_append_drop (front ++ input).length rxstorage.chars).symm
    rwa [h, List.append_assoc] at hsplit
  unfold RxBuffer.keep RxBuffer.unread
  simp only
  rw [hoff, take_copyDown (by rw [← List.length_append]; exact hlen), hchars, List.drop_left,
    List.take_left]

/-! ## Runs of calls -/

/-- A call and the bytes the device returns to it. -/
inductive RxCall (π ρ : Type) where
  | receive (frc : π) (res : Option ρ) (bytes : Text)
  | dispatchUrcs (bytes : Text)

def RxCall.bytes {π ρ : Type} : RxCall π ρ → Text
  | .receive _ _ bytes => bytes
  | .dispatchUrcs bytes => bytes

/-- The buffer and the dispatcher after some calls, with what was read and consumed in them. -/
structure History (δ : Type) where
  rx : RxBuffer
  urcs : δ
  read : Text
  taken : List Slice

section Calls

variable {π ρ δ : Type} {V : Virtuals π ρ δ}

/-- Before the first call. -/
def History.init (urcs : δ) : History δ := ⟨RxBuffer.init, urcs, [], []⟩

variable (V) in
/-- A call that returns. -/
def rxCall (h : History δ) : RxCall π ρ → Option (History δ)
  | .receive frc res bytes =>
    match receive V h.rx bytes frc res h.urcs with
    | some (.ok r) => some ⟨r.rx, r.loop.urcs, h.read ++ bytes, h.taken ++ r.loop.taken⟩
    | _ => none
  | .dispatchUrcs bytes =>
    (dispatchUrcs V h.rx bytes h.urcs).map fun r =>
      ⟨r.1, r.2.1, h.read ++ bytes, h.taken ++ r.2.2⟩

/-- Nothing is lost, duplicated, reordered or overwritten. -/
structure History.Conserved (h : History δ) : Prop where
  leftover_le : h.rx.leftover ≤ storageSize
  bytes : consumedText h.taken ++ h.rx.unread = h.read

theorem History.init_conserved (urcs : δ) : (History.init urcs).Conserved :=
  ⟨Nat.zero_le _, rfl⟩

/-- What both calls do to the buffer: the text over old and new bytes is consumed from the front
and the rest is kept. -/
theorem RxBuffer.keep_conserves {rx : RxBuffer} {bytes input front rest : Text} {rxstorage : Storage}
    (hle : rx.leftover ≤ storageSize) (hread : rx.read bytes = some (rxstorage, input))
    (hsplit : front ++ rest = input) :
    (RxBuffer.keep rxstorage input.length rest).leftover ≤ storageSize ∧
      front ++ (RxBuffer.keep rxstorage input.length rest).unread = rx.unread ++ bytes := by
  obtain ⟨hinput, htake⟩ := RxBuffer.read_eq hle hread
  subst hsplit
  refine ⟨?_, by rw [RxBuffer.unread_keep htake, hinput]⟩
  have hlen := congrArg List.length htake
  rw [List.length_take, rxstorage.size, List.length_append] at hlen
  show rest.length ≤ storageSize
  omega

/-- The slices a call of `dispatchUrcs` takes and what it leaves are what was there. -/
theorem dispatchUrcs_conserves {rx rx' : RxBuffer} {bytes : Text} {urcs urcs' : δ}
    {taken : List Slice} (hle : rx.leftover ≤ storageSize)
    (h : dispatchUrcs V rx bytes urcs = some (rx', urcs', taken)) :
    rx'.leftover ≤ storageSize ∧ consumedText taken ++ rx'.unread = rx.unread ++ bytes := by
  obtain ⟨rxstorage, input, m, hread, hall, -, rfl⟩ := dispatchUrcs_iff.1 h
  exact RxBuffer.keep_conserves hle hread (dispatchAllUrcs_conserves hall)

/-- **One call** conserves the bytes. -/
theorem rxCall_conserves {h h' : History δ} {call : RxCall π ρ} (hc : h.Conserved)
    (hstep : rxCall V h call = some h') : h'.Conserved := by
  cases call with
  | receive frc res bytes =>
    simp only [rxCall] at hstep
    split at hstep
    · rename_i r hr
      cases hstep
      obtain ⟨rxstorage, input, t, hread, hloop, rfl⟩ := receive_ok_iff.1 hr
      obtain ⟨hle, hbytes⟩ := RxBuffer.keep_conserves hc.leftover_le hread (receiveLoop_conserves hloop)
      refine ⟨hle, ?_⟩
      show consumedText (h.taken ++ t.taken) ++ _ = h.read ++ bytes
      rw [consumedText_append, List.append_assoc, hbytes, ← List.append_assoc, hc.bytes]
    · cases hstep
  | dispatchUrcs bytes =>
    obtain ⟨⟨rx, urcs, taken⟩, hd, rfl⟩ := Option.map_eq_some_iff.1 hstep
    obtain ⟨hle, hbytes⟩ := dispatchUrcs_conserves hc.leftover_le hd
    refine ⟨hle, ?_⟩
    show consumedText (h.taken ++ taken) ++ _ = h.read ++ bytes
    rw [consumedText_append, List.append_assoc, hbytes, ← List.append_assoc, hc.bytes]

/-- The dispatching loop ends where the dispatcher is bounded. -/
theorem Virtuals.Bounded.dispatchLoop_returns (hV : V.Bounded) {urcs : δ} {input : Text}
    {n consumed : Nat} {taken : List Slice} (hn : n ≤ input.length) :
    ∃ r, dispatchLoop V urcs input n consumed taken = some r := by
  fun_induction dispatchLoop V urcs input n consumed taken with
  | case1 urcs input n consumed taken hpos hsub =>
    rw [substr_of_le hn] at hsub
    cases hsub
  | case2 urcs input n consumed taken hpos rest hsub hd =>
    obtain ⟨m, urcs', hd', -⟩ := hV.dispatch urcs rest
    rw [hd] at hd'
    cases hd'
  | case3 urcs input n consumed taken hpos rest hsub n' urcs1 hd ih =>
    obtain ⟨m, urcs', hd', hm⟩ := hV.dispatch urcs rest
    rw [hd] at hd'
    cases hd'
    exact ih hm
  | case4 urcs input n consumed taken hpos => exact ⟨_, rfl⟩

/-- The loop of `receive` ends where the parsers are bounded. -/
theorem Virtuals.Bounded.receiveLoop_returns (hV : V.Bounded) (s : RxLoop π ρ δ) :
    ∃ t, receiveLoop V s = .ok t := by
  obtain ⟨more, s', hturn⟩ := hV.turn s
  obtain ⟨res', -, hloop⟩ := receiveLoop_of_turn hturn
  obtain ⟨t, hruns⟩ := hV.runs { s with res := res' }
  exact ⟨t, hloop.trans (rxLoop_iff.2 hruns)⟩

/-- **A call returns** where the parsers are bounded and the device respects the span. -/
theorem rxCall_returns (hV : V.Bounded) {h : History δ} (hc : h.Conserved) (call : RxCall π ρ)
    (hfit : call.bytes.length ≤ storageSize - h.rx.leftover) : ∃ h', rxCall V h call = some h' := by
  have hle := hc.leftover_le
  obtain ⟨⟨rxstorage, input⟩, hread⟩ :=
    h.rx.exists_read (show h.rx.leftover + call.bytes.length ≤ storageSize by omega)
  cases call with
  | receive frc res bytes =>
    obtain ⟨t, ht⟩ := hV.receiveLoop_returns (RxLoop.start input frc res h.urcs)
    have hr : receive V h.rx bytes frc res h.urcs = some (.ok _) :=
      receive_ok_iff.2 ⟨rxstorage, input, t, hread, ht, rfl⟩
    simp only [rxCall, hr]
    exact ⟨_, rfl⟩
  | dispatchUrcs bytes =>
    obtain ⟨n, urcs', hd, hn⟩ := hV.dispatch h.urcs input
    have hloop : ∃ r, dispatchLoop V urcs' input n n [] = some r := hV.dispatchLoop_returns hn
    obtain ⟨⟨m, urcs1, taken⟩, hloop⟩ := hloop
    have hall : dispatchAllUrcs V h.urcs input = some (m, urcs1, taken) :=
      dispatchAllUrcs_iff.2 ⟨n, urcs', hd, hloop⟩
    have hm : m ≤ input.length := by
      obtain ⟨more, -, hsum, hmore⟩ := dispatchLoop_conserves hloop
      have := hmore.length_le
      omega
    have hcall : dispatchUrcs V h.rx bytes h.urcs = some (_, urcs1, taken) :=
      dispatchUrcs_iff.2 ⟨rxstorage, input, m, hread, hall, hm, rfl⟩
    simp only [rxCall, hcall]
    exact ⟨_, rfl⟩

/-- **Conservation of received bytes**: after any number of calls in any order the leftover fits
the buffer, the slices consumed so far followed by `rxbuf[0..leftover)` are the bytes read so
far, and with bounded parsers any further call returns. -/
theorem bytes_conserved {calls : List (RxCall π ρ)} {urcs : δ} {h : History δ}
    (hrun : run (rxCall V) calls (History.init urcs) = some h) :
    h.rx.leftover ≤ storageSize ∧
      consumedText h.taken ++ h.rx.rxstorage.chars.take h.rx.leftover = h.read ∧
      (V.Bounded → ∀ call : RxCall π ρ, call.bytes.length ≤ storageSize - h.rx.leftover →
        ∃ h', rxCall V h call = some h') := by
  have hc := run_inv (fun s l s' hs hl => rxCall_conserves hs hl) calls (History.init urcs) h
    (History.init_conserved urcs) hrun
  exact ⟨hc.leftover_le, hc.bytes, fun hV call hfit => rxCall_returns hV hc call hfit⟩

end Calls

/-- A reply in two reads, then a stray line: `OK` is taken and the line is kept. -/
theorem bytes_conserved_example :
    ∃ h, run (rxCall (Virtuals.ofTypes (FinalResultCode cmsCode cmeCode []) Ok takesNothing))
        [.receive none none (text "\r\nO"), .receive none none (text "K\r\n"),
          .dispatchUrcs (text "RING")] (History.init ()) = some h ∧
      h.rx.leftover ≤ storageSize ∧
      consumedText h.taken ++ h.rx.rxstorage.chars.take h.rx.leftover = h.read ∧
      ((Virtuals.ofTypes (FinalResultCode cmsCode cmeCode []) Ok takesNothing).Bounded →
        ∀ call : RxCall _ _, call.bytes.length ≤ storageSize - h.rx.leftover →
          ∃ h', rxCall (Virtuals.ofTypes (FinalResultCode cmsCode cmeCode []) Ok takesNothing) h call =
            some h') := by
  obtain ⟨h, hrun⟩ := Option.isSome_iff_exists.1 (show (run
    (rxCall (Virtuals.ofTypes (FinalResultCode cmsCode cmeCode []) Ok takesNothing))
    [.receive none none (text "\r\nO"), .receive none none (text "K\r\n"),
      .dispatchUrcs (text "RING")] (History.init ())).isSome = true by decide +kernel)
  exact ⟨h, hrun, bytes_conserved hrun⟩

end ATLink
