import ATLink.Completion
import ATLink.Conservation
import ATLink.TextParsers

/-!
# Replies that arrive in fragments

* `receiveFragments` — consecutive calls of `receive` for one command, up to the first that
  returns true.

Principal results: `receive_of_reads` and `reads_of_receive` — a call of `receive` is a reading
of what is unread and the bytes it gets; `fragments_equivalent` — where no fragment makes a call
forget what it has taken, the reply may be cut anywhere.
-/

namespace ATLink

open FragmentReader

section Calls

variable {π ρ δ β : Type} {V : Virtuals π ρ δ} {T : TextParsers π β} {C : ρ → Prop} {val : ρ → β}
  {stream : Text} {rx : RxBuffer} {frc : π} {res : Option ρ} {urcs : δ} {q : Progress π β}

theorem Represents.start (hC : ∀ obj, res = some obj → C obj) (input : Text) :
    Represents C val res.isSome (RxLoop.start input frc res urcs) (Progress.start res.isSome) where
  object := rfl
  asked h := h
  haveResponse := by cases res <;> rfl
  haveResult := rfl
  response h := by
    have hres : res = none := by simpa [Progress.start] using h
    rw [hres]
    rfl
  result h := by cases h
  inClass := hC

/-- Both flags are set exactly when the progress is complete. -/
theorem Represents.complete_iff {expected : Bool} {s : RxLoop π ρ δ}
    (hs : Represents C val expected s q) : (s.haveResult && s.haveResponse) = true ↔ q.Complete := by
  rw [hs.haveResult, hs.haveResponse, Progress.Complete]
  cases q.missing <;> simp

/-- A reading of what is unread and the bytes read is a call of `receive`. -/
theorem receive_of_reads {c y : Text} (hT : Realises V T C val stream)
    (hC : ∀ obj, res = some obj → C obj) (hfit : rx.leftover + c.length ≤ storageSize)
    (hin : rx.unread ++ c <:+: stream)
    (h : T.reader.Reads (.start res.isSome) (rx.unread ++ c) q y) :
    ∃ r, receive V rx c frc res urcs = some (.ok r) ∧ Represents C val res.isSome r.loop q ∧
      (r.success = true ↔ q.Complete) ∧ r.rx.unread = y ∧ r.rx.leftover = y.length := by
  obtain ⟨⟨rxstorage, input⟩, hread⟩ := rx.exists_read hfit
  obtain ⟨hinput, htake⟩ := RxBuffer.read_eq (by omega) hread
  rw [← hinput] at h hin
  obtain ⟨t, hloop, ht, rfl⟩ := receiveLoop_of_reads hT h (Represents.start hC input) hin
  refine ⟨_, receive_ok_iff.2 ⟨rxstorage, input, t, hread, hloop, rfl⟩, ht, ht.complete_iff, ?_, rfl⟩
  have hsplit : consumedText t.taken ++ t.input = input := receiveLoop_conserves hloop
  rw [← hsplit] at htake ⊢
  exact RxBuffer.unread_keep htake

/-- A call of `receive` is a reading. -/
theorem reads_of_receive {c : Text} {r : Received π ρ δ} (hT : Realises V T C val stream)
    (hC : ∀ obj, res = some obj → C obj) (hle : rx.leftover ≤ storageSize)
    (hin : rx.unread ++ c <:+: stream) (h : receive V rx c frc res urcs = some (.ok r)) :
    ∃ q y, T.reader.Reads (.start res.isSome) (rx.unread ++ c) q y ∧
      Represents C val res.isSome r.loop q ∧ (r.success = true ↔ q.Complete) := by
  obtain ⟨rxstorage, input, t, hread, hloop, rfl⟩ := receive_ok_iff.1 h
  obtain ⟨hinput, -⟩ := RxBuffer.read_eq hle hread
  rw [← hinput] at hin ⊢
  obtain ⟨q, hreads, ht⟩ := receiveLoop_reads hT hloop (Represents.start hC input) hin
  exact ⟨q, t.input, hreads, ht, ht.complete_iff⟩

variable (V) in
/-- `receive` for one command, once for each fragment, until a call returns true; the pack and the
response object are then those of the result.  `none` is an exception, or more bytes than the
span takes, and `some none` that no call returned true. -/
def receiveFragments : List Text → RxBuffer → π → Option ρ → δ → Option (Option (π × Option ρ))
  | [], _, _, _, _ => some none
  | c :: cs, rx, frc, res, urcs =>
    match receive V rx c frc res urcs with
    | some (.ok r) =>
      if r.success then some (some (r.loop.frc, r.loop.res))
      else receiveFragments cs r.rx r.loop.frc r.loop.res r.loop.urcs
    | _ => none

/-- Where the reading of the fragments finishes, a call returns true with the values found. -/
theorem receiveFragments_of_finishes {p₀ : Progress π β} {u : Text} {cs : List Text}
    (hT : Realises V T C val stream) (h : T.reader.Finishes p₀ u cs q)
    (hp₀ : p₀ = .start res.isSome) (hC : ∀ obj, res = some obj → C obj) (hu : rx.unread = u)
    (hfit : rx.leftover + cs.flatten.length ≤ storageSize) (hin : u ++ cs.flatten <:+: stream) :
    ∃ t : RxLoop π ρ δ, receiveFragments V cs rx frc res urcs = some (some (t.frc, t.res)) ∧
      q.Complete ∧ Represents C val res.isSome t q := by
  induction h generalizing rx frc res urcs with
  | @now u c y cs q hread hq =>
    subst hp₀ hu
    rw [List.flatten_cons, ← List.append_assoc] at hin
    rw [List.flatten_cons, List.length_append] at hfit
    obtain ⟨r, hr, ht, hsuccess, -⟩ := receive_of_reads hT hC (by omega)
      ((List.prefix_append _ _).isInfix.trans hin) hread
    refine ⟨r.loop, ?_, hq, ht⟩
    rw [receiveFragments, hr]
    exact if_pos (hsuccess.2 hq)
  | @later u c y cs p q hread hp _ ih =>
    subst hp₀ hu
    rw [List.flatten_cons, ← List.append_assoc] at hin
    rw [List.flatten_cons, List.length_append] at hfit
    obtain ⟨r, hr, ht, hsuccess, hunread, hleftover⟩ := receive_of_reads hT hC (by omega)
      ((List.prefix_append _ _).isInfix.trans hin) hread
    have hlen := hread.suffix.length_le
    rw [List.length_append, rx.unread_length (by omega)] at hlen
    -- the next call finds the end of the text in the buffer
    have hin' : y ++ cs.flatten <:+: stream :=
      ((List.suffix_append_self_iff.2 hread.suffix).isInfix).trans hin
    obtain ⟨t, hcalls, hq, ht'⟩ := @ih r.rx r.loop.frc r.loop.res r.loop.urcs (by rw [ht.object])
      ht.inClass hunread (by omega) hin'
    refine ⟨t, ?_, hq, by rw [← ht.object]; exact ht'⟩
    rw [receiveFragments, hr]
    exact (if_neg fun hs => hp (hsuccess.1 hs)).trans hcalls

/-- **Fragments**: a reply on which one call of `receive` returns true, from an empty buffer, may
arrive in any fragments that the parsers read harmlessly; one of the calls returns true with the
same values. -/
theorem fragments_equivalent {cs : List Text} {r : Received π ρ δ} (hempty : rx.leftover = 0)
    (hT : Realises V T C val cs.flatten) (hC : ∀ obj, res = some obj → C obj)
    (hsingle : receive V rx cs.flatten frc res urcs = some (.ok r)) (hsuccess : r.success = true)
    (hmeets : T.reader.Meets (.start res.isSome) [] cs) :
    ∃ res', receiveFragments V cs rx frc res urcs = some (some (r.loop.frc, res')) ∧
      res'.map val = r.loop.res.map val := by
  have hunread : rx.unread = [] := by rw [RxBuffer.unread, hempty, List.take_zero]
  have hle : rx.leftover ≤ storageSize := by omega
  have hfit : rx.leftover + cs.flatten.length ≤ storageSize := by
    obtain ⟨rxstorage, input, t, hread, -, -⟩ := receive_ok_iff.1 hsingle
    obtain ⟨hinput, htake⟩ := RxBuffer.read_eq hle hread
    have hlen := congrArg List.length htake
    rw [List.length_take, rxstorage.size, hinput, hunread, List.nil_append] at hlen
    omega
  obtain ⟨q, y, hreads, hr, hcomplete⟩ := reads_of_receive hT hC hle
    (by rw [hunread]; exact List.infix_refl _) hsingle
  rw [hunread] at hreads
  have hstart : ¬ (Progress.start res.isSome : Progress π β).Complete := fun h => by cases h.2
  obtain ⟨t, hcalls, hq, ht⟩ := receiveFragments_of_finishes hT
    (hmeets.finishes hstart hreads (hcomplete.1 hsuccess)) rfl hC hunread hfit (List.infix_refl _)
  -- both runs show the values that the reader has found
  have hresult : ∀ {s : RxLoop π ρ δ}, Represents C val res.isSome s q → some s.frc = q.result :=
    fun hs => hs.result (by rw [hs.haveResult, hq.2])
  have hfrc : t.frc = r.loop.frc := Option.some.inj ((hresult ht).trans (hresult hr).symm)
  exact ⟨t.res, by rw [← hfrc]; exact hcalls, (ht.response hq.1).trans (hr.response hq.1).symm⟩

end Calls

/-- `+R:1` and `OK`, cut twice inside the response: the third call takes both. -/
theorem fragments_equivalent_in_response :
    ∃ r res', receive intInterfaces.toVirtuals RxBuffer.init (text "\r\n+R:1\r\nOK\r\n") none
        (some intResponse.init) () = some (.ok r) ∧ r.success = true ∧
      receiveFragments intInterfaces.toVirtuals [text "\r\n+", text "R:1", text "\r\nOK\r\n"]
          RxBuffer.init none (some intResponse.init) () = some (some (r.loop.frc, res')) ∧
        res'.map id = r.loop.res.map id := by
  have hsuccess : (receive intInterfaces.toVirtuals RxBuffer.init (text "\r\n+R:1\r\nOK\r\n") none
      (some intResponse.init) ()).map (fun r => r.toOption.map (·.success)) = some (some true) := by
    decide +kernel
  obtain ⟨e, hreceive, hr⟩ := Option.map_eq_some_iff.1 hsuccess
  cases e with
  | error s => cases hr
  | ok r =>
    have hT : Realises intInterfaces.toVirtuals
        (.ofTypes (FinalResultCode cmsCode cmeCode []) intResponse fun _ => some 0) _ id
        [text "\r\n+", text "R:1", text "\r\nOK\r\n"].flatten :=
      realises_ofTypes (fun _ _ => rfl) _ _ (by simp [ResponseField.shape]) _
    obtain ⟨res', hfragments⟩ := fragments_equivalent rfl hT (fun obj hobj => by cases hobj; rfl)
      hreceive (Option.some.inj hr)
      (.undecided ⟨.done rfl, .refl⟩ (.undecided ⟨.done rfl, .refl⟩ .last))
    exact ⟨r, res', hreceive, Option.some.inj hr, hfragments⟩

/-- The same reply cut behind the response: the first call takes it and forgets that it has. -/
theorem response_is_forgotten :
    (receive intInterfaces.toVirtuals RxBuffer.init (text "+R:1\r\n" ++ text "OK\r\n") none
        (some intResponse.init) ()).map (fun r => r.toOption.map (·.success)) = some (some true) ∧
      receiveFragments intInterfaces.toVirtuals [text "+R:1\r\n", text "OK\r\n"] RxBuffer.init none
        (some intResponse.init) () = some none := by
  refine ⟨by decide +kernel, ?_⟩
  have hnone : (receiveFragments intInterfaces.toVirtuals [text "+R:1\r\n", text "OK\r\n"]
      RxBuffer.init none (some intResponse.init) ()).map (·.isNone) = some true := by decide +kernel
  obtain ⟨r, hfragments, hr⟩ := Option.map_eq_some_iff.1 hnone
  rw [hfragments, Option.isNone_iff_eq_none.1 hr]

end ATLink
